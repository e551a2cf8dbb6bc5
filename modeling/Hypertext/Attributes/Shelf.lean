import Hypertext.Attributes.Algebra
import Hypertext.Attributes.Call

/-! Named collections of attributes. Two names may stand for one collection: an operation in place
gives its left operand a further name, and later changes show under both. -/
namespace Hypertext.Attributes
set_option autoImplicit false

structure Shelf where
  cells : Array Attributes := #[]
  /-- Which cell a name stands for. -/
  names : List (String × Nat) := []

inductive Request (ρ : Type) where
  | create (name : String) (pairs : List Attribute)
  | call (name : String) (call : Except Fault (Call ρ))
  | operate (left : String) (operation : Operation) (right : String ⊕ List Attribute)
      (result : String)
  | compare (left : String) (how : Comparison) (right : String ⊕ List Attribute)
  | disjoint (left : String) (right : String ⊕ List Attribute)

namespace Shelf

def cell? (s : Shelf) (name : String) : Option Nat := s.names.lookup name

def get? (s : Shelf) (name : String) : Option Attributes :=
  (s.cell? name).bind (s.cells[·]?)

def get (s : Shelf) (name : String) : Except Fault Attributes :=
  match s.get? name with
  | some c => .ok c
  | none => .error (.registerUnbound name)

/-- A name stands for one cell; binding it again replaces the earlier one. -/
def bind (s : Shelf) (name : String) (cell : Nat) : Shelf :=
  { s with names := (name, cell) :: s.names.filter (·.1 != name) }

def store (s : Shelf) (name : String) (c : Attributes) : Shelf :=
  { s with cells := s.cells.push c }.bind name s.cells.size

/-- Changes a collection under all its names. -/
def update (s : Shelf) (name : String) (c : Attributes) : Shelf :=
  match s.cell? name with
  | some cell => { s with cells := s.cells.setIfInBounds cell c }
  | none => s.store name c

def operand (s : Shelf) : String ⊕ List Attribute → Except Fault Operand
  | .inl name => (s.get name).map .collection
  | .inr pairs => .ok (.pairs pairs)

def answer {ρ : Type} (s : Shelf) : Request ρ → Except Fault (Value ρ × Shelf)
  | .create name pairs => return (.null, s.store name (ofList pairs))
  | .call name call => do
    let c ← s.get name
    let (answer, c) := (← call).run c
    return (← answer, s.update name c)
  | .operate left operation right result => do
    let c := operation.apply (← s.get left) (← s.operand right)
    if operation.inPlace then
      let s := s.update left c
      match s.cell? left with
      | some cell => return (.null, s.bind result cell)
      | none => return (.null, s)
    else return (.null, s.store result c)
  | .compare left how right => do
    return (.bool (← compare (← s.get left) how (← s.operand right)), s)
  | .disjoint left right => do
    return (.bool ((← s.get left).disjoint (← s.operand right)), s)

/-- A request that fails leaves the shelf as it was. -/
def run {ρ : Type} (s : Shelf) (request : Request ρ) : Except Fault (Value ρ) × Shelf :=
  match s.answer request with
  | .ok (answer, s) => (.ok answer, s)
  | .error fault => (.error fault, s)

def contents (s : Shelf) : List (String × Attributes) :=
  s.names.filterMap fun (name, _) => (s.get? name).map (name, ·)

end Shelf

end Hypertext.Attributes
