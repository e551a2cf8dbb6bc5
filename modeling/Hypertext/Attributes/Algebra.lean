import Hypertext.Attributes
import Hypertext.Fault

/-! Collections of attributes as sets of pairs. A result is built by adding pairs one after the
other, so of two pairs with one key the later wins. The right operand may also be a plain list
of pairs, which is not ordered against a collection and equals none. -/
namespace Hypertext.Attributes
set_option autoImplicit false

inductive Operand where
  | collection (c : Attributes)
  | pairs (l : List Attribute)
  deriving Repr

namespace Operand

def toList : Operand → List Attribute
  | .collection c => c.toList
  | .pairs l => l

/-- A list of pairs collected: later pairs replace earlier ones of the same key. -/
def collected : Operand → Attributes
  | .collection c => c
  | .pairs l => ofList l

end Operand

/-! ## New collections -/

def union (c : Attributes) (r : Operand) : Attributes := ofList (c.toList ++ r.toList)

def inter (c : Attributes) (r : Operand) : Attributes := ofList (r.toList.filter c.has)

def diff (c : Attributes) (r : Operand) : Attributes :=
  ofList (c.toList.filter fun a => !r.collected.has a)

def symmDiff (c : Attributes) (r : Operand) : Attributes :=
  (c.diff r).union (.collection (r.collected.diff (.collection c)))

/-! ## Changes in place -/

/-- Takes a pair out if it is in, else adds it. -/
def toggle (c : Attributes) (a : Attribute) : Attributes :=
  if c.has a then c.discard a else c.add a

def unite (c : Attributes) (r : Operand) : Attributes := r.toList.foldl add c

def restrict (c : Attributes) (r : Operand) : Attributes := (c.diff r).toList.foldl discard c

def subtract (c : Attributes) (r : Operand) : Attributes := r.toList.foldl discard c

def toggleAll (c : Attributes) (r : Operand) : Attributes := r.collected.toList.foldl toggle c

/-! ## Comparisons -/

def subset (c d : Attributes) : Bool := c.size ≤ d.size && c.toList.all d.has

def sameAs (c d : Attributes) : Bool := c.size == d.size && c.subset d

def disjoint (c : Attributes) (r : Operand) : Bool := !r.toList.any c.has

inductive Comparison where
  | eq
  | ne
  | le
  | lt
  | ge
  | gt
  deriving DecidableEq, Repr

def Comparison.operator : Comparison → String
  | .eq => "=="
  | .ne => "!="
  | .le => "<="
  | .lt => "<"
  | .ge => ">="
  | .gt => ">"

/-- A strict comparison needs a difference in size. -/
def Comparison.holds (c d : Attributes) : Comparison → Bool
  | .eq => c.sameAs d
  | .ne => !c.sameAs d
  | .le => c.subset d
  | .lt => c.size < d.size && c.subset d
  | .ge => d.subset c
  | .gt => d.size < c.size && d.subset c

/-- A plain list differs from every collection, and is in no order with it. -/
def compare (c : Attributes) (how : Comparison) : Operand → Except Fault Bool
  | .collection d => .ok (how.holds c d)
  | .pairs _ => match how with
    | .eq => .ok false
    | .ne => .ok true
    | _ => .error (.notComparable how.operator)

inductive Operation where
  | union
  | inter
  | diff
  | symmDiff
  | unite
  | restrict
  | subtract
  | toggleAll
  deriving DecidableEq, Repr

def Operation.inPlace : Operation → Bool
  | .union | .inter | .diff | .symmDiff => false
  | .unite | .restrict | .subtract | .toggleAll => true

def Operation.apply (c : Attributes) (r : Operand) : Operation → Attributes
  | .union => c.union r
  | .inter => c.inter r
  | .diff => c.diff r
  | .symmDiff => c.symmDiff r
  | .unite => c.unite r
  | .restrict => c.restrict r
  | .subtract => c.subtract r
  | .toggleAll => c.toggleAll r

end Hypertext.Attributes
