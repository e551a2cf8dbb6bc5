import Hypertext.Choice
import Hypertext.Number.Binary64

/-! Dynamic values: what a text slot may hold, what a payload is made of and what a session
answers. `ρ` is the type of references, so one type serves programs that name registers, stores
that hold identities and plain data without references. A value in a store can have an origin,
which tells it apart from equal values that were made at another time or place. -/
namespace Hypertext
set_option autoImplicit false

open Number (Binary64)

inductive Scalar where
  | null
  | bool (b : Bool)
  | int (i : Int)
  | float (x : Binary64)
  | text (s : String)
  | choice (c : Choice)
  deriving DecidableEq, Repr, Inhabited

/-- The number of a value that was made, which no other such value has. A part of it has the same
number, behind the places that lead to the part. -/
structure Origin where
  places : List Nat
  deriving DecidableEq, Repr, Inhabited

def Origin.part (o : Origin) (place : Nat) : Origin := ⟨place :: o.places⟩

inductive Value (ρ : Type) where
  | scalar (s : Scalar)
  | list (items : List (Value ρ))
  /-- Fields in order, with distinct names. -/
  | record (fields : List (String × Value ρ))
  | ref (r : ρ)
  | renderer (roots : List (Value ρ)) (pretty indent : Value ρ)
  /-- A value with its origin, which only its identity depends on. -/
  | made (origin : Origin) (v : Value ρ)
  deriving Repr, Inhabited

namespace Value

variable {ρ σ : Type}

@[match_pattern] abbrev null : Value ρ := .scalar .null
@[match_pattern] abbrev bool (b : Bool) : Value ρ := .scalar (.bool b)
@[match_pattern] abbrev int (i : Int) : Value ρ := .scalar (.int i)
@[match_pattern] abbrev float (x : Binary64) : Value ρ := .scalar (.float x)
@[match_pattern] abbrev text (s : String) : Value ρ := .scalar (.text s)
@[match_pattern] abbrev choice (c : Choice) : Value ρ := .scalar (.choice c)

/-! ## References -/

mutual

/-- Each reference is replaced by a value. Origins are lost, since the result is another value. -/
def subst (f : ρ → Value σ) : Value ρ → Value σ
  | .scalar s => .scalar s
  | .list items => .list (substList f items)
  | .record fields => .record (substFields f fields)
  | .ref r => f r
  | .renderer roots pretty indent =>
    .renderer (substList f roots) (subst f pretty) (subst f indent)
  | .made _ v => subst f v

def substList (f : ρ → Value σ) : List (Value ρ) → List (Value σ)
  | [] => []
  | v :: rest => subst f v :: substList f rest

def substFields (f : ρ → Value σ) : List (String × Value ρ) → List (String × Value σ)
  | [] => []
  | (name, v) :: rest => (name, subst f v) :: substFields f rest

end

mutual

def refs : Value ρ → List ρ
  | .scalar _ => []
  | .list items => refsList items
  | .record fields => refsFields fields
  | .ref r => [r]
  | .renderer roots pretty indent => refsList roots ++ refs pretty ++ refs indent
  | .made _ v => refs v

def refsList : List (Value ρ) → List ρ
  | [] => []
  | v :: rest => refs v ++ refsList rest

def refsFields : List (String × Value ρ) → List ρ
  | [] => []
  | (_, v) :: rest => refs v ++ refsFields rest

end

/-! ## Parts -/

def items? : Value ρ → Option (List (Value ρ))
  | .list items => some items
  | .made _ v => items? v
  | _ => none

theorem sizeOf_items?_lt [SizeOf ρ] {v : Value ρ} {items : List (Value ρ)}
    (h : v.items? = some items) : sizeOf items < sizeOf v := by
  fun_induction items? v with
  | case1 =>
    obtain rfl := Option.some.inj h
    simp only [list.sizeOf_spec]
    omega
  | case2 o v ih =>
    have := ih h
    simp only [made.sizeOf_spec]
    omega
  | case3 => cases h

def isRecord : Value ρ → Bool
  | .record _ => true
  | .made _ v => isRecord v
  | _ => false

theorem sizeOf_lookup_lt [SizeOf ρ] {name : String} {fields : List (String × Value ρ)} {v : Value ρ}
    (h : fields.lookup name = some v) : sizeOf v < sizeOf fields := by
  induction fields with
  | nil => simp at h
  | cons head rest ih =>
    obtain ⟨key, w⟩ := head
    rw [List.lookup_cons] at h
    split at h
    · obtain rfl := Option.some.inj h
      simp only [List.cons.sizeOf_spec, Prod.mk.sizeOf_spec]
      omega
    · have := ih h
      simp only [List.cons.sizeOf_spec]
      omega

end Value

namespace Scalar

def truth : Scalar → Bool
  | .null => false
  | .bool b => b
  | .int i => i != 0
  | .float x => !x.isZero
  | .text s => s != ""
  | .choice _ => true

/-- The written value of a choice; every other scalar stays as it is. -/
def unwrapped : Scalar → Scalar
  | .choice c => .text c.value
  | s => s

def typeName : Scalar → String
  | .null => "NoneType"
  | .bool _ => "bool"
  | .int _ => "int"
  | .float _ => "float"
  | .text _ => "str"
  | .choice c => c.family

end Scalar

namespace Value

variable {ρ : Type}

/-- Empty lists and records are false; whether a reference counts as true is for its store. -/
def truth (isTrue : ρ → Bool) : Value ρ → Bool
  | .scalar s => s.truth
  | .list items => !items.isEmpty
  | .record fields => !fields.isEmpty
  | .ref r => isTrue r
  | .renderer .. => true
  | .made _ v => truth isTrue v

def unwrapped : Value ρ → Value ρ
  | .scalar s => .scalar s.unwrapped
  | v => v

def typeName (ofRef : ρ → String) : Value ρ → String
  | .scalar s => s.typeName
  | .list _ => "list"
  | .record _ => "dict"
  | .ref r => ofRef r
  | .renderer .. => "HtmlRenderer"
  | .made _ v => typeName ofRef v

end Value

end Hypertext
