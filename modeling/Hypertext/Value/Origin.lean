import Hypertext.Value

/-! The making of values. A program that asks for a list twice gets two lists, though they are
equal: each has an origin of its own. Of the commonest scalars there is only one each, and a
reference has its identity already; these are made without an origin. The main statement is
`erased_make`: apart from origins, making a value is nothing but a substitution. -/
namespace Hypertext
set_option autoImplicit false

namespace Scalar

/-- The scalars of which there is only one: null, truth values and choices, small numbers, and the
texts of at most one character among the first 256. -/
def isShared : Scalar → Bool
  | .null | .bool _ | .choice _ => true
  | .int i => -5 ≤ i && i ≤ 256
  | .float _ => false
  | .text s => s.length ≤ 1 && s.toList.all fun c => c.toNat < 256

end Scalar

namespace Value

variable {ρ σ τ : Type}

/-- Whether a value is told apart from equal ones only by an origin, and has none yet. -/
def needsOrigin : Value ρ → Bool
  | .scalar s => !s.isShared
  | .list _ | .record _ | .renderer .. => true
  | .ref _ | .made .. => false

def erased (v : Value ρ) : Value ρ := v.subst .ref

/-- A scalar under an origin, if there can be several of it. -/
def makeScalar (o : Origin) (s : Scalar) : Value ρ :=
  if s.isShared then .scalar s else .made o (.scalar s)

mutual

/-- The value made under an origin. References are replaced by values that are there already; all
other parts are made anew, each under an origin of its own. -/
def make (f : ρ → Value σ) (o : Origin) : Value ρ → Value σ
  | .scalar s => makeScalar o s
  | .list items => .made o (.list (makeList f o 0 items))
  | .record fields => .made o (.record (makeFields f o 0 fields))
  | .ref r => f r
  | .renderer roots pretty indent =>
    .made o (.renderer (makeList f o 2 roots) (make f (o.part 0) pretty) (make f (o.part 1) indent))
  | .made _ v => make f o v

def makeList (f : ρ → Value σ) (o : Origin) (place : Nat) : List (Value ρ) → List (Value σ)
  | [] => []
  | v :: rest => make f (o.part place) v :: makeList f o (place + 1) rest

def makeFields (f : ρ → Value σ) (o : Origin) (place : Nat) :
    List (String × Value ρ) → List (String × Value σ)
  | [] => []
  | (name, v) :: rest => (name, make f (o.part place) v) :: makeFields f o (place + 1) rest

end

/-! ## Without origins -/

theorem subst_makeScalar (f : ρ → Value σ) (o : Origin) (s : Scalar) :
    (makeScalar o s).subst f = .scalar s := by
  unfold makeScalar
  split <;> simp [subst]

mutual

theorem subst_make (f : ρ → Value σ) (g : σ → Value τ) (o : Origin) (v : Value ρ) :
    (v.make f o).subst g = v.subst fun r => (f r).subst g := by
  match v with
  | .scalar s => rw [make, subst_makeScalar, subst]
  | .list items => simp [make, subst, substList_makeList f g o 0 items]
  | .record fields => simp [make, subst, substFields_makeFields f g o 0 fields]
  | .ref r => simp [make, subst]
  | .renderer roots pretty indent =>
    simp [make, subst, substList_makeList f g o 2 roots, subst_make f g (o.part 0) pretty,
      subst_make f g (o.part 1) indent]
  | .made _ v => simp [make, subst, subst_make f g o v]

theorem substList_makeList (f : ρ → Value σ) (g : σ → Value τ) (o : Origin) (place : Nat)
    (items : List (Value ρ)) :
    substList g (makeList f o place items) = substList (fun r => (f r).subst g) items := by
  match items with
  | [] => rfl
  | v :: rest =>
    simp [makeList, substList, subst_make f g (o.part place) v,
      substList_makeList f g o (place + 1) rest]

theorem substFields_makeFields (f : ρ → Value σ) (g : σ → Value τ) (o : Origin) (place : Nat)
    (fields : List (String × Value ρ)) :
    substFields g (makeFields f o place fields) = substFields (fun r => (f r).subst g) fields := by
  match fields with
  | [] => rfl
  | (name, v) :: rest =>
    simp [makeFields, substFields, subst_make f g (o.part place) v,
      substFields_makeFields f g o (place + 1) rest]

end

theorem erased_make (f : ρ → Value σ) (o : Origin) (v : Value ρ) :
    (v.make f o).erased = v.subst fun r => (f r).erased := subst_make f .ref o v

end Value

end Hypertext
