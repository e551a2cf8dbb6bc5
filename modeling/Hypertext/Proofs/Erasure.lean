import Hypertext.Render.Unfolding
import Hypertext.Value.Origin

/-! What can be seen of a value without its origins. -/
namespace Hypertext
set_option autoImplicit false

namespace Value

variable {ρ : Type}

theorem substList_eq_map {σ : Type} (f : ρ → Value σ) (items : List (Value ρ)) :
    substList f items = items.map (subst f) := by
  induction items with
  | nil => rfl
  | cons v items ih => rw [substList, List.map_cons, ih]

theorem truth_of_erased {v : Value ρ} {s : Scalar} (isTrue : ρ → Bool)
    (h : v.erased = .scalar s) : v.truth isTrue = s.truth := by
  match v with
  | .made o w => exact truth_of_erased (v := w) isTrue h
  | .scalar t =>
    obtain rfl : t = s := by simpa [erased, subst] using h
    rfl
  | .list _ | .record _ | .ref _ | .renderer .. => cases h

end Value

namespace Forest

variable {f : Forest}

theorem written_erased {id : ElementId} {text : Ref → Reading String} {v : Datum} {s : Scalar}
    (h : v.erased = .scalar s) : f.written id text v = f.written id text (.scalar s) := by
  match v with
  | .scalar t =>
    obtain rfl : t = s := by simpa [Value.erased, Value.subst] using h
    rfl
  | .made o v =>
    rw [written]
    exact written_erased h
  | .list _ | .record _ | .ref _ | .renderer .. => cases h

/-- What is a scalar apart from its origin refers to nothing. -/
theorem ne_of_erased_scalar {v : Datum} {s : Scalar} (h : v.erased = .scalar s) (r : Ref) :
    v ≠ .ref r := by
  rintro rfl
  cases h

end Forest

end Hypertext
