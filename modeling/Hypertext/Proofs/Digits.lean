import Mathlib.Algebra.Group.Int.Defs
import Mathlib.Algebra.Group.Nat.Defs
import Hypertext.Value.Spelling

/-! How whole numbers begin and how long they are: only zero starts with a zero, and a power of ten
has one digit more than its exponent. -/
namespace Hypertext
set_option autoImplicit false

namespace Number

theorem digitChar_ne_zero {d : Nat} (pos : 0 < d) (lt : d < 10) : digitChar d ≠ '0' := by
  have all : ∀ e < 10, 0 < e → digitChar e ≠ '0' := by decide
  exact all d lt pos

/-- Nothing but zero starts with a zero. -/
theorem head_digits_ne_zero {n : Nat} (pos : 0 < n) {c : Char} {more : List Char}
    (h : digits n = c :: more) : c ≠ '0' := by
  induction n using Nat.strongRecOn generalizing more with
  | ind n ih =>
    rw [digits] at h
    split at h
    next lt =>
      obtain ⟨rfl, _⟩ := List.cons.inj h
      exact digitChar_ne_zero pos lt
    next ge =>
      obtain ⟨c', more', hdigits⟩ := List.exists_cons_of_ne_nil (digits_ne_nil (n / 10))
      rw [hdigits] at h
      obtain ⟨rfl, _⟩ := List.cons.inj h
      exact ih (n / 10) (by omega) (by omega) hdigits

theorem length_digits_pow (n : Nat) : (digits (10 ^ n)).length = n + 1 := by
  induction n with
  | zero =>
    rw [Nat.pow_zero, digits, if_pos (by decide)]
    rfl
  | succ n ih =>
    have pos : 0 < 10 ^ n := Nat.pow_pos (by decide)
    have hdiv : 10 ^ (n + 1) / 10 = 10 ^ n := by
      rw [Nat.pow_succ, Nat.mul_div_cancel _ (by decide)]
    rw [digits, if_neg (by rw [Nat.pow_succ]; omega), hdiv, List.length_append, ih]
    rfl

end Number

theorem Scalar.isTooLong_pow {n : Nat} (many : digitLimit < n + 1) :
    (Scalar.int (10 ^ n)).isTooLong = true := by
  rw [isTooLong, Int.natAbs_pow]
  exact decide_eq_true ((Number.length_digits_pow n).symm ▸ many)

end Hypertext
