import Mathlib.Data.Int.Bitwise
import Mathlib.Data.Int.ModEq
import Hypertext.Color
import Hypertext.Proofs.JsonScalars

/-! What the code of a colour tells. Its digits are the low 24 bits of the packed integer, of
whatever size and sign that is, and so they tell its remainder and nothing else. The main statement
is `code_tells_remainder`. -/
namespace Hypertext.Color
set_option autoImplicit false

/-! ## Low bits -/

/-- Of a mask the bits that a number does not have are left, which are those of the complement. -/
theorem ldiff_mask (width n : Nat) :
    Nat.ldiff (2 ^ width - 1) n = 2 ^ width - 1 - n % 2 ^ width := by
  have low : n % 2 ^ width < 2 ^ width := Nat.mod_lt n (Nat.two_pow_pos width)
  refine Nat.eq_of_testBit_eq fun i => ?_
  rw [Nat.testBit_ldiff, Nat.testBit_two_pow_sub_one, Nat.sub_sub, Nat.add_comm 1,
    Nat.testBit_two_pow_sub_succ low, Nat.testBit_mod_two_pow]
  cases decide (i < width) <;> rfl

/-- In two's complement, masking the low bits takes the remainder, also of a negative integer. -/
theorem land_mask (n : Int) (width : Nat) :
    Int.land n (2 ^ width - 1 : Nat) = n % (2 ^ width : Nat) := by
  match n with
  | .ofNat n =>
    show ((n &&& (2 ^ width - 1) : Nat) : Int) = _
    rw [Nat.and_two_pow_sub_one_eq_mod]
    rfl
  | .negSucc n =>
    have low : n % 2 ^ width < 2 ^ width := Nat.mod_lt n (Nat.two_pow_pos width)
    show (Nat.ldiff (2 ^ width - 1) n : Int) = _
    rw [ldiff_mask, Int.negSucc_emod n (by omega)]
    omega

theorem rgb_eq_emod (packed : Int) : (rgb packed : Int) = packed % 2 ^ 24 :=
  Int.toNat_of_nonneg (Int.emod_nonneg packed (by decide))

theorem rgb_eq_rgb_iff (a b : Int) : rgb a = rgb b ↔ a ≡ b [ZMOD 2 ^ 24] := by
  rw [Int.ModEq, ← rgb_eq_emod, ← rgb_eq_emod, Int.natCast_inj]

/-! ## Codes -/

/-- The digits of a code can be read, and what they are read as is the low bits. -/
theorem readHex?_digits (packed : Int) :
    Text.readHex? (Text.hexDigits .upper 6 (rgb packed)) = some (rgb packed) := by
  have low : rgb packed < 16 ^ 6 := rgb_lt packed
  rw [Text.readHex?_hexDigits, Nat.mod_eq_of_lt low]

theorem code_eq_code_iff (a b : Int) : code a = code b ↔ rgb a = rgb b := by
  refine ⟨fun same => ?_, fun same => by rw [code, code, same]⟩
  have digits := (List.cons.inj (String.ofList_inj.1 same)).2
  have read := readHex?_digits a
  rw [digits, readHex?_digits] at read
  exact (Option.some.inj read).symm

/-- A code is a number sign and six digits in base sixteen, with capital letters. They are read as
the remainder of the packed integer by 2^24, which is what a mask of 24 bits leaves of it. So codes
tell two integers apart exactly if their remainders differ, and a word of 32 bits has one code,
whether it is read with a sign or without. -/
theorem code_tells_remainder :
    (∀ packed : Int, ∃ digits : List Char, code packed = String.ofList ('#' :: digits) ∧
      digits.length = 6 ∧ (∀ c ∈ digits, c ∈ "0123456789ABCDEF".toList) ∧
      ∃ n : Nat, Text.readHex? digits = some n ∧ (n : Int) = packed % 2 ^ 24 ∧
        (n : Int) = Int.land packed 0xFFFFFF) ∧
    (∀ a b : Int, code a = code b ↔ a ≡ b [ZMOD 2 ^ 24]) ∧
    ∀ argb : BitVec 32, code argb.toNat = code argb.toInt := by
  refine ⟨fun packed => ?_, fun a b => ?_, fun argb => ?_⟩
  · have masked : (rgb packed : Int) = Int.land packed 0xFFFFFF :=
      (rgb_eq_emod packed).trans (land_mask packed 24).symm
    refine ⟨_, rfl, Text.hexDigits_length .upper 6 _, ?_, _, readHex?_digits packed,
      rgb_eq_emod packed, masked⟩
    exact Text.hexDigits_all .upper (by decide) 6 _
  · rw [code_eq_code_iff, rgb_eq_rgb_iff]
  · have signed : argb.toInt % (2 ^ 32 : Nat) = argb.toNat % (2 ^ 32 : Nat) := by
      rw [BitVec.toInt_eq_toNat_bmod, Int.bmod_emod]
    rw [code_eq_code_iff, rgb_eq_rgb_iff]
    exact Int.ModEq.of_dvd (by decide) signed.symm

example : code (-65536) = "#FF0000" := by decide

end Hypertext.Color
