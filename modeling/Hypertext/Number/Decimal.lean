/-! Integers in base ten: writing without leading zeros, and reading runs of digits. -/
namespace Hypertext.Number
set_option autoImplicit false

def digitChar (d : Nat) : Char := Char.ofNat ('0'.toNat + d)

/-- The digits of a number, most significant first; zero has one digit. -/
def digits (n : Nat) : List Char :=
  if n < 10 then [digitChar n] else digits (n / 10) ++ [digitChar (n % 10)]

def isDigit (c : Char) : Bool := '0' ≤ c && c ≤ '9'

/-- The number that a run of digits stands for. -/
def ofDigits (s : List Char) : Nat :=
  s.foldl (fun total c => 10 * total + (c.toNat - '0'.toNat)) 0

def integerChars : Int → List Char
  | .ofNat n => digits n
  | .negSucc n => '-' :: digits (n + 1)

def integer (i : Int) : String := String.ofList (integerChars i)

/-! ## Laws -/

theorem digits_ne_nil (n : Nat) : digits n ≠ [] := by
  unfold digits; split <;> simp

theorem ofDigits_concat (s : List Char) (c : Char) :
    ofDigits (s ++ [c]) = 10 * ofDigits s + (c.toNat - '0'.toNat) := by
  simp [ofDigits]

theorem digitChar_value (d : Nat) (h : d < 10) : (digitChar d).toNat - '0'.toNat = d := by
  have all : ∀ e < 10, (digitChar e).toNat - '0'.toNat = e := by decide
  exact all d h

theorem isDigit_digitChar (d : Nat) (h : d < 10) : isDigit (digitChar d) = true := by
  have all : ∀ e < 10, isDigit (digitChar e) = true := by decide
  exact all d h

theorem ofDigits_digits (n : Nat) : ofDigits (digits n) = n := by
  induction n using Nat.strongRecOn with
  | ind n ih =>
    rw [digits]
    split
    next h => simpa [ofDigits] using digitChar_value n h
    next h =>
      rw [ofDigits_concat, ih (n / 10) (by omega), digitChar_value _ (Nat.mod_lt _ (by omega))]
      omega

theorem all_isDigit_digits (n : Nat) : (digits n).all isDigit = true := by
  induction n using Nat.strongRecOn with
  | ind n ih =>
    rw [digits]
    split
    next h => simpa using isDigit_digitChar n h
    next h =>
      simp only [List.all_append, ih (n / 10) (by omega), List.all_cons, List.all_nil,
        Bool.and_true, Bool.true_and]
      exact isDigit_digitChar _ (Nat.mod_lt _ (by omega))

end Hypertext.Number
