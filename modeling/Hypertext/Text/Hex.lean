/-! Numbers in base sixteen, padded with zeros to a fixed width, and their reading. -/
namespace Hypertext.Text
set_option autoImplicit false

inductive HexCase where
  | lower
  | upper
  deriving DecidableEq, Repr

def hexDigit (letters : HexCase) (d : Nat) : Char :=
  if d < 10 then Char.ofNat ('0'.toNat + d)
  else match letters with
    | .lower => Char.ofNat ('a'.toNat + (d - 10))
    | .upper => Char.ofNat ('A'.toNat + (d - 10))

/-- The last `width` digits of a number, most significant first. -/
def hexDigits (letters : HexCase) : Nat → Nat → List Char
  | 0, _ => []
  | width + 1, n => hexDigits letters width (n / 16) ++ [hexDigit letters (n % 16)]

def hexValue? (c : Char) : Option Nat :=
  if '0' ≤ c ∧ c ≤ '9' then some (c.toNat - '0'.toNat)
  else if 'a' ≤ c ∧ c ≤ 'f' then some (c.toNat - 'a'.toNat + 10)
  else if 'A' ≤ c ∧ c ≤ 'F' then some (c.toNat - 'A'.toNat + 10)
  else none

/-- The number that a run of digits stands for; none if a character is no digit. -/
def readHex? (digits : List Char) : Option Nat :=
  digits.foldl (fun total c => do return 16 * (← total) + (← hexValue? c)) (some 0)

theorem hexDigits_length (letters : HexCase) (width n : Nat) :
    (hexDigits letters width n).length = width := by
  induction width generalizing n with
  | zero => rfl
  | succ width ih => simp [hexDigits, ih]

/-- What holds of each digit holds of a number in digits. -/
theorem hexDigits_all (letters : HexCase) {p : Char → Prop}
    (digit : ∀ d < 16, p (hexDigit letters d)) (width n : Nat) :
    ∀ c ∈ hexDigits letters width n, p c := by
  induction width generalizing n with
  | zero => exact fun c hc => nomatch hc
  | succ width ih =>
    intro c hc
    obtain hc | hc := List.mem_append.1 hc
    · exact ih (n / 16) c hc
    · exact List.mem_singleton.1 hc ▸ digit (n % 16) (Nat.mod_lt n (by decide))

theorem hexValue?_hexDigit (letters : HexCase) (d : Nat) (h : d < 16) :
    hexValue? (hexDigit letters d) = some d := by
  have all : ∀ e < 16, hexValue? (hexDigit letters e) = some e := by cases letters <;> decide
  exact all d h

end Hypertext.Text
