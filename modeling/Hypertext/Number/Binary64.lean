/-! Numbers with 53 significant bits: the finite ones as a mantissa times a power of two, two
infinities, and the undefined result. A quotient or a decimal is read as the nearest such
number; a tie goes to the even mantissa. All arithmetic is on whole numbers and exact. -/
namespace Hypertext.Number
set_option autoImplicit false

inductive Binary64 where
  /-- The number `± mantissa · 2 ^ exponent`. -/
  | finite (negative : Bool) (mantissa : Nat) (exponent : Int)
  | infinite (negative : Bool)
  | undefined
  deriving DecidableEq, Repr, Inhabited

namespace Binary64

def leastExponent : Int := -1074

def greatestExponent : Int := 971

/-- The least mantissa with 53 bits; only with the least exponent a mantissa may be smaller. -/
def leastMantissa : Nat := 0x10000000000000

def zero (negative : Bool) : Binary64 := .finite negative 0 leastExponent

def isZero : Binary64 → Bool
  | .finite _ mantissa _ => mantissa == 0
  | _ => false

/-! ## Rounding -/

/-- The whole number nearest to a quotient; of two nearest ones, the even one. -/
def roundedQuotient (num den : Nat) : Nat :=
  let q := num / den
  let twice := 2 * (num % den)
  if twice < den then q
  else if den < twice then q + 1
  else if q % 2 = 0 then q else q + 1

/-- The numerator and denominator of `num / den / 2 ^ e`. -/
def scaleDown (num den : Nat) (e : Int) : Nat × Nat :=
  (num * Nat.pow 2 (-e).toNat, den * Nat.pow 2 e.toNat)

/-- The greatest `k` with `2 ^ k ≤ num / den`, for a positive quotient. -/
def binaryOrder (num den : Nat) : Int :=
  let k : Int := (Nat.log2 num : Int) - (Nat.log2 den : Int)
  let (n, d) := scaleDown num den k
  if d ≤ n then k else k - 1

/-- The number nearest to `± num / den`. Where a subnormal result loses bits, the exponent stays
at the least one; above the largest finite number the result is infinite. -/
def ofQuotient (negative : Bool) (num den : Nat) : Binary64 :=
  if num = 0 then zero negative
  else
    let e := max leastExponent (binaryOrder num den - 52)
    let (n, d) := scaleDown num den e
    let m := roundedQuotient n d
    let (m, e) := if m = 2 * leastMantissa then (leastMantissa, e + 1) else (m, e)
    if m = 0 then zero negative
    else if greatestExponent < e then .infinite negative
    else .finite negative m e

/-- The number nearest to `± coefficient · 10 ^ scale`. `size` is the count of the coefficient's
digits from the first that is not zero: far outside the range of finite numbers it decides the
result alone. -/
def ofDecimal (negative : Bool) (coefficient : Nat) (size : Nat) (scale : Int) : Binary64 :=
  if coefficient = 0 then zero negative
  else if 400 < scale + size then .infinite negative
  else if scale + size < -400 then zero negative
  else ofQuotient negative (coefficient * Nat.pow 10 scale.toNat) (Nat.pow 10 (-scale).toNat)

end Binary64

end Hypertext.Number
