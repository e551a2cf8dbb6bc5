import Hypertext.Number.Binary64
import Hypertext.Number.Decimal

/-! The shortest decimal of a binary number: the fewest digits that read back as the same number,
and of these the nearest ones. For each count of digits only the two neighbours of the number on
that decimal grid need a test: if any point of the grid reads back, one of these two does. -/
namespace Hypertext.Number
set_option autoImplicit false

/-- A decimal: the digits of `coefficient` stand after the point, and the point is then moved by
`point` places to the right. -/
structure Decimal where
  coefficient : Nat
  point : Int
  deriving DecidableEq, Repr

namespace Shortest

/-- The low end of the interval that rounds to a number, the number, and the high end, in quarters
of a unit of the last place. The ends lie half a unit away, below a power of two a quarter. -/
def interval (mantissa : Nat) (exponent : Int) : Nat × Nat × Nat :=
  let low :=
    if mantissa = Binary64.leastMantissa ∧ exponent ≠ Binary64.leastExponent then 4 * mantissa - 1
    else 4 * mantissa - 2
  (low, 4 * mantissa, 4 * mantissa + 2)

/-- `quarters · 2 ^ (exponent - 2)` and `10 ^ power`, as whole numbers over one denominator. -/
def onGrid (quarters : Nat) (exponent power : Int) : Nat × Nat :=
  let e := exponent - 2
  (quarters * Nat.pow 2 e.toNat * Nat.pow 10 (-power).toNat,
    Nat.pow 2 (-e).toNat * Nat.pow 10 power.toNat)

/-- The count of places before the point: the least `k ≥ start` with a number below `10 ^ k`. -/
def orderFrom (quarters : Nat) (exponent : Int) : Nat → Int → Int
  | 0, k => k
  | fuel + 1, k =>
    let (n, d) := onGrid quarters exponent k
    if n < d then k else orderFrom quarters exponent fuel (k + 1)

/-- The decimal order, searched upwards from an estimate that lies below it: a binary digit is
worth more than 0.30102 and less than 0.30103 decimal ones. -/
def order (mantissa : Nat) (exponent : Int) : Int :=
  let bits : Int := Nat.log2 mantissa + exponent
  let start := if 0 ≤ bits then bits * 30102 / 100000 else bits * 30103 / 100000 - 1
  orderFrom (4 * mantissa) exponent 8 start

/-- The better of the two neighbours on the grid of `10 ^ power` that reads back, if one does.
The ends of the interval read back only for an even mantissa. -/
def neighbour? (mantissa : Nat) (exponent power : Int) : Option Nat :=
  let (low, value, high) := interval mantissa exponent
  let (v, d) := onGrid value exponent power
  let (l, _) := onGrid low exponent power
  let (h, _) := onGrid high exponent power
  let reads (c : Nat) : Bool :=
    if mantissa % 2 = 0 then decide (l ≤ c * d ∧ c * d ≤ h) else decide (l < c * d ∧ c * d < h)
  let below := v / d
  let rest := 2 * (v % d)
  if rest = 0 then some below
  else match reads below, reads (below + 1) with
    | true, false => some below
    | false, true => some (below + 1)
    | false, false => none
    | true, true =>
      if rest < d then some below
      else if d < rest then some (below + 1)
      else if below % 2 = 0 then some below else some (below + 1)

/-- The first grid with a hit, from `count` digits on. -/
def search (mantissa : Nat) (exponent point : Int) : Nat → Nat → Decimal
  | 0, count =>
    let (v, d) := onGrid (4 * mantissa) exponent (point - count)
    ⟨v / d, point⟩
  | fuel + 1, count =>
    match neighbour? mantissa exponent (point - count) with
    | some c => if c = Nat.pow 10 count then ⟨1, point + 1⟩ else ⟨c, point⟩
    | none => search mantissa exponent point fuel (count + 1)

/-- The shortest decimal of a positive number; seventeen digits always suffice. -/
def decimal (mantissa : Nat) (exponent : Int) : Decimal :=
  search mantissa exponent (order mantissa exponent) 17 1

end Shortest

/-! ## Text -/

structure NumberNames where
  infinity : String
  undefined : String

/-- Positional from 0.0001 up to below 10 ^ 16, with at least one place after the point. -/
def positional (digits : List Char) (point : Int) : List Char :=
  if point ≤ 0 then '0' :: '.' :: List.replicate (-point).toNat '0' ++ digits
  else
    let places := point.toNat
    let whole := digits.take places ++ List.replicate (places - digits.length) '0'
    match digits.drop places with
    | [] => whole ++ ['.', '0']
    | part => whole ++ '.' :: part

/-- One digit before the point, then a signed exponent of at least two digits. -/
def scientific (digits : List Char) (point : Int) : List Char :=
  let power := point - 1
  let size := Number.digits power.natAbs
  let size := if size.length < 2 then '0' :: size else size
  let sign := if power < 0 then '-' else '+'
  match digits with
  | [] => []
  | [d] => d :: 'e' :: sign :: size
  | d :: part => d :: '.' :: part ++ 'e' :: sign :: size

def unsignedChars (mantissa : Nat) (exponent : Int) : List Char :=
  if mantissa = 0 then ['0', '.', '0']
  else
    let d := Shortest.decimal mantissa exponent
    let shown := digits d.coefficient
    if -4 < d.point ∧ d.point ≤ 16 then positional shown d.point else scientific shown d.point

/-- The shortest text that reads back as the number. -/
def Binary64.text (names : NumberNames) : Binary64 → String
  | .finite negative mantissa exponent =>
    String.ofList ((if negative then ['-'] else []) ++ unsignedChars mantissa exponent)
  | .infinite negative => if negative then "-" ++ names.infinity else names.infinity
  | .undefined => names.undefined

end Hypertext.Number
