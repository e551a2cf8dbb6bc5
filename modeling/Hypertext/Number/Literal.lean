import Hypertext.Number.Binary64
import Hypertext.Number.Decimal
import Hypertext.Text.Blank
import Hypertext.Text.Digit

/-! Decimal literals: a sign, digits before and after the point, and a power of ten. In a text there
may be blanks around a literal and underscores between its digits, and the digits may be those
of any script. -/
namespace Hypertext.Number
set_option autoImplicit false

structure Literal where
  negative : Bool
  whole : List Char
  fraction : List Char
  power : Int
  deriving DecidableEq, Repr

namespace Literal

/-- The number nearest to a literal. Zeros before the first other digit do not count. -/
def value (l : Literal) : Binary64 :=
  let significant := (l.whole ++ l.fraction).dropWhile (· == '0')
  .ofDecimal l.negative (ofDigits significant) significant.length (l.power - l.fraction.length)

def sign : List Char → Bool × List Char
  | '-' :: rest => (true, rest)
  | '+' :: rest => (false, rest)
  | rest => (false, rest)

/-- The power of ten after the mark `e`; none if there is a mark without digits. -/
def power? : List Char → Option Int
  | [] => some 0
  | mark :: rest =>
    let (negative, digits) := sign rest
    if (mark = 'e' ∨ mark = 'E') ∧ digits ≠ [] ∧ digits.all isDigit then
      some (if negative then -(ofDigits digits : Int) else ofDigits digits)
    else none

/-- A literal with digits on at least one side of the point. -/
def ofChars? (s : List Char) : Option Literal := do
  let (negative, rest) := sign s
  let whole := rest.takeWhile isDigit
  let rest := rest.dropWhile isDigit
  let (fraction, rest) := match rest with
    | '.' :: more => (more.takeWhile isDigit, more.dropWhile isDigit)
    | _ => ([], rest)
  let power ← power? rest
  if whole = [] ∧ fraction = [] then none
  else return ⟨negative, whole, fraction, power⟩

end Literal

/-! ## Texts -/

/-- A text without its underscores, each of which must stand between two digits. -/
def withoutUnderscores? (afterDigit : Bool) : List Char → Option (List Char)
  | [] => some []
  | '_' :: rest =>
    if afterDigit && (rest.head?.any isDigit) then withoutUnderscores? false rest else none
  | c :: rest => (withoutUnderscores? (isDigit c) rest).map (c :: ·)

/-- The blanks that may stand around a literal: all but the information separators. -/
def isMargin (c : Char) : Bool := Text.isBlank c && !(0x1C ≤ c.toNat && c.toNat ≤ 0x1F)

def withoutMargins (s : List Char) : List Char :=
  ((s.dropWhile isMargin).reverse.dropWhile isMargin).reverse

def literalChars? (text : String) : Option (List Char) :=
  withoutUnderscores? false (withoutMargins (text.toList.map Text.plainDigit))

/-- A number from its text: a literal, an infinity or the undefined number, in letters of either
case. -/
def Binary64.ofText? (text : String) : Option Binary64 := do
  let chars ← literalChars? text
  let (negative, name) := Literal.sign chars
  match String.ofList (name.map Char.toLower) with
  | "inf" | "infinity" => return .infinite negative
  | "nan" => return .undefined
  | _ => return (← Literal.ofChars? chars).value

end Hypertext.Number
