import Hypertext.Text.Hex
import Hypertext.Value

/-! Colours packed into an integer. Only the low 24 bits count: red, green and blue, one byte
each, so that a packed alpha byte and a negative sign have no effect on the code. -/
namespace Hypertext.Color
set_option autoImplicit false

/-- The low 24 bits of a packed colour, as two's complement has them. -/
def rgb (packed : Int) : Nat := (packed % 0x1000000).toNat

def code (packed : Int) : String :=
  String.ofList ('#' :: Text.hexDigits .upper 6 (rgb packed))

/-- The code of a value; only whole numbers and truth values are packed colours. -/
def codeOf? {ρ : Type} : Value ρ → Option String
  | .int packed => some (code packed)
  | .bool b => some (code (if b then 1 else 0))
  | _ => none

theorem rgb_lt (packed : Int) : rgb packed < 0x1000000 := by
  unfold rgb; omega

end Hypertext.Color
