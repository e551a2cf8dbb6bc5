import Hypertext.Number.Literal
import Hypertext.Value

/-! Terms: values as a program writes them down. A term stands for a value once all its symbols
do. -/
namespace Hypertext
set_option autoImplicit false

inductive Symbol where
  | register (name : String)
  /-- A number by its text, where the text is none of a number. -/
  | number (text : String)
  deriving DecidableEq, Repr

abbrev Term := Value Symbol

def Term.number (text : String) : Term :=
  match Number.Binary64.ofText? text with
  | some x => .float x
  | none => .ref (.number text)

end Hypertext
