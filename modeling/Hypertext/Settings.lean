import Hypertext.Forest
import Hypertext.Text.Repetition

/-! Defaults for rendering. Values are kept as they are given, whatever their type; what they mean
is decided where they are used. -/
namespace Hypertext
set_option autoImplicit false

def version : String := "0.1.0"

structure Settings where
  prettyPrint : Datum := .bool false
  /-- What is written once for each level of depth. -/
  indent : Datum := .text "  "
  deriving Repr

namespace Settings

def names : List String := ["pretty_print", "indent"]

/-- Fields are taken as they are; other names are passed over. -/
def ofFields (fields : List (String × Datum)) : Settings where
  prettyPrint := (fields.lookup "pretty_print").getD (.bool false)
  indent := (fields.lookup "indent").getD (.text "  ")

/-- Settings from named arguments, all of which must be known. -/
def ofArguments (fields : List (String × Datum)) : Except Fault Settings :=
  match fields.find? fun (name, _) => !names.contains name with
  | none => .ok (ofFields fields)
  | some (name, _) => .error (.argumentUnexpected "RenderConfig.__init__" name)

/-- A whole number is read as so many spaces. -/
def indentOf (limits : Limits) : Datum → Except Fault Datum
  | .int n => (Text.repeated limits " " n).map .text
  | v => .ok v

def ofData (limits : Limits) (fields : List (String × Datum)) : Except Fault Settings :=
  let s := ofFields fields
  (indentOf limits s.indent).map ({ s with indent := · })

def refs (s : Settings) : List Ref := s.prettyPrint.refs ++ s.indent.refs

def toValue (s : Settings) : Datum :=
  .record [("indent", s.indent), ("pretty_print", s.prettyPrint)]

end Settings

end Hypertext
