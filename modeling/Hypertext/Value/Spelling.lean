import Hypertext.Fault
import Hypertext.Value
import Hypertext.Number.Shortest

/-! Two spellings of a value. The plain one is what a value says as the content of a text slot: a
text is itself. The literal one is used inside lists, records and descriptions: there a text is
quoted, so that it cannot be mistaken for another value. A whole number of too many digits has no
spelling, and neither has what it is a part of. -/
namespace Hypertext
set_option autoImplicit false

open Number (NumberNames)

namespace Scalar

def numberNames : NumberNames := ⟨"inf", "nan"⟩

def plain : Scalar → String
  | .null => "None"
  | .bool true => "True"
  | .bool false => "False"
  | .int i => Number.integer i
  | .float x => x.text numberNames
  | .text s => s
  | .choice c => c.name

def literal : Scalar → String
  | .text s => Text.quoted s
  | .choice c => "<" ++ c.name ++ ": " ++ Text.quoted c.value ++ ">"
  | s => s.plain

/-- A whole number with more digits than are written. Its sign does not count. -/
def isTooLong : Scalar → Bool
  | .int i => digitLimit < (Number.digits i.natAbs).length
  | _ => false

end Scalar

namespace Value

variable {ρ : Type}

mutual

def literal (ofRef : ρ → String) : Value ρ → String
  | .scalar s => s.literal
  | .list items => "[" ++ ", ".intercalate (literals ofRef items) ++ "]"
  | .record fields => "\x7b" ++ ", ".intercalate (fieldLiterals ofRef fields) ++ "\x7d"
  | .ref r => ofRef r
  | .renderer .. => "<htmldsl.renderer.HtmlRenderer object>"
  | .made _ v => literal ofRef v

def literals (ofRef : ρ → String) : List (Value ρ) → List String
  | [] => []
  | v :: rest => literal ofRef v :: literals ofRef rest

def fieldLiterals (ofRef : ρ → String) : List (String × Value ρ) → List String
  | [] => []
  | (name, v) :: rest =>
    (Text.quoted name ++ ": " ++ literal ofRef v) :: fieldLiterals ofRef rest

end

/-- Lists and records have no plain spelling of their own. -/
def plain (plainRef literalRef : ρ → String) : Value ρ → String
  | .scalar s => s.plain
  | .ref r => plainRef r
  | .made _ v => plain plainRef literalRef v
  | v => v.literal literalRef

mutual

/-- Whether a whole number with too many digits stands where a spelling comes by. -/
def isTooLong (ofRef : ρ → Bool) : Value ρ → Bool
  | .scalar s => s.isTooLong
  | .list items => anyTooLong ofRef items
  | .record fields => anyFieldTooLong ofRef fields
  | .ref r => ofRef r
  | .renderer .. => false
  | .made _ v => isTooLong ofRef v

def anyTooLong (ofRef : ρ → Bool) : List (Value ρ) → Bool
  | [] => false
  | v :: rest => isTooLong ofRef v || anyTooLong ofRef rest

def anyFieldTooLong (ofRef : ρ → Bool) : List (String × Value ρ) → Bool
  | [] => false
  | (_, v) :: rest => isTooLong ofRef v || anyFieldTooLong ofRef rest

end

end Value

end Hypertext
