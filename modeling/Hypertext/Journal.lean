import Hypertext.Account
import Hypertext.Forest

/-! Events worth a record in the journal, each with its source and its message. -/
namespace Hypertext
set_option autoImplicit false

def ancestorLimit : Nat := 1000

inductive Event where
  | rendering (count : Nat) (pretty : Datum)
  /-- A walk up the ancestors of an element with this tag met the depth limit. -/
  | walkCut (tag : Datum)
  | fieldsIgnored (fields : List String) (type : String)
  deriving Repr

/-- A reading of a forest, with the events that it reports. -/
abbrev Reading := Account Event

namespace Journal

def root : String := "htmldsl"

/-- A name outside the root is taken as a name below it. -/
def sourceOf (name : String) : String :=
  if name = root ∨ name.startsWith (root ++ ".") then name else root ++ "." ++ name

def level : String := "DEBUG"

structure Record where
  source : String
  message : String
  deriving DecidableEq, Repr

end Journal

namespace Event

def source : Event → String
  | .rendering .. => Journal.sourceOf "renderer"
  | .walkCut .. => Journal.sourceOf "element"
  | .fieldsIgnored .. => Journal.sourceOf "serialization"

def subject : Event → Datum
  | .rendering _ pretty => pretty
  | .walkCut tag => tag
  | .fieldsIgnored .. => .null

def message (spelled : String) : Event → String
  | .rendering count _ => s!"Rendering {count} element(s), pretty={spelled}"
  | .walkCut _ => s!"Ancestor walk from <{spelled}> stopped at depth {ancestorLimit}"
  | .fieldsIgnored fields type =>
    "Ignoring unknown fields [" ++ ", ".intercalate (fields.map Text.quoted) ++ "] on " ++ type

def record (spelled : String) (e : Event) : Journal.Record := ⟨e.source, e.message spelled⟩

end Event

end Hypertext
