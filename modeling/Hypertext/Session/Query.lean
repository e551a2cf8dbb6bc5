import Hypertext.Attributes.Call
import Hypertext.Attributes.Style
import Hypertext.Construction

/-! Questions about the objects of a session, and their answers. -/
namespace Hypertext
set_option autoImplicit false

inductive Query where
  | parent
  | children
  | text
  /-- Whether the text is written as it is, by inheritance or by the element's own mark. -/
  | verbatim
  | mark
  | tag
  | inline
  | void
  | spec
  | attributes
  | property (p : Property)
  | style
  | level
  | type
  | html
  | innerHtml
  | ancestors
  | ancestorCount
  | plain
  | literal
  /-- The number of top-level elements of a document, and their list. -/
  | size
  | list
  deriving DecidableEq, Repr

namespace Query

def listOf (ids : List ElementId) : Datum := .list (ids.map fun id => .ref (.element id))

def linkValue : ParentLink → Datum
  | .absent => .null
  | .element id => .ref (.element id)
  | .choice c => .choice c

def specValue (spec : TagSpec Ref) : Datum :=
  .list [spec.name, .bool spec.inline, .bool spec.void, .bool spec.hasText]

/-! ## Answers -/

def ofElement (f : Forest) (id : ElementId) (e : Element) : Query → Reading Datum
  | parent => return linkValue (f.link id)
  | children | list => return .list e.children
  | text => return e.content
  | verbatim => return if ← f.inheritsMark id then .bool true else e.mark
  | mark => return e.mark
  | tag => return e.tag
  | inline => return .bool e.spec.inline
  | void => return .bool e.spec.void
  | spec => return specValue e.spec
  | attributes => return Attributes.listValue e.attributes
  | property p => .ofExcept ((f.property id p).map Attributes.valueOrNull)
  | style => return .text (Style.text e.attributes)
  | level => return (e.kind.level?.map fun n => Value.int n).getD .null
  | type => return .text e.kind.name
  | html | plain => return .text (← f.html id)
  | innerHtml => return .text (← f.innerHtml id)
  | ancestors => return listOf (← f.walk id)
  | ancestorCount => return .int (← f.walk id).length
  | literal => return .text (← .ofExcept (f.literal (.ref (.element id))))
  | size => return .int e.children.length

/-- What other values are asked. Null answers what a value does not have. -/
def ofValue (f : Forest) (v : Datum) : Query → Reading Datum
  | type => return .text (f.typeName v)
  | plain => return .text (← f.textOf v)
  | literal => return .text (← .ofExcept (f.literal v))
  | children | list =>
    match v with
    | .ref r => return .list (f.childrenOf r)
    | _ => return .null
  | size =>
    match v with
    | .ref r => return .int (f.childrenOf r).length
    | _ => return .null
  | _ => return .null

def subject? (f : Forest) : Datum → Option (ElementId × Element)
  | .ref (.element id) => (f.get? id).map (id, ·)
  | _ => none

def answer (q : Query) (v : Datum) (f : Forest) : Reading Datum :=
  match subject? f v with
  | some (id, e) => ofElement f id e q
  | none => ofValue f v q

end Query

end Hypertext
