import Hypertext.Json.Printer
import Hypertext.Render.Unfolding
import Hypertext.Text.Repetition
import Hypertext.Value.Origin

/-! Payloads: elements and documents as plain data. A node names its type and lists what it holds;
an element node also has its tag, its attributes and, with a text slot, its text and own mark. A
text that is neither an element nor a plain scalar is stored by its spelling. A child that is
neither an element nor a document has no payload. -/
namespace Hypertext
set_option autoImplicit false

namespace Face

def isSpelled (x : Face) : Bool :=
  match x.element.content.erased with
  | .null | .bool _ | .int _ | .float _ | .text _ => false
  | _ => true

/-- The content of a text slot that holds no element. A plain scalar keeps its origin. -/
def contentPayload (x : Face) : Datum :=
  if x.isSpelled then .text x.content.text else x.element.content

def attributesPayload (x : Face) : Datum :=
  .list (x.element.attributes.toList.map fun a => .list [.text a.key, .text a.value])

end Face

namespace Tree

mutual

def payload : Tree → Datum
  | .node x inside children =>
    .record ([("_type", .text x.element.kind.name), ("tag_name", x.element.tag),
      ("attributes", x.attributesPayload), ("children", .list (payloads children))]
      ++ if x.hasText then [("text", textPayload x inside), ("unsafe", x.element.mark)] else [])
  | .bare .document children =>
    .record [("_type", .text documentType), ("children", .list (payloads children))]
  | .bare (.value _) _ => .null

def textPayload (x : Face) : Option Tree → Datum
  | none => x.contentPayload
  | some t => payload t

def payloads : List Tree → List Datum
  | [] => []
  | t :: rest => payload t :: payloads rest

end

mutual

/-- The readings of the texts that the payload of a tree stores by their spelling: those of the
children first, then that of the text slot. What has no payload fails in its place. -/
def spellings : Tree → Reading Unit
  | .node x inside children => do
    spellingsAll children
    if x.hasText then spellingInside x inside
  | .bare .document children => spellingsAll children
  | .bare (.value type) _ => .fail (.nameMissing type "tag_name")

def spellingInside (x : Face) : Option Tree → Reading Unit
  | none => if x.isSpelled then (fun _ => ()) <$> x.content else pure ()
  | some t => spellings t

def spellingsAll : List Tree → Reading Unit
  | [] => pure ()
  | t :: rest => do
    spellings t
    spellingsAll rest

end

end Tree

namespace Forest

def payload (f : Forest) (r : Ref) : Reading Datum := do
  let trees := f.trees [.ref r]
  Tree.spellingsAll trees
  return (trees.head?.map Tree.payload).getD .null

/-- The JSON layout for a unit of indentation: none, a text, or a count of spaces, of which a
negative one counts as zero. -/
def layoutFor (f : Forest) (limits : Limits) : Datum → Except Fault Json.Layout
  | .null => .ok .compact
  | .text unit => .ok (.lines unit)
  | .int width => (Text.repeated limits " " width).map .lines
  | .bool b => .ok (.lines (if b then " " else ""))
  | v => .error (.notCount (f.typeName v))

def json (f : Forest) (limits : Limits) (r : Ref) (indent : Datum) : Reading String := do
  let v ← f.payload r
  .ofExcept do Json.write f.typeOfRef (← f.layoutFor limits indent) v

end Forest

end Hypertext
