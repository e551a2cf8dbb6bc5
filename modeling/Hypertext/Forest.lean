import Hypertext.Attributes
import Hypertext.Kind
import Hypertext.Value.Equality

/-! Elements and documents, stored under identities. An element owns what it holds: its children and
whatever its text slot, its mark, its tag and its undeclared values refer to. The link to a parent
owns nothing: it reads as absent once the parent is gone, and only the operations named here set
it. A document has children too, but it is nobody's parent. Any value can be a child; only elements
have markup, so that another child is refused when it is rendered. A child is taken out by its
identity: an equal value of another origin is another child. -/
namespace Hypertext
set_option autoImplicit false

structure ElementId where
  index : Nat
  deriving DecidableEq, Repr, Inhabited

structure DocumentId where
  index : Nat
  deriving DecidableEq, Repr, Inhabited

inductive Ref where
  | element (id : ElementId)
  | document (id : DocumentId)
  deriving DecidableEq, Repr, Inhabited

abbrev Datum := Value Ref

/-- Where a parent link leads. A choice can be linked to as well, but leads no further. -/
inductive ParentLink where
  | absent
  | element (id : ElementId)
  | choice (c : Choice)
  deriving DecidableEq, Repr

def documentType : String := "HTML"

structure Element where
  kind : Kind
  tag : Datum
  attributes : Attributes := {}
  children : List Datum := []
  parent : ParentLink := .absent
  /-- What the text slot holds. Only kinds with a text slot show it. -/
  content : Datum := .text ""
  /-- The element's own mark that its text is written as it is. -/
  mark : Datum := .bool false
  /-- Whether its style was ever asked for. A style holds the element that it belongs to. -/
  styled : Bool := false
  /-- What was set under the names of attributes that the kind does not declare. It is held, but
  nothing shows it. -/
  undeclared : List (String × Datum) := []
  deriving Repr

namespace Element

def hasText (e : Element) : Bool := e.kind.hasText

def spec (e : Element) : TagSpec Ref := TagSpec.ofTag e.tag e.hasText

end Element

/-- The slot of what is gone is empty, and no identity is used twice. -/
structure Forest where
  elements : Array (Option Element) := #[]
  /-- The children of each document. -/
  documents : Array (Option (List Datum)) := #[]
  deriving Repr, Inhabited

namespace Forest

/-! ## Reading -/

def get? (f : Forest) (id : ElementId) : Option Element := f.elements[id.index]?.join

def isAlive (f : Forest) (id : ElementId) : Bool := (f.get? id).isSome

def hasText (f : Forest) (id : ElementId) : Bool := (f.get? id).any (·.hasText)

/-- The link of an element. One to a parent that is gone reads as absent. -/
def link (f : Forest) (id : ElementId) : ParentLink :=
  match ((f.get? id).map (·.parent)).getD .absent with
  | .element parent => if f.isAlive parent then .element parent else .absent
  | other => other

def parent? (f : Forest) (id : ElementId) : Option ElementId :=
  match f.link id with
  | .element parent => some parent
  | _ => none

def roots? (f : Forest) (id : DocumentId) : Option (List Datum) := f.documents[id.index]?.join

def isThere (f : Forest) : Ref → Bool
  | .element id => f.isAlive id
  | .document id => (f.roots? id).isSome

def rootsOf (f : Forest) (id : DocumentId) : List Datum := (f.roots? id).getD []

def childrenOf (f : Forest) : Ref → List Datum
  | .element id => ((f.get? id).map (·.children)).getD []
  | .document id => f.rootsOf id

/-- Elements are true; a document is true if it has children. -/
def truth (f : Forest) (v : Datum) : Bool :=
  v.truth fun
    | .element _ => true
    | .document id => !(f.rootsOf id).isEmpty

/-- A description down to a depth: a tag can be an element with a tag of its own. -/
def describeWithin (f : Forest) : Nat → Ref → String
  | _, .document id => s!"{documentType}(children={(f.rootsOf id).length})"
  | 0, .element _ => ""
  | depth + 1, .element id =>
    match f.get? id with
    | none => ""
    | some e =>
      s!"{e.kind.name}(tag_name={e.tag.literal (describeWithin f depth)}, " ++
        s!"children={e.children.length})"

def describe (f : Forest) (r : Ref) : String := f.describeWithin (f.elements.size + 1) r

/-- Whether a description down to a depth comes by a whole number of too many digits. -/
def describesTooLong (f : Forest) : Nat → Ref → Bool
  | _, .document _ | 0, .element _ => false
  | depth + 1, .element id => (f.get? id).any (·.tag.isTooLong (describesTooLong f depth))

def isTooLong (f : Forest) (v : Datum) : Bool :=
  v.isTooLong (f.describesTooLong (f.elements.size + 1))

/-- What a value says as a text, unless a number in it has too many digits. -/
def spelling (f : Forest) (v : Datum) : Except Fault String :=
  if f.isTooLong v then .error .numberTooLong else .ok (v.plain f.describe f.describe)

/-- The same for its literal spelling. -/
def literal (f : Forest) (v : Datum) : Except Fault String :=
  if f.isTooLong v then .error .numberTooLong else .ok (v.literal f.describe)

def typeOfRef (f : Forest) : Ref → String
  | .element id => ((f.get? id).map (·.kind.name)).getD ""
  | .document _ => documentType

def typeName (f : Forest) (v : Datum) : String := v.typeName f.typeOfRef

/-! ## Writing -/

def insert (f : Forest) (e : Element) : ElementId × Forest :=
  (⟨f.elements.size⟩, { f with elements := f.elements.push (some e) })

def insertDocument (f : Forest) : DocumentId × Forest :=
  (⟨f.documents.size⟩, { f with documents := f.documents.push (some []) })

def update (f : Forest) (id : ElementId) (change : Element → Element) : Forest :=
  { f with elements := f.elements.modify id.index (Option.map change) }

def setChildren (f : Forest) (holder : Ref) (children : List Datum) : Forest :=
  match holder with
  | .element id => f.update id ({ · with children })
  | .document id =>
    { f with documents := f.documents.modify id.index (Option.map fun _ => children) }

def setParent (f : Forest) (id : ElementId) (parent : ParentLink) : Forest :=
  f.update id ({ · with parent })

/-- Appends a child without linking it to its holder. -/
def add (f : Forest) (holder : Ref) (child : Datum) : Forest :=
  f.setChildren holder (f.childrenOf holder ++ [child])

/-- Takes out the first occurrence of a child. Its link to a parent stays. -/
def remove (f : Forest) (holder : Ref) (child : Datum) : Forest :=
  f.setChildren holder ((f.childrenOf holder).erase child)

/-- Appends a child. An element becomes the parent of a child that is an element; a document
becomes nobody's parent. -/
def attach (f : Forest) (holder : Ref) (child : Datum) : Forest :=
  match holder, child with
  | .element id, .ref (.element held) => (f.setParent held (.element id)).add holder child
  | _, _ => f.add holder child

/-- Fills the text slot and takes the mark away. An element put into the slot becomes a child of
the slot alone: its first occurrence among the children is taken out. Without a text slot the
value is kept, but it has no meaning. -/
def setContent (f : Forest) (id : ElementId) (content : Datum) : Forest :=
  if f.hasText id then
    let f := f.update id ({ · with content, mark := .bool false })
    match content with
    | .ref (.element held) => (f.remove (.element id) content).setParent held (.element id)
    | _ => f
  else f.update id ({ · with content })

/-- Sets an element's own mark, which only an element with a text slot obeys. -/
def setMark (f : Forest) (id : ElementId) (mark : Datum) : Forest :=
  f.update id ({ · with mark })

def setStyled (f : Forest) (id : ElementId) : Forest := f.update id ({ · with styled := true })

/-- Keeps a value under a name, in place of what had this name before. -/
def setUndeclared (f : Forest) (id : ElementId) (name : String) (value : Datum) : Forest :=
  f.update id fun e =>
    { e with undeclared := (name, value) :: e.undeclared.filter (·.1 != name) }

def setAttributes (f : Forest) (id : ElementId) (attributes : Attributes) : Forest :=
  f.update id ({ · with attributes })

def attributesOf (f : Forest) (id : ElementId) : Attributes :=
  ((f.get? id).map (·.attributes)).getD {}

end Forest

end Hypertext
