import Hypertext.Forest.Lineage
import Hypertext.Render.Part
import Hypertext.Render.Walk
import Hypertext.Text.Blank
import Hypertext.Text.Escape

/-! The trees of a forest, and the texts of its elements, documents and values. -/
namespace Hypertext
set_option autoImplicit false

namespace Tree

/-- The compact markup of some roots, by a render of its own. -/
def html (roots : List Tree) : Reading String := do
  .report (.rendering roots.length (.bool false))
  (render false roots).compose (.ofText "")

/-- The same for the roots of a document: blanks at the end are dropped. -/
def documentHtml (roots : List Tree) : Reading String := Text.trimEnd <$> html roots

end Tree

namespace Forest

/-- What a text slot writes. A text is escaped unless the element is verbatim, an empty one without
asking for that; any other value is spelled as it is, if it can be. An element is written as a tree
of its own. -/
def written (f : Forest) (id : ElementId) (textOfRef : Ref → Reading String) :
    Datum → Reading String
  | .null | .text "" | .ref (.element _) => pure ""
  | .text s => return if ← f.isVerbatim id then s else Text.escape s
  | .ref r => textOfRef r
  | .made _ v => written f id textOfRef v
  | v => .ofExcept (f.spelling v)

/-- A tag is spelled; an element or document as a tag is written out. -/
def writtenTag (f : Forest) (textOfRef : Ref → Reading String) : Datum → Reading String
  | .ref r => textOfRef r
  | v => .ofExcept (f.spelling v)

def faceOf (f : Forest) (id : ElementId) (e : Element) (textOfRef : Ref → Reading String) :
    Face where
  element := e
  tag := f.writtenTag textOfRef e.tag
  content := if e.hasText then f.written id textOfRef e.content else pure ""

/-- Whether a content refers to an element, which is then rendered in its place. -/
def isElement : Datum → Bool
  | .ref (.element _) => true
  | _ => false

def textOfRefBy (f : Forest) (trees : List Datum → List Tree) : Ref → Reading String
  | .element id => Tree.html (trees [.ref (.element id)])
  | .document id => Tree.documentHtml (trees (f.rootsOf id))

def treeWithin (f : Forest) : Nat → Datum → Option Tree
  | 0, _ => none
  | depth + 1, .ref (.element id) => do
    let e ← f.get? id
    let textOfRef := f.textOfRefBy (·.filterMap (treeWithin f depth))
    let inside := if e.hasText && isElement e.content then treeWithin f depth e.content else none
    return .node (f.faceOf id e textOfRef) inside (e.children.filterMap (treeWithin f depth))
  | depth + 1, .ref (.document id) =>
    some (.bare .document ((f.rootsOf id).filterMap (treeWithin f depth)))
  | _ + 1, v => some (.bare (.value (f.typeName v)) [])

/-- The tree of a value. Where nothing holds itself, a path meets each element and document at most
once, and another value ends it, so nothing is cut off. -/
def tree? (f : Forest) (v : Datum) : Option Tree :=
  f.treeWithin (f.elements.size + f.documents.size + 1) v

def trees (f : Forest) (values : List Datum) : List Tree := values.filterMap f.tree?

/-! ## Texts -/

def textOfRef (f : Forest) (r : Ref) : Reading String := f.textOfRefBy f.trees r

def html (f : Forest) (id : ElementId) : Reading String := f.textOfRef (.element id)

def drawnInside (f : Forest) (pretty : Bool) (v : Datum) : Canvas :=
  ((f.tree? v).map (Tree.renderInner pretty)).getD .empty

def innerHtml (f : Forest) (id : ElementId) : Reading String :=
  (f.drawnInside false (.ref (.element id))).compose (.ofText "")

def textOf (f : Forest) : Datum → Reading String
  | .ref r => f.textOfRef r
  | v => .ofExcept (f.spelling v)

end Forest

end Hypertext
