import Hypertext.Journal

/-! Walks up the parent links. A walk ends at an element without a parent or after a fixed number
of ancestors, so it ends also where the links form a cycle. Text is written as it is if the
element or one of these ancestors is marked so. -/
namespace Hypertext.Forest
set_option autoImplicit false

/-- At most `limit` elements of the chain of parents that starts at `next`. -/
def climb (f : Forest) : Nat → Option ElementId → List ElementId
  | 0, _ => []
  | _ + 1, none => []
  | limit + 1, some id => id :: climb f limit (f.parent? id)

def ancestors (f : Forest) (id : ElementId) : List ElementId :=
  f.climb ancestorLimit (f.parent? id)

def tagOf (f : Forest) (id : ElementId) : Datum := ((f.get? id).map (·.tag)).getD .null

/-- What a walk meets that goes on from the last ancestor. Beyond the depth limit it stops with a
report; a choice before that has no parent to go on to, and not even the lack of one. -/
def beyond (f : Forest) (id : ElementId) (ancestors : List ElementId) : Reading Unit :=
  match f.link (ancestors.getLast?.getD id) with
  | .absent => pure ()
  | .element _ => .report (.walkCut (f.tagOf id))
  | .choice c =>
    if ancestors.length < ancestorLimit then .fail (.nameMissing c.family "parent")
    else .report (.walkCut (f.tagOf id))

def walk (f : Forest) (id : ElementId) : Reading (List ElementId) := do
  let ancestors := f.ancestors id
  f.beyond id ancestors
  return ancestors

/-- An element's own mark; only elements with a text slot have one. -/
def isMarked (f : Forest) (id : ElementId) : Bool :=
  (f.get? id).any fun e => e.hasText && f.truth e.mark

/-- Whether an ancestor is marked. The walk stops at the first one that is, so only a walk in vain
goes to its end. -/
def inheritsMark (f : Forest) (id : ElementId) : Reading Bool := do
  let ancestors := f.ancestors id
  if ancestors.any f.isMarked then return true
  f.beyond id ancestors
  return false

def isVerbatim (f : Forest) (id : ElementId) : Reading Bool := do
  return (← f.inheritsMark id) || f.isMarked id

end Hypertext.Forest
