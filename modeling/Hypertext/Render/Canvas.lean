import Hypertext.Markup
import Hypertext.Render.Tree

/-! What rendering writes, fragment by fragment, and the layout rules for one tag. In pretty output
a block starts on a line of its own, indented by its depth, and ends its line; a closing tag is
indented only where nothing has been written on its line. -/
namespace Hypertext
set_option autoImplicit false

/-- Layout is kept apart from content, and an indentation from its unit. Content is kept as what it
is read from. -/
inductive Fragment where
  | opening (x : Face)
  | closing (x : Face)
  | content (x : Face)
  | newline
  | indentation (level : Nat)
  | refusal (fault : Fault)

namespace Fragment

def isLayout : Fragment → Bool
  | newline | indentation _ => true
  | _ => false

def text (unit : String) : Fragment → String
  | opening x => Markup.openingTag x.tag.text x.attributes
  | closing x => Markup.closingTag x.tag.text
  | content x => x.content.text
  | newline => "\n"
  | indentation level => Markup.repeated unit level
  | refusal _ => ""

def write (unit : String) (m : Markup) : Fragment → Markup
  | opening x => m.openTag x.tag.text x.attributes
  | closing x => m.closeTag x.tag.text
  | content x => m.append x.content.text
  | newline => m.newline
  | indentation level => m.indent unit level
  | refusal _ => m

end Fragment

structure Canvas where
  fragments : Array Fragment := #[]
  /-- The number of elements that are open. -/
  level : Nat := 0
  /-- Nothing has been written on the current line yet. -/
  lineStart : Bool := true

namespace Canvas

def empty : Canvas := {}

def put (c : Canvas) (x : Fragment) : Canvas := { c with fragments := c.fragments.push x }

/-- Indentation on a line of its own, in pretty output only. -/
def indent (c : Canvas) (pretty : Bool) : Canvas :=
  if pretty then
    let c := if c.lineStart then c else c.put .newline
    { c.put (.indentation c.level) with lineStart := false }
  else c

def openElement (c : Canvas) (pretty : Bool) (x : Face) : Canvas :=
  let c := if pretty && !x.isInline then c.indent pretty else c
  { c with level := c.level + 1 }.put (.opening x)

/-- After the text of an element the line has begun, even if nothing was written. -/
def endText (c : Canvas) : Canvas := { c with lineStart := false }

def writeText (c : Canvas) (x : Face) : Canvas := (c.put (.content x)).endText

def closeElement (c : Canvas) (pretty : Bool) (x : Face) : Canvas :=
  let c := { c with level := c.level - 1 }
  let c := if c.lineStart then c.indent pretty else c
  let c := if x.isVoid then c else c.put (.closing x)
  if !x.isInline && pretty && !c.lineStart then { c.put .newline with lineStart := true } else c

/-- What has no markup is refused for the first thing that it does not have: pretty output asks
whether it is inline, and compact output for its tag. -/
def refuse (c : Canvas) (pretty : Bool) (what : Bare) : Canvas :=
  c.put (.refusal (.nameMissing what.type (if pretty then "inline" else "tag_name")))

/-- Without its own tags a node is asked for its children alone. Of what has no markup, only a
document has any. -/
def refuseInner (c : Canvas) : Bare → Canvas
  | .document => c
  | .value type => c.put (.refusal (.nameMissing type "children"))

def markup (c : Canvas) (unit : String) : Markup :=
  c.fragments.foldl (Fragment.write unit) Markup.empty

def text (c : Canvas) (unit : String) : String := (c.markup unit).build

end Canvas

/-! ## The text of a canvas -/

theorem Markup.build_push (parts : Array String) (s : String) :
    (Markup.mk (parts.push s)).build = (Markup.mk parts).build ++ s := by
  simp [Markup.build, String.join]

theorem Fragment.build_write (unit : String) (m : Markup) (x : Fragment) :
    (x.write unit m).build = m.build ++ x.text unit := by
  have append (s : String) : (m.append s).build = m.build ++ s := by
    unfold Markup.append
    split
    next h => simp [h]
    next => exact Markup.build_push m.parts s
  cases x with
  | opening x => exact Markup.build_push _ _
  | closing x => exact Markup.build_push _ _
  | content x => exact append _
  | newline => exact Markup.build_push _ _
  | indentation level => exact append _
  | refusal _ => simp [write, text]

theorem Canvas.text_eq_join (c : Canvas) (unit : String) :
    c.text unit = String.join (c.fragments.toList.map (Fragment.text unit)) := by
  have step : ∀ (xs : List Fragment) (m : Markup),
      (xs.foldl (Fragment.write unit) m).build =
        (xs.map (Fragment.text unit)).foldl (· ++ ·) m.build := by
    intro xs
    induction xs with
    | nil => exact fun _ => rfl
    | cons x xs ih =>
      intro m
      rw [List.foldl_cons, ih, Fragment.build_write, List.map_cons, List.foldl_cons]
  rw [text, markup, ← Array.foldl_toList, step]
  rfl

theorem Canvas.text_put (c : Canvas) (x : Fragment) (unit : String) :
    (c.put x).text unit = c.text unit ++ x.text unit := by
  rw [text_eq_join, text_eq_join, put, Array.toList_push, List.map_append, String.join_append]
  simp [String.join]

end Hypertext
