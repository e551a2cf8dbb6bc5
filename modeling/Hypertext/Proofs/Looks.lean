import Hypertext.Render.Agreement
import Hypertext.Render.Renderer

/-! What rendering sees of a tree: kinds, tags, attributes and readings, but neither identities nor
links. The main statement is `render_congr`: roots that look the same are rendered the same. -/
namespace Hypertext
set_option autoImplicit false

/-- A face without what rendering does not see. -/
def Face.bared (x : Face) : Face where
  element := { kind := x.element.kind, tag := x.element.tag, attributes := x.element.attributes }
  tag := x.tag
  content := x.content

namespace Tree

mutual

def bared : Tree → Tree
  | .node x inside children => .node x.bared (baredInside inside) (baredAll children)
  | .bare what children => .bare what (baredAll children)

def baredInside : Option Tree → Option Tree
  | none => none
  | some t => some (bared t)

def baredAll : List Tree → List Tree
  | [] => []
  | t :: rest => bared t :: baredAll rest

end

end Tree

def Fragment.bared : Fragment → Fragment
  | opening x => opening x.bared
  | closing x => closing x.bared
  | content x => content x.bared
  | newline => newline
  | indentation level => indentation level
  | refusal fault => refusal fault

namespace Canvas

def bared (c : Canvas) : Canvas := { c with fragments := c.fragments.map Fragment.bared }

theorem bared_put (c : Canvas) (x : Fragment) : (c.put x).bared = c.bared.put x.bared := by
  simp only [bared, put, Array.map_push]

theorem bared_indent (c : Canvas) (pretty : Bool) :
    (c.indent pretty).bared = c.bared.indent pretty := by
  cases pretty with
  | false => rfl
  | true =>
    obtain ⟨fragments, level, lineStart⟩ := c
    cases lineStart with
    | false => simp [indent, bared, put, Fragment.bared]
    | true => simp [indent, bared, put, Fragment.bared]

theorem bared_openElement (c : Canvas) (pretty : Bool) (x : Face) :
    (c.openElement pretty x).bared = c.bared.openElement pretty x.bared := by
  have broken : (if pretty && !x.isInline then c.indent pretty else c).bared =
      if pretty && !x.bared.isInline then c.bared.indent pretty else c.bared := by
    show _ = if pretty && !x.isInline then c.bared.indent pretty else c.bared
    split
    · exact bared_indent c pretty
    · rfl
  rw [openElement, bared_put, openElement, ← broken]
  rfl

theorem bared_writeText (c : Canvas) (x : Face) :
    (c.writeText x).bared = c.bared.writeText x.bared := by
  rw [writeText, writeText, ← show Fragment.bared (.content x) = .content x.bared from rfl,
    ← bared_put]
  rfl

theorem bared_closeElement (c : Canvas) (pretty : Bool) (x : Face) :
    (c.closeElement pretty x).bared = c.bared.closeElement pretty x.bared := by
  have last (c : Canvas) : (if !x.isInline && pretty && !c.lineStart then
      { c.put .newline with lineStart := true } else c).bared =
      if !x.bared.isInline && pretty && !c.bared.lineStart then
        { c.bared.put .newline with lineStart := true } else c.bared := by
    show _ = if !x.isInline && pretty && !c.lineStart then
      { c.bared.put .newline with lineStart := true } else c.bared
    split
    · rw [← show Fragment.bared .newline = .newline from rfl, ← bared_put]
      rfl
    · rfl
  have closing (c : Canvas) : (if x.isVoid then c else c.put (.closing x)).bared =
      if x.bared.isVoid then c.bared else c.bared.put (.closing x.bared) := by
    show _ = if x.isVoid then c.bared else c.bared.put (.closing x.bared)
    split
    · rfl
    · exact bared_put c _
  have first (c : Canvas) : (if c.lineStart then c.indent pretty else c).bared =
      if c.bared.lineStart then c.bared.indent pretty else c.bared := by
    show _ = if c.lineStart then c.bared.indent pretty else c.bared
    split
    · exact bared_indent c pretty
    · rfl
  rw [closeElement, closeElement]
  refine (last _).trans ?_
  rw [closing, first]
  rfl

end Canvas

namespace Tree

variable (pretty : Bool)

mutual

theorem bared_draw (t : Tree) (c : Canvas) :
    (t.draw pretty c).bared = t.bared.draw pretty c.bared := by
  match t with
  | .bare what children =>
    rw [draw, bared, draw]
    exact c.bared_put _
  | .node x inside children =>
    rw [draw, Canvas.bared_closeElement, bared_drawAll children, bared_drawText x inside,
      Canvas.bared_openElement, bared, draw]

theorem bared_drawText (x : Face) (inside : Option Tree) (c : Canvas) :
    (drawText pretty x inside c).bared = drawText pretty x.bared (baredInside inside) c.bared := by
  match inside with
  | none =>
    rw [drawText, baredInside, drawText]
    show _ = if x.hasText then c.bared.writeText x.bared else c.bared
    split
    · exact c.bared_writeText x
    · rfl
  | some t =>
    rw [drawText, baredInside, drawText, ← bared_draw t]
    show _ = if x.hasText then (t.draw pretty c).bared.endText else c.bared
    split
    · rfl
    · rfl

theorem bared_drawAll (ts : List Tree) (c : Canvas) :
    (drawAll pretty ts c).bared = drawAll pretty (baredAll ts) c.bared := by
  match ts with
  | [] => rfl
  | t :: rest => rw [drawAll, bared_drawAll rest, bared_draw t, baredAll, drawAll]

end

end Tree

theorem Fragment.part_bared (x : Fragment) (indent : Indentation) :
    x.bared.part indent = x.part indent := by
  cases x with
  | opening x | closing x | content x => rfl
  | newline | indentation _ | refusal _ => rfl

theorem Canvas.compose_bared (c : Canvas) (indent : Indentation) :
    c.bared.compose indent = c.compose indent := by
  simp only [compose, bared, Array.toList_map, Account.fold, List.foldl_map, Fragment.part_bared]

theorem Canvas.bared_empty : Canvas.empty.bared = .empty := by
  simp [bared, empty]

theorem Renderer.render_congr {f g : Forest} {roots others : List Datum}
    (looks : Tree.baredAll (f.trees roots) = Tree.baredAll (g.trees others))
    (count : roots.length = others.length) (pretty : Bool) (unit : String) :
    Renderer.render f ⟨roots, .bool pretty, .text unit⟩ =
      Renderer.render g ⟨others, .bool pretty, .text unit⟩ := by
  have same : (Tree.drawAll pretty (f.trees roots) .empty).bared =
      (Tree.drawAll pretty (g.trees others) .empty).bared := by
    rw [Tree.bared_drawAll, Tree.bared_drawAll, looks]
  show (do
      Account.report (.rendering roots.length (.bool pretty))
      (Tree.render pretty (f.trees roots)).compose (.ofText unit) : Reading String) = (do
      Account.report (.rendering others.length (.bool pretty))
      (Tree.render pretty (g.trees others)).compose (.ofText unit))
  rw [count, Tree.render_eq_drawAll, Tree.render_eq_drawAll, ← Canvas.compose_bared, same,
    Canvas.compose_bared]

end Hypertext
