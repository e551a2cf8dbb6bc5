import Hypertext.Proofs.Lines

/-! Trees of blocks. The walk keeps a depth and a mark of a line start, but what it writes of blocks
whose texts are no elements depends on their depth alone: each block is a run of whole lines. The
main statement is `render_eq_blocks`, on the text of such a tree by recursion on it. -/
namespace Hypertext
set_option autoImplicit false

/-! ## Steps at one depth -/

namespace Canvas

variable {x : Face}

/-- The canvas with more fragments on it, at the same depth. -/
def wrote (c : Canvas) (xs : List Fragment) (start : Bool) : Canvas where
  fragments := c.fragments ++ xs
  level := c.level
  lineStart := start

/-- The canvas within one more element. -/
def deeper (c : Canvas) : Canvas := { c with level := c.level + 1 }

/-- The line break before a block, where the line has begun. -/
def lead (c : Canvas) : List Fragment := if c.lineStart then [] else [.newline]

@[simp] theorem level_wrote (c : Canvas) (xs : List Fragment) (start : Bool) :
    (c.wrote xs start).level = c.level := rfl

@[simp] theorem lineStart_wrote (c : Canvas) (xs : List Fragment) (start : Bool) :
    (c.wrote xs start).lineStart = start := rfl

@[simp] theorem level_deeper (c : Canvas) : c.deeper.level = c.level + 1 := rfl

@[simp] theorem lineStart_deeper (c : Canvas) : c.deeper.lineStart = c.lineStart := rfl

theorem wrote_nil (c : Canvas) : c.wrote [] c.lineStart = c := by simp [wrote]

theorem wrote_wrote (c : Canvas) (xs ys : List Fragment) (a b : Bool) :
    (c.wrote xs a).wrote ys b = c.wrote (xs ++ ys) b := by
  simp [wrote, ← Array.toList_inj]

theorem put_eq_wrote (c : Canvas) (y : Fragment) : c.put y = c.wrote [y] c.lineStart := by
  simp [put, wrote]

theorem wrote_deeper (c : Canvas) (xs : List Fragment) (start : Bool) :
    c.deeper.wrote xs start = (c.wrote xs start).deeper := rfl

theorem indent_eq_wrote (c : Canvas) :
    c.indent true = c.wrote (c.lead ++ [.indentation c.level]) false := by
  rw [indent, if_pos rfl, lead]
  cases c.lineStart with
  | true => simp [put, wrote]
  | false => simp [put, wrote]

theorem openElement_block (block : x.isInline = false) (c : Canvas) :
    c.openElement true x =
      (c.wrote (c.lead ++ [.indentation c.level, .opening x]) false).deeper := by
  have indented : c.openElement true x = ((c.indent true).put (.opening x)).deeper := by
    rw [openElement, block]
    rfl
  rw [indented, indent_eq_wrote, put_eq_wrote, wrote_wrote, List.append_assoc]
  rfl

/-- Of the text slot, if it holds no element. -/
theorem drawText_none (x : Face) (c : Canvas) : Tree.drawText true x none c =
    c.wrote (Tree.wordsText x none) (c.lineStart && !x.hasText) := by
  rw [Tree.drawText, Tree.wordsText]
  cases x.hasText with
  | true => simp [writeText, endText, put, wrote]
  | false => simp [wrote]

theorem dedented_deeper (c : Canvas) : c.deeper.dedented =
    c.wrote (if c.lineStart then [.indentation c.level] else []) false := by
  rw [dedented]
  show (if c.lineStart then indent c true else c) = _
  cases start : c.lineStart with
  | true =>
    rw [if_pos rfl, if_pos rfl, indent_eq_wrote, lead, start]
    rfl
  | false => rw [if_neg Bool.false_ne_true, if_neg Bool.false_ne_true, ← start, wrote_nil]

theorem closed_eq_wrote (c : Canvas) (x : Face) :
    c.closed x = c.wrote (if x.isVoid then [] else [.closing x]) c.lineStart := by
  rw [closed]
  split
  · rw [wrote_nil]
  · rw [put_eq_wrote]

/-- The closing tag of a block has a line of its own exactly behind a line break. -/
theorem closeElement_block (block : x.isInline = false) (c : Canvas) :
    c.deeper.closeElement true x =
      c.wrote ((if c.lineStart then [.indentation c.level] else []) ++
        (if x.isVoid then [] else [.closing x]) ++ [.newline]) true := by
  rw [closeElement_eq, block, if_neg Bool.false_ne_true, dedented_deeper, closed_eq_wrote,
    wrote_wrote, put_eq_wrote, wrote_wrote]
  rfl

end Canvas

/-! ## The lines of a tree -/

namespace Tree

mutual

/-- The fragments of a block at some depth. Only blocks with children have a line for their closing
tag. -/
def lines (level : Nat) : Tree → List Fragment
  | .node x _ children =>
    [.indentation level, .opening x] ++ wordsText x none ++
      (if children.isEmpty then []
        else .newline :: linesAll (level + 1) children ++ [.indentation level]) ++
      (if x.isVoid then [] else [.closing x]) ++ [.newline]
  | .bare _ _ => []

def linesAll (level : Nat) : List Tree → List Fragment
  | [] => []
  | t :: rest => lines level t ++ linesAll level rest

end

/-- A tree of blocks, with no element for a text. -/
def OfBlocks (x : Face) (inside : Option Tree) : Prop := x.isInline = false ∧ inside = none

mutual

/-- After a block the next line starts. -/
theorem draw_block (t : Tree) (h : t.All OfBlocks) (c : Canvas) :
    t.draw true c = c.wrote (c.lead ++ t.lines c.level) true := by
  match t with
  | .bare what children => exact h.elim
  | .node x inside children =>
    obtain ⟨⟨block, rfl⟩, -, held⟩ := h
    rw [draw, Canvas.openElement_block block, Canvas.drawText_none, Canvas.wrote_deeper,
      Canvas.wrote_wrote, drawAll_blocks children held, lines]
    cases children with
    | nil =>
      rw [List.isEmpty_nil, if_pos rfl, Canvas.closeElement_block block, Canvas.wrote_wrote]
      simp
    | cons t rest =>
      rw [List.isEmpty_cons, if_neg Bool.false_ne_true, Canvas.wrote_deeper, Canvas.wrote_wrote,
        Canvas.closeElement_block block, Canvas.wrote_wrote]
      simp [Canvas.lead]

/-- The first of some blocks is the one that breaks the line. -/
theorem drawAll_blocks (ts : List Tree) (h : AllFrom OfBlocks ts) (c : Canvas) :
    drawAll true ts c = if ts.isEmpty then c else c.wrote (c.lead ++ linesAll c.level ts) true := by
  match ts with
  | [] => rfl
  | t :: rest =>
    rw [drawAll, draw_block t h.1, drawAll_blocks rest h.2, List.isEmpty_cons,
      if_neg Bool.false_ne_true, linesAll]
    cases rest with
    | nil => rw [List.isEmpty_nil, if_pos rfl, linesAll, List.append_nil]
    | cons u rest =>
      rw [List.isEmpty_cons, if_neg Bool.false_ne_true, Canvas.wrote_wrote, List.append_assoc]
      rfl

end

theorem fragments_render_blocks {ts : List Tree} (h : AllFrom OfBlocks ts) :
    (render true ts).fragments.toList = linesAll 0 ts := by
  rw [render_eq_drawAll, drawAll_blocks ts h]
  cases ts with
  | nil => rfl
  | cons t rest =>
    rw [List.isEmpty_cons, if_neg Bool.false_ne_true]
    simp [Canvas.wrote, Canvas.empty, Canvas.lead]

end Tree

/-! ## The text of a tree -/

theorem ok_bind {ε α β : Type} (a : α) (next : α → Except ε β) :
    (Except.ok a >>= next) = next a := rfl

namespace Tree

mutual

/-- A block at some depth: its opening tag on a line of its own, its text, and its closing tag,
which void elements do not have. What it holds stands between, one level deeper, and then the
closing tag has a line of its own too. What cannot be read is a fault. -/
def block (unit : String) (level : Nat) : Tree → Except Fault String
  | .node x _ children => do
    let opening ← x.tag.result.map (Markup.openingTag · x.attributes)
    let text ← (if x.hasText then x.content.result else .ok "")
    let held ← (if children.isEmpty then .ok ""
      else (blocks unit (level + 1) children).map ("\n" ++ · ++ Markup.repeated unit level))
    let closing ← (if x.isVoid then .ok "" else x.tag.result.map Markup.closingTag)
    return Markup.repeated unit level ++ opening ++ text ++ held ++ closing ++ "\n"
  | .bare _ _ => .ok ""

def blocks (unit : String) (level : Nat) : List Tree → Except Fault String
  | [] => .ok ""
  | t :: rest => do return (← block unit level t) ++ (← blocks unit level rest)

end

variable (unit : String)

mutual

theorem joined_lines (level : Nat) (t : Tree) :
    Fragment.joined unit (t.lines level) = t.block unit level := by
  match t with
  | .bare what children => rfl
  | .node x inside children =>
    have slot : Fragment.joined unit (wordsText x none) =
        if x.hasText then x.content.result else .ok "" := by
      rw [wordsText]
      split
      · exact Fragment.joined_singleton unit _
      · rfl
    have closing : Fragment.joined unit (if x.isVoid then [] else [.closing x]) =
        if x.isVoid then .ok "" else x.tag.result.map Markup.closingTag := by
      split
      · rfl
      · exact Fragment.joined_singleton unit _
    have held : Fragment.joined unit (if children.isEmpty then []
        else .newline :: linesAll (level + 1) children ++ [.indentation level]) =
        if children.isEmpty then .ok ""
        else (blocks unit (level + 1) children).map
          ("\n" ++ · ++ Markup.repeated unit level) := by
      split
      · rfl
      · rw [Fragment.joined_append, Fragment.joined, joined_linesAll (level + 1) children,
          Fragment.joined_singleton]
        cases blocks unit (level + 1) children <;> rfl
    rw [lines, block]
    simp only [Fragment.joined_append, slot, closing, held, Fragment.joined, Fragment.spelling,
      bind_assoc, pure_bind, ok_bind, String.append_empty]

theorem joined_linesAll (level : Nat) (ts : List Tree) :
    Fragment.joined unit (linesAll level ts) = blocks unit level ts := by
  match ts with
  | [] => rfl
  | t :: rest =>
    rw [linesAll, Fragment.joined_append, joined_lines level t, joined_linesAll level rest, blocks]

end

end Tree

/-! ## Renderers -/

/-- The pretty text of blocks whose texts are no elements is the text of their blocks, one after the
other, at whatever depth they stand: there is no other state that counts. -/
theorem Renderer.render_eq_blocks (f : Forest) (roots : List Datum) (unit : String)
    (acyclic : ∀ v ∈ roots, f.AcyclicBelow v)
    (ofBlocks : f.Throughout (fun _ e => Tag.isInline e.tag = false ∧
      (e.hasText = true → Forest.isElement e.content = false)) roots) :
    f.UnfoldsAll roots (f.trees roots) ∧
    (Renderer.render f ⟨roots, .bool true, .text unit⟩).result =
      Tree.blocks unit 0 (f.trees roots) ∧
    (f.Throughout (fun id e => (f.face id e).IsAnswered) roots →
      ∃ s, Tree.blocks unit 0 (f.trees roots) = .ok s) := by
  have unfolds := Forest.unfoldsAll_trees roots acyclic
  have trees : Tree.AllFrom Tree.OfBlocks (f.trees roots) := by
    refine (unfolds.all ofBlocks).imp fun x inside ⟨id, e, _, ⟨block, text⟩, face, slot⟩ => ?_
    refine ⟨face ▸ block, ?_⟩
    match slot with
    | .element slot content _ =>
      rw [content] at text
      cases text slot
    | .other _ => rfl
  have result : (Renderer.render f ⟨roots, .bool true, .text unit⟩).result =
      Tree.blocks unit 0 (f.trees roots) := by
    rw [result_render, Tree.fragments_render_blocks trees, Tree.joined_linesAll]
  refine ⟨unfolds, result, fun answered => ?_⟩
  rw [← result]
  exact exists_render ((unfolds.all answered).imp fun x _ ⟨_, _, _, own, face, _⟩ => face ▸ own)
    true unit

/-- A list and a rule, which is never closed, in a block. -/
def Forest.chapter : Forest where
  elements := #[
    some { kind := .catalog .div, tag := .text "div",
           children := [.ref (.element ⟨1⟩), .ref (.element ⟨3⟩)] },
    some { kind := .catalog .ul, tag := .text "ul", children := [.ref (.element ⟨2⟩)] },
    some { kind := .catalog .li, tag := .text "li", content := .text "x" },
    some { kind := .generic .element, tag := .text "hr" }]

theorem Forest.chapter_acyclic : Forest.chapter.Acyclic :=
  Forest.acyclic_of_rank_domain Forest.diamondRank (by decide)

theorem Forest.chapter_ofBlocks : chapter.Throughout (fun _ e => Tag.isInline e.tag = false ∧
    (e.hasText = true → isElement e.content = false)) [.ref (.element ⟨0⟩)] := by
  refine throughout_of_forall [⟨0⟩] fun id e there => ?_
  have hmem := mem_of_get? there
  simp only [chapter, List.mem_toArray, List.mem_cons, Option.some.injEq, List.not_mem_nil,
    or_false] at hmem
  obtain rfl | rfl | rfl | rfl := hmem
  · exact ⟨⟨by decide, fun _ => rfl⟩, by simp⟩
  · exact ⟨⟨by decide, fun _ => rfl⟩, by simp⟩
  · exact ⟨⟨by decide, fun _ => rfl⟩, by simp⟩
  · exact ⟨⟨by decide, fun _ => rfl⟩, by simp⟩

theorem Renderer.render_eq_blocks_of_chapter :
    (∀ v ∈ [Value.ref (Ref.element ⟨0⟩)], Forest.chapter.AcyclicBelow v) ∧
    Forest.chapter.Throughout (fun _ e => Tag.isInline e.tag = false ∧
      (e.hasText = true → Forest.isElement e.content = false)) [.ref (.element ⟨0⟩)] ∧
    (Renderer.render Forest.chapter ⟨[.ref (.element ⟨0⟩)], .bool true, .text "  "⟩).result =
      .ok "<div>\n  <ul>\n    <li>x</li>\n  </ul>\n  <hr>\n</div>\n" := by
  have acyclic : ∀ v ∈ [Value.ref (Ref.element ⟨0⟩)], Forest.chapter.AcyclicBelow v :=
    fun _ _ _ _ => Forest.chapter_acyclic.acyclicFrom _
  obtain ⟨-, result, -⟩ := Renderer.render_eq_blocks Forest.chapter [.ref (.element ⟨0⟩)] "  "
    acyclic Forest.chapter_ofBlocks
  exact ⟨acyclic, Forest.chapter_ofBlocks, result.trans (by decide +kernel)⟩

end Hypertext
