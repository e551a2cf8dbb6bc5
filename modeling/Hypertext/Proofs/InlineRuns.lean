import Hypertext.Proofs.Blocks

/-! Inline content of a block. A block clears the mark of a line start before anything is written
behind its opening tag, and inline elements never set it, so that no layout falls between them. The
main statement is `Walk.does_inline_run`, that such a block is its compact text on a line of its
own. -/
namespace Hypertext
set_option autoImplicit false

open Relation

/-! ## Steps on a line that has begun -/

namespace Canvas

variable {x : Face} {c : Canvas}

theorem openElement_inline (inline : x.isInline = true) (begun : c.lineStart = false) :
    c.openElement true x = (c.wrote [.opening x] false).deeper := by
  have opened : c.openElement true x = (c.put (.opening x)).deeper := by
    rw [openElement, inline]
    rfl
  rw [opened, put_eq_wrote, begun]

theorem closeElement_inline (inline : x.isInline = true) (begun : c.lineStart = false) :
    c.deeper.closeElement true x = c.wrote (if x.isVoid then [] else [.closing x]) false := by
  rw [closeElement_eq, inline, if_pos rfl, dedented_deeper, begun, if_neg Bool.false_ne_true,
    closed_eq_wrote, wrote_wrote]
  rfl

end Canvas

namespace Tree

/-- Inline, whatever stands in the text slot. -/
def OfInline (x : Face) (_ : Option Tree) : Prop := x.isInline = true

mutual

/-- Inline elements write their words and leave the line begun. -/
theorem draw_inline (t : Tree) (h : t.All OfInline) {c : Canvas} (begun : c.lineStart = false) :
    t.draw true c = c.wrote t.words false := by
  match t with
  | .bare what children => exact h.elim
  | .node x inside children =>
    obtain ⟨inline, text, held⟩ := h
    rw [draw, Canvas.openElement_inline inline begun, drawText_inline x inside text rfl,
      drawAll_inline children held rfl, Canvas.wrote_wrote, Canvas.wrote_deeper,
      Canvas.wrote_wrote, Canvas.closeElement_inline inline rfl, Canvas.wrote_wrote, words]
    simp

theorem drawText_inline (x : Face) (inside : Option Tree) (h : AllInside OfInline inside)
    {c : Canvas} (begun : c.lineStart = false) :
    drawText true x inside c = c.wrote (wordsText x inside) false := by
  match inside with
  | none => rw [Canvas.drawText_none, begun, Bool.false_and]
  | some t =>
    rw [drawText, wordsText]
    split
    · rw [draw_inline t h begun]
      rfl
    · rw [← begun, Canvas.wrote_nil]

theorem drawAll_inline (ts : List Tree) (h : AllFrom OfInline ts) {c : Canvas}
    (begun : c.lineStart = false) : drawAll true ts c = c.wrote (wordsAll ts) false := by
  match ts with
  | [] => rw [drawAll, wordsAll, ← begun, Canvas.wrote_nil]
  | t :: rest =>
    rw [drawAll, draw_inline t h.1 begun, drawAll_inline rest h.2 rfl, Canvas.wrote_wrote,
      wordsAll]

end

/-- A block that holds only inline elements writes no layout but its own. -/
theorem draw_inline_run {x : Face} {inside : Option Tree} {children : List Tree}
    (block : x.isInline = false) (text : AllInside OfInline inside)
    (held : AllFrom OfInline children) (c : Canvas) :
    (node x inside children).draw true c =
      c.wrote (c.lead ++ [.indentation c.level] ++ (node x inside children).words ++ [.newline])
        true := by
  rw [draw, Canvas.openElement_block block, drawText_inline x inside text rfl,
    drawAll_inline children held rfl, Canvas.wrote_wrote, Canvas.wrote_deeper, Canvas.wrote_wrote,
    Canvas.closeElement_block block, Canvas.wrote_wrote, words]
  simp

end Tree

/-! ## What is properly below an element -/

namespace Forest

variable {f : Forest} {p : ElementId → Element → Prop} {id held : ElementId}

theorem Holds.shows (holds : f.Holds id held) : f.Shows (.element id) (.element held) := by
  obtain ⟨e, there, child | ⟨slot, content⟩⟩ := holds
  · exact shows_child there child rfl
  · exact shows_content there slot (by rw [content]; rfl)

/-- Without circles an element is not held below what it holds. -/
theorem Below.proper (acyclic : f.AcyclicFrom [.element id])
    (h : f.Below (fun other e => other ≠ id → p other e) id) (holds : f.Holds id held) :
    f.Below p held := by
  intro other e path there
  obtain ⟨own, elements⟩ := h other e (.head holds path) there
  refine ⟨own ?_, elements⟩
  rintro rfl
  have back : ReflTransGen f.Shows (.element held) (.element other) :=
    path.lift Ref.element fun _ _ holds => holds.shows
  exact acyclic _ (List.mem_singleton_self _) _ .refl (.head' holds.shows back)

/-- An element that is there unfolds to a node with what it holds. -/
theorem Unfolds.node {e : Element} {t : Tree} (unfolds : f.Unfolds (.ref (.element id)) t)
    (there : f.get? id = some e) : ∃ inside children, t = .node (f.face id e) inside children ∧
      f.UnfoldsText e inside ∧ f.UnfoldsAll e.children children := by
  match unfolds with
  | .element there' text held =>
    obtain rfl := Option.some.inj (there.symm.trans there')
    exact ⟨_, _, rfl, text, held⟩
  | .value plain => exact absurd rfl (plain _)

/-- If all properly below an element is inline, its text and its children are drawn as inline. -/
theorem ofInline_held {e : Element} {inside : Option Tree} {children : List Tree}
    (there : f.get? id = some e) (acyclic : f.AcyclicFrom [.element id])
    (inline : f.Below (fun other e => other ≠ id → Tag.isInline e.tag = true) id)
    (text : f.UnfoldsText e inside) (held : f.UnfoldsAll e.children children) :
    Tree.AllInside Tree.OfInline inside ∧ Tree.AllFrom Tree.OfInline children := by
  have proper {other : ElementId} (holds : f.Holds id other) :
      f.Below (fun _ e => Tag.isInline e.tag = true) other := inline.proper acyclic holds
  have elements : f.Throughout (fun _ e => Tag.isInline e.tag = true) e.children := by
    intro w hw
    obtain ⟨child, rfl⟩ := (inline id e .refl there).2 w hw
    exact ⟨child, rfl, proper ⟨e, there, .inl hw⟩⟩
  have ofInline (x : Face) (inside : Option Tree)
      (h : f.FaceOf (fun _ e => Tag.isInline e.tag = true) x inside) :
      Tree.OfInline x inside := by
    obtain ⟨_, _, _, own, rfl, _⟩ := h
    exact own
  have inText := text.all fun other slot content => proper ⟨e, there, .inr ⟨slot, content⟩⟩
  exact ⟨inText.imp ofInline, (held.all elements).imp ofInline⟩

end Forest

/-! ## Words on their own -/

/-- Without layout the unit of indentation does not count. -/
theorem Fragment.joined_of_words {xs : List Fragment} (words : ∀ x ∈ xs, x.isLayout = false)
    (unit unit' : String) : joined unit xs = joined unit' xs := by
  induction xs with
  | nil => rfl
  | cons x xs ih =>
    obtain ⟨word, others⟩ := List.forall_mem_cons.1 words
    have same : x.spelling unit = x.spelling unit' := by
      cases x with
      | newline | indentation _ => cases word
      | opening _ | closing _ | content _ | refusal _ => rfl
    rw [joined, same, ih others, joined]

namespace Tree

/-- The words of a tree are what compact output spells, whatever the unit of indentation. -/
theorem joined_words {f : Forest} {v : Datum} {t : Tree} (tree : f.tree? v = some t)
    (unit compactUnit : String) : Fragment.joined unit t.words =
      (Renderer.render f ⟨[v], .bool false, .text compactUnit⟩).result := by
  have trees : f.trees [v] = [t] := by
    rw [Forest.trees_cons, tree]
    rfl
  rw [Fragment.joined_of_words (isLayout_words t) unit compactUnit, Renderer.result_render, trees,
    render_eq_drawAll, fragments_drawAll]
  simp [wordsAll, Canvas.empty]

end Tree

/-! ## The walk -/

/-- Where everything properly below a block is inline, through children and texts at any depth, the
block takes the walk from any canvas to the one with its compact text on a line of its own: after a
line break if the line has begun, indented by its depth, and with a line break behind it. -/
theorem Walk.does_inline_run (f : Forest) {id : ElementId} {e : Element}
    (there : f.get? id = some e) (acyclic : f.AcyclicFrom [.element id])
    (block : Tag.isInline e.tag = false)
    (inline : f.Below (fun held e => held ≠ id → Tag.isInline e.tag = true) id) :
    ∃ t, f.tree? (.ref (.element id)) = some t ∧ f.Unfolds (.ref (.element id)) t ∧
      ∀ (rest : List Frame) (c : Canvas), ∃ written,
        Walk.Does true (t.visits.map Visit.frame) (.enter t :: rest) c rest
          (c.wrote written true) ∧
        ∀ unit compactUnit, Fragment.joined unit written =
          (Renderer.render f
              ⟨[.ref (.element id)], .bool false, .text compactUnit⟩).result.map fun compact =>
            (if c.lineStart then "" else "\n") ++ Markup.repeated unit c.level ++ compact ++
              "\n" := by
  have below : f.AcyclicBelow (.ref (.element id)) := by
    rintro r ⟨⟩
    exact acyclic
  obtain ⟨t, tree⟩ : ∃ t, f.tree? (.ref (.element id)) = some t :=
    ⟨_, Forest.tree?_element there acyclic⟩
  have unfolds := Forest.unfolds_of_tree? below tree
  refine ⟨t, tree, unfolds, fun rest c => ?_⟩
  obtain ⟨inside, children, rfl, text, held⟩ := unfolds.node there
  obtain ⟨inText, inChildren⟩ := Forest.ofInline_held there acyclic inline text held
  have drawn := Tree.draw_inline_run (x := f.face id e) block inText inChildren c
  refine ⟨_, drawn ▸ Walk.does_visits _ rest c, fun unit compactUnit => ?_⟩
  have lead : Fragment.joined unit c.lead = .ok (if c.lineStart then "" else "\n") := by
    rw [Canvas.lead]
    split <;> rfl
  rw [Fragment.joined_append, Fragment.joined_append, Fragment.joined_append, lead,
    Fragment.joined_singleton, Fragment.joined_singleton,
    Tree.joined_words tree unit compactUnit]
  cases (Renderer.render f ⟨[.ref (.element id)], .bool false, .text compactUnit⟩).result <;> rfl

/-- A paragraph with an element for a text, a break and a span, which has no text slot. -/
def Forest.sentence : Forest where
  elements := #[
    some { kind := .catalog .p, tag := .text "p", content := .ref (.element ⟨4⟩),
           children := [.ref (.element ⟨2⟩), .ref (.element ⟨1⟩)] },
    some { kind := .catalog .span, tag := .text "span", children := [.ref (.element ⟨3⟩)] },
    some { kind := .catalog .br, tag := .text "br" },
    some { kind := .catalog .i, tag := .text "i", content := .text "y" },
    some { kind := .catalog .em, tag := .text "em", content := .text "x", parent := .element ⟨0⟩ }]

theorem Forest.sentence_acyclic : Forest.sentence.Acyclic :=
  Forest.acyclic_of_rank_domain Forest.diamondRank (by decide)

theorem Forest.sentence_inline :
    sentence.Below (fun held e => held ≠ ⟨0⟩ → Tag.isInline e.tag = true) ⟨0⟩ := by
  intro held e _ there
  match held with
  | ⟨0⟩ | ⟨1⟩ | ⟨2⟩ | ⟨3⟩ | ⟨4⟩ =>
    cases there
    simp [Tag.isInline, Tag.inlineNames]
  | ⟨i + 5⟩ => simp [get?, sentence] at there

theorem Walk.does_inline_run_of_sentence :
    Forest.sentence.get? ⟨0⟩ ≠ none ∧ Forest.sentence.AcyclicFrom [.element ⟨0⟩] ∧
    Forest.sentence.Below (fun held e => held ≠ ⟨0⟩ → Tag.isInline e.tag = true) ⟨0⟩ ∧
    ∃ t written, Forest.sentence.tree? (.ref (.element ⟨0⟩)) = some t ∧
      Walk.Does true (t.visits.map Visit.frame) [.enter t] ⟨#[], 2, false⟩ []
        (Canvas.wrote ⟨#[], 2, false⟩ written true) ∧
      Fragment.joined "  " written =
        .ok "\n    <p><em>x</em><br><span><i>y</i></span></p>\n" := by
  have acyclic := Forest.sentence_acyclic.acyclicFrom [.element ⟨0⟩]
  obtain ⟨t, tree, -, walk⟩ := @Walk.does_inline_run Forest.sentence ⟨0⟩ _ rfl acyclic
    (by decide) Forest.sentence_inline
  obtain ⟨written, does, joined⟩ := walk [] ⟨#[], 2, false⟩
  exact ⟨by simp [Forest.get?, Forest.sentence], acyclic, Forest.sentence_inline, t, written, tree,
    does, (joined "  " "").trans (by decide +kernel)⟩

end Hypertext
