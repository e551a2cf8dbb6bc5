import Hypertext.Proofs.Contributions

/-! The end of a document. Blanks at the end of its text are trimmed. The last thing that an element
writes is its closing tag, unless it is void, and then in pretty output the line break of a block;
so the trimming takes this line break away and nothing else, whatever blanks the texts in the
document end with. The main statement is `trimmed_of_layout_alone`. -/
namespace Hypertext
set_option autoImplicit false

namespace Text

theorem trimEndChars_concat_blank (s : List Char) {c : Char} (blank : isBlank c = true) :
    trimEndChars (s ++ [c]) = trimEndChars s := by
  simp [trimEndChars, blank]

theorem trimEnd_newline (s : String) : trimEnd (s ++ "\n") = trimEnd s := by
  rw [trimEnd, String.toList_append]
  exact congrArg String.ofList (trimEndChars_concat_blank s.toList (by decide))

theorem trimEnd_closingTag (s tag : String) :
    trimEnd (s ++ Markup.closingTag tag) = s ++ Markup.closingTag tag := by
  have last : (s ++ Markup.closingTag tag).toList = (s ++ ("</" ++ tag)).toList ++ ['>'] := by
    simp [Markup.closingTag]
  rw [trimEnd, last, trimEndChars_concat _ _ (by decide), ← last, String.ofList_toList]

theorem map_append_empty (result : Except Fault String) : result.map (· ++ "") = result := by
  cases result with
  | error fault => rfl
  | ok s => exact congrArg Except.ok String.append_empty

end Text

/-! ## The last fragments -/

namespace Fragment

variable (unit : String)

theorem joined_newline (xs : List Fragment) :
    joined unit (xs ++ [.newline]) = (joined unit xs).map (· ++ "\n") := by
  rw [joined_append, joined_singleton]
  cases joined unit xs <;> rfl

/-- Behind a closing tag there is nothing to trim. -/
theorem trimmed_closing (xs : List Fragment) (x : Face) :
    (joined unit (xs ++ [.closing x])).map Text.trimEnd = joined unit (xs ++ [.closing x]) := by
  rw [joined_append, joined_singleton, spelling]
  cases joined unit xs with
  | error fault => rfl
  | ok s =>
    cases x.tag.result with
    | error fault => rfl
    | ok tag => exact congrArg Except.ok (Text.trimEnd_closingTag s tag)

end Fragment

/-- What stands behind the closing tag of an element. -/
def Face.lastLayout (pretty : Bool) (x : Face) : List Fragment :=
  if pretty && !x.isInline then [.newline] else []

theorem Canvas.exists_closeElement {x : Face} (closed : x.isVoid = false) (pretty : Bool)
    (c : Canvas) : ∃ before, (c.closeElement pretty x).fragments.toList =
      before ++ [.closing x] ++ x.lastLayout pretty := by
  cases pretty with
  | false =>
    refine ⟨c.fragments.toList, ?_⟩
    rw [fragments_closeElement, closed, Face.lastLayout, Bool.false_and,
      if_neg Bool.false_ne_true, if_neg Bool.false_ne_true, List.append_nil]
  | true =>
    refine ⟨c.dedented.fragments.toList, ?_⟩
    have own : (c.dedented.closed x).fragments.toList =
        c.dedented.fragments.toList ++ [.closing x] := by
      rw [Canvas.closed, closed]
      exact Array.toList_push
    rw [closeElement_eq, Face.lastLayout, Bool.true_and, ← own]
    cases x.isInline with
    | true => exact (List.append_nil _).symm
    | false => exact Array.toList_push

namespace Tree

theorem exists_render {x : Face} (closed : x.isVoid = false) (inside : Option Tree)
    (children ts : List Tree) (pretty : Bool) :
    ∃ before, (render pretty (ts ++ [.node x inside children])).fragments.toList =
      before ++ [.closing x] ++ x.lastLayout pretty := by
  rw [render_eq_drawAll, drawAll_append, drawAll, drawAll, draw]
  exact Canvas.exists_closeElement closed pretty _

/-- With its last layout put back, a text that was trimmed is whole again. -/
theorem joined_render_trimmed {x : Face} (closed : x.isVoid = false) (inside : Option Tree)
    (children ts : List Tree) (pretty : Bool) (unit : String) :
    Fragment.joined unit (render pretty (ts ++ [.node x inside children])).fragments.toList =
      ((Fragment.joined unit
        (render pretty (ts ++ [.node x inside children])).fragments.toList).map Text.trimEnd).map
        (· ++ if pretty && !x.isInline then "\n" else "") := by
  obtain ⟨before, fragments⟩ := exists_render closed inside children ts pretty
  have trimmed := Fragment.trimmed_closing unit before x
  rw [fragments, Face.lastLayout]
  generalize before ++ [.closing x] = whole at trimmed
  cases pretty && !x.isInline with
  | false =>
    rw [if_neg Bool.false_ne_true, if_neg Bool.false_ne_true, List.append_nil, trimmed]
    exact (Text.map_append_empty _).symm
  | true =>
    rw [if_pos rfl, if_pos rfl, Fragment.joined_newline]
    cases joined : Fragment.joined unit whole with
    | error fault => rfl
    | ok s =>
      rw [joined] at trimmed
      have same : Text.trimEnd s = s := Except.ok.inj trimmed
      refine congrArg Except.ok ?_
      rw [Text.trimEnd_newline, same]

end Tree

/-! ## Documents -/

namespace Forest

variable {f : Forest}

/-- A value that is an element that is there, and has a closing tag. -/
def IsClosed (f : Forest) (v : Datum) : Prop :=
  ∃ id e, v = .ref (.element id) ∧ f.get? id = some e ∧ Tag.isVoid e.tag = false

/-- Compact text does not depend on the settings. -/
theorem result_renderDocument_compact (settings : Settings) (id : DocumentId) :
    (f.renderDocument settings id (.bool false)).result =
      (((f.rootsOf id).mapM f.markupOf).map String.join).map Text.trimEnd := by
  rw [← joined_trees, ← Renderer.result_render_compact _ settings.indent, renderDocument,
    Account.result_map]
  rfl

/-- Behind a last element that is not void, at most a line break is trimmed. -/
theorem result_render_trimmed {settings : Settings} {unit : String}
    (hunit : settings.indent = .text unit) {id : DocumentId} {before : List Datum}
    {last : ElementId} {e : Element} (roots : f.rootsOf id = before ++ [.ref (.element last)])
    (there : f.get? last = some e) (acyclic : f.AcyclicFrom [.element last])
    (closed : Tag.isVoid e.tag = false) (pretty : Bool) :
    (Renderer.render f ⟨f.rootsOf id, .bool pretty, .text unit⟩).result =
      (f.renderDocument settings id (.bool pretty)).result.map
        (· ++ if pretty && !Tag.isInline e.tag then "\n" else "") := by
  rw [result_renderDocument hunit, Renderer.result_render, roots, trees_concat there acyclic]
  exact Tree.joined_render_trimmed (x := f.face last e) closed _ _ _ pretty unit

theorem isBlock_iff {id : ElementId} {e : Element} (there : f.get? id = some e) :
    f.IsBlock (.ref (.element id)) ↔ Tag.isInline e.tag = false := by
  refine ⟨fun ⟨other, e', same, there', block⟩ => ?_, fun block => ⟨id, e, rfl, there, block⟩⟩
  obtain rfl : id = other := by simpa using same
  obtain rfl := Option.some.inj (there.symm.trans there')
  exact block

theorem exists_renderDocument {settings : Settings} {unit : String}
    (hunit : settings.indent = .text unit) {id : DocumentId} (acyclic : f.AcyclicFrom [.document id])
    (answered : f.Throughout (fun id e => (f.face id e).IsAnswered) (f.rootsOf id))
    (pretty : Bool) : ∃ s, (f.renderDocument settings id (.bool pretty)).result = .ok s := by
  have faces := (unfoldsAll_trees _ acyclic.root).all answered
  obtain ⟨s, rendered⟩ := Renderer.exists_render
    (faces.imp fun x _ ⟨_, _, _, own, face, _⟩ => face ▸ own) pretty unit
  rw [Renderer.result_render] at rendered
  exact ⟨Text.trimEnd s, by rw [result_renderDocument hunit, rendered]; rfl⟩

/-- A document that is empty, or whose last element is not void. -/
def EndsClosed (f : Forest) (id : DocumentId) : Prop :=
  f.rootsOf id = [] ∨ ∃ v, (f.rootsOf id).getLast? = some v ∧ f.IsClosed v

def EndsInBlock (f : Forest) (id : DocumentId) : Prop :=
  ∃ v, (f.rootsOf id).getLast? = some v ∧ f.IsBlock v

variable {id : DocumentId} {settings : Settings}

theorem compact_of_endsClosed (acyclic : f.AcyclicFrom [.document id]) (closed : f.EndsClosed id) :
    (f.renderDocument settings id (.bool false)).result =
      ((f.rootsOf id).mapM f.markupOf).map String.join := by
  rw [result_renderDocument_compact]
  obtain none | ⟨_, last, held, e, rfl, there, solid⟩ := closed
  · rw [none]
    rfl
  · obtain ⟨before, roots⟩ := List.getLast?_eq_some_iff.1 last
    have below := acyclic.root _ (roots ▸ List.mem_concat_self ..) _ rfl
    have unit : ({ indent := .text "" } : Settings).indent = .text "" := rfl
    have whole := result_render_trimmed unit roots there below solid false
    rw [Bool.false_and, if_neg Bool.false_ne_true, Text.map_append_empty,
      result_renderDocument_compact] at whole
    rw [← whole, Renderer.result_render_compact, joined_trees]

theorem pretty_of_endsClosed {unit : String} (hunit : settings.indent = .text unit)
    (acyclic : f.AcyclicFrom [.document id]) (closed : f.EndsClosed id) :
    (f.EndsInBlock id → (Renderer.render f ⟨f.rootsOf id, .bool true, .text unit⟩).result =
      (f.renderDocument settings id (.bool true)).result.map (· ++ "\n")) ∧
    (¬ f.EndsInBlock id → (Renderer.render f ⟨f.rootsOf id, .bool true, .text unit⟩).result =
      (f.renderDocument settings id (.bool true)).result) := by
  obtain none | ⟨_, last, held, e, rfl, there, solid⟩ := closed
  · refine ⟨fun ⟨v, last, _⟩ => ?_, fun _ => ?_⟩
    · rw [none] at last
      cases last
    · rw [result_renderDocument hunit, Renderer.result_render, none, Tree.render_eq_drawAll]
      rfl
  · obtain ⟨before, roots⟩ := List.getLast?_eq_some_iff.1 last
    have below := acyclic.root _ (roots ▸ List.mem_concat_self ..) _ rfl
    have whole := result_render_trimmed hunit roots there below solid true
    have block : f.EndsInBlock id ↔ Tag.isInline e.tag = false := by
      simp [EndsInBlock, last, isBlock_iff there]
    rw [Bool.true_and] at whole
    rw [block]
    refine ⟨fun block => ?_, fun inline => ?_⟩
    · rw [block] at whole
      exact whole
    · rw [Bool.not_eq_false] at inline
      rw [inline] at whole
      exact whole.trans (Text.map_append_empty _)

/-- Trimming the text of a document costs nothing of what it holds, if it is empty or its last
element is not void: in compact output nothing is taken away, and in pretty output the line break
behind a last block and nothing else. -/
theorem trimmed_of_layout_alone (f : Forest) (id : DocumentId) (settings : Settings)
    (acyclic : f.AcyclicFrom [.document id]) (closed : f.EndsClosed id) :
    (f.renderDocument settings id (.bool false)).result =
      ((f.rootsOf id).mapM f.markupOf).map String.join ∧
    (∀ unit : String, settings.indent = .text unit →
      (f.EndsInBlock id → (Renderer.render f ⟨f.rootsOf id, .bool true, .text unit⟩).result =
        (f.renderDocument settings id (.bool true)).result.map (· ++ "\n")) ∧
      (¬ f.EndsInBlock id → (Renderer.render f ⟨f.rootsOf id, .bool true, .text unit⟩).result =
        (f.renderDocument settings id (.bool true)).result)) ∧
    (f.Throughout (fun id e => (f.face id e).IsAnswered) (f.rootsOf id) →
      ∀ unit : String, settings.indent = .text unit → ∃ s t,
        (f.renderDocument settings id (.bool false)).result = .ok s ∧
        (f.renderDocument settings id (.bool true)).result = .ok t) := by
  refine ⟨compact_of_endsClosed acyclic closed,
    fun unit hunit => pretty_of_endsClosed hunit acyclic closed, fun answered unit hunit => ?_⟩
  obtain ⟨s, compact⟩ := exists_renderDocument hunit acyclic answered false
  obtain ⟨t, laidOut⟩ := exists_renderDocument hunit acyclic answered true
  exact ⟨s, t, compact, laidOut⟩

/-- A paragraph and an inline element whose texts end with blanks, in either order. -/
def trailing : Forest where
  elements := #[
    some { kind := .catalog .p, tag := .text "p", content := .text "x \n",
           children := [.ref (.element ⟨1⟩)] },
    some { kind := .catalog .br, tag := .text "br" },
    some { kind := .catalog .em, tag := .text "em", content := .text "y\t" }]
  documents := #[some [.ref (.element ⟨2⟩), .ref (.element ⟨0⟩)],
    some [.ref (.element ⟨0⟩), .ref (.element ⟨2⟩)]]

theorem trailing_acyclic : trailing.Acyclic :=
  acyclic_of_rank_domain diamondRank (by decide)

theorem trimmed_of_layout_alone_of_trailing :
    trailing.AcyclicFrom [.document ⟨0⟩] ∧ trailing.EndsClosed ⟨0⟩ ∧ trailing.EndsInBlock ⟨0⟩ ∧
    (trailing.renderDocument {} ⟨0⟩ (.bool false)).result =
      .ok "<em>y\t</em><p>x \n<br></p>" ∧
    (Renderer.render trailing ⟨trailing.rootsOf ⟨0⟩, .bool true, .text "  "⟩).result =
      .ok ("<em>y\t</em>\n<p>x \n<br></p>" ++ "\n") ∧
    trailing.EndsClosed ⟨1⟩ ∧ ¬ trailing.EndsInBlock ⟨1⟩ ∧
    (Renderer.render trailing ⟨trailing.rootsOf ⟨1⟩, .bool true, .text "  "⟩).result =
      .ok "<p>x \n<br></p>\n<em>y\t</em>" := by
  have acyclic (id : DocumentId) := trailing_acyclic.acyclicFrom [.document id]
  have paragraph : trailing.get? ⟨0⟩ = some _ := rfl
  have emphasis : trailing.get? ⟨2⟩ = some _ := rfl
  have closed₀ : trailing.EndsClosed ⟨0⟩ := .inr ⟨_, rfl, _, _, rfl, paragraph, by decide⟩
  have closed₁ : trailing.EndsClosed ⟨1⟩ := .inr ⟨_, rfl, _, _, rfl, emphasis, by decide⟩
  have block : trailing.EndsInBlock ⟨0⟩ := ⟨_, rfl, (isBlock_iff paragraph).2 (by decide)⟩
  have inline : ¬ trailing.EndsInBlock ⟨1⟩ := by
    rintro ⟨v, last, isBlock⟩
    obtain rfl : _ = v := Option.some.inj last
    exact absurd ((isBlock_iff emphasis).1 isBlock) (by decide)
  obtain ⟨compact, broken, -⟩ := trimmed_of_layout_alone trailing ⟨0⟩ {} (acyclic ⟨0⟩) closed₀
  obtain ⟨-, unbroken, -⟩ := trimmed_of_layout_alone trailing ⟨1⟩ {} (acyclic ⟨1⟩) closed₁
  refine ⟨acyclic ⟨0⟩, closed₀, block, compact.trans (by decide +kernel),
    ((broken "  " rfl).1 block).trans (by decide +kernel), closed₁, inline,
    ((unbroken "  " rfl).2 inline).trans (by decide +kernel)⟩

end Forest

end Hypertext
