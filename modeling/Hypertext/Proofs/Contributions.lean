import Hypertext.Proofs.Concatenation
import Hypertext.Proofs.Outlines

/-! Compact markup is put together from what each element adds to it. An element is written as its
tags around what it holds, and what it holds as the text of its slot and the markup of its children,
one after the other, so that it adds the same text wherever it is held and however often. The main
statement is `html_and_inner_agree`. -/
namespace Hypertext
set_option autoImplicit false

/-! ## Attributes -/

theorem Attribute.render_ne_empty (a : Attribute) : a.render ≠ "" := by
  intro empty
  have chars := congrArg String.toList empty
  simp [render] at chars

/-- The text of attributes is empty only if there are none. -/
theorem Attributes.render_eq_empty_iff {c : Attributes} : c.render = "" ↔ c.toList = [] := by
  obtain ⟨_ | ⟨a, rest⟩⟩ := c
  · exact iff_of_true rfl rfl
  · refine iff_of_false (fun empty => a.render_ne_empty ?_) (List.cons_ne_nil a rest)
    cases rest with
    | nil => exact String.intercalate_singleton.symm.trans empty
    | cons b rest =>
      rw [render, List.map_cons, List.map_cons, String.intercalate_cons_cons, String.append_assoc,
        String.append_eq_empty_iff] at empty
      exact empty.1

namespace Forest

variable {f : Forest} {id : ElementId} {e : Element}

/-! ## What is added -/

/-- What a value adds to compact markup that holds it. Only an element has markup. -/
def markupOf (f : Forest) : Datum → Except Fault String
  | .ref (.element id) => (f.html id).result
  | v => .error (.nameMissing (f.typeName v) "tag_name")

/-- What a value that is no element adds in a text slot. A text is escaped unless its element reads as
verbatim, which is not asked for an empty one; null adds nothing, and another value its spelling. -/
def spoken (f : Forest) (id : ElementId) : Datum → Except Fault String
  | .null | .ref (.element _) => .ok ""
  | .text s =>
    if s = "" then .ok ""
    else (Query.verbatim.answer (.ref (.element id)) f).result.map fun verbatim =>
      if f.truth verbatim then s else Text.escape s
  | .made _ v => spoken f id v
  | v => (f.textOf v).result

/-- What the text slot of an element adds, if there is one. -/
def slotMarkup (f : Forest) (id : ElementId) (e : Element) : Except Fault String :=
  if e.hasText then
    match e.content with
    | .ref (.element held) => (f.html held).result
    | v => f.spoken id v
  else .ok ""

/-- The tags of an element around what it holds. A void element has no closing tag, and without
attributes there is no space in the opening one. -/
def enclosed (f : Forest) (e : Element) (inner : Except Fault String) : Except Fault String := do
  let tag ← (f.textOf e.tag).result
  let inner ← inner
  return "<" ++ tag ++ (if e.attributes.toList = [] then "" else " " ++ e.attributes.render) ++
    ">" ++ inner ++ (if Tag.isVoid e.tag then "" else "</" ++ tag ++ ">")

theorem exists_of_enclosed {inner : Except Fault String} {s : String}
    (h : f.enclosed e inner = .ok s) : ∃ t, inner = .ok t := by
  rw [enclosed] at h
  cases tag : (f.textOf e.tag).result with
  | error fault =>
    rw [tag] at h
    cases h
  | ok name =>
    cases inner with
    | error fault =>
      rw [tag] at h
      cases h
    | ok t => exact ⟨t, rfl⟩

/-! ## Values and texts -/

theorem result_html (id : ElementId) : (f.html id).result =
    Fragment.joined "" (Tree.wordsAll (f.trees [.ref (.element id)])) := Tree.result_html _

theorem joined_trees_singleton (v : Datum) :
    Fragment.joined "" (Tree.wordsAll (f.trees [v])) = f.markupOf v := by
  match v with
  | .ref (.element id) => exact (result_html id).symm
  | .ref (.document d) => rfl
  | .scalar _ | .list _ | .record _ | .renderer .. | .made .. => rfl

/-- Values add their markup one after the other. -/
theorem joined_trees (vs : List Datum) : Fragment.joined "" (Tree.wordsAll (f.trees vs)) =
    (vs.mapM f.markupOf).map String.join := by
  induction vs with
  | nil => rfl
  | cons v vs ih =>
    have trees : f.trees (v :: vs) = f.trees [v] ++ f.trees vs :=
      List.filterMap_append (l := [v])
    rw [trees, Tree.wordsAll_append, Fragment.joined_append, joined_trees_singleton, ih,
      List.mapM_cons]
    cases f.markupOf v with
    | error fault => rfl
    | ok s =>
      cases vs.mapM f.markupOf with
      | error fault => rfl
      | ok rest => exact congrArg Except.ok (String.join_cons ..).symm

theorem writtenTag_eq_textOf (v : Datum) : f.writtenTag f.textOfRef v = f.textOf v := by
  cases v <;> rfl

/-- The flag that an element with a text slot reads decides how its text is written. -/
theorem truth_verbatim (there : f.get? id = some e) (slot : e.hasText = true) :
    (f.isVerbatim id).result =
      (Query.verbatim.answer (.ref (.element id)) f).result.map f.truth := by
  have own : f.isMarked id = f.truth e.mark := by
    rw [isMarked, there, Option.any_some, slot, Bool.true_and]
  rw [answer_verbatim there, isVerbatim, own]
  obtain ⟨reports, fault | inherited⟩ := f.inheritsMark id
  · rfl
  · cases inherited <;> rfl

theorem result_written (there : f.get? id = some e) (slot : e.hasText = true) (v : Datum) :
    (f.written id f.textOfRef v).result = f.spoken id v := by
  match v with
  | .text s =>
    rw [spoken]
    split
    next empty =>
      subst empty
      rfl
    next nonempty =>
      rw [written]
      · rw [Account.result_bind, truth_verbatim there slot]
        cases (Query.verbatim.answer (.ref (.element id)) f).result <;> rfl
      · exact nonempty
  | .made o w =>
    rw [written, spoken]
    exact result_written there slot w
  | .ref (.element _) | .ref (.document _) => rfl
  | .scalar .null | .scalar (.bool _) | .scalar (.int _) | .scalar (.float _)
  | .scalar (.choice _) => rfl
  | .list _ | .record _ | .renderer .. => rfl

/-! ## Text slots -/

theorem joined_inside (held : ElementId) (x : Face) (slot : x.hasText = true)
    (none : f.tree? (.ref (.element held)) = none → x.content.result = .ok "") :
    Fragment.joined "" (Tree.wordsText x (f.tree? (.ref (.element held)))) =
      (f.html held).result := by
  rw [result_html, trees_cons]
  cases tree : f.tree? (.ref (.element held)) with
  | none =>
    rw [Tree.wordsText, if_pos slot, Fragment.joined_singleton]
    exact none tree
  | some t =>
    rw [Tree.wordsText, if_pos slot]
    exact congrArg (Fragment.joined "") (List.append_nil t.words).symm

theorem joined_slot (there : f.get? id = some e) :
    Fragment.joined "" (Tree.wordsText (f.face id e) (f.insideOf e)) = f.slotMarkup id e := by
  rw [slotMarkup, insideOf]
  cases slot : e.hasText with
  | false =>
    rw [Bool.false_and, if_neg Bool.false_ne_true, if_neg Bool.false_ne_true, Tree.wordsText,
      show (f.face id e).hasText = false from slot]
    rfl
  | true =>
    have content : (f.face id e).content = f.written id f.textOfRef e.content := by
      show (if e.hasText then _ else _) = _
      rw [slot, if_pos rfl]
    -- what is no element is read of the face
    have spoken : Fragment.joined "" (Tree.wordsText (f.face id e) none) = f.spoken id e.content := by
      rw [Tree.wordsText, show (f.face id e).hasText = true from slot, if_pos rfl,
        Fragment.joined_singleton, Fragment.spelling, content, result_written there slot]
    rw [Bool.true_and, if_pos rfl]
    cases held : e.content with
    | ref r =>
      cases r with
      | element other =>
        refine joined_inside other _ slot fun _ => ?_
        rw [content, held]
        rfl
      | document d =>
        rw [held] at spoken
        exact spoken
    | scalar _ | list _ | record _ | renderer _ _ | made _ _ =>
      rw [held] at spoken
      exact spoken

/-! ## Elements -/

/-- The words of an element are its tags and what is between them. -/
theorem joined_node (x : Face) (inside : Option Tree) (children : List Tree) :
    Fragment.joined "" (Tree.node x inside children).words = do
      let tag ← x.tag.result
      let inner ← Fragment.joined "" (Tree.wordsText x inside ++ Tree.wordsAll children)
      return Markup.openingTag tag x.attributes ++ inner ++
        (if x.isVoid then "" else Markup.closingTag tag) := by
  rw [Tree.words, Fragment.joined, Fragment.joined_append, Fragment.spelling]
  cases tag : x.tag.result with
  | error fault => rfl
  | ok s =>
    have closing : Fragment.joined "" (if x.isVoid then [] else [.closing x]) =
        .ok (if x.isVoid then "" else Markup.closingTag s) := by
      split
      · rfl
      · rw [Fragment.joined_singleton, Fragment.spelling, tag]
        rfl
    rw [closing]
    cases Fragment.joined "" (Tree.wordsText x inside ++ Tree.wordsAll children) with
    | error fault => rfl
    | ok inner => exact congrArg Except.ok (String.append_assoc ..).symm

theorem result_innerHtml {t : Tree} (tree : f.tree? (.ref (.element id)) = some t) :
    (f.innerHtml id).result = Fragment.joined "" (t.drawInner false .empty).fragments.toList := by
  rw [innerHtml, drawnInside, tree, Option.map_some, Option.getD_some,
    Tree.renderInner_eq_drawInner, Canvas.result_compose]

theorem openingTag_eq (tag : String) (c : Attributes) : Markup.openingTag tag c.render =
    "<" ++ tag ++ (if c.toList = [] then "" else " " ++ c.render) ++ ">" := by
  rw [Markup.openingTag]
  by_cases none : c.toList = []
  · rw [if_pos (Attributes.render_eq_empty_iff.2 none), if_pos none, String.append_empty]
  · rw [if_neg fun empty => none (Attributes.render_eq_empty_iff.1 empty), if_neg none]
    simp only [String.append_assoc]

theorem joined_innerHtml (there : f.get? id = some e) (acyclic : f.AcyclicFrom [.element id]) :
    (f.innerHtml id).result = Fragment.joined "" (Tree.wordsText (f.face id e) (f.insideOf e) ++
      Tree.wordsAll (f.trees e.children)) := by
  rw [result_innerHtml (tree?_element there acyclic), Tree.drawInner, Tree.fragments_drawAll,
    Tree.fragments_drawText]
  rfl

theorem html_eq_enclosed (there : f.get? id = some e) (acyclic : f.AcyclicFrom [.element id]) :
    (f.html id).result = f.enclosed e (f.innerHtml id).result := by
  have own := joined_node (f.face id e) (f.insideOf e) (f.trees e.children)
  rw [← joined_innerHtml there acyclic,
    show (f.face id e).tag = f.textOf e.tag from writtenTag_eq_textOf e.tag,
    show (f.face id e).attributes = e.attributes.render from rfl] at own
  simp only [openingTag_eq] at own
  rw [result_html, trees_cons, tree?_element there acyclic]
  exact (congrArg (Fragment.joined "") (List.append_nil _)).trans own

theorem exists_html (acyclic : f.AcyclicFrom [.element id])
    (answered : f.Below (fun id e => (f.face id e).IsAnswered) id) :
    ∃ s, (f.html id).result = .ok s := by
  have below : f.AcyclicBelow (.ref (.element id)) := by
    rintro r ⟨⟩
    exact acyclic
  have unfolds := unfoldsAll_trees [.ref (.element id)] (List.forall_mem_singleton.2 below)
  have faces := unfolds.all (List.forall_mem_singleton.2 ⟨id, rfl, answered⟩)
  obtain ⟨s, html⟩ := Renderer.exists_render
    (faces.imp fun x _ ⟨_, _, _, own, face, _⟩ => face ▸ own) false ""
  rw [Renderer.result_render_compact, ← result_html] at html
  exact ⟨s, html⟩

/-- What an element holds is the text of its slot and then the markup of its children, and its own
markup is that between its tags. Whatever is held may be held elsewhere too: it adds its own markup
wherever it is held, as a root, as a child or as a text. -/
theorem html_and_inner_agree (f : Forest) {id : ElementId} {e : Element}
    (there : f.get? id = some e) (acyclic : f.AcyclicFrom [.element id]) :
    (f.html id).result = f.enclosed e (f.innerHtml id).result ∧
    ((f.innerHtml id).result = do
      let text ← f.slotMarkup id e
      let children ← e.children.mapM f.markupOf
      return text ++ String.join children) ∧
    (∀ (roots : List Datum) (unit : Datum),
      (Renderer.render f ⟨roots, .bool false, unit⟩).result =
        (roots.mapM f.markupOf).map String.join) ∧
    (f.Below (fun id e => (f.face id e).IsAnswered) id →
      ∃ s t, (f.html id).result = .ok s ∧ (f.innerHtml id).result = .ok t) := by
  have outer := html_eq_enclosed there acyclic
  refine ⟨outer, ?_, fun roots unit => ?_, fun answered => ?_⟩
  · rw [joined_innerHtml there acyclic, Fragment.joined_append, joined_slot there, joined_trees]
    cases f.slotMarkup id e with
    | error fault => rfl
    | ok text => cases e.children.mapM f.markupOf <;> rfl
  · rw [Renderer.result_render_compact, joined_trees]
  · obtain ⟨s, html⟩ := exists_html acyclic answered
    obtain ⟨t, inner⟩ := exists_of_enclosed (outer.symm.trans html)
    exact ⟨s, t, html, inner⟩

theorem diamond_answered :
    diamond.Below (fun id e => (diamond.face id e).IsAnswered) ⟨0⟩ := by
  intro id e _ there
  match id with
  | ⟨0⟩ | ⟨1⟩ | ⟨2⟩ =>
    cases there
    exact ⟨⟨⟨_, rfl⟩, ⟨_, rfl⟩⟩, by simp⟩
  | ⟨i + 3⟩ => simp [get?, diamond] at there

/-- A list holds one paragraph twice. -/
theorem html_and_inner_agree_of_diamond :
    diamond.AcyclicFrom [.element ⟨0⟩] ∧
    diamond.Below (fun id e => (diamond.face id e).IsAnswered) ⟨0⟩ ∧
    diamond.markupOf (.ref (.element ⟨1⟩)) = .ok "<p><b>&lt;</b></p>" ∧
    (diamond.innerHtml ⟨0⟩).result = .ok "<p><b>&lt;</b></p><p><b>&lt;</b></p>" ∧
    (diamond.html ⟨0⟩).result = .ok "<ul><p><b>&lt;</b></p><p><b>&lt;</b></p></ul>" := by
  have acyclic := diamond_acyclic.acyclicFrom [.element ⟨0⟩]
  have list : diamond.get? ⟨0⟩ = some _ := rfl
  obtain ⟨outer, inner, -, -⟩ := html_and_inner_agree diamond list acyclic
  have paragraph : diamond.markupOf (.ref (.element ⟨1⟩)) = .ok "<p><b>&lt;</b></p>" := by
    decide +kernel
  have held : (diamond.innerHtml ⟨0⟩).result = .ok "<p><b>&lt;</b></p><p><b>&lt;</b></p>" := by
    rw [inner, List.mapM_cons, List.mapM_cons, paragraph]
    rfl
  refine ⟨acyclic, diamond_answered, paragraph, held, ?_⟩
  rw [outer, held]
  rfl

end Forest

end Hypertext
