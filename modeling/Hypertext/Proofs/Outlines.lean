import Hypertext.Proofs.Collections

/-! What the markup of an element is put together from. It is the same before and after a collection
that leaves the element, but for the texts of elements that have lost a mark above them: these were
written as they are, and are escaped then. The main statement is `dropping_loses_ancestors_only`. -/
namespace Hypertext
set_option autoImplicit false

open Relation

/-! ## Outlines -/

/-- The makings of a text: what stands in any case, the texts of elements, which marks decide about,
and documents, whose blanks at the end are dropped. -/
inductive Outline where
  | fixed (result : Except Fault String)
  | text (id : ElementId) (s : String)
  | append (first second : Outline)
  | trimmed (whole : Outline)

namespace Outline

/-- The text that comes of an outline, or its first fault, where some texts are written as they are.
-/
def spell (verbatim : ElementId → Except Fault Bool) : Outline → Except Fault String
  | fixed result => result
  | text id s => do return if ← verbatim id then s else Text.escape s
  | append first second => do return (← first.spell verbatim) ++ (← second.spell verbatim)
  | trimmed whole => (whole.spell verbatim).map Text.trimEnd

def texts : Outline → List (ElementId × String)
  | fixed _ => []
  | text id s => [(id, s)]
  | append first second => first.texts ++ second.texts
  | trimmed whole => whole.texts

theorem spell_congr {verbatim verbatim' : ElementId → Except Fault Bool} {o : Outline}
    (h : ∀ t ∈ o.texts, verbatim t.1 = verbatim' t.1) : o.spell verbatim = o.spell verbatim' := by
  induction o with
  | fixed _ => rfl
  | text id s => rw [spell, spell, h (id, s) (List.mem_singleton_self _)]
  | append first second ih ih' =>
    obtain ⟨head, tail⟩ := List.forall_mem_append.1 h
    rw [spell, spell, ih head, ih' tail]
  | trimmed whole ih => rw [spell, spell, ih h]

end Outline

/-- How the texts of elements are written in a forest. -/
def Forest.verbatim (f : Forest) (id : ElementId) : Except Fault Bool := (f.isVerbatim id).result

/-- Two results come of one outline, each with the marks of its forest, and its texts are of one
kind. -/
def Forest.Outlined (f g : Forest) (p : ElementId → String → Prop) (a b : Except Fault String) : Prop :=
  ∃ o : Outline, (∀ t ∈ o.texts, p t.1 t.2) ∧ a = o.spell f.verbatim ∧ b = o.spell g.verbatim

namespace Forest.Outlined

variable {f g : Forest} {p : ElementId → String → Prop} {a b c d : Except Fault String}

theorem fixed (f g : Forest) (p : ElementId → String → Prop) (a : Except Fault String) :
    f.Outlined g p a a := ⟨.fixed a, fun _ h => absurd h List.not_mem_nil, rfl, rfl⟩

theorem text {id : ElementId} {s : String} (h : p id s) : f.Outlined g p
    (do return if ← f.verbatim id then s else Text.escape s)
    (do return if ← g.verbatim id then s else Text.escape s) := by
  refine ⟨.text id s, fun t ht => ?_, rfl, rfl⟩
  rw [List.mem_singleton.1 ht]
  exact h

theorem append (first : f.Outlined g p a b) (second : f.Outlined g p c d) :
    f.Outlined g p (do return (← a) ++ (← c)) (do return (← b) ++ (← d)) := by
  obtain ⟨o, ho, rfl, rfl⟩ := first
  obtain ⟨o', ho', rfl, rfl⟩ := second
  exact ⟨.append o o', List.forall_mem_append.2 ⟨ho, ho'⟩, rfl, rfl⟩

theorem trimmed (whole : f.Outlined g p a b) :
    f.Outlined g p (a.map Text.trimEnd) (b.map Text.trimEnd) := by
  obtain ⟨o, ho, rfl, rfl⟩ := whole
  exact ⟨.trimmed o, ho, rfl, rfl⟩

/-- Between fixed texts. -/
theorem within (inner : f.Outlined g p a b) (before after : String) :
    f.Outlined g p (a.map fun s => before ++ s ++ after) (b.map fun s => before ++ s ++ after) := by
  have whole := ((fixed f g p (.ok before)).append inner).append (fixed f g p (.ok after))
  cases a <;> cases b <;> exact whole

theorem openingTag (tag : f.Outlined g p a b) (attributes : String) :
    f.Outlined g p (a.map (Markup.openingTag · attributes))
      (b.map (Markup.openingTag · attributes)) := by
  by_cases none : attributes = ""
  · have same : (Markup.openingTag · attributes) = fun s => "<" ++ s ++ ">" :=
      funext fun s => if_pos none
    rw [same]
    exact tag.within "<" ">"
  · have same : (Markup.openingTag · attributes) = fun s => "<" ++ s ++ (" " ++ attributes ++ ">") :=
      funext fun s => (if_neg none).trans (by simp only [String.append_assoc])
    rw [same]
    exact tag.within "<" (" " ++ attributes ++ ">")

theorem closingTag (tag : f.Outlined g p a b) :
    f.Outlined g p (a.map Markup.closingTag) (b.map Markup.closingTag) := tag.within "</" ">"

theorem joined {xs ys : List Fragment}
    (each : List.Forall₂ (fun x y => f.Outlined g p (x.spelling "") (y.spelling "")) xs ys) :
    f.Outlined g p (Fragment.joined "" xs) (Fragment.joined "" ys) := by
  induction each with
  | nil => exact fixed f g p _
  | cons head _ ih => exact head.append ih

end Forest.Outlined

/-! ## Words -/

/-- Compact markup is made of the words of the trees. -/
theorem Tree.result_html (ts : List Tree) :
    (Tree.html ts).result = Fragment.joined "" (wordsAll ts) := by
  rw [html, Account.result_bind]
  show ((render false ts).compose (.ofText "")).result = _
  rw [Canvas.result_compose, render_eq_drawAll, fragments_drawAll]
  rfl

theorem Tree.words_ne_nil (t : Tree) : t.words ≠ [] := by
  cases t with
  | node x inside children => exact (nomatch ·)
  | bare what children => exact (nomatch ·)

namespace Forest

variable {f g : Forest} {roots : List Ref} {id : ElementId} {e : Element} {depth : Nat}
  {p : ElementId → String → Prop}

/-- The words of what some values unfold to down to a depth. -/
def wordsWithin (f : Forest) (depth : Nat) (vs : List Datum) : List Fragment :=
  Tree.wordsAll (vs.filterMap (f.treeWithin depth))

theorem wordsWithin_cons (f : Forest) (depth : Nat) (v : Datum) (vs : List Datum) :
    f.wordsWithin depth (v :: vs) = f.wordsWithin depth [v] ++ f.wordsWithin depth vs := by
  simp only [wordsWithin, List.filterMap_cons, List.filterMap_nil]
  cases f.treeWithin depth v with
  | none => rfl
  | some t => simp only [Tree.wordsAll, List.append_nil]

/-- The face of an element, with whatever it refers to unfolded down to a depth. -/
def faceWithin (f : Forest) (depth : Nat) (id : ElementId) (e : Element) : Face :=
  f.faceOf id e (f.textOfRefBy (·.filterMap (f.treeWithin depth)))

theorem wordsWithin_element (there : f.get? id = some e) (depth : Nat) :
    f.wordsWithin (depth + 1) [.ref (.element id)] =
      .opening (f.faceWithin depth id e) ::
        (Tree.wordsText (f.faceWithin depth id e)
            (if e.hasText && isElement e.content then f.treeWithin depth e.content else none) ++
          f.wordsWithin depth e.children ++
          if (f.faceWithin depth id e).isVoid then [] else [.closing (f.faceWithin depth id e)]) := by
  simp only [wordsWithin, List.filterMap_cons, List.filterMap_nil, treeWithin, there]
  exact List.append_nil _

/-- Fragments of two forests that are spelled alike, one by one. -/
abbrev Alongside (f g : Forest) (p : ElementId → String → Prop) :
    List Fragment → List Fragment → Prop :=
  List.Forall₂ fun x y => f.Outlined g p (x.spelling "") (y.spelling "")

theorem alongside_cons {vs : List Datum}
    (each : ∀ v ∈ vs, f.Alongside g p (f.wordsWithin depth [v]) (g.wordsWithin depth [v])) :
    f.Alongside g p (f.wordsWithin depth vs) (g.wordsWithin depth vs) := by
  induction vs with
  | nil => exact .nil
  | cons v vs ih =>
    obtain ⟨head, tail⟩ := List.forall_mem_cons.1 each
    rw [wordsWithin_cons, wordsWithin_cons g]
    exact List.rel_append head (ih tail)

/-! ## Readings -/

/-- What an element that is left holds is left. -/
theorem Pruned.keeps_part (pruned : f.Pruned g roots) (keeps : f.LeftIn g (.element id))
    (there : f.get? id = some e) {s : Ref} (part : s ∈ e.holds id) : f.LeftIn g s :=
  pruned.keeps keeps (held_of_get? there ▸ part)

theorem Pruned.describeWithin (pruned : f.Pruned g roots) (depth : Nat) {r : Ref}
    (keeps : f.LeftIn g r) : g.describeWithin depth r = f.describeWithin depth r := by
  induction depth generalizing r with
  | zero =>
    cases r with
    | element id => rfl
    | document d => rw [Forest.describeWithin, Forest.describeWithin, pruned.rootsOf_of_keeps keeps]
  | succ depth ih =>
    cases r with
    | document d => rw [Forest.describeWithin, Forest.describeWithin, pruned.rootsOf_of_keeps keeps]
    | element id =>
      rw [Forest.describeWithin, Forest.describeWithin, pruned.get?_of_keeps keeps]
      cases there : f.get? id with
      | none => rfl
      | some e =>
        have tag :
            e.tag.literal (g.describeWithin depth) = e.tag.literal (f.describeWithin depth) := by
          refine Value.literal_congr fun s hs => ih (pruned.keeps_part keeps there ?_)
          simp [Element.holds, hs]
        simp only [tag]

theorem Pruned.describesTooLong (pruned : f.Pruned g roots) (depth : Nat) {r : Ref}
    (keeps : f.LeftIn g r) : g.describesTooLong depth r = f.describesTooLong depth r := by
  induction depth generalizing r with
  | zero => cases r <;> rfl
  | succ depth ih =>
    cases r with
    | document d => rfl
    | element id =>
      rw [Forest.describesTooLong, Forest.describesTooLong, pruned.get?_of_keeps keeps]
      cases there : f.get? id with
      | none => rfl
      | some e =>
        refine Value.isTooLong_congr fun s hs => ih (pruned.keeps_part keeps there ?_)
        simp [Element.holds, hs]

theorem Pruned.spelling (pruned : f.Pruned g roots) {v : Datum} (keeps : ∀ r ∈ v.refs, f.LeftIn g r) :
    g.spelling v = f.spelling v := by
  have long : g.isTooLong v = f.isTooLong v := by
    rw [isTooLong, isTooLong, pruned.elements]
    exact Value.isTooLong_congr fun r hr => pruned.describesTooLong _ (keeps r hr)
  have plain : v.plain g.describe g.describe = v.plain f.describe f.describe := by
    refine Value.plain_congr fun r hr => ?_
    rw [describe, describe, pruned.elements]
    exact pruned.describeWithin _ (keeps r hr)
  rw [Forest.spelling, Forest.spelling, long, plain]

theorem Pruned.typeName (pruned : f.Pruned g roots) {v : Datum} (keeps : ∀ r ∈ v.refs, f.LeftIn g r) :
    g.typeName v = f.typeName v := by
  refine Value.typeName_congr fun r hr => ?_
  cases r with
  | document d => rfl
  | element id => rw [typeOfRef, pruned.get?_of_keeps (keeps _ hr), typeOfRef]

variable {text text' : Ref → Reading String} {v : Datum}

theorem Pruned.outlined_tag (pruned : f.Pruned g roots) (keeps : ∀ r ∈ v.refs, f.LeftIn g r)
    (texts : ∀ r, v.ref? = some r → f.Outlined g p (text r).result (text' r).result) :
    f.Outlined g p (f.writtenTag text v).result (g.writtenTag text' v).result := by
  unfold writtenTag
  split
  next r => exact texts r rfl
  next =>
    rw [pruned.spelling keeps]
    exact .fixed f g p _

/-- The recursion is that of the slot through the origins of its content. -/
theorem Pruned.outlined_content (pruned : f.Pruned g roots) (keeps : ∀ r ∈ v.refs, f.LeftIn g r)
    (own : ∀ s, v.erased = .text s → p id s)
    (texts : ∀ r, v.ref? = some r → f.Outlined g p (text r).result (text' r).result) :
    f.Outlined g p (f.written id text v).result (g.written id text' v).result := by
  fun_induction f.written id text v with
  | case1 | case2 | case3 => exact .fixed f g p _
  | case4 s hs =>
    rw [written.eq_4 _ _ _ _ hs, Account.result_bind, Account.result_bind]
    exact .text (own s rfl)
  | case5 r hr =>
    have same : g.written id text' (.ref r) = text' r := by
      rw [written]
      exact hr
    rw [same]
    exact texts r rfl
  | case6 o v ih =>
    rw [written]
    exact ih keeps own texts
  | case7 v h1 h2 h3 h4 h5 h6 =>
    have same : g.written id text' v = .ofExcept (g.spelling v) := by
      rw [written] <;> assumption
    rw [same, pruned.spelling keeps]
    exact .fixed f g p _

/-! ## Renderings -/

/-- A text of an element that is written out below a root, and that is left with it. -/
structure TextBelow (f g : Forest) (root : Ref) (id : ElementId) (s : String) : Prop where
  below : ReflTransGen f.Shows root (.element id)
  left : g.isAlive id = true
  content : ∃ e, f.get? id = some e ∧ e.hasText = true ∧ e.content.erased = .text s

/-- Values below a root that are left unfold to words that are spelled alike. -/
def AlongsideBelow (f g : Forest) (root : Ref) (depth : Nat) : Prop :=
  ∀ v : Datum, (∀ r, v.ref? = some r → ReflTransGen f.Shows root r) → (∀ r ∈ v.refs, f.LeftIn g r) →
    f.Alongside g (f.TextBelow g root) (f.wordsWithin depth [v]) (g.wordsWithin depth [v])

/-- The tags of two faces of one element. -/
theorem tags_alongside {x y : Face} (hx : x.element = e) (hy : y.element = e)
    (tag : f.Outlined g p x.tag.result y.tag.result) :
    f.Outlined g p (Fragment.spelling "" (.opening x)) (Fragment.spelling "" (.opening y)) ∧
      f.Alongside g p (if x.isVoid then [] else [.closing x])
        (if y.isVoid then [] else [.closing y]) := by
  rw [Fragment.spelling, Fragment.spelling, Face.attributes, Face.attributes, Face.isVoid,
    Face.isVoid, hx, hy]
  refine ⟨tag.openingTag _, ?_⟩
  split
  · exact .nil
  · exact .cons tag.closingTag .nil

theorem wordsText_alongside {x y : Face} {slot : Datum} (hx : x.element = e) (hy : y.element = e)
    (content : f.Outlined g p x.content.result y.content.result)
    (inside : e.hasText = true →
      f.Alongside g p (f.wordsWithin depth [slot]) (g.wordsWithin depth [slot])) :
    f.Alongside g p
      (Tree.wordsText x (if e.hasText && isElement slot then f.treeWithin depth slot else none))
      (Tree.wordsText y (if e.hasText && isElement slot then g.treeWithin depth slot else none)) := by
  have own : f.Alongside g p (Tree.wordsText x none) (Tree.wordsText y none) := by
    rw [Tree.wordsText, Tree.wordsText, Face.hasText, Face.hasText, hx, hy]
    split
    · exact .cons content .nil
    · exact .nil
  split
  next element =>
    rw [Bool.and_eq_true] at element
    have inside := inside element.1
    simp only [wordsWithin, List.filterMap_cons, List.filterMap_nil] at inside
    have hasText : x.hasText = true := by rw [Face.hasText, hx, element.1]
    have hasText' : y.hasText = true := by rw [Face.hasText, hy, element.1]
    cases hf : f.treeWithin depth slot with
    | none =>
      cases hg : g.treeWithin depth slot with
      | none => exact own
      | some u =>
        rw [hf, hg] at inside
        exact absurd (List.forall₂_nil_left_iff.1 inside) (by simp [Tree.wordsAll, u.words_ne_nil])
    | some t =>
      cases hg : g.treeWithin depth slot with
      | none =>
        rw [hf, hg] at inside
        exact absurd (List.forall₂_nil_right_iff.1 inside) (by simp [Tree.wordsAll, t.words_ne_nil])
      | some u =>
        rw [hf, hg] at inside
        simp only [Tree.wordsAll, List.append_nil] at inside
        rw [Tree.wordsText, Tree.wordsText, if_pos hasText, if_pos hasText']
        exact inside
  next => exact own

section Below

variable {root r : Ref} (pruned : f.Pruned g roots) (alongside : f.AlongsideBelow g root depth)
include pruned alongside

/-- What a slot or a tag refers to is spelled alike. -/
theorem outlined_textOfRef (above : ReflTransGen f.Shows root r) (keeps : f.LeftIn g r) :
    f.Outlined g (f.TextBelow g root) (f.textOfRefBy (·.filterMap (f.treeWithin depth)) r).result
      (g.textOfRefBy (·.filterMap (g.treeWithin depth)) r).result := by
  cases r with
  | element id =>
    rw [textOfRefBy, textOfRefBy, Tree.result_html, Tree.result_html]
    refine .joined (alongside _ (fun s hs => ?_) fun s hs => ?_)
    · obtain rfl := Option.some.inj hs
      exact above
    · rwa [List.mem_singleton.1 hs]
  | document d =>
    rw [textOfRefBy, textOfRefBy, Tree.documentHtml, Tree.documentHtml, Account.result_map,
      Account.result_map, Tree.result_html, Tree.result_html, pruned.rootsOf_of_keeps keeps]
    refine .trimmed (.joined (alongside_cons fun w hw => alongside w (fun s hs => ?_) fun s hs => ?_))
    · exact above.tail (shows_root hw hs)
    · exact pruned.keeps keeps (Value.mem_refsList hw hs)

theorem alongside_element (there : f.get? id = some e) (kept : f.LeftIn g (.element id))
    (above : ReflTransGen f.Shows root (.element id)) :
    f.Alongside g (f.TextBelow g root) (f.wordsWithin (depth + 1) [.ref (.element id)])
      (g.wordsWithin (depth + 1) [.ref (.element id)]) := by
  have left : g.get? id = some e := (pruned.get?_of_keeps kept).trans there
  have part (s : Ref) (h : s ∈ e.holds id) : f.LeftIn g s := pruned.keeps_part kept there h
  have tags : ∀ r ∈ e.tag.refs, f.LeftIn g r := fun r hr => part r (by simp [Element.holds, hr])
  have contents : ∀ r ∈ e.content.refs, f.LeftIn g r := fun r hr =>
    part r (by simp [Element.holds, hr])
  have text (r : Ref) (shows : f.Shows (.element id) r) (keeps : f.LeftIn g r) :=
    outlined_textOfRef pruned alongside (above.tail shows) keeps
  have tag : f.Outlined g (f.TextBelow g root)
      (f.faceWithin depth id e).tag.result (g.faceWithin depth id e).tag.result :=
    pruned.outlined_tag tags fun r hr =>
      text r (shows_tag there hr) (tags r (Value.mem_refs_of_ref? hr))
  have content : f.Outlined g (f.TextBelow g root)
      (f.faceWithin depth id e).content.result (g.faceWithin depth id e).content.result := by
    simp only [faceWithin, faceOf]
    split
    next slot =>
      refine pruned.outlined_content contents (fun s hs => ?_) fun r hr =>
        text r (shows_content there slot hr) (contents r (Value.mem_refs_of_ref? hr))
      exact ⟨above, kept (isThere_element.2 ⟨e, there⟩), e, there, slot, hs⟩
    next => exact .fixed f g _ _
  have children : f.Alongside g (f.TextBelow g root) (f.wordsWithin depth e.children)
      (g.wordsWithin depth e.children) := by
    refine alongside_cons fun w hw => alongside w (fun s hs => ?_) fun s hs => part s ?_
    · exact above.tail (shows_child there hw hs)
    · simp [Element.holds, Value.mem_refsList hw hs]
  obtain ⟨opening, closing⟩ := tags_alongside (e := e) rfl rfl tag
  rw [wordsWithin_element there, wordsWithin_element left]
  refine .cons opening (List.rel_append (List.rel_append ?_ children) closing)
  refine wordsText_alongside rfl rfl content fun slot => alongside _ (fun s hs => ?_) contents
  exact above.tail (shows_content there slot hs)

end Below

/-- By induction on the depth. What lies below a value that is left is left as well, so that it
unfolds in the same way, and only the texts of elements may be written in another. -/
theorem Pruned.alongside (pruned : f.Pruned g roots) (root : Ref) (depth : Nat) :
    f.AlongsideBelow g root depth := by
  induction depth with
  | zero =>
    intro v _ _
    simp only [wordsWithin, List.filterMap_cons, List.filterMap_nil, treeWithin]
    exact .nil
  | succ depth ih =>
    intro v below keeps
    cases v with
    | ref r =>
      cases r with
      | element id =>
        have kept : f.LeftIn g (.element id) := keeps _ (List.mem_singleton_self _)
        cases there : f.get? id with
        | none =>
          have gone : g.get? id = none := (pruned.get?_of_keeps kept).trans there
          simp only [wordsWithin, List.filterMap_cons, List.filterMap_nil, treeWithin, there, gone]
          exact .nil
        | some e => exact alongside_element pruned ih there kept (below _ rfl)
      | document d =>
        simp only [wordsWithin, List.filterMap_cons, List.filterMap_nil, treeWithin]
        exact .cons (.fixed f g _ _) .nil
    | scalar _ | list _ | record _ | renderer _ _ | made _ _ =>
      simp only [wordsWithin, List.filterMap_cons, List.filterMap_nil, treeWithin,
        pruned.typeName keeps]
      exact .cons (.fixed f g _ _) .nil

theorem Pruned.outlined (pruned : f.Pruned g roots) {r : Ref} (left : g.isThere r = true) :
    f.Outlined g (f.TextBelow g r) (f.textOfRef r).result (g.textOfRef r).result := by
  have same := outlined_textOfRef pruned (pruned.alongside r (f.elements.size + f.documents.size + 1))
    .refl fun _ => left
  have whole (f : Forest) : f.textOfRef r = f.textOfRefBy
      (·.filterMap (f.treeWithin (f.elements.size + f.documents.size + 1))) r := rfl
  rw [whole, whole, pruned.elements, pruned.documents]
  exact same

/-- What becomes of a forest of which a part is gone. What is left is as it was and misses nothing
but ancestors, since a link to a parent holds nothing. So it is written out as before, apart from
the texts that were written as they are only for the marks of ancestors that are met no more. -/
structure LosesAncestorsOnly (f g : Forest) : Prop where
  element : ∀ id, g.isAlive id = true → g.get? id = f.get? id
  document : ∀ d, g.isThere (.document d) = true → g.rootsOf d = f.rootsOf d
  held : ∀ r s, g.isThere r = true → s ∈ f.held r → f.isThere s = true → g.isThere s = true
  parent : ∀ id e, g.get? id = some e → g.link id = g.surviving e.parent
  ancestors : ∀ id, g.isAlive id = true → g.ancestors id = (f.ancestors id).takeWhile g.isAlive
  unchanged : ∀ r, g.isThere r = true →
    (∀ x, ReflTransGen f.Shows r (.element x) → g.isAlive x = true →
      ∀ y ∈ f.ancestors x, g.isAlive y = true) →
    (g.textOfRef r).result = (f.textOfRef r).result
  changed : ∀ r, g.isThere r = true → ∃ o : Outline,
    (f.textOfRef r).result = o.spell f.verbatim ∧ (g.textOfRef r).result = o.spell g.verbatim ∧
    ∀ t ∈ o.texts, f.TextBelow g r t.1 t.2 ∧ f.Rewritten g t.1

theorem Pruned.losesAncestorsOnly (pruned : f.Pruned g roots) : f.LosesAncestorsOnly g where
  element id left := pruned.get? id left
  document d left := pruned.rootsOf_of_keeps fun _ => left
  held := pruned.closed
  parent id e left := link_eq_surviving left
  ancestors id left := pruned.ancestors left
  unchanged r left kept := by
    obtain ⟨o, texts, before, after⟩ := pruned.outlined left
    rw [before, after]
    refine Outline.spell_congr fun t ht => ?_
    obtain ⟨below, alive, -⟩ := texts t ht
    exact pruned.isVerbatim_of_kept alive (kept t.1 below alive)
  changed r left := by
    obtain ⟨o, texts, before, after⟩ := pruned.outlined left
    exact ⟨o, before, after, fun t ht => ⟨texts t ht, pruned.isVerbatim (texts t ht).left⟩⟩

end Forest

/-- Dropping some registers takes away exactly what neither the other registers nor the settings
reach, and what is left loses nothing but ancestors. -/
theorem Session.dropping_loses_ancestors_only (s : Session) (watched names : List String) :
    ∃ after, after = (s.perform watched (.command (.drop names) none)).2 ∧
      after.registers = s.registers.drop names ∧ after.settings = s.settings ∧
      (∀ r, after.forest.isThere r = true ↔
        s.forest.isThere r = true ∧ ∃ root ∈ after.refs, s.forest.Reaches root r) ∧
      s.forest.LosesAncestorsOnly after.forest := by
  have same := view_perform s watched (.command (.drop names) none)
  have forest : (s.perform watched (.command (.drop names) none)).2.forest =
      s.forest.collect ((s.registers.drop names).refs ++ s.settings.refs) := congrArg View.forest same
  have registers : (s.perform watched (.command (.drop names) none)).2.registers =
      s.registers.drop names := congrArg View.registers same
  have settings : (s.perform watched (.command (.drop names) none)).2.settings = s.settings :=
    congrArg View.settings same
  refine ⟨_, rfl, registers, settings, fun r => ?_, ?_⟩
  · rw [Session.refs, registers, settings, forest]
    exact Forest.isThere_collect
  · rw [forest]
    exact (s.forest.collect_pruned _).losesAncestorsOnly

/-- A marked paragraph with a child whose text needs an escape, both in registers. -/
def Session.nested : Session where
  limits := .least
  store := { forest := { elements := #[
    some { kind := .catalog .p, tag := .text "p", children := [.ref (.element ⟨1⟩)],
           mark := .bool true },
    some { kind := .catalog .b, tag := .text "b", content := .text "<",
           parent := .element ⟨0⟩ }] } }
  registers := ⟨[("p", .ref (.element ⟨0⟩)), ("b", .ref (.element ⟨1⟩))]⟩

/-- What the child reaches is itself alone. -/
theorem Session.collect_nested : nested.forest.collect [.element ⟨1⟩] =
    { elements := #[none, nested.forest.get? ⟨1⟩] } := by
  have reached : nested.forest.reachable [.element ⟨1⟩] = [.element ⟨1⟩] := by
    rw [Forest.reachable, Forest.gather, dif_pos (by decide), if_pos (by decide)]
    exact Forest.gather.eq_1 _ _ _
  rw [Forest.collect, reached]
  rfl

/-- Once the paragraph is dropped, its former child has no parent, and its text is escaped. -/
theorem Session.dropping_loses_ancestors_only_of_nested :
    ∃ after, after = (nested.perform [] (.command (.drop ["p"]) none)).2 ∧
      after.forest.ancestors ⟨1⟩ = [] ∧
      (nested.forest.html ⟨1⟩).result = .ok "<b><</b>" ∧
      (after.forest.html ⟨1⟩).result = .ok "<b>&lt;</b>" := by
  obtain ⟨after, perform, -, -, -, loses⟩ := dropping_loses_ancestors_only nested [] ["p"]
  have forest : after.forest = { elements := #[none, nested.forest.get? ⟨1⟩] } := by
    rw [perform, ← collect_nested]
    exact congrArg View.forest (view_perform nested [] (.command (.drop ["p"]) none))
  refine ⟨after, perform, ?_, by decide +kernel, ?_⟩
  · rw [loses.ancestors ⟨1⟩ (by rw [forest]; rfl),
      show nested.forest.ancestors ⟨1⟩ = [⟨0⟩] from rfl, forest]
    rfl
  · rw [forest]
    decide +kernel

end Hypertext
