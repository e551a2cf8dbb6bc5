import Hypertext.Proofs.Invariants
import Hypertext.Proofs.Stringified

/-! Copies of what a program has made. Ordinary commands make elements that payloads know, and nothing
they do changes that; so every document that they make and that can be rendered has a copy, and the
copy is rendered as the document just where all texts survive: those that are stored by their spelling,
and those below marks that the document and the copy have in different places. The main statement is
`Session.copied_same_iff_survives`. -/
namespace Hypertext
set_option autoImplicit false

namespace Forest

variable {f : Forest}

/-! ## Programs keep elements known -/

/-- All elements are known to payloads, and no parent is a choice. -/
def AllKnown (f : Forest) : Prop :=
  ∀ id e, f.get? id = some e → e.IsKnown ∧ ∀ c, e.parent ≠ .choice c

theorem element_ne_choice (id : ElementId) (c : Choice) : ParentLink.element id ≠ .choice c := by
  intro h
  cases h

theorem AllKnown.update (known : f.AllKnown) (id : ElementId) {change : Element → Element}
    (same : ∀ e, f.get? id = some e → (e.IsKnown ∧ ∀ c, e.parent ≠ .choice c) →
      (change e).IsKnown ∧ ∀ c, (change e).parent ≠ .choice c) :
    (f.update id change).AllKnown := by
  intro other e there
  rw [get?_update] at there
  split at there
  next here =>
    obtain ⟨e', there', rfl⟩ := Option.map_eq_some_iff.1 there
    exact same e' there' (known id e' there')
  next => exact known other e there

theorem AllKnown.insert (known : f.AllKnown) (c : Catalog) :
    (f.insert { kind := .catalog c, tag := .text c.tag }).2.AllKnown := by
  intro id e there
  rw [get?_insert] at there
  split at there
  next =>
    obtain rfl := Option.some.inj there
    refine ⟨⟨⟨c.tag, rfl, rfl⟩, List.nodup_nil, fun _ => ⟨false, rfl⟩⟩, fun choice h => ?_⟩
    cases h
  next => exact known id e there

theorem AllKnown.setChildren (known : f.AllKnown) (holder : Ref) (children : List Datum) :
    (f.setChildren holder children).AllKnown := by
  cases holder with
  | element id => exact known.update id fun e _ h => ⟨⟨h.1.tag, h.1.distinct, h.1.mark⟩, h.2⟩
  | document d => exact known

theorem AllKnown.setParent (known : f.AllKnown) (id : ElementId) (link : ParentLink)
    (unchosen : ∀ c, link ≠ .choice c) : (f.setParent id link).AllKnown :=
  known.update id fun _ _ h => ⟨⟨h.1.tag, h.1.distinct, h.1.mark⟩, unchosen⟩

theorem AllKnown.setContent (known : f.AllKnown) (id : ElementId) (content : Datum) :
    (f.setContent id content).AllKnown := by
  have filled : (f.update id ({ · with content, mark := .bool false })).AllKnown :=
    known.update id fun _ _ h => ⟨⟨h.1.tag, h.1.distinct, fun _ => ⟨false, rfl⟩⟩, h.2⟩
  rw [Forest.setContent]
  split
  · split
    next held =>
      refine AllKnown.setParent ?_ held (.element id) (element_ne_choice id)
      exact filled.setChildren (.element id) _
    next => exact filled
  · exact known.update id fun _ _ h => ⟨⟨h.1.tag, h.1.distinct, h.1.mark⟩, h.2⟩

theorem AllKnown.setAttributes (known : f.AllKnown) (id : ElementId) {change : Attributes → Attributes}
    (distinct : ∀ c : Attributes, c.Distinct → (change c).Distinct) :
    (f.setAttributes id (change (f.attributesOf id))).AllKnown := by
  refine known.update id fun e there h => ⟨⟨h.1.tag, ?_, h.1.mark⟩, h.2⟩
  rw [attributesOf, there]
  exact distinct _ h.1.distinct

theorem AllKnown.setProperty (known : f.AllKnown) (id : ElementId) (p : Property)
    (value : Datum) : (f.setProperty id p value).AllKnown := by
  rw [Forest.setProperty]
  split
  · have written : ∀ c : Attributes, c.Distinct →
        (c.write p.key (Attribute.valueOf? (p.converted value))).Distinct :=
      fun _ distinct => Attributes.distinct_write distinct _ _
    exact known.setAttributes id written
  · exact known.update id fun _ _ h => ⟨⟨h.1.tag, h.1.distinct, h.1.mark⟩, h.2⟩

theorem AllKnown.attach (known : f.AllKnown) (holder : Ref) (child : Datum) :
    (f.attach holder child).AllKnown := by
  unfold Forest.attach
  split
  next id held =>
    have linked := known.setParent held (.element id) (element_ne_choice id)
    exact linked.setChildren (.element id) _
  next => exact known.setChildren holder _

theorem AllKnown.apply (known : f.AllKnown) {op : Operation} (ordinary : op.IsOrdinary) :
    (op.apply f).AllKnown := by
  match op with
  | .create kind tag =>
    obtain ⟨c, rfl, rfl⟩ := ordinary
    exact known.insert c
  | .createDocument => exact known
  | .add holder _ | .remove holder _ => exact known.setChildren holder _
  | .attach holder child => exact known.attach holder child
  | .setText id content => exact known.setContent id content
  | .setMark id mark =>
    obtain ⟨b, rfl⟩ := ordinary
    exact known.update id fun _ _ h => ⟨⟨h.1.tag, h.1.distinct, fun _ => ⟨b, rfl⟩⟩, h.2⟩
  | .setProperty id p value => exact known.setProperty id p value
  | .setParent id link => exact known.setParent id link ordinary
  | .rewrite id change => exact known.setAttributes id ordinary
  | .askStyle id => exact known.update id fun _ _ h => ⟨⟨h.1.tag, h.1.distinct, h.1.mark⟩, h.2⟩

theorem allKnown_isKept : IsKept AllKnown where
  apply _ _ ordinary known := known.apply ordinary
  pruned pruned known id e there := by
    have alive := pruned.get? id (isThere_element.2 ⟨e, there⟩)
    exact known id e (alive ▸ there)

/-- What can be rendered of known elements can be copied. -/
theorem AllKnown.copyable (known : f.AllKnown) {d : DocumentId}
    (acyclic : f.AcyclicFrom [.document d]) {pretty : Bool} {unit text : String}
    (rendered : (f.markup pretty unit (.document d)).result = .ok text) : f.Copyable d where
  acyclic := acyclic
  known v hv := by
    obtain ⟨root, rfl, below⟩ := throughout_of_markup acyclic rendered v hv
    exact ⟨root, rfl, fun id e path there => ⟨(known id e there).1, (below id e path there).2⟩⟩
  unchosen id e c there := (known id e there).2 c

end Forest

namespace Session

open Forest

/-- Wherever a program of ordinary commands comes to, a document that can be rendered, and in which
nothing holds itself, has a payload, which can be read wherever there is a store. The copy is
rendered as the document, in every layout, just where every text in the document survives. -/
theorem copied_same_iff_survives (limits : Limits) {watched : List String} {program : List Step}
    (ordinary : Step.EachOf Command.IsOrdinary program) {s : Session}
    (comes : ComesTo { limits } watched program s) {d : DocumentId}
    (acyclic : s.forest.AcyclicFrom [.document d]) {pretty : Bool} {unit text : String}
    (rendered : (s.forest.markup pretty unit (.document d)).result = .ok text) :
    let f := s.forest
    ∃ v, (f.payload (.document d)).result = .ok v ∧ ∀ store : Store, ∃ store' d',
      Action.Runs (Payload.node v) store (.document d') store' ∧ store.forest.Keeps store'.forest ∧
      ∀ (pretty : Bool) (unit : String), ∃ text text',
        (f.markup pretty unit (.document d)).result = .ok text ∧
        (store'.forest.markup pretty unit (.document d')).result = .ok text' ∧
        (text' = text ↔ ∀ o, f.Occurs d o → f.SurvivesAt o) := by
  have known : s.forest.AllKnown := holds_in_programs allKnown_isKept
    (fun _ ordinary => maintains_of_ordinary allKnown_isKept ordinary) ordinary
    (s := { limits }) (fun id e there => by cases there) comes
  exact (known.copyable acyclic rendered).exists_copy rendered

/-- A page with a line whose text is a list. -/
def listing : Step :=
  .scope .document (some "page")
    [.brief (.build "page" .p { named := [(.text, .list [.text "<"])] }) none]

def listed : Forest where
  elements := #[some { kind := .catalog .p, tag := .text "p",
                       content := .made ⟨[0]⟩ (.list [.text "<"]) }]
  documents := #[some [.ref (.element ⟨0⟩)]]

theorem listing_comes_to_listed :
    ∃ s, ComesTo { limits := .least } [] [listing] s ∧ s.forest = listed := by
  have moment : (stepMoments [] [] { limits := .least } listing)[1]?.map (·.session.forest) =
      some listed := rfl
  obtain ⟨m, reached, forest⟩ := Option.map_eq_some_iff.1 moment
  have split : [listing] = [] ++ listing :: [] := rfl
  exact ⟨m.session, .within split (List.mem_of_getElem? reached), forest⟩

theorem listed_acyclic : listed.Acyclic := acyclic_of_rank_domain diamondRank (by decide)

theorem result_markup_listed :
    (listed.markup false "" (.document ⟨0⟩)).result = .ok "<p>['<']</p>" := by
  rw [result_markup_document]
  rfl

/-- The list is written as it is spelled, and its spelling needs an escape. -/
theorem listed_not_survives : ¬ listed.SurvivesAt ⟨[], ⟨0⟩⟩ := by
  intro survives
  obtain same | raw := survives _ "['<']" rfl ⟨rfl, .inr ⟨rfl, rfl⟩⟩
  · exact absurd same (by decide)
  · exact Bool.false_ne_true (raw.1 (.inl rfl))

theorem copied_same_iff_survives_of_listing :
    Step.EachOf Command.IsOrdinary [listing] ∧ ∃ s, ComesTo { limits := .least } [] [listing] s ∧
    s.forest.AcyclicFrom [.document ⟨0⟩] ∧
    (s.forest.markup false "" (.document ⟨0⟩)).result = .ok "<p>['<']</p>" ∧
    ∃ v store' d' text', (s.forest.payload (.document ⟨0⟩)).result = .ok v ∧
      Action.Runs (Payload.node v) {} (.document d') store' ∧
      (store'.forest.markup false "" (.document d')).result = .ok text' ∧
      text' ≠ "<p>['<']</p>" := by
  have ordinary : Step.EachOf Command.IsOrdinary [listing] := ⟨⟨trivial, trivial⟩, trivial⟩
  obtain ⟨s, comes, forest⟩ := listing_comes_to_listed
  have copied := @copied_same_iff_survives .least [] _ ordinary s comes ⟨0⟩
  refine ⟨ordinary, s, comes, ?_⟩
  rw [forest] at copied ⊢
  have acyclic := listed_acyclic.acyclicFrom [.document ⟨0⟩]
  obtain ⟨v, payload, copies⟩ := copied acyclic result_markup_listed
  obtain ⟨store', d', runs, -, rendered⟩ := copies {}
  obtain ⟨text, text', before, after, same⟩ := rendered false ""
  obtain rfl := Except.ok.inj (before.symm.trans result_markup_listed)
  refine ⟨acyclic, result_markup_listed, v, store', d', text', payload, runs, after,
    fun h => listed_not_survives (same.1 h _ ⟨⟨0⟩, ?_, .refl⟩)⟩
  exact List.mem_singleton_self _

/-- A line that is a child of a page and the text of another line, which is marked. -/
def shared : Forest where
  elements := #[some { kind := .catalog .b, tag := .text "b", content := .text "<",
                       parent := .element ⟨1⟩ },
    some { kind := .catalog .p, tag := .text "p", content := .ref (.element ⟨0⟩),
           mark := .bool true }]
  documents := #[some [.ref (.element ⟨0⟩), .ref (.element ⟨1⟩)]]

/-- In the page it stands below no mark, but its link leads to one. -/
example : ¬ shared.SurvivesAt ⟨[], ⟨0⟩⟩ := by
  intro survives
  obtain same | raw := survives _ "<" rfl ⟨rfl, .inl rfl⟩
  · exact absurd same (by decide)
  · exact Bool.false_ne_true (raw.1 (.inr rfl))

end Session

end Hypertext
