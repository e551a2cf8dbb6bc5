import Hypertext.Proofs.Portrait

/-! Payloads read back. What is read from the payload of an element without a parent, or of a
document, is the same again under new identities: the same classes, tags, attributes, texts, marks,
children and links, and with that the same payload and the same markup. -/
namespace Hypertext
set_option autoImplicit false

/-- An element or a document with all that it holds, apart from identities. -/
inductive Sketch where
  | element (p : Plan)
  | document (ps : List Plan)

def Sketch.payload : Sketch → Datum
  | element p => p.payload
  | document ps => Plan.documentPayload ps

/-- Whether no whole number that is written has too many digits. -/
def Sketch.IsSpelled : Sketch → Prop
  | element p => p.IsSpelled
  | document ps => Plan.IsSpelledAll ps

def Sketch.Proper : Sketch → Prop
  | element p => p.Proper
  | document ps => Plan.ProperAll ps

namespace Forest

/-- What is there as sketched: an element without a parent, or a document. -/
def Has (f : Forest) : Sketch → Ref → Prop
  | .element p, .element root => f.HasTree p root
  | .document ps, .document d => f.HasTrees ps d
  | _, _ => False

/-- All that is there in the first forest is there, and is the same, in the second. -/
def Keeps (f g : Forest) : Prop :=
  (∀ id e, f.get? id = some e → g.get? id = some e) ∧
    ∀ d roots, f.roots? d = some roots → g.roots? d = some roots

/-- The markup for a unit of indentation. That of a document has no blanks at its end. -/
def markup (f : Forest) (pretty : Bool) (unit : String) : Ref → Reading String
  | .element id => Renderer.render f ⟨[.ref (.element id)], .bool pretty, .text unit⟩
  | .document d => f.renderDocument { indent := .text unit } d (.bool pretty)

variable {f g : Forest}

/-! ## Unfolding what is there -/

theorem Stores.trees_follow {p : Plan} {root : ElementId} {ids : List ElementId}
    (stores : f.Stores p root ids) (top : f.link root = .absent) :
    ∃ t, f.trees [.ref (.element root)] = [t] ∧ t.Follows [] p := by
  obtain ⟨t, unfolds, follows⟩ := stores.follows (show f.Lineage root [] from top)
  refine ⟨t, UnfoldsAll.unique (unfoldsAll_trees _ fun v hv r hr => ?_) (.cons unfolds .nil),
    follows⟩
  obtain rfl := List.mem_singleton.1 hv
  obtain rfl := Option.some.inj hr
  exact acyclicFrom_of_acc stores.acc

theorem StoresAll.trees_follow {ps : List Plan} {vs : List Datum} {ids : List ElementId}
    (stores : f.StoresAll ps vs ids)
    (top : ∀ root, .ref (.element root) ∈ vs → f.link root = .absent) :
    Tree.AllFollow [] ps (f.trees vs) := by
  obtain ⟨ts, unfolds, follow⟩ := stores.follows
    fun root hroot => show f.Lineage root [] from top root hroot
  have below : ∀ v ∈ vs, f.AcyclicBelow v :=
    fun v hv r hr => acyclicFrom_of_acc (stores.acc v hv r hr)
  rwa [UnfoldsAll.unique (unfoldsAll_trees vs below) unfolds]

theorem HasTrees.trees_document {ps : List Plan} {d : DocumentId} (h : f.HasTrees ps d) :
    f.trees [.ref (.document d)] = [.bare .document (f.trees (f.rootsOf d))] := by
  obtain ⟨_, _, ids, stores, _⟩ := h
  have accessible : Acc (fun s r => f.Shows r s) (.document d) := by
    refine .intro _ fun r hr => ?_
    obtain ⟨v, hv, hvr⟩ := List.mem_filterMap.1 hr
    exact stores.acc v hv r hvr
  rw [trees_cons, tree?_document d (acyclicFrom_of_acc accessible)]
  rfl

/-! ## The payload of what is there -/

theorem payload_of_tree {r : Ref} {t : Tree} (tree : f.trees [.ref r] = [t])
    (spellings : t.spellings = pure ()) : f.payload r = pure t.payload := by
  rw [Forest.payload]
  simp only [tree, Tree.spellingsAll, spellings, Account.pure_bind]
  rfl

theorem Has.payload {what : Sketch} {r : Ref} (h : f.Has what r) :
    ∃ v, f.payload r = pure v ∧ v.erased = what.payload := by
  match what, r with
  | .element p, .element root =>
    obtain ⟨top, ids, stores, _⟩ := h
    obtain ⟨t, htrees, follows⟩ := stores.trees_follow top
    exact ⟨t.payload, payload_of_tree htrees follows.spellings, follows.payload⟩
  | .document ps, .document d =>
    have htrees := HasTrees.trees_document h
    obtain ⟨_, top, ids, stores, _⟩ := h
    have follow := stores.trees_follow top
    exact ⟨_, payload_of_tree htrees (by rw [Tree.spellings, follow.spellings]),
      Tree.erased_documentPayload follow.payload⟩
  | .element _, .document _ => exact h.elim
  | .document _, .element _ => exact h.elim

/-! ## Reading it again -/

theorem Grows.keeps (grows : f.Grows g) : f.Keeps g :=
  ⟨fun id _ there => (grows.same id (index_lt there)).trans there,
    fun d _ there => (grows.roots d).trans there⟩

theorem Restored.hasTree {p : Plan} {root : ElementId} (restored : f.Restored g p root) :
    g.HasTree p root := by
  obtain ⟨e, there, unlinked⟩ := restored.unlinked
  obtain ⟨ids, stores, within⟩ := restored.stored
  exact ⟨link_eq_absent there unlinked, ids, stores, within.1⟩

theorem Restored.new {p : Plan} {root : ElementId} (restored : f.Restored g p root) :
    f.isThere (.element root) = false := by
  obtain ⟨ids, stores, within⟩ := restored.stored
  have hroot := (within.2 root stores.root_mem).1
  rw [isThere, isAlive, get?, Array.getElem?_eq_none hroot]
  rfl

section Documents

variable {ps : List Plan} {roots : List ElementId}
  (restored : f.insertDocument.2.RestoredAll g (.document f.insertDocument.1) ps roots)
include restored

theorem RestoredAll.hasTrees : g.HasTrees ps f.insertDocument.1 := by
  have hroots : f.insertDocument.2.roots? f.insertDocument.1 = some [] := by
    rw [roots?_insertDocument, if_pos rfl]
  have there : f.insertDocument.2.isThere (.document f.insertDocument.1) = true := by
    rw [isThere, hroots]
    rfl
  have held : g.rootsOf f.insertDocument.1 = roots.map (.ref <| .element ·) := by
    have hempty : f.insertDocument.2.childrenOf (.document f.insertDocument.1) = [] := by
      rw [childrenOf, rootsOf, hroots]
      rfl
    have hchildren := restored.grows.childrenOf (isThere_setChildren there _)
    rwa [childrenOf_setChildren there, hempty, List.nil_append] at hchildren
  obtain ⟨ids, stores, within⟩ := restored.stored
  refine ⟨restored.grows.isThere (isThere_setChildren there _), fun root hroot => ?_, ids, ?_,
    within.1⟩
  · rw [held] at hroot
    obtain ⟨root', hroot', heq⟩ := List.mem_map.1 hroot
    obtain rfl : root' = root := by simpa using heq
    obtain ⟨e, he, hparent⟩ := restored.linked root' hroot'
    exact link_eq_absent he hparent
  · rw [held]
    exact stores

theorem RestoredAll.keeps : f.Keeps g := by
  have keeps := restored.grows.keeps
  refine ⟨fun id e there => keeps.1 id e there, fun d roots there => keeps.2 d roots ?_⟩
  have hne : d ≠ f.insertDocument.1 := by
    rintro rfl
    rw [roots?, insertDocument, Array.getElem?_eq_none (Nat.le_refl _)] at there
    cases there
  rw [roots?_setChildren, if_neg hne, roots?_insertDocument, if_neg hne]
  exact there

end Documents

mutual

theorem Stores.proper {p : Plan} {id : ElementId} {ids : List ElementId}
    (stores : f.Stores p id ids) : p.Proper := by
  match stores with
  | .node _ kind _ _ text held _ =>
    refine ⟨fun slot => ?_, StoresText.proper text, StoresAll.proper held⟩
    cases text with
    | hidden _ | scalar _ _ _ => rfl
    | element slot' _ _ _ _ =>
      rw [Element.hasText, kind, slot] at slot'
      cases slot'

theorem StoresText.proper {id : ElementId} {e : Element} {label : ElementLabel}
    {inside : Option Plan} {ids : List ElementId} (stores : f.StoresText id e label inside ids) :
    Plan.ProperInside inside := by
  match stores with
  | .hidden _ | .scalar _ _ _ => trivial
  | .element _ _ _ inside _ => exact Stores.proper inside

theorem StoresAll.proper {ps : List Plan} {vs : List Datum} {ids : List ElementId}
    (stores : f.StoresAll ps vs ids) : Plan.ProperAll ps := by
  match stores with
  | .nil => trivial
  | .cons head tail => exact ⟨Stores.proper head, StoresAll.proper tail⟩

end

theorem Has.proper {what : Sketch} {r : Ref} (h : f.Has what r) : what.Proper := by
  match what, r with
  | .element p, .element root =>
    obtain ⟨_, ids, stores, _⟩ := h
    exact stores.proper
  | .document ps, .document d =>
    obtain ⟨_, _, ids, stores, _⟩ := h
    exact stores.proper
  | .element _, .document _ => exact h.elim
  | .document _, .element _ => exact h.elim

/-- The payload of a sketch can be read wherever there is a store. Origins and the order of fields do
not matter. -/
theorem exists_has_of_proper {what : Sketch} (proper : what.Proper) {v : Datum}
    (hv : v.sorted = what.payload.sorted) (s : Store) :
    ∃ s' r', Action.Runs (Payload.node v) s r' s' ∧ s.forest.Keeps s'.forest ∧
      s.forest.isThere r' = false ∧ s'.forest.Has what r' := by
  match what with
  | .element p =>
    obtain ⟨s', root, runs, restored⟩ := Payload.restores_of_proper proper v s hv
    exact ⟨s', .element root, runs, restored.grows.keeps, restored.new, restored.hasTree⟩
  | .document ps =>
    obtain ⟨s', roots, runs, restored⟩ := Payload.node_restores_document proper v s hv
    refine ⟨s', .document s.forest.insertDocument.1, runs, restored.keeps, ?_, restored.hasTrees⟩
    rw [isThere, roots?, insertDocument, Array.getElem?_eq_none (Nat.le_refl _)]
    rfl

theorem Has.reads_back {what : Sketch} {r : Ref} (h : f.Has what r) {v : Datum}
    (hv : v.erased = what.payload) (s : Store) :
    ∃ s' r', Action.Runs (Payload.node v) s r' s' ∧ s.forest.Keeps s'.forest ∧
      s.forest.isThere r' = false ∧ s'.forest.Has what r' :=
  exists_has_of_proper h.proper (Value.sorted_of_erased hv) s

/-! ## The markup of what is there -/

theorem Has.markup_eq {what : Sketch} {r r' : Ref} (h : f.Has what r) (h' : g.Has what r')
    (pretty : Bool) (unit : String) : g.markup pretty unit r' = f.markup pretty unit r := by
  match what, r, r' with
  | .element p, .element root, .element root' =>
    obtain ⟨top, ids, stores, _⟩ := h
    obtain ⟨top', ids', stores', _⟩ := h'
    obtain ⟨t, htrees, follows⟩ := stores.trees_follow top
    obtain ⟨t', htrees', follows'⟩ := stores'.trees_follow top'
    have looks : Tree.baredAll (g.trees [.ref (.element root')]) =
        Tree.baredAll (f.trees [.ref (.element root)]) := by
      rw [htrees, htrees']
      show [t'.bared] = [t.bared]
      rw [follows.look, follows'.look]
    exact Renderer.render_congr looks rfl pretty unit
  | .document ps, .document d, .document d' =>
    obtain ⟨_, top, ids, stores, _⟩ := h
    obtain ⟨_, top', ids', stores', _⟩ := h'
    have looks := (stores'.trees_follow top').look.trans (stores.trees_follow top).look.symm
    have count := stores'.length_eq.trans stores.length_eq.symm
    show Text.trimEnd <$> _ = Text.trimEnd <$> _
    exact congrArg (Text.trimEnd <$> ·) (Renderer.render_congr looks count pretty unit)
  | .element _, .document _, _ => exact h.elim
  | .document _, .element _, _ => exact h.elim
  | .element _, .element _, .document _ => exact h'.elim
  | .document _, .document _, .element _ => exact h'.elim

theorem Has.exists_markup {what : Sketch} {r : Ref} (h : f.Has what r) (spelled : what.IsSpelled)
    (pretty : Bool) (unit : String) : ∃ text, (f.markup pretty unit r).result = .ok text := by
  match what, r with
  | .element p, .element root =>
    obtain ⟨top, ids, stores, _⟩ := h
    obtain ⟨t, htrees, follows⟩ := stores.trees_follow top
    refine Renderer.exists_render ?_ pretty unit
    rw [htrees]
    exact ⟨follows.answered spelled, trivial⟩
  | .document ps, .document d =>
    obtain ⟨_, top, ids, stores, _⟩ := h
    obtain ⟨text, htext⟩ :=
      Renderer.exists_render ((stores.trees_follow top).answered spelled) pretty unit
    refine ⟨Text.trimEnd text, ?_⟩
    show (Text.trimEnd <$> _ : Reading String).result = _
    rw [Account.result_map]
    exact congrArg (Except.map Text.trimEnd) htext
  | .element _, .document _ => exact h.elim
  | .document _, .element _ => exact h.elim

/-- The payload of what is there as sketched can be read wherever there is a store. What is there
stays, and what is read is new and as sketched; its payload is the same apart from the origins of
texts, and so is what comes of its markup, whether laid out or not: a text, if no whole number in it
has too many digits. -/
theorem payload_reads_back (f : Forest) (what : Sketch) (r : Ref) (h : f.Has what r) :
    ∃ v, f.payload r = pure v ∧ ∀ s : Store, ∃ s' r', Action.Runs (Payload.node v) s r' s' ∧
      s.forest.Keeps s'.forest ∧ s.forest.isThere r' = false ∧ s'.forest.Has what r' ∧
      (∃ w, s'.forest.payload r' = pure w ∧ w.erased = v.erased) ∧
      ∀ (pretty : Bool) (unit : String), s'.forest.markup pretty unit r' = f.markup pretty unit r ∧
        (what.IsSpelled → ∃ text, (f.markup pretty unit r).result = .ok text) := by
  obtain ⟨v, hpayload, hv⟩ := h.payload
  refine ⟨v, hpayload, fun s => ?_⟩
  obtain ⟨s', r', runs, keeps, new, restored⟩ := h.reads_back hv s
  obtain ⟨w, hpayload', hw⟩ := restored.payload
  exact ⟨s', r', runs, keeps, new, restored, ⟨w, hpayload', hw.trans hv.symm⟩,
    fun pretty unit =>
      ⟨h.markup_eq restored pretty unit, fun spelled => h.exists_markup spelled pretty unit⟩⟩

/-- A document with a list, whose item is unsafe and has an element with an attribute for a text. -/
def unsafeItem : Forest where
  elements := #[
    some { kind := .catalog .ul, tag := .text "ul", children := [.ref (.element ⟨1⟩)] },
    some { kind := .catalog .li, tag := .text "li", parent := .element ⟨0⟩,
           content := .ref (.element ⟨2⟩), mark := .bool true },
    some { kind := .generic .inlineText, tag := .text "q", parent := .element ⟨1⟩,
           attributes := ⟨[⟨"class", "x"⟩]⟩, content := .made ⟨[0]⟩ (.text "<") }]
  documents := #[some [.ref (.element ⟨0⟩)]]

def quotePlan : Plan :=
  .node ⟨.generic .inlineText, "q", ⟨[⟨"class", "x"⟩]⟩, .text "<", false,
    show "q" ≠ "" by decide, List.pairwise_singleton .., trivial⟩ none []

def itemPlan : Plan :=
  .node ⟨.catalog .li, "li", {}, .null, true, rfl, List.nodup_nil, trivial⟩ (some quotePlan) []

def listPlan : Plan :=
  .node ⟨.catalog .ul, "ul", {}, .null, false, rfl, List.nodup_nil, trivial⟩ none [itemPlan]

theorem unsafeItem_has : unsafeItem.Has (.document [listPlan]) (.document ⟨0⟩) := by
  have quote : unsafeItem.Stores quotePlan ⟨2⟩ [⟨2⟩] :=
    .node rfl rfl rfl rfl (.scalar rfl rfl rfl) .nil fun _ h => absurd h List.not_mem_nil
  have item : unsafeItem.Stores itemPlan ⟨1⟩ [⟨1⟩, ⟨2⟩] :=
    .node rfl rfl rfl rfl (.element rfl rfl rfl quote rfl) .nil
      fun _ h => absurd h List.not_mem_nil
  have list : unsafeItem.Stores listPlan ⟨0⟩ [⟨0⟩, ⟨1⟩, ⟨2⟩] := by
    refine .node rfl rfl rfl rfl (.hidden rfl) (.cons item .nil) fun child hchild => ?_
    obtain rfl : child = ⟨1⟩ := by simpa using hchild
    rfl
  refine ⟨rfl, fun root hroot => ?_, [⟨0⟩, ⟨1⟩, ⟨2⟩], .cons list .nil, by decide⟩
  obtain rfl : root = ⟨0⟩ := by simpa [unsafeItem, rootsOf, roots?] using hroot
  rfl

theorem listPlan_spelled : Sketch.IsSpelled (.document [listPlan]) := by
  have quote : quotePlan.IsSpelled := ⟨fun _ _ => rfl, trivial, trivial⟩
  have item : itemPlan.IsSpelled := ⟨fun _ => (nomatch ·), quote, trivial⟩
  exact ⟨⟨fun _ _ => rfl, trivial, item, trivial⟩, trivial⟩

theorem payload_reads_back_of_unsafeItem :
    unsafeItem.Has (.document [listPlan]) (.document ⟨0⟩) ∧
    ∃ v s' r', unsafeItem.payload (.document ⟨0⟩) = pure v ∧
      Action.Runs (Payload.node v) { forest := unsafeItem } r' s' ∧
      unsafeItem.Keeps s'.forest ∧ s'.forest.Has (.document [listPlan]) r' ∧
      s'.forest.markup true "\t" r' = unsafeItem.markup true "\t" (.document ⟨0⟩) ∧
      ∃ text, (unsafeItem.markup true "\t" (.document ⟨0⟩)).result = .ok text := by
  obtain ⟨v, hpayload, reads⟩ := payload_reads_back unsafeItem _ _ unsafeItem_has
  obtain ⟨s', r', runs, keeps, _, restored, _, same⟩ := reads { forest := unsafeItem }
  exact ⟨unsafeItem_has, v, s', r', hpayload, runs, keeps, restored, (same true "\t").1,
    (same true "\t").2 listPlan_spelled⟩

example : (unsafeItem.markup false "" (.document ⟨0⟩)).result =
    .ok "<ul><li><q class=\"x\"><</q></li></ul>" := by cbv

end Forest

end Hypertext
