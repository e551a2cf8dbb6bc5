import Hypertext.Proofs.Actions
import Hypertext.Proofs.Growth
import Hypertext.Proofs.Sorting
import Hypertext.Payload.Read

/-! Payloads of plans are read back. Reading one in any forest succeeds, whatever the origins of its
parts and the order of its fields; it adds a tree as planned under new identities and leaves
everything else as it was. The main statements are `Payload.restores_of_proper` and
`Payload.node_restores_document`. -/
namespace Hypertext
set_option autoImplicit false

/-! ## The payload of a plan -/

namespace Plan

def attributesPayload (label : ElementLabel) : List Datum :=
  label.attributes.toList.map fun a => .list [.text a.key, .text a.value]

/-- The fields of an element, given the payloads of what it holds. -/
def fieldsOf (label : ElementLabel) (text : Datum) (children : List Datum) :
    List (String × Datum) :=
  [("_type", .text label.kind.name), ("tag_name", .text label.tag),
    ("attributes", .list (attributesPayload label)), ("children", .list children)]
    ++ if label.kind.hasText then [("text", text), ("unsafe", .bool label.mark)] else []

mutual

def payload : Plan → Datum
  | .node label inside children =>
    .record (fieldsOf label (textPayload label inside) (payloads children))

def textPayload (label : ElementLabel) : Option Plan → Datum
  | none => .scalar label.text
  | some p => payload p

def payloads : List Plan → List Datum
  | [] => []
  | p :: rest => payload p :: payloads rest

end

def documentPayload (ps : List Plan) : Datum :=
  .record [("_type", .text documentType), ("children", .list (payloads ps))]

theorem distinct_fieldsOf (label : ElementLabel) (text : Datum) (children : List Datum) :
    ((fieldsOf label text children).map (·.1)).Nodup := by
  rw [fieldsOf]
  split
  · exact (by decide : ["_type", "tag_name", "attributes", "children", "text", "unsafe"].Nodup)
  · exact (by decide : ["_type", "tag_name", "attributes", "children"].Nodup)

mutual

/-- Elements stand only inside of elements with a text slot. -/
def Proper : Plan → Prop
  | .node label inside children =>
    (label.kind.hasText = false → inside = none) ∧ ProperInside inside ∧ ProperAll children

def ProperInside : Option Plan → Prop
  | none => True
  | some p => Proper p

def ProperAll : List Plan → Prop
  | [] => True
  | p :: rest => Proper p ∧ ProperAll rest

end

end Plan

/-! ## Kinds and tags -/

namespace Kind

variable {kind : Kind} {tag : String}

theorem ofPayloadName?_name (fits : kind.Fits tag) : ofPayloadName? kind.name = some kind := by
  cases kind with
  | catalog c => cases c <;> rfl
  | generic g => cases g <;> rfl
  | heading => exact fits.elim

theorem name_ne_documentType (kind : Kind) : kind.name ≠ documentType := by
  cases kind with
  | catalog c => cases c <;> decide
  | generic g => cases g <;> decide
  | heading => decide

theorem tag_given (f : Forest) (fits : kind.Fits tag) :
    (kind.tag?.isNone && !f.truth (.text tag)) = false := by
  cases kind with
  | catalog c => rfl
  | generic g =>
    have htrue : f.truth (.text tag) = true := bne_iff_ne.2 fits
    rw [htrue]
    rfl
  | heading => exact fits.elim

theorem tagFor_text (f : Forest) (fits : kind.Fits tag) :
    kind.tagFor f (.text tag) = .ok (.text tag) := by
  cases kind with
  | catalog c =>
    obtain rfl : tag = c.tag := fits
    rfl
  | generic g =>
    have htrue : f.truth (.text tag) = true := bne_iff_ne.2 fits
    show (if !f.truth (.text tag) then _ else _) = _
    rw [htrue]
    rfl
  | heading => exact fits.elim

end Kind

namespace Payload

open Hypertext.Action (Runs)
open Forest (Grows GrowsBut Within)

variable {s : Store}

theorem runs_liftM {α : Type} {result : Except Fault α} {a : α} (h : result = .ok a) (s : Store) :
    Runs (liftM result : Action α) s a s := by
  rw [h]
  rfl

/-! ## Fields -/

/-- The same names with the same values, apart from origins and order. -/
def SameFields (fields known : Fields) : Prop :=
  (Value.record fields).sorted = (Value.record known).sorted

section Fields

variable {fields known : Fields} (h : SameFields fields known)
include h

theorem perm_of_known : (Value.sortedFields fields).Perm (Value.sortedFields known) := by
  have hsorted := Value.record.inj h
  exact (Json.perm_sortFields _).symm.trans (hsorted ▸ Json.perm_sortFields _)

theorem names_of_known : (fields.map (·.1)).Perm (known.map (·.1)) := by
  rw [← Value.names_sortedFields, ← Value.names_sortedFields known]
  exact (perm_of_known h).map _

/-- A field that is known apart from origins and order. -/
theorem lookup_of_known (distinct : (known.map (·.1)).Nodup) (name : String) {v : Datum}
    (hv : known.lookup name = some v) : ∃ w, fields.lookup name = some w ∧ w.sorted = v.sorted := by
  rw [← Value.names_sortedFields] at distinct
  have hlookup := Json.lookup_of_perm (perm_of_known h) distinct name
  rw [Value.sortedFields_eq_map, Value.sortedFields_eq_map, Json.lookup_map, Json.lookup_map, hv]
    at hlookup
  obtain ⟨w, hw, hsorted⟩ := Option.map_eq_some_iff.1 hlookup
  exact ⟨w, hw, hsorted⟩

theorem typeOf_of_known (distinct : (known.map (·.1)).Nodup) (f : Forest) {type : String}
    (hv : known.lookup "_type" = some (.text type)) : typeOf f fields = .ok type := by
  obtain ⟨w, hw, hsorted⟩ := lookup_of_known h distinct "_type" hv
  rw [typeOf, hw, Option.map_some, Value.erased_of_sorted_scalar hsorted]

theorem listField_of_known (distinct : (known.map (·.1)).Nodup) (f : Forest) (type name : String)
    {vs : List Datum} (hvs : known.lookup name = some (.list vs)) :
    ∃ parts, listField f type fields name = .ok parts ∧
      parts.map Value.sorted = vs.map Value.sorted := by
  obtain ⟨w, hw, hsorted⟩ := lookup_of_known h distinct name hvs
  rw [Value.sorted, Value.sortedList_eq_map] at hsorted
  obtain ⟨parts, hparts, hmap⟩ := Value.items?_of_sorted hsorted
  refine ⟨parts, ?_, hmap⟩
  rw [listField, hw]
  simp only [hparts]

end Fields

section ElementFields

variable {fields : Fields} {label : ElementLabel} {text : Datum} {items : List Datum}
  (h : SameFields fields (Plan.fieldsOf label text items))
include h

theorem ignoredEvents_of_fieldsOf (type : String) : ignoredEvents type fields = [] := by
  have hunknown : ((Plan.fieldsOf label text items).map (·.1)).filter
      (!knownFields.contains ·) = [] := by
    rw [Plan.fieldsOf]
    cases label.kind.hasText with
    | true => rfl
    | false => rfl
  have perm := (names_of_known h).filter (!knownFields.contains ·)
  rw [hunknown] at perm
  rw [ignoredEvents, unknownFields, perm.eq_nil, List.mergeSort_nil]

theorem markOf_of_fieldsOf (f : Forest) (slot : label.kind.hasText = true) :
    markOf f fields = label.mark := by
  have hmark : (Plan.fieldsOf label text items).lookup "unsafe" = some (.bool label.mark) := by
    rw [Plan.fieldsOf, slot]
    rfl
  obtain ⟨w, hw, hsorted⟩ := lookup_of_known h (Plan.distinct_fieldsOf ..) "unsafe" hmark
  rw [markOf, hw]
  exact Value.truth_of_erased _ (Value.erased_of_sorted_scalar hsorted)

end ElementFields

/-! ## A new element -/

/-- An element of which only the kind and the tag are given is otherwise empty. -/
theorem construct_runs (kind : Kind) {given tag : Datum} (s : Store)
    (htag : kind.tagFor s.forest given = .ok tag) :
    ∃ s' id, Runs (Action.construct kind { tag := given }) s id s' ∧ s.forest.Grows s'.forest ∧
      s.forest.elements.size ≤ id.index ∧ s'.forest.get? id = some { kind, tag } := by
  have grows := Forest.grows_insert s.forest { kind, tag }
  have there : (s.forest.insert { kind, tag }).2.get? (s.forest.insert { kind, tag }).1 =
      some { kind, tag } := by
    rw [Forest.get?_insert, if_pos rfl]
  generalize hinsert : s.forest.insert { kind, tag } = inserted at grows there
  obtain ⟨id, f⟩ := inserted
  have new : s.forest.elements.size ≤ id.index := by
    have hid : (s.forest.insert { kind, tag }).1 = id := by rw [hinsert]
    rw [← hid]
    exact Nat.le_refl _
  -- filling the empty slot with the empty text changes nothing
  have but : f.GrowsBut (if kind.hasText then f.setContent id (.text "") else f) id
      { kind, tag } := by
    cases slot : kind.hasText with
    | false => exact (Grows.refl f).but there
    | true =>
      have hslot : f.hasText id = true := by
        rw [Forest.hasText, there]
        exact slot
      show f.GrowsBut (f.setContent id (.text "")) id { kind, tag }
      rw [Forest.setContent, if_pos hslot]
      exact Forest.growsBut_update there _
  refine ⟨{ s with forest := if kind.hasText then f.setContent id (.text "") else f }, id, ?_,
    ((grows.but there).trans but).grows new, new, but.here⟩
  rw [Action.construct]
  refine (Action.runs_forest s).bind ?_
  rw [htag]
  refine (Action.runs_pure tag s).bind ((Action.runs_insert _ s).bind ?_)
  rw [hinsert]
  exact (Action.runs_change _ _).bind ((Action.runs_pure () _).bind (Action.runs_pure id _))

theorem newElement_runs {fields : Fields} {label : ElementLabel} {text : Datum} {items : List Datum}
    (h : SameFields fields (Plan.fieldsOf label text items)) (s : Store) :
    ∃ s' id, Runs (newElement label.kind.name fields) s id s' ∧ s.forest.Grows s'.forest ∧
      s.forest.elements.size ≤ id.index ∧
      s'.forest.get? id = some { kind := label.kind, tag := .text label.tag } := by
  obtain ⟨w, hw, hsorted⟩ := lookup_of_known h (Plan.distinct_fieldsOf ..) "tag_name" rfl
  have htag := Kind.tagFor_text s.forest label.fits
  have hguard := Kind.tag_given s.forest label.fits
  obtain ⟨s', id, runs, rest⟩ := construct_runs label.kind s htag
  refine ⟨s', id, ?_, rest⟩
  rw [newElement, Kind.ofPayloadName?_name label.fits, hw, Option.getD_some,
    Value.erased_of_sorted_scalar hsorted]
  refine (Action.runs_forest s).bind ?_
  rw [if_neg (by rw [hguard]; exact Bool.false_ne_true)]
  exact runs

/-! ## Attributes -/

/-- In a list of two texts there is nothing to sort. -/
theorem map_erased_of_pairs {pairs : List Datum} {as : List Attribute}
    (h : pairs.map Value.sorted = as.map fun a => .list [.text a.key, .text a.value]) :
    pairs.map Value.erased = as.map fun a => .list [.text a.key, .text a.value] := by
  induction as generalizing pairs with
  | nil => rw [List.map_eq_nil_iff.1 h]; rfl
  | cons a as ih =>
    obtain ⟨pair, pairs, rfl, hpair, hrest⟩ := List.map_eq_cons_iff.1 h
    have herased : pair.erased = .list ([.text a.key, .text a.value].map .scalar) :=
      Value.erased_of_sorted_scalars hpair
    rw [List.map_cons, List.map_cons, ih hrest, herased]
    rfl

theorem readAttributes_runs (type : String) (id : ElementId) (as : List Attribute)
    (pairs : List Datum) (s : Store) (e : Element)
    (hpairs : pairs.map Value.erased = as.map fun a => .list [.text a.key, .text a.value])
    (there : s.forest.get? id = some e) :
    ∃ s', Runs (readAttributes type id pairs) s () s' ∧ s.forest.GrowsBut s'.forest id
      { e with attributes := as.foldl Attributes.add e.attributes } := by
  induction as generalizing pairs s e with
  | nil =>
    obtain rfl := List.map_eq_nil_iff.1 hpairs
    exact ⟨s, Action.runs_pure () s, (Grows.refl s.forest).but there⟩
  | cons a as ih =>
    obtain ⟨pair, pairs, rfl, hpair, hrest⟩ := List.map_eq_cons_iff.1 hpairs
    have hattributes : s.forest.attributesOf id = e.attributes := by
      rw [Forest.attributesOf, there]
      rfl
    have hattribute : attributeOf s.forest type pair = .ok a := by
      rw [attributeOf, hpair]
    have but := Forest.growsBut_update there ({ · with attributes := e.attributes.add a })
    obtain ⟨s', runs, but'⟩ := ih pairs
      { s with forest := s.forest.setAttributes id (e.attributes.add a) } _ hrest but.here
    refine ⟨s', ?_, but.trans but'⟩
    rw [readAttributes]
    refine (Action.runs_forest s).bind ((runs_liftM hattribute s).bind ?_)
    refine (Action.runs_change _ s).bind ?_
    rw [hattributes]
    exact runs

/-! ## Text slots -/

/-- Reading the payload of a plan gives a tree as planned. -/
def RestoresNode (p : Plan) : Prop :=
  ∀ (v : Datum) (s : Store), v.sorted = p.payload.sorted →
    ∃ s' root, Runs (node v) s (.element root) s' ∧ s.forest.Restored s'.forest p root

/-- Reading payloads attaches trees as planned. -/
def RestoresAll (ps : List Plan) : Prop :=
  ∀ (vs : List Datum) (s : Store) (holder : Ref),
    vs.map Value.sorted = (Plan.payloads ps).map Value.sorted → s.forest.isThere holder = true →
    ∃ s' roots, Runs (attachAll holder vs) s () s' ∧
      s.forest.RestoredAll s'.forest holder ps roots

/-- Reading the text of a plan fills the slot of an element without children. The mark is set
later. -/
def RestoresText (label : ElementLabel) (inside : Option Plan) : Prop :=
  ∀ (fields : Fields) (w : Datum) (s : Store) (id : ElementId) (e : Element),
    fields.lookup "text" = some w → w.sorted = (Plan.textPayload label inside).sorted →
    s.forest.get? id = some e → e.hasText = true → e.children = [] →
    ∃ s' content ids, Runs (textSlot id fields) s () s' ∧
      s.forest.GrowsBut s'.forest id (e.filled content) ∧
      s'.forest.StoresText id { e.filled content with mark := .bool label.mark } label inside ids ∧
      Within s.forest.elements.size s'.forest.elements.size ids

theorem restoresText_none (label : ElementLabel) : RestoresText label none := by
  intro fields w s id e hw hsorted there slot _
  obtain ⟨content, s', runs, hcontent, hforest⟩ := Action.runs_identified w s
  have herased : w.erased = .scalar label.text := Value.erased_of_sorted_scalar hsorted
  have hscalar : content.erased = .scalar label.text := hcontent.trans herased
  have hslot : s'.forest.hasText id = true := by
    rw [hforest, Forest.hasText, there]
    exact slot
  have hset : s'.forest.setContent id content =
      s'.forest.update id (·.filled content) := by
    rw [Forest.setContent, if_pos hslot]
    split
    · cases hscalar
    · rfl
  refine ⟨{ s' with forest := s'.forest.setContent id content }, content, [], ?_, ?_,
    .scalar slot hscalar rfl, List.nodup_nil, fun _ h => absurd h List.not_mem_nil⟩
  · have hrecord : w.isRecord = false := by
      rw [← Value.isRecord_sorted, hsorted]
      rfl
    rw [textSlot]
    split
    next h => rw [hw] at h; cases h
    next v h =>
      obtain rfl : w = v := Option.some.inj (hw.symm.trans h)
      rw [hrecord, if_neg Bool.false_ne_true]
      exact runs.bind (Action.runs_change _ s')
  · show s.forest.GrowsBut (s'.forest.setContent id content) id _
    rw [hset, hforest]
    exact Forest.growsBut_update there _

theorem restoresText_some (label : ElementLabel) {p : Plan} (inside : RestoresNode p) :
    RestoresText label (some p) := by
  intro fields w s id e hw hsorted there slot empty
  obtain ⟨s', held, runs, restored⟩ := inside w s hsorted
  obtain ⟨but, linked, ids, stores, within⟩ := restored.setContent there slot empty
  have hrecord : w.isRecord = true := by
    rw [← Value.isRecord_sorted, hsorted]
    cases p
    rfl
  refine ⟨{ s' with forest := s'.forest.setContent id (.ref (.element held)) }, _, ids, ?_, but,
    .element slot rfl rfl stores linked, within⟩
  rw [textSlot]
  split
  next h => rw [hw] at h; cases h
  next v h =>
    obtain rfl : w = v := Option.some.inj (hw.symm.trans h)
    rw [hrecord, if_pos rfl]
    exact runs.bind ((Action.runs_pure held s').bind (Action.runs_change _ s'))

/-! ## Elements -/

theorem node_made (o : Origin) (v : Datum) : node (.made o v) = node v := by
  rw [node]

/-- An element up to its text, and what is left to do: nothing where there is no slot, and otherwise
the text, after which the mark is set. -/
theorem elementHead_runs_of_text {fields : Fields} {label : ElementLabel} {text : Datum}
    {items : List Datum} (h : SameFields fields (Plan.fieldsOf label text items))
    (s : Store) :
    ∃ s' id, s.forest.elements.size ≤ id.index ∧
      s.forest.GrowsBut s'.forest id
        { kind := label.kind, tag := .text label.tag, attributes := label.attributes } ∧
      (label.kind.hasText = false → Runs (elementHead label.kind.name fields) s id s') ∧
      (label.kind.hasText = true → ∀ s'', Runs (textSlot id fields) s' () s'' →
        Runs (elementHead label.kind.name fields) s id
          { s'' with forest := s''.forest.setMark id (.bool label.mark) }) := by
  have told : Runs (Action.tell fun _ => (ignoredEvents label.kind.name fields).forM
      Account.report) s () s := by
    refine Action.runs_tell _ s ?_
    rw [ignoredEvents_of_fieldsOf h]
    rfl
  obtain ⟨s1, id, runs1, grows1, new, there1⟩ := newElement_runs h s
  obtain ⟨pairs, hpairs, hmap⟩ :=
    listField_of_known h (Plan.distinct_fieldsOf ..) s1.forest label.kind.name "attributes" rfl
  rw [Plan.attributesPayload, List.map_map] at hmap
  obtain ⟨s2, runs2, but2⟩ := readAttributes_runs label.kind.name id label.attributes.toList pairs
    s1 _ (map_erased_of_pairs hmap) there1
  have hattributes : label.attributes.toList.foldl Attributes.add {} = label.attributes :=
    Attributes.ofList_toList label.distinct
  rw [hattributes] at but2
  have hslot : s2.forest.hasText id = label.kind.hasText := by
    rw [Forest.hasText, but2.here]
    rfl
  refine ⟨s2, id, new, (grows1.but there1).trans but2, fun slot => ?_, fun slot s3 runs3 => ?_⟩
  · rw [elementHead]
    refine told.bind (runs1.bind ((Action.runs_forest s1).bind ?_))
    refine (runs_liftM hpairs s1).bind (runs2.bind ((Action.runs_forest s2).bind ?_))
    rw [hslot, slot, if_neg Bool.false_ne_true]
    exact Action.runs_pure id s2
  · have marked := Action.runs_change (fun f => f.setMark id (.bool (markOf f fields))) s3
    rw [markOf_of_fieldsOf h s3.forest slot] at marked
    rw [elementHead]
    refine told.bind (runs1.bind ((Action.runs_forest s1).bind ?_))
    refine (runs_liftM hpairs s1).bind (runs2.bind ((Action.runs_forest s2).bind ?_))
    rw [hslot, slot, if_pos rfl]
    exact runs3.bind (marked.bind (Action.runs_pure id _))

theorem elementHead_runs {fields : Fields} {label : ElementLabel} {inside : Option Plan}
    {items : List Datum}
    (h : SameFields fields (Plan.fieldsOf label (Plan.textPayload label inside) items))
    (text : RestoresText label inside) (hidden : label.kind.hasText = false → inside = none)
    (s : Store) :
    ∃ s' id e ids, Runs (elementHead label.kind.name fields) s id s' ∧
      s.forest.Grows s'.forest ∧ s'.forest.get? id = some e ∧ e.kind = label.kind ∧
      e.tag = .text label.tag ∧ e.attributes = label.attributes ∧ e.children = [] ∧
      e.parent = .absent ∧ s'.forest.StoresText id e label inside ids ∧
      Within s.forest.elements.size s'.forest.elements.size (id :: ids) := by
  obtain ⟨s1, id, new, but, without, within⟩ := elementHead_runs_of_text h s
  cases slot : label.kind.hasText with
  | false =>
    obtain rfl := hidden slot
    refine ⟨s1, id, _, [], without slot, but.grows new, but.here, rfl, rfl, rfl, rfl, rfl,
      .hidden slot, List.nodup_cons.2 ⟨List.not_mem_nil, List.nodup_nil⟩, fun i hi => ?_⟩
    rw [List.mem_singleton.1 hi]
    exact ⟨new, Forest.index_lt but.here⟩
  | true =>
    have htext : (Plan.fieldsOf label (Plan.textPayload label inside) items).lookup "text" =
        some (Plan.textPayload label inside) := by
      rw [Plan.fieldsOf, slot]
      rfl
    obtain ⟨w, hw, hsorted⟩ := lookup_of_known h (Plan.distinct_fieldsOf ..) "text" htext
    obtain ⟨s2, content, ids, runs, but2, stores, bounds⟩ :=
      text fields w s1 id _ hw hsorted but.here slot rfl
    have marked := Forest.growsBut_update but2.here ({ · with mark := .bool label.mark })
    have elsewhere : id ∉ ids := by
      intro hi
      have hid := Forest.index_lt but.here
      have hnew := (bounds.2 id hi).1
      omega
    have all := (but.trans but2).trans marked
    refine ⟨_, id, _, ids, within slot s2 runs, all.grows new, all.here, rfl, rfl, rfl, rfl, rfl,
      stores.growBut marked elsewhere, List.nodup_cons.2 ⟨elsewhere, bounds.1⟩, fun i hi => ?_⟩
    obtain rfl | hi := List.mem_cons.1 hi
    · exact ⟨new, Forest.index_lt all.here⟩
    · have hbounds := bounds.2 i hi
      have hsize := (but.grows new).size
      have hsize' := marked.size
      exact ⟨by omega, Nat.lt_of_lt_of_le hbounds.2 hsize'⟩

theorem children_runs {type : String} {holder : Ref} {fields : Fields} {items : List Datum}
    {s s' : Store} (hitems : listField s.forest type fields "children" = .ok items)
    (runs : Runs (attachAll holder items) s () s') :
    Runs (children type holder fields) s () s' := by
  rw [children]
  refine (Action.runs_forest s).bind ?_
  split
  next others h =>
    obtain rfl : items = others := Except.ok.inj (hitems.symm.trans h)
    exact runs
  next fault h => rw [hitems] at h; cases h

theorem restoresAll_nil : RestoresAll [] := by
  intro vs s holder hvs _
  obtain rfl := List.map_eq_nil_iff.1 hvs
  refine ⟨s, [], ?_, Forest.restoredAll_nil s.forest holder⟩
  rw [attachAll]
  exact Action.runs_pure () s

theorem restoresAll_cons {p : Plan} {ps : List Plan} (head : RestoresNode p)
    (tail : RestoresAll ps) : RestoresAll (p :: ps) := by
  intro vs s holder hvs there
  obtain ⟨v, vs, rfl, hv, hrest⟩ := List.map_eq_cons_iff.1 hvs
  obtain ⟨s1, root, runs1, restored1⟩ := head v s hv
  have attached := restored1.attach there
  have there1 : (s1.forest.attach holder (.ref (.element root))).isThere holder = true :=
    attached.grows.isThere (Forest.isThere_setChildren there _)
  obtain ⟨s2, roots, runs2, restored2⟩ :=
    tail vs { s1 with forest := s1.forest.attach holder (.ref (.element root)) } holder hrest there1
  refine ⟨s2, root :: roots, ?_, attached.append restored2 there⟩
  rw [attachAll]
  exact runs1.bind ((Action.runs_pure root s1).bind ((Action.runs_change _ s1).bind runs2))

theorem restoresNode {label : ElementLabel} {inside : Option Plan} {children : List Plan}
    (text : RestoresText label inside) (hidden : label.kind.hasText = false → inside = none)
    (held : RestoresAll children) : RestoresNode (.node label inside children) := by
  intro v
  match v with
  | .made o w =>
    intro s hv
    have h := restoresNode text hidden held w s hv
    rwa [← node_made] at h
  | .record fields =>
    intro s hv
    have h : SameFields fields
        (Plan.fieldsOf label (Plan.textPayload label inside) (Plan.payloads children)) := by
      rwa [Plan.payload] at hv
    obtain ⟨s1, id, e, ids, runs1, grows1, there, kind, tag, attributes, empty, unlinked, stores,
      within⟩ := elementHead_runs h text hidden s
    obtain ⟨items, hitems, hmap⟩ :=
      listField_of_known h (Plan.distinct_fieldsOf ..) s1.forest label.kind.name "children" rfl
    have hthere : s1.forest.isThere (.element id) = true := by
      rw [Forest.isThere, Forest.isAlive, there]
      rfl
    obtain ⟨s2, roots, runs2, restored⟩ := held items s1 (.element id) hmap hthere
    refine ⟨s2, id, ?_,
      restored.node grows1 there kind tag attributes empty unlinked stores within⟩
    rw [node]
    have named := typeOf_of_known h (Plan.distinct_fieldsOf ..) s.forest rfl
    refine (Action.runs_forest s).bind ((runs_liftM named s).bind ?_)
    rw [if_neg (Kind.name_ne_documentType label.kind)]
    exact runs1.bind ((children_runs hitems runs2).bind (Action.runs_pure _ s2))
  | .scalar _ | .list _ | .ref _ | .renderer .. =>
    intro s hv
    cases hv

mutual

/-- The payload of a plan can be read back, by induction on the plan. -/
theorem restores_of_proper {p : Plan} (proper : p.Proper) : RestoresNode p := by
  match p with
  | .node _ inside children =>
    exact restoresNode (restores_of_properInside proper.2.1) proper.1
      (restores_of_properAll proper.2.2)

theorem restores_of_properInside {inside : Option Plan} (proper : Plan.ProperInside inside)
    {label : ElementLabel} : RestoresText label inside := by
  match inside with
  | none => exact restoresText_none label
  | some p => exact restoresText_some label (restores_of_proper (p := p) proper)

theorem restores_of_properAll {ps : List Plan} (proper : Plan.ProperAll ps) : RestoresAll ps := by
  match ps with
  | [] => exact restoresAll_nil
  | p :: rest =>
    exact restoresAll_cons (restores_of_proper proper.1) (restores_of_properAll proper.2)

end

/-! ## Documents -/

/-- Reading the payload of a document makes a new one with trees as planned. -/
theorem node_restores_document {ps : List Plan} (proper : Plan.ProperAll ps) (v : Datum)
    (s : Store) (hv : v.sorted = (Plan.documentPayload ps).sorted) :
    ∃ s' roots, Runs (node v) s (.document s.forest.insertDocument.1) s' ∧
      s.forest.insertDocument.2.RestoredAll s'.forest (.document s.forest.insertDocument.1) ps
        roots := by
  match v with
  | .made o w =>
    rw [node_made]
    exact node_restores_document proper w s hv
  | .record fields =>
    have h : SameFields fields
        [("_type", .text documentType), ("children", .list (Plan.payloads ps))] := hv
    have distinct : ["_type", "children"].Nodup := by decide
    obtain ⟨items, hitems, hmap⟩ :=
      listField_of_known h distinct s.forest.insertDocument.2 documentType "children" rfl
    have there :
        s.forest.insertDocument.2.isThere (.document s.forest.insertDocument.1) = true := by
      rw [Forest.isThere, Forest.roots?_insertDocument, if_pos rfl]
      rfl
    obtain ⟨s', roots, runs, restored⟩ := restores_of_properAll proper items
      { s with forest := s.forest.insertDocument.2 } (.document s.forest.insertDocument.1) hmap
      there
    refine ⟨s', roots, ?_, restored⟩
    rw [node]
    have named := typeOf_of_known h distinct s.forest rfl
    refine (Action.runs_forest s).bind ((runs_liftM named s).bind ?_)
    rw [if_pos rfl]
    have held : Runs (children documentType (.document s.forest.insertDocument.1) fields)
        { s with forest := s.forest.insertDocument.2 } () s' := children_runs hitems runs
    exact (Action.runs_insertDocument s).bind (held.bind (Action.runs_pure _ s'))
  | .scalar _ | .list _ | .ref _ | .renderer .. => cases hv

end Payload

end Hypertext
