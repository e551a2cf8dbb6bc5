import Hypertext.Proofs.Restoring

/-! The data that describe elements and documents. The grammar says of each node what its fields must
be, and says nothing of other fields or of the order of reading. The main statement is
`Payload.node_accepts_iff`: exactly the data of the grammar are read, whatever the store. -/
namespace Hypertext
set_option autoImplicit false

namespace Value

variable {ρ : Type}

theorem truth_erased (isTrue : ρ → Bool) (v : Value ρ) :
    v.erased.truth isTrue = v.truth isTrue := by
  match v with
  | .scalar _ | .ref _ | .renderer .. => rfl
  | .list [] | .list (_ :: _) | .record [] | .record (_ :: _) => rfl
  | .made o v => exact truth_erased isTrue v

/-- Without references nothing but the value itself decides whether it counts as true. -/
theorem truth_of_refs_nil {v : Value ρ} (plain : v.refs = []) (isTrue isTrue' : ρ → Bool) :
    v.truth isTrue = v.truth isTrue' := by
  match v with
  | .scalar _ | .list _ | .record _ | .renderer .. => rfl
  | .ref _ => cases plain
  | .made o v => exact truth_of_refs_nil (v := v) plain isTrue isTrue'

/-! ## Parts without references -/

theorem refs_of_lookup {fields : List (String × Value ρ)} (plain : refsFields fields = [])
    {name : String} {v : Value ρ} (h : fields.lookup name = some v) : v.refs = [] := by
  induction fields with
  | nil => cases h
  | cons field fields ih =>
    obtain ⟨key, w⟩ := field
    obtain ⟨hw, hrest⟩ := List.append_eq_nil_iff.1 plain
    rw [List.lookup_cons] at h
    split at h
    · obtain rfl := Option.some.inj h
      exact hw
    · exact ih hrest h

theorem refsList_of_items? {v : Value ρ} (plain : v.refs = []) {items : List (Value ρ)}
    (h : v.items? = some items) : refsList items = [] := by
  match v with
  | .list parts =>
    obtain rfl := Option.some.inj h
    exact plain
  | .made o v => exact refsList_of_items? (v := v) plain h
  | .scalar _ | .record _ | .ref _ | .renderer .. => cases h

theorem refs_of_mem {items : List (Value ρ)} (plain : refsList items = []) {v : Value ρ}
    (hv : v ∈ items) : v.refs = [] := by
  induction items with
  | nil => cases hv
  | cons w items ih =>
    obtain ⟨hw, hrest⟩ := List.append_eq_nil_iff.1 plain
    obtain rfl | hv := List.mem_cons.1 hv
    · exact hw
    · exact ih hrest hv

end Value

namespace Payload

open Hypertext.Action (Runs runs_bind_iff)

/-! ## The grammar -/

/-- The type that a node names. -/
def type? (fields : Fields) : Option String :=
  match (fields.lookup "_type").map Value.erased with
  | some (.text type) => some type
  | _ => none

/-- What a field lists, and nothing where it is absent; none if it is no list. -/
def listed? (fields : Fields) (name : String) : Option (List Datum) :=
  match fields.lookup name with
  | none => some []
  | some v => v.items?

/-- A tag that counts as true and is neither a list nor a record. -/
def HasTag (fields : Fields) : Prop :=
  ∃ v, fields.lookup "tag_name" = some v ∧ v.truth (fun _ => true) = true ∧
    (∀ parts, v.erased ≠ .list parts) ∧ ∀ parts, v.erased ≠ .record parts

def IsPair (v : Datum) : Prop := ∃ key value, v.erased = .list [.text key, .text value]

/-- Data of an element. A generic kind needs a tag, and only a kind with a text slot looks at the
text, where a record stands for an element. -/
inductive IsElement : Datum → Prop where
  | made {o : Origin} {v : Datum} (h : IsElement v) : IsElement (.made o v)
  | record {fields : Fields} {type : String} {kind : Kind} {pairs items : List Datum}
      (named : type? fields = some type) (known : Kind.ofPayloadName? type = some kind)
      (tag : kind.tag? = none → HasTag fields)
      (attributes : listed? fields "attributes" = some pairs) (texts : ∀ v ∈ pairs, IsPair v)
      (text : kind.hasText = true → ∀ v, fields.lookup "text" = some v → v.isRecord = true →
        IsElement v)
      (children : listed? fields "children" = some items) (held : ∀ v ∈ items, IsElement v) :
      IsElement (.record fields)

inductive IsDocument : Datum → Prop where
  | made {o : Origin} {v : Datum} (h : IsDocument v) : IsDocument (.made o v)
  | record {fields : Fields} {items : List Datum} (named : type? fields = some documentType)
      (children : listed? fields "children" = some items) (held : ∀ v ∈ items, IsElement v) :
      IsDocument (.record fields)

def IsNode (v : Datum) : Prop := IsElement v ∨ IsDocument v

/-! ## Fields -/

theorem typeOf_eq_ok_iff {f : Forest} {fields : Fields} {type : String} :
    typeOf f fields = .ok type ↔ type? fields = some type := by
  rw [typeOf, type?]
  cases (fields.lookup "_type").map Value.erased with
  | none => simp
  | some v =>
    cases v with
    | scalar s => cases s <;> simp
    | _ => simp

theorem listField_eq_ok_iff {f : Forest} {type name : String} {fields : Fields}
    {items : List Datum} :
    listField f type fields name = .ok items ↔ listed? fields name = some items := by
  rw [listField, listed?]
  cases fields.lookup name with
  | none => simp
  | some v =>
    cases h : v.items? with
    | none => simp [h]
    | some parts => simp [h]

/-- What is no pair of texts is refused, if it can be spelled. -/
theorem attributeOf_of_not_isPair (f : Forest) (type : String) {v : Datum} (malformed : ¬ IsPair v) :
    attributeOf f type v = .error (if f.isTooLong v.erased then .numberTooLong else
      .payload (some type) (.attributeMalformed (v.erased.literal f.describe))) := by
  rw [attributeOf]
  split
  next key value h => exact absurd ⟨key, value, h⟩ malformed
  next =>
    rw [Forest.literal]
    split <;> rfl

theorem attributeOf_eq_ok_iff {f : Forest} {type : String} {v : Datum} :
    (∃ a, attributeOf f type v = .ok a) ↔ IsPair v := by
  by_cases h : IsPair v
  · obtain ⟨key, value, hv⟩ := h
    refine ⟨fun _ => ⟨key, value, hv⟩, fun _ => ⟨⟨key, value⟩, ?_⟩⟩
    rw [attributeOf, hv]
  · rw [attributeOf_of_not_isPair f type h]
    refine ⟨?_, fun pair => absurd pair h⟩
    rintro ⟨_, ha⟩
    cases ha

/-! ## Tags -/

theorem tagFor_eq_ok_iff {f : Forest} {kind : Kind} {v : Datum} :
    (∃ tag, kind.tagFor f v = .ok tag) ↔
      (kind.tag? = none → f.truth v = true ∧ (∀ parts, v ≠ .list parts) ∧
        ∀ parts, v ≠ .record parts) := by
  unfold Kind.tagFor
  cases kind.tag? with
  | some tag => simp
  | none =>
    cases h : f.truth v with
    | false => simp
    | true => cases v <;> simp

theorem hasTag_iff (f : Forest) {fields : Fields} (plain : Value.refsFields fields = [])
    {v : Datum} (hv : ((fields.lookup "tag_name").getD .null).erased = v) :
    HasTag fields ↔ f.truth v = true ∧ (∀ parts, v ≠ .list parts) ∧ ∀ parts, v ≠ .record parts := by
  subst hv
  rw [HasTag]
  cases h : fields.lookup "tag_name" with
  | none => simp [Forest.truth, Value.erased, Value.subst, Value.truth, Scalar.truth]
  | some w =>
    have htruth : f.truth w.erased = w.truth fun _ => true :=
      (Value.truth_erased _ w).trans (Value.truth_of_refs_nil (Value.refs_of_lookup plain h) _ _)
    simp [htruth]

/-! ## New elements -/

theorem runs_liftM_iff {α : Type} {result : Except Fault α} {a : α} {s s' : Store} :
    Runs (liftM result : Action α) s a s' ↔ result = .ok a ∧ s = s' := by
  cases result with
  | error fault => exact ⟨(nomatch ·), (nomatch ·.1)⟩
  | ok b =>
    refine ⟨fun h => ?_, fun ⟨hb, hs⟩ => ?_⟩
    · obtain ⟨rfl, rfl⟩ := Runs.unique (runs_liftM rfl s) h
      exact ⟨rfl, rfl⟩
    · rw [hb, hs]
      rfl

theorem runs_forest_bind_iff {α : Type} {next : Forest → Action α} {s s' : Store} {a : α} :
    Runs (Action.forest >>= next) s a s' ↔ Runs (next s.forest) s a s' := by
  refine ⟨fun h => ?_, (Action.runs_forest s).bind⟩
  obtain ⟨f, s1, first, second⟩ := runs_bind_iff.1 h
  obtain ⟨rfl, rfl⟩ := (Action.runs_forest s).unique first
  exact second

theorem construct_runs_iff {kind : Kind} {v : Datum} {s : Store} :
    (∃ id s', Runs (Action.construct kind { tag := v }) s id s') ↔
      ∃ tag, kind.tagFor s.forest v = .ok tag := by
  refine ⟨fun ⟨id, s', runs⟩ => ?_, fun ⟨tag, htag⟩ => ?_⟩
  · rw [Action.construct, runs_forest_bind_iff] at runs
    obtain ⟨tag, _, first, _⟩ := runs_bind_iff.1 runs
    refine ⟨tag, ?_⟩
    cases h : kind.tagFor s.forest v with
    | error fault =>
      rw [h] at first
      cases first
    | ok other =>
      rw [h] at first
      rw [((Action.runs_pure other s).unique first).1]
  · obtain ⟨s', id, runs, _⟩ := construct_runs kind s htag
    exact ⟨id, s', runs⟩

/-- An element is made of a known type with a tag that suits it. -/
theorem newElement_runs_iff {type : String} {fields : Fields}
    (plain : Value.refsFields fields = []) (s : Store) :
    (∃ id s', Runs (newElement type fields) s id s') ↔
      ∃ kind, Kind.ofPayloadName? type = some kind ∧ (kind.tag? = none → HasTag fields) := by
  rw [newElement]
  cases Kind.ofPayloadName? type with
  | none => simp [Action.not_runs_throw]
  | some kind =>
    simp only [runs_forest_bind_iff]
    generalize htag : ((fields.lookup "tag_name").getD .null).erased = v
    have suits : (kind.tag? = none → HasTag fields) ↔ ∃ tag, kind.tagFor s.forest v = .ok tag := by
      rw [tagFor_eq_ok_iff, hasTag_iff s.forest plain htag]
    simp only [Option.some.injEq, exists_eq_left', suits]
    split
    next missing =>
      -- a tag that counts as false suits no kind that needs one
      simp only [Bool.and_eq_true, Option.isNone_iff_eq_none, Bool.not_eq_true'] at missing
      simp only [runs_bind_iff, Action.not_runs_throw, false_and, exists_false, false_iff]
      rw [tagFor_eq_ok_iff]
      intro h
      have htrue := (h missing.1).1
      rw [missing.2] at htrue
      cases htrue
    next => exact construct_runs_iff

/-- The kind of a new element, which has no children. -/
theorem get?_of_newElement {type : String} {fields : Fields} {s s' : Store} {id : ElementId}
    {kind : Kind} (known : Kind.ofPayloadName? type = some kind)
    (runs : Runs (newElement type fields) s id s') :
    ∃ tag, s'.forest.get? id = some { kind, tag } := by
  rw [newElement, known] at runs
  simp only [runs_forest_bind_iff] at runs
  split at runs
  · obtain ⟨_, _, h, _⟩ := runs_bind_iff.1 runs
    exact absurd h (Action.not_runs_throw _ _ _ _)
  · obtain ⟨tag, htag⟩ := construct_runs_iff.1 ⟨id, s', runs⟩
    obtain ⟨s1, id1, runs1, _, _, there⟩ := construct_runs kind s htag
    obtain ⟨rfl, rfl⟩ := runs.unique runs1
    exact ⟨tag, there⟩

/-! ## Attributes -/

theorem exists_attributes {pairs : List Datum} (texts : ∀ v ∈ pairs, IsPair v) :
    ∃ as : List Attribute,
      pairs.map Value.erased = as.map fun a => .list [.text a.key, .text a.value] := by
  induction pairs with
  | nil => exact ⟨[], rfl⟩
  | cons pair pairs ih =>
    obtain ⟨key, value, hpair⟩ := texts pair List.mem_cons_self
    obtain ⟨as, has⟩ := ih fun v hv => texts v (List.mem_cons_of_mem pair hv)
    exact ⟨⟨key, value⟩ :: as, by rw [List.map_cons, List.map_cons, hpair, has]⟩

theorem isPair_of_readAttributes {type : String} {id : ElementId} {pairs : List Datum}
    {s s' : Store} (runs : Runs (readAttributes type id pairs) s () s') :
    ∀ v ∈ pairs, IsPair v := by
  induction pairs generalizing s with
  | nil => exact fun v hv => absurd hv List.not_mem_nil
  | cons pair pairs ih =>
    rw [readAttributes, runs_forest_bind_iff] at runs
    obtain ⟨a, s1, first, runs⟩ := runs_bind_iff.1 runs
    obtain ⟨_, s2, _, rest⟩ := runs_bind_iff.1 runs
    intro v hv
    obtain rfl | hv := List.mem_cons.1 hv
    · exact attributeOf_eq_ok_iff.1 ⟨a, (runs_liftM_iff.1 first).1⟩
    · exact ih rest v hv

/-- Attributes are read into an element that otherwise stays as it is. -/
theorem readAttributes_runs_iff {type : String} {id : ElementId} {pairs : List Datum} {s : Store}
    {e : Element} (there : s.forest.get? id = some e) :
    (∃ s', Runs (readAttributes type id pairs) s () s') ↔ ∀ v ∈ pairs, IsPair v := by
  refine ⟨fun ⟨s', runs⟩ => isPair_of_readAttributes runs, fun texts => ?_⟩
  obtain ⟨as, has⟩ := exists_attributes texts
  obtain ⟨s', runs, _⟩ := readAttributes_runs type id as pairs s e has there
  exact ⟨s', runs⟩

theorem get?_of_readAttributes {type : String} {id : ElementId} {pairs : List Datum} {s s' : Store}
    {e : Element} (there : s.forest.get? id = some e)
    (runs : Runs (readAttributes type id pairs) s () s') :
    ∃ attributes, s'.forest.get? id = some { e with attributes } := by
  obtain ⟨as, has⟩ := exists_attributes (isPair_of_readAttributes runs)
  obtain ⟨s1, runs1, but⟩ := readAttributes_runs type id as pairs s e has there
  obtain ⟨-, rfl⟩ := runs.unique runs1
  exact ⟨_, but.here⟩

/-! ## Elements up to their children -/

theorem records_fieldsIgnored (f : Forest) (names : List String) (type : String) :
    (f.records [.fieldsIgnored names type]).result = .ok () := rfl

theorem ignoredEvents_runs (type : String) (fields : Fields) (s : Store) :
    ∃ s', Runs (Action.tell fun _ => (ignoredEvents type fields).forM Account.report) s () s' ∧
      s'.forest = s.forest := by
  refine Action.exists_runs_tell _ s ?_ ?_
  · rw [ignoredEvents]
    split <;> rfl
  · rw [ignoredEvents]
    split
    · rfl
    · exact records_fieldsIgnored s.forest _ type

/-- What an element node needs apart from its children, where `reads` tells of a record in its text
slot that it stands for an element. -/
structure HasHead (reads : Datum → Prop) (type : String) (kind : Kind) (fields : Fields) : Prop where
  known : Kind.ofPayloadName? type = some kind
  tag : kind.tag? = none → HasTag fields
  attributes : ∃ pairs, listed? fields "attributes" = some pairs ∧ ∀ v ∈ pairs, IsPair v
  text : kind.hasText = true → ∀ v, fields.lookup "text" = some v → v.isRecord = true → reads v

def HasChildren (reads : Datum → Prop) (fields : Fields) : Prop :=
  ∃ items, listed? fields "children" = some items ∧ ∀ v ∈ items, reads v

theorem isElement_record_iff {fields : Fields} :
    IsElement (.record fields) ↔ ∃ type kind, type? fields = some type ∧
      HasHead IsElement type kind fields ∧ HasChildren IsElement fields := by
  refine ⟨fun h => ?_, ?_⟩
  · cases h with
    | record named known tag attributes texts text children held =>
      exact ⟨_, _, named, ⟨known, tag, ⟨_, attributes, texts⟩, text⟩, _, children, held⟩
  · rintro ⟨_, _, named, ⟨known, tag, ⟨_, attributes, texts⟩, text⟩, _, children, held⟩
    exact .record named known tag attributes texts text children held

theorem isDocument_record_iff {fields : Fields} :
    IsDocument (.record fields) ↔ type? fields = some documentType ∧
      HasChildren IsElement fields := by
  refine ⟨fun h => ?_, fun ⟨named, _, children, held⟩ => .record named children held⟩
  cases h with
  | record named children held => exact ⟨named, _, children, held⟩

/-- Somewhere the data are read as an element. -/
def Reads (v : Datum) : Prop := ∃ s id s', Runs (node v) s (.element id) s'

/-- The data are read as an element wherever there is a store. -/
def AlwaysReads (v : Datum) : Prop := ∀ s, ∃ id s', Runs (node v) s (.element id) s'

theorem runs_elementOnly_iff {r : Ref} {id : ElementId} {s s' : Store} :
    Runs (elementOnly r) s id s' ↔ r = .element id ∧ s = s' := by
  cases r with
  | element other =>
    refine ⟨fun h => ?_, fun ⟨h, hs⟩ => ?_⟩
    · obtain ⟨rfl, rfl⟩ := (Action.runs_pure other s).unique h
      exact ⟨rfl, rfl⟩
    · obtain rfl := Ref.element.inj h
      rw [← hs]
      exact Action.runs_pure other s
  | document _ => exact ⟨(nomatch ·), (nomatch ·.1)⟩

theorem reads_of_runs {α : Type} {v : Datum} {next : ElementId → Action α} {a : α}
    {s s' : Store} (runs : Runs (node v >>= fun r => elementOnly r >>= next) s a s') :
    ∃ id s1, Runs (node v) s (.element id) s1 ∧ Runs (next id) s1 a s' := by
  obtain ⟨r, s1, first, runs⟩ := runs_bind_iff.1 runs
  obtain ⟨id, s2, second, rest⟩ := runs_bind_iff.1 runs
  obtain ⟨rfl, rfl⟩ := runs_elementOnly_iff.1 second
  exact ⟨id, s1, first, rest⟩

theorem textSlot_runs {id : ElementId} {fields : Fields} {v : Datum}
    (hv : fields.lookup "text" = some v) {s s' : Store} (runs : Runs (textSlot id fields) s () s')
    (record : v.isRecord = true) : Reads v := by
  rw [textSlot] at runs
  split at runs
  next h => rw [hv] at h; cases h
  next w h =>
    obtain rfl : v = w := Option.some.inj (hv.symm.trans h)
    rw [record, if_pos rfl] at runs
    obtain ⟨held, s1, first, _⟩ := reads_of_runs runs
    exact ⟨s, held, s1, first⟩

theorem exists_textSlot_runs {fields : Fields}
    (text : ∀ v, fields.lookup "text" = some v → v.isRecord = true → AlwaysReads v)
    (id : ElementId) (s : Store) : ∃ s', Runs (textSlot id fields) s () s' := by
  rw [textSlot]
  split
  next => exact ⟨_, Action.runs_change _ s⟩
  next v hv =>
    split
    next record =>
      obtain ⟨held, s1, first⟩ := text v hv record s
      exact ⟨_, first.bind ((runs_elementOnly_iff.2 ⟨rfl, rfl⟩).bind (Action.runs_change _ s1))⟩
    next =>
      obtain ⟨content, s1, first, _⟩ := Action.runs_identified v s
      exact ⟨_, first.bind (Action.runs_change _ s1)⟩

theorem hasHead_of_runs {type : String} {fields : Fields} (plain : Value.refsFields fields = [])
    {s s' : Store} {id : ElementId} (runs : Runs (elementHead type fields) s id s') :
    ∃ kind, HasHead Reads type kind fields := by
  rw [elementHead] at runs
  obtain ⟨_, s1, _, runs⟩ := runs_bind_iff.1 runs
  obtain ⟨id1, s2, made, runs⟩ := runs_bind_iff.1 runs
  obtain ⟨kind, known, tag⟩ := (newElement_runs_iff plain s1).1 ⟨id1, s2, made⟩
  obtain ⟨given, there⟩ := get?_of_newElement known made
  rw [runs_forest_bind_iff] at runs
  obtain ⟨pairs, s3, listed, runs⟩ := runs_bind_iff.1 runs
  obtain ⟨hpairs, rfl⟩ := runs_liftM_iff.1 listed
  obtain ⟨_, s4, read, runs⟩ := runs_bind_iff.1 runs
  obtain ⟨attributes, there'⟩ := get?_of_readAttributes there read
  refine ⟨kind, known, tag, ⟨pairs, listField_eq_ok_iff.1 hpairs, isPair_of_readAttributes read⟩,
    fun slot v hv record => ?_⟩
  have hslot : s4.forest.hasText id1 = true := by
    rw [Forest.hasText, there']
    exact slot
  rw [runs_forest_bind_iff, hslot, if_pos rfl] at runs
  obtain ⟨_, s5, filled, _⟩ := runs_bind_iff.1 runs
  exact textSlot_runs hv filled record

theorem exists_elementHead_runs {type : String} {fields : Fields} {kind : Kind}
    (plain : Value.refsFields fields = []) (head : HasHead AlwaysReads type kind fields)
    (s : Store) : ∃ id s', Runs (elementHead type fields) s id s' := by
  obtain ⟨pairs, hpairs, texts⟩ := head.attributes
  obtain ⟨s1, told, _⟩ := ignoredEvents_runs type fields s
  obtain ⟨id, s2, made⟩ := (newElement_runs_iff plain s1).2 ⟨kind, head.known, head.tag⟩
  obtain ⟨given, there⟩ := get?_of_newElement head.known made
  obtain ⟨s3, read⟩ : ∃ s3, Runs (readAttributes type id pairs) s2 () s3 :=
    (readAttributes_runs_iff there).2 texts
  obtain ⟨attributes, there'⟩ := get?_of_readAttributes there read
  have hslot : s3.forest.hasText id = kind.hasText := by
    rw [Forest.hasText, there']
    rfl
  have upToText {s' : Store} (rest : Runs (do
      if (← Action.forest).hasText id then
        textSlot id fields
        Action.change fun f => f.setMark id (.bool (markOf f fields))
      return id) s3 id s') : Runs (elementHead type fields) s id s' := by
    rw [elementHead]
    refine told.bind (made.bind (runs_forest_bind_iff.2 ?_))
    exact (runs_liftM (listField_eq_ok_iff.2 hpairs) s2).bind (read.bind rest)
  cases slot : kind.hasText with
  | false =>
    refine ⟨id, s3, upToText (runs_forest_bind_iff.2 ?_)⟩
    rw [hslot, slot, if_neg Bool.false_ne_true]
    exact Action.runs_pure id s3
  | true =>
    obtain ⟨s4, filled⟩ := exists_textSlot_runs (head.text slot) id s3
    have marked := Action.runs_change (fun f => f.setMark id (.bool (markOf f fields))) s4
    refine ⟨id, { s4 with forest := s4.forest.setMark id (.bool (markOf s4.forest fields)) },
      upToText (runs_forest_bind_iff.2 ?_)⟩
    rw [hslot, slot, if_pos rfl]
    exact filled.bind (marked.bind (Action.runs_pure id _))

/-! ## Children and nodes -/

theorem reads_of_attachAll {holder : Ref} {items : List Datum} {s s' : Store}
    (runs : Runs (attachAll holder items) s () s') : ∀ v ∈ items, Reads v := by
  induction items generalizing s with
  | nil => exact fun v hv => absurd hv List.not_mem_nil
  | cons w items ih =>
    rw [attachAll] at runs
    obtain ⟨id, s1, first, runs⟩ := reads_of_runs runs
    obtain ⟨_, s2, _, rest⟩ := runs_bind_iff.1 runs
    intro v hv
    obtain rfl | hv := List.mem_cons.1 hv
    · exact ⟨s, id, s1, first⟩
    · exact ih rest v hv

theorem exists_attachAll_runs {items : List Datum} (held : ∀ v ∈ items, AlwaysReads v)
    (holder : Ref) (s : Store) : ∃ s', Runs (attachAll holder items) s () s' := by
  induction items generalizing s with
  | nil =>
    rw [attachAll]
    exact ⟨s, Action.runs_pure () s⟩
  | cons v items ih =>
    obtain ⟨id, s1, first⟩ := held v List.mem_cons_self s
    have attached := Action.runs_change (·.attach holder (.ref (.element id))) s1
    obtain ⟨s2, rest⟩ := ih (fun w hw => held w (List.mem_cons_of_mem v hw))
      { s1 with forest := s1.forest.attach holder (.ref (.element id)) }
    refine ⟨s2, ?_⟩
    rw [attachAll]
    exact first.bind ((runs_elementOnly_iff.2 ⟨rfl, rfl⟩).bind (attached.bind rest))

theorem hasChildren_of_runs {type : String} {holder : Ref} {fields : Fields} {s s' : Store}
    (runs : Runs (children type holder fields) s () s') : HasChildren Reads fields := by
  rw [children, runs_forest_bind_iff] at runs
  split at runs
  next items h => exact ⟨items, listField_eq_ok_iff.1 h, reads_of_attachAll runs⟩
  next => exact absurd runs (Action.not_runs_throw _ _ _ _)

theorem exists_children_runs {fields : Fields} (held : HasChildren AlwaysReads fields)
    (type : String) (holder : Ref) (s : Store) :
    ∃ s', Runs (children type holder fields) s () s' := by
  obtain ⟨items, hitems, held⟩ := held
  obtain ⟨s', runs⟩ := exists_attachAll_runs held holder s
  exact ⟨s', children_runs (listField_eq_ok_iff.2 hitems) runs⟩

theorem HasHead.imp {reads reads' : Datum → Prop} {type : String} {kind : Kind} {fields : Fields}
    (head : HasHead reads type kind fields)
    (h : ∀ v, fields.lookup "text" = some v → reads v → reads' v) :
    HasHead reads' type kind fields :=
  ⟨head.known, head.tag, head.attributes, fun slot v hv record => h v hv (head.text slot v hv record)⟩

theorem HasChildren.imp {reads reads' : Datum → Prop} {fields : Fields}
    (held : HasChildren reads fields)
    (h : ∀ items, listed? fields "children" = some items → ∀ v ∈ items, reads v → reads' v) :
    HasChildren reads' fields := by
  obtain ⟨items, hitems, held⟩ := held
  exact ⟨items, hitems, fun v hv => h items hitems v hv (held v hv)⟩

theorem ne_documentType_of_ofPayloadName? {type : String} {kind : Kind}
    (known : Kind.ofPayloadName? type = some kind) : type ≠ documentType := by
  rintro rfl
  cases known

/-- A record is read as an element just where it is no document and its parts can be read. -/
theorem runs_record_element {fields : Fields} (plain : Value.refsFields fields = []) {s s' : Store}
    {id : ElementId} (runs : Runs (node (.record fields)) s (.element id) s') :
    ∃ type kind, type? fields = some type ∧ HasHead Reads type kind fields ∧
      HasChildren Reads fields := by
  rw [node, runs_forest_bind_iff] at runs
  obtain ⟨type, s1, first, runs⟩ := runs_bind_iff.1 runs
  obtain ⟨named, rfl⟩ := runs_liftM_iff.1 first
  split at runs
  · obtain ⟨_, _, _, runs⟩ := runs_bind_iff.1 runs
    obtain ⟨_, s3, _, last⟩ := runs_bind_iff.1 runs
    cases ((Action.runs_pure _ s3).unique last).1
  · obtain ⟨id1, s2, head, runs⟩ := runs_bind_iff.1 runs
    obtain ⟨_, s3, held, _⟩ := runs_bind_iff.1 runs
    obtain ⟨kind, head⟩ := hasHead_of_runs plain head
    exact ⟨type, kind, typeOf_eq_ok_iff.1 named, head, hasChildren_of_runs held⟩

theorem runs_record_document {fields : Fields} {s s' : Store} {d : DocumentId}
    (runs : Runs (node (.record fields)) s (.document d) s') :
    type? fields = some documentType ∧ HasChildren Reads fields := by
  rw [node, runs_forest_bind_iff] at runs
  obtain ⟨type, s1, first, runs⟩ := runs_bind_iff.1 runs
  obtain ⟨named, rfl⟩ := runs_liftM_iff.1 first
  split at runs
  next h =>
    obtain ⟨_, _, _, runs⟩ := runs_bind_iff.1 runs
    obtain ⟨_, _, held, _⟩ := runs_bind_iff.1 runs
    exact ⟨h ▸ typeOf_eq_ok_iff.1 named, hasChildren_of_runs held⟩
  · obtain ⟨_, _, _, runs⟩ := runs_bind_iff.1 runs
    obtain ⟨_, s3, _, last⟩ := runs_bind_iff.1 runs
    cases ((Action.runs_pure _ s3).unique last).1

theorem not_runs_node {v : Datum} (record : v.isRecord = false) (s s' : Store) (r : Ref) :
    ¬ Runs (node v) s r s' := by
  match v with
  | .made o v =>
    rw [node_made]
    exact not_runs_node (v := v) record s s' r
  | .record _ => cases record
  | .scalar _ | .list _ | .ref _ | .renderer .. =>
    rw [node, runs_forest_bind_iff] <;> simp [Action.not_runs_throw]

theorem sizeOf_lt_of_listed? {fields : Fields} {name : String} {items : List Datum}
    (h : listed? fields name = some items) {v : Datum} (hv : v ∈ items) :
    sizeOf v < sizeOf (Value.record fields) := by
  have hlisted : listField {} "" fields name = .ok items := listField_eq_ok_iff.2 h
  have hle := sizeOf_listField_le hlisted
  have hlt := List.sizeOf_lt_of_mem hv
  rw [Value.record.sizeOf_spec]
  omega

theorem refs_of_listed? {fields : Fields} (plain : Value.refsFields fields = []) {name : String}
    {items : List Datum} (h : listed? fields name = some items) {v : Datum} (hv : v ∈ items) :
    v.refs = [] := by
  rw [listed?] at h
  split at h
  · obtain rfl := Option.some.inj h
    cases hv
  next w hw =>
    exact Value.refs_of_mem (Value.refsList_of_items? (Value.refs_of_lookup plain hw) h) hv

/-! ## What is read -/

/-- Data are read as an element only if they describe one, by induction on their size. -/
theorem isElement_of_runs {v : Datum} (plain : v.refs = []) {s s' : Store} {id : ElementId}
    (runs : Runs (node v) s (.element id) s') : IsElement v := by
  match v with
  | .made o v =>
    rw [node_made] at runs
    exact .made (isElement_of_runs (v := v) plain runs)
  | .record fields =>
    obtain ⟨type, kind, named, head, held⟩ := runs_record_element plain runs
    refine isElement_record_iff.2 ⟨type, kind, named, head.imp fun v hv reads => ?_,
      held.imp fun items hitems v hv reads => ?_⟩
    · obtain ⟨_, _, _, runs⟩ := reads
      exact isElement_of_runs (Value.refs_of_lookup plain hv) runs
    · obtain ⟨_, _, _, runs⟩ := reads
      exact isElement_of_runs (refs_of_listed? plain hitems hv) runs
  | .scalar _ | .list _ | .ref _ | .renderer .. =>
    exact absurd runs (not_runs_node rfl _ _ _)
termination_by sizeOf v
decreasing_by
  · rw [Value.made.sizeOf_spec]
    omega
  · have hlt := Value.sizeOf_lookup_lt hv
    rw [Value.record.sizeOf_spec]
    omega
  · exact sizeOf_lt_of_listed? hitems hv

theorem isDocument_of_runs {v : Datum} (plain : v.refs = []) {s s' : Store} {d : DocumentId}
    (runs : Runs (node v) s (.document d) s') : IsDocument v := by
  match v with
  | .made o v =>
    rw [node_made] at runs
    exact .made (isDocument_of_runs (v := v) plain runs)
  | .record fields =>
    obtain ⟨named, held⟩ := runs_record_document runs
    refine isDocument_record_iff.2 ⟨named, held.imp fun items hitems v hv reads => ?_⟩
    obtain ⟨_, _, _, runs⟩ := reads
    exact isElement_of_runs (refs_of_listed? plain hitems hv) runs
  | .scalar _ | .list _ | .ref _ | .renderer .. =>
    exact absurd runs (not_runs_node rfl _ _ _)

/-- Data that describe an element are read as one in every store, by induction on the grammar. -/
theorem alwaysReads_of_isElement {v : Datum} (h : IsElement v) (plain : v.refs = []) :
    AlwaysReads v := by
  induction h with
  | made _ ih =>
    intro s
    rw [node_made]
    exact ih plain s
  | @record fields type kind pairs items named known tag attributes texts text children held ihText
      ihHeld =>
    intro s
    have head : HasHead AlwaysReads type kind fields :=
      ⟨known, tag, ⟨pairs, attributes, texts⟩, fun slot v hv record =>
        ihText slot v hv record (Value.refs_of_lookup plain hv)⟩
    obtain ⟨id, s1, runs1⟩ := exists_elementHead_runs plain head s
    obtain ⟨s2, runs2⟩ := exists_children_runs ⟨items, children, fun v hv =>
      ihHeld v hv (refs_of_listed? plain children hv)⟩ type (.element id) s1
    refine ⟨id, s2, ?_⟩
    rw [node]
    refine runs_forest_bind_iff.2 ((runs_liftM (typeOf_eq_ok_iff.2 named) s).bind ?_)
    rw [if_neg (ne_documentType_of_ofPayloadName? known)]
    exact runs1.bind (runs2.bind (Action.runs_pure _ s2))

theorem exists_runs_of_isDocument {v : Datum} (h : IsDocument v) (plain : v.refs = []) (s : Store) :
    ∃ d s', Runs (node v) s (.document d) s' := by
  induction h with
  | made _ ih =>
    rw [node_made]
    exact ih plain
  | @record fields items named children held =>
    obtain ⟨s1, runs1⟩ := exists_children_runs ⟨items, children, fun v hv =>
      alwaysReads_of_isElement (held v hv) (refs_of_listed? plain children hv)⟩ documentType
      (.document s.forest.insertDocument.1) { s with forest := s.forest.insertDocument.2 }
    refine ⟨s.forest.insertDocument.1, s1, ?_⟩
    rw [node]
    refine runs_forest_bind_iff.2 ((runs_liftM (typeOf_eq_ok_iff.2 named) s).bind ?_)
    rw [if_pos rfl]
    exact (Action.runs_insertDocument s).bind (runs1.bind (Action.runs_pure _ s1))

/-! ## Fields that are not known -/

/-- Two lists of fields with the same values under the names that nodes know. -/
def SameKnown (fields fields' : Fields) : Prop :=
  ∀ name ∈ knownFields, fields.lookup name = fields'.lookup name

theorem textSlot_eq (id : ElementId) (fields : Fields) :
    textSlot id fields =
      (match fields.lookup "text" with
      | none => Action.change (·.setContent id (.text ""))
      | some v =>
        if v.isRecord then (do
          let held ← elementOnly (← node v)
          Action.change (·.setContent id (.ref (.element held))))
        else (do
          let content ← Action.identified v
          Action.change (·.setContent id content))) := by
  rw [textSlot]
  split
  next h => rw [h]
  next h => rw [h]

theorem children_eq (type : String) (holder : Ref) (fields : Fields) :
    children type holder fields = (do
      match listField (← Action.forest) type fields "children" with
      | .ok items => attachAll holder items
      | .error fault => throw fault) := by
  rw [children]
  congr 1
  funext f
  split
  next h => rw [h]
  next h => rw [h]

section SameKnown

variable {fields fields' : Fields} (same : SameKnown fields fields')
include same

theorem listField_congr (f : Forest) (type name : String) (known : name ∈ knownFields) :
    listField f type fields name = listField f type fields' name := by
  rw [listField, listField, same name known]

theorem textSlot_congr (id : ElementId) : textSlot id fields = textSlot id fields' := by
  rw [textSlot_eq, textSlot_eq, same "text" (by decide)]

theorem children_congr (type : String) (holder : Ref) :
    children type holder fields = children type holder fields' := by
  simp only [children_eq, listField_congr same _ type "children" (by decide)]

theorem newElement_congr (type : String) : newElement type fields = newElement type fields' := by
  rw [newElement, newElement, same "tag_name" (by decide)]

theorem markOf_congr (f : Forest) : markOf f fields = markOf f fields' := by
  rw [markOf, markOf, same "unsafe" (by decide)]

theorem run_elementHead_congr (type : String) {s : Store} (quiet : s.recording = false) :
    (elementHead type fields).run s = (elementHead type fields').run s := by
  have told (fields : Fields) : (Action.tell fun _ =>
      (ignoredEvents type fields).forM Account.report).run s = (.ok (), s) := by
    rw [Action.run_tell_of_quiet _ quiet, ignoredEvents]
    split <;> rfl
  rw [elementHead, elementHead, Action.run_bind, Action.run_bind, told, told]
  simp only [newElement_congr same, textSlot_congr same, markOf_congr same,
    listField_congr same _ type "attributes" (by decide)]

/-- Where nothing is recorded, fields that are not known are not even noticed. -/
theorem run_node_congr {s : Store} (quiet : s.recording = false) :
    (node (.record fields)).run s = (node (.record fields')).run s := by
  have type : typeOf s.forest fields = typeOf s.forest fields' := by
    rw [typeOf, typeOf, same "_type" (by decide)]
  have ofForest (next : Forest → Action Ref) :
      (Action.forest >>= next).run s = (next s.forest).run s := by
    rw [Action.run_bind, Action.runs_forest s]
  rw [node, node, ofForest, ofForest, type, Action.run_bind, Action.run_bind]
  cases typeOf s.forest fields' with
  | error fault => rfl
  | ok type =>
    show (if type = documentType then _ else _ : Action Ref).run s =
      (if type = documentType then _ else _ : Action Ref).run s
    by_cases named : type = documentType
    · rw [if_pos named, if_pos named]
      simp only [children_congr same]
    · rw [if_neg named, if_neg named, Action.run_bind, Action.run_bind,
        run_elementHead_congr same type quiet]
      simp only [children_congr same]

end SameKnown

/-- Exactly the data of the grammar are read, in every store; data without references are in the
grammar or not whatever the store holds. Where nothing is recorded, fields that are not known make
no difference to what is read, or to why it cannot be. -/
theorem node_accepts_iff (v : Datum) (plain : v.refs = []) (s : Store) :
    ((∃ r s', Runs (node v) s r s') ↔ IsNode v) ∧
      ∀ fields fields', v = .record fields → SameKnown fields fields' → s.recording = false →
        (node (.record fields')).run s = (node v).run s := by
  refine ⟨⟨fun ⟨r, s', runs⟩ => ?_, fun h => ?_⟩, ?_⟩
  · cases r with
    | element id => exact .inl (isElement_of_runs plain runs)
    | document d => exact .inr (isDocument_of_runs plain runs)
  · cases h with
    | inl h =>
      obtain ⟨id, s', runs⟩ := alwaysReads_of_isElement h plain s
      exact ⟨_, s', runs⟩
    | inr h =>
      obtain ⟨d, s', runs⟩ := exists_runs_of_isDocument h plain s
      exact ⟨_, s', runs⟩
  · rintro fields fields' rfl same quiet
    exact (run_node_congr same quiet).symm

/-- A paragraph whose text is described by the given data. -/
def paragraphOf (text : Datum) : Datum := .record [("_type", .text "P"), ("text", text)]

/-- A text that is a record must describe an element: bold text does, and a document does not. -/
theorem node_accepts_iff_of_paragraph :
    (paragraphOf (.record [("_type", .text "B")])).refs = [] ∧
      (∃ r s', Runs (node (paragraphOf (.record [("_type", .text "B")]))) {} r s') ∧
      ¬ ∃ r s', Runs (node (paragraphOf (.record [("_type", .text "HTML")]))) {} r s' := by
  have bold : IsElement (.record [("_type", .text "B")]) :=
    .record rfl rfl (nomatch ·) rfl (fun _ h => nomatch h) (fun _ _ h => nomatch h) rfl
      fun _ h => nomatch h
  refine ⟨rfl, (node_accepts_iff _ rfl {}).1.2 (.inl (.record rfl rfl (nomatch ·) rfl
    (fun _ h => nomatch h) ?_ rfl fun _ h => nomatch h)), fun runs => ?_⟩
  · intro _ v hv _
    obtain rfl := Option.some.inj hv
    exact bold
  · cases (node_accepts_iff _ rfl {}).1.1 runs with
    | inl h =>
      obtain ⟨type, kind, named, head, _⟩ := isElement_record_iff.1 h
      obtain rfl : "P" = type := Option.some.inj named
      obtain rfl := Option.some.inj head.known
      obtain ⟨other, _, named, document, _⟩ := isElement_record_iff.1 (head.text rfl _ rfl rfl)
      obtain rfl : documentType = other := Option.some.inj named
      exact ne_documentType_of_ofPayloadName? document.known rfl
    | inr h =>
      cases h with
      | record named _ _ => exact absurd named (by decide)

end Payload

end Hypertext
