import Hypertext.Proofs.Grammar
import Hypertext.Proofs.References
import Hypertext.Proofs.Scanning

/-! Why data cannot be read. A payload that describes nothing is refused as such, save where reading
trips: a generic tag that has parts is looked up in the tag tables all the same, and the refusal of
an attribute fails if it has a whole number with too many digits in it (`Trips` says where reading
comes to one of these). A text may also have such a number in it, or be nested too deep to be read.
The main statement is `Payload.refused_or_trips`. -/
namespace Hypertext
set_option autoImplicit false

namespace Action

variable {α β : Type}

/-- From this store the action fails with this fault. -/
def Fails (act : Action α) (s : Store) (fault : Fault) : Prop :=
  ∃ s', act.run s = (.error fault, s')

theorem runs_or_fails (act : Action α) (s : Store) :
    (∃ a s', Runs act s a s') ∨ ∃ fault, Fails act s fault := by
  cases h : act.run s with
  | mk result s' =>
    cases result with
    | ok a => exact .inl ⟨a, s', h⟩
    | error fault => exact .inr ⟨fault, s', h⟩

theorem Runs.not_fails {act : Action α} {s s' : Store} {a : α} {fault : Fault}
    (runs : Runs act s a s') : ¬ Fails act s fault := by
  rintro ⟨s'', failed⟩
  rw [Runs, failed] at runs
  cases runs

theorem Fails.unique {act : Action α} {s : Store} {fault fault' : Fault} (h : Fails act s fault)
    (h' : Fails act s fault') : fault = fault' := by
  obtain ⟨_, h⟩ := h
  obtain ⟨_, h'⟩ := h'
  exact Except.error.inj (Prod.mk.inj (h.symm.trans h')).1

/-- A chain fails where its first action does, or where the next one does from what the first has
left. -/
theorem fails_bind_iff {act : Action α} {next : α → Action β} {s : Store} {fault : Fault} :
    Fails (act >>= next) s fault ↔
      Fails act s fault ∨ ∃ a s', Runs act s a s' ∧ Fails (next a) s' fault := by
  simp only [Fails, Runs, run_bind]
  obtain ⟨first | a, s'⟩ := act.run s
  · constructor
    · rintro ⟨s'', h⟩
      obtain ⟨h, -⟩ := Prod.mk.inj h
      obtain rfl := Except.error.inj h
      exact .inl ⟨s', rfl⟩
    · rintro (⟨s'', h⟩ | ⟨_, _, h, _⟩)
      · obtain ⟨h, -⟩ := Prod.mk.inj h
        obtain rfl := Except.error.inj h
        exact ⟨s', rfl⟩
      · cases h
  · constructor
    · exact fun h => .inr ⟨a, s', rfl, h⟩
    · rintro (⟨s'', h⟩ | ⟨b, s'', h, failed⟩)
      · cases h
      · obtain ⟨hab, rfl⟩ := Prod.mk.inj h
        rw [← Except.ok.inj hab] at failed
        exact failed

/-- Behind an action that runs, the chain fails where the next one does. -/
theorem Runs.fails_bind {act : Action α} {next : α → Action β} {s s' : Store} {a : α}
    {fault : Fault} (runs : Runs act s a s') :
    Fails (act >>= next) s fault ↔ Fails (next a) s' fault := by
  rw [fails_bind_iff]
  constructor
  · rintro (h | ⟨b, s'', other, failed⟩)
    · exact absurd h runs.not_fails
    · obtain ⟨rfl, rfl⟩ := runs.unique other
      exact failed
  · exact fun failed => .inr ⟨a, s', runs, failed⟩

theorem fails_throw_iff {fault fault' : Fault} {s : Store} :
    Fails (throw fault : Action α) s fault' ↔ fault = fault' := by
  constructor
  · rintro ⟨s', h⟩
    exact Except.error.inj (Prod.mk.inj h).1
  · rintro rfl
    exact ⟨s, rfl⟩

theorem fails_liftM_iff {result : Except Fault α} {fault : Fault} {s : Store} :
    Fails (liftM result : Action α) s fault ↔ result = .error fault := by
  cases result with
  | ok a =>
    have runs : Runs (liftM (.ok a : Except Fault α) : Action α) s a s := rfl
    exact ⟨fun h => absurd h runs.not_fails, (nomatch ·)⟩
  | error other =>
    constructor
    · rintro ⟨s', h⟩
      exact congrArg Except.error (Except.error.inj (Prod.mk.inj h).1)
    · intro h
      obtain rfl := Except.error.inj h
      exact ⟨s, rfl⟩

theorem not_fails_pure {a : α} {s : Store} {fault : Fault} : ¬ Fails (pure a) s fault :=
  (runs_pure a s).not_fails

end Action

namespace Payload

open Hypertext.Action (Runs Fails fails_bind_iff)

/-! ## Faults -/

/-- The fault says that the data do not describe a tree. -/
def Refuses (fault : Fault) : Prop := ∃ type cause, fault = .payload type cause

/-- The fault of looking up a list or a record in the tag tables, or of spelling a number that is too
long. -/
def Stumbles (fault : Fault) : Prop :=
  fault = .tagUnhashable "list" ∨ fault = .tagUnhashable "dict" ∨ fault = .numberTooLong

/-- A tag that counts as true but is a list or a record. -/
def HasParts (fields : Fields) : Prop :=
  ∃ v, fields.lookup "tag_name" = some v ∧ v.truth (fun _ => true) = true ∧
    ((∃ parts, v.erased = .list parts) ∨ ∃ parts, v.erased = .record parts)

/-- No pair of texts, but something with a number in it that is too long. -/
def IsLongPair (v : Datum) : Prop := ¬ IsPair v ∧ v.isTooLong (fun _ => false) = true

/-- Reading comes to a generic node whose tag has parts, or to an attribute that cannot be spelled,
before it comes to anything that it refuses. It takes the tag of a node first, then the attributes,
the text and the children. -/
inductive Trips : Datum → Prop where
  | made {o : Origin} {v : Datum} (h : Trips v) : Trips (.made o v)
  | tag {fields : Fields} {type : String} {kind : Kind} (named : type? fields = some type)
      (known : Kind.ofPayloadName? type = some kind) (generic : kind.tag? = none)
      (parts : HasParts fields) : Trips (.record fields)
  | pair {fields : Fields} {type : String} {kind : Kind} {before after : List Datum}
      {pair : Datum} (named : type? fields = some type)
      (known : Kind.ofPayloadName? type = some kind) (tag : kind.tag? = none → HasTag fields)
      (listed : listed? fields "attributes" = some (before ++ pair :: after))
      (texts : ∀ v ∈ before, IsPair v) (long : IsLongPair pair) : Trips (.record fields)
  | text {fields : Fields} {type : String} {kind : Kind} {v : Datum}
      (named : type? fields = some type) (head : HasHead (fun _ => True) type kind fields)
      (slot : kind.hasText = true) (text : fields.lookup "text" = some v)
      (record : v.isRecord = true) (h : Trips v) : Trips (.record fields)
  | child {fields : Fields} {type : String} {before after : List Datum} {v : Datum}
      (named : type? fields = some type)
      (head : type = documentType ∨ ∃ kind, HasHead IsElement type kind fields)
      (children : listed? fields "children" = some (before ++ v :: after))
      (held : ∀ w ∈ before, IsElement w) (h : Trips v) : Trips (.record fields)

/-- What becomes of data that cannot be read: they are refused, or reading trips in them. -/
def Ends (trips : Prop) (fault : Fault) : Prop := Refuses fault ∨ trips ∧ Stumbles fault

theorem Ends.imp {trips trips' : Prop} {fault : Fault} (h : Ends trips fault)
    (imp : trips → trips') : Ends trips' fault := h.imp_right (And.imp_left imp)

/-! ## Fields -/

theorem typeOf_refuses {f : Forest} {fields : Fields} {fault : Fault}
    (h : typeOf f fields = .error fault) : Refuses fault := by
  unfold typeOf at h
  split at h
  · exact ⟨_, _, (Except.error.inj h).symm⟩
  · exact ⟨_, _, (Except.error.inj h).symm⟩
  · cases h
  · exact ⟨_, _, (Except.error.inj h).symm⟩

theorem listField_refuses {f : Forest} {type name : String} {fields : Fields} {fault : Fault}
    (h : listField f type fields name = .error fault) : Refuses fault := by
  unfold listField at h
  split at h
  · cases h
  · split at h
    · cases h
    · exact ⟨_, _, (Except.error.inj h).symm⟩

theorem isTooLong_of_plain (f : Forest) {v : Datum} (plain : v.refs = []) :
    f.isTooLong v.erased = v.isTooLong fun _ => false := by
  rw [Forest.isTooLong, Value.isTooLong_erased]
  exact Value.isTooLong_congr fun r hr => by
    rw [plain] at hr
    cases hr

theorem attributeOf_fails {f : Forest} {type : String} {pair : Datum} (plain : pair.refs = [])
    {fault : Fault} (h : attributeOf f type pair = .error fault) :
    Ends (IsLongPair pair) fault := by
  have malformed : ¬ IsPair pair := by
    intro texts
    obtain ⟨a, ha⟩ := attributeOf_eq_ok_iff.2 texts
    rw [ha] at h
    cases h
  rw [attributeOf_of_not_isPair f type malformed, isTooLong_of_plain f plain] at h
  obtain rfl := Except.error.inj h
  split
  next long => exact .inr ⟨⟨malformed, long⟩, .inr (.inr rfl)⟩
  next => exact .inl ⟨_, _, rfl⟩

theorem attributeOf_stumbles {f : Forest} {type : String} {pair : Datum} (plain : pair.refs = [])
    (long : IsLongPair pair) : attributeOf f type pair = .error .numberTooLong := by
  rw [attributeOf_of_not_isPair f type long.1, isTooLong_of_plain f plain, if_pos long.2]

theorem elementOnly_refuses {r : Ref} {s : Store} {fault : Fault}
    (h : Fails (elementOnly r) s fault) : Refuses fault := by
  cases r with
  | element id => exact absurd h Action.not_fails_pure
  | document d => exact ⟨_, _, (Action.fails_throw_iff.1 h).symm⟩

/-- The first attribute that is no pair of texts ends the reading of all. -/
theorem readAttributes_fails {type : String} {id : ElementId} {pairs : List Datum}
    (plain : ∀ v ∈ pairs, v.refs = []) {s : Store} {fault : Fault}
    (h : Fails (readAttributes type id pairs) s fault) :
    Ends (∃ before pair after, pairs = before ++ pair :: after ∧ (∀ v ∈ before, IsPair v) ∧
      IsLongPair pair) fault := by
  induction pairs generalizing s with
  | nil => exact absurd h Action.not_fails_pure
  | cons pair pairs ih =>
    rw [readAttributes, (Action.runs_forest s).fails_bind, fails_bind_iff] at h
    rcases h with h | ⟨a, s1, read, h⟩
    · refine (attributeOf_fails (plain pair List.mem_cons_self)
        (Action.fails_liftM_iff.1 h)).imp fun long => ?_
      exact ⟨[], pair, pairs, rfl, fun _ hv => absurd hv List.not_mem_nil, long⟩
    · rw [(Action.runs_change _ s1).fails_bind] at h
      refine (ih (fun v hv => plain v (List.mem_cons_of_mem pair hv)) h).imp ?_
      rintro ⟨before, other, after, rfl, texts, long⟩
      refine ⟨pair :: before, other, after, rfl, List.forall_mem_cons.2 ⟨?_, texts⟩, long⟩
      exact attributeOf_eq_ok_iff.1 ⟨a, (runs_liftM_iff.1 read).1⟩

/-- The attributes before one that cannot be spelled are read. -/
theorem readAttributes_stumbles {type : String} {id : ElementId} {before after : List Datum}
    {pair : Datum} (texts : ∀ v ∈ before, IsPair v) (plain : pair.refs = [])
    (long : IsLongPair pair) (s : Store) :
    Fails (readAttributes type id (before ++ pair :: after)) s .numberTooLong := by
  induction before generalizing s with
  | nil =>
    rw [List.nil_append, readAttributes, (Action.runs_forest s).fails_bind]
    exact fails_bind_iff.2 (.inl (Action.fails_liftM_iff.2 (attributeOf_stumbles plain long)))
  | cons v before ih =>
    obtain ⟨a, ha⟩ : ∃ a, attributeOf s.forest type v = .ok a :=
      attributeOf_eq_ok_iff.2 (texts v List.mem_cons_self)
    rw [List.cons_append, readAttributes, (Action.runs_forest s).fails_bind,
      (runs_liftM_iff.2 ⟨ha, rfl⟩).fails_bind, (Action.runs_change _ s).fails_bind]
    exact ih (fun w hw => texts w (List.mem_cons_of_mem v hw)) _

/-! ## New elements -/

/-- A tag that counts as true fails only where it is looked up, and only if it has parts. -/
theorem stumbles_of_tagFor {f : Forest} {kind : Kind} {v : Datum} (there : f.truth v = true)
    {fault : Fault} (h : kind.tagFor f v = .error fault) : kind.tag? = none ∧ Stumbles fault ∧
      ((∃ parts, v = .list parts) ∨ ∃ parts, v = .record parts) := by
  unfold Kind.tagFor at h
  split at h
  · cases h
  next generic =>
    rw [there, Bool.not_true, if_neg Bool.false_ne_true] at h
    refine ⟨generic, ?_⟩
    split at h
    · exact ⟨.inl (Except.error.inj h).symm, .inl ⟨_, rfl⟩⟩
    · exact ⟨.inr (.inl (Except.error.inj h).symm), .inr ⟨_, rfl⟩⟩
    · cases h

theorem construct_fails_iff {kind : Kind} {v : Datum} {s : Store} {fault : Fault} :
    Fails (Action.construct kind { tag := v }) s fault ↔
      kind.tagFor s.forest v = .error fault := by
  cases h : kind.tagFor s.forest v with
  | ok tag =>
    obtain ⟨s', id, runs, _⟩ := construct_runs kind s h
    exact ⟨fun failed => absurd failed runs.not_fails, (nomatch ·)⟩
  | error other =>
    have first : Fails (Action.liftExcept (kind.tagFor s.forest v)) s other := by
      rw [h]
      exact ⟨s, rfl⟩
    have failed : Fails (Action.construct kind { tag := v }) s other := by
      rw [Action.construct, (Action.runs_forest s).fails_bind]
      exact fails_bind_iff.2 (.inl first)
    constructor
    · intro failed'
      rw [failed.unique failed']
    · intro h
      rw [← Except.error.inj h]
      exact failed

theorem hasParts_iff (f : Forest) {fields : Fields} (plain : Value.refsFields fields = []) :
    HasParts fields ↔ f.truth ((fields.lookup "tag_name").getD .null).erased = true ∧
      ((∃ parts, ((fields.lookup "tag_name").getD .null).erased = .list parts) ∨
        ∃ parts, ((fields.lookup "tag_name").getD .null).erased = .record parts) := by
  rw [HasParts]
  cases h : fields.lookup "tag_name" with
  | none => simp [Forest.truth, Value.erased, Value.subst, Value.truth, Scalar.truth]
  | some w =>
    have htruth : f.truth w.erased = w.truth fun _ => true :=
      (Value.truth_erased _ w).trans (Value.truth_of_refs_nil (Value.refs_of_lookup plain h) _ _)
    simp [htruth]

theorem newElement_fails {type : String} {fields : Fields} (plain : Value.refsFields fields = [])
    {s : Store} {fault : Fault} (h : Fails (newElement type fields) s fault) :
    Ends (∃ kind, Kind.ofPayloadName? type = some kind ∧ kind.tag? = none ∧ HasParts fields)
      fault := by
  rw [newElement] at h
  cases known : Kind.ofPayloadName? type with
  | none =>
    rw [known] at h
    exact .inl ⟨_, _, (Action.fails_throw_iff.1 h).symm⟩
  | some kind =>
    rw [known] at h
    simp only [(Action.runs_forest s).fails_bind] at h
    split at h
    · rw [fails_bind_iff] at h
      rcases h with h | ⟨_, _, h, _⟩
      · exact .inl ⟨_, _, (Action.fails_throw_iff.1 h).symm⟩
      · exact absurd h (Action.not_runs_throw _ _ _ _)
    next there =>
      have hfault := construct_fails_iff.1 h
      -- a kind with a tag of its own takes any tag, and the others have looked whether it is there
      have htrue : s.forest.truth ((fields.lookup "tag_name").getD .null).erased = true := by
        by_contra absent
        refine there ?_
        cases generic : kind.tag? with
        | none => simpa using absent
        | some tag =>
          unfold Kind.tagFor at hfault
          rw [generic] at hfault
          cases hfault
      obtain ⟨generic, stumbles, parts⟩ := stumbles_of_tagFor htrue hfault
      exact .inr ⟨⟨kind, rfl, generic, (hasParts_iff s.forest plain).2 ⟨htrue, parts⟩⟩, stumbles⟩

theorem newElement_stumbles {type : String} {fields : Fields} {kind : Kind}
    (plain : Value.refsFields fields = []) (known : Kind.ofPayloadName? type = some kind)
    (generic : kind.tag? = none) (parts : HasParts fields) (s : Store) :
    ∃ fault, Stumbles fault ∧ Fails (newElement type fields) s fault := by
  obtain ⟨htrue, hparts⟩ := (hasParts_iff s.forest plain).1 parts
  rw [newElement, known]
  simp only [(Action.runs_forest s).fails_bind, htrue, Bool.not_true, Bool.and_false,
    Bool.false_eq_true, if_false, construct_fails_iff, Kind.tagFor, generic]
  rcases hparts with ⟨items, hv⟩ | ⟨fields, hv⟩
  · rw [hv]
    exact ⟨_, .inl rfl, rfl⟩
  · rw [hv]
    exact ⟨_, .inr (.inl rfl), rfl⟩

/-! ## Texts and children -/

theorem textSlot_fails {id : ElementId} {fields : Fields} {s : Store} {fault : Fault}
    (h : Fails (textSlot id fields) s fault) : Refuses fault ∨
      ∃ v, fields.lookup "text" = some v ∧ v.isRecord = true ∧ Fails (node v) s fault := by
  rw [textSlot_eq] at h
  split at h
  · exact absurd h (Action.runs_change _ s).not_fails
  next v hv =>
    split at h
    next record =>
      rw [fails_bind_iff] at h
      rcases h with h | ⟨r, s1, _, h⟩
      · exact .inr ⟨v, hv, record, h⟩
      rw [fails_bind_iff] at h
      rcases h with h | ⟨held, s2, _, h⟩
      · exact .inl (elementOnly_refuses h)
      · exact absurd h (Action.runs_change _ s2).not_fails
    next =>
      obtain ⟨content, s1, runs, _⟩ := Action.runs_identified v s
      rw [runs.fails_bind] at h
      exact absurd h (Action.runs_change _ s1).not_fails

/-- The first item that cannot be read ends the reading of all. -/
theorem attachAll_fails {holder : Ref} {items : List Datum} {s : Store} {fault : Fault}
    (h : Fails (attachAll holder items) s fault) : Refuses fault ∨
      ∃ before v after s', items = before ++ v :: after ∧ (∀ w ∈ before, Reads w) ∧
        Fails (node v) s' fault := by
  induction items generalizing s with
  | nil =>
    rw [attachAll] at h
    exact absurd h Action.not_fails_pure
  | cons v items ih =>
    rw [attachAll, fails_bind_iff] at h
    rcases h with h | ⟨r, s1, first, h⟩
    · exact .inr ⟨[], v, items, s, rfl, fun _ hw => absurd hw List.not_mem_nil, h⟩
    rw [fails_bind_iff] at h
    rcases h with h | ⟨id, s2, second, h⟩
    · exact .inl (elementOnly_refuses h)
    obtain ⟨rfl, rfl⟩ := runs_elementOnly_iff.1 second
    rw [(Action.runs_change _ s1).fails_bind] at h
    rcases ih h with h | ⟨before, w, after, s', rfl, held, h⟩
    · exact .inl h
    · refine .inr ⟨v :: before, w, after, s', rfl, fun x hx => ?_, h⟩
      obtain rfl | hx := List.mem_cons.1 hx
      · exact ⟨s, id, s1, first⟩
      · exact held x hx

theorem children_fails {type : String} {holder : Ref} {fields : Fields} {s : Store} {fault : Fault}
    (h : Fails (children type holder fields) s fault) : Refuses fault ∨
      ∃ before v after s', listed? fields "children" = some (before ++ v :: after) ∧
        (∀ w ∈ before, Reads w) ∧ Fails (node v) s' fault := by
  rw [children_eq, (Action.runs_forest s).fails_bind] at h
  split at h
  next items hitems =>
    rcases attachAll_fails h with h | ⟨before, v, after, s', rfl, held, h⟩
    · exact .inl h
    · exact .inr ⟨before, v, after, s', listField_eq_ok_iff.1 hitems, held, h⟩
  next other hother =>
    rw [← Action.fails_throw_iff.1 h]
    exact .inl (listField_refuses hother)

/-! ## Elements up to their children -/

/-- What is left to do of an element after its attributes. -/
def fillSlot (id : ElementId) (fields : Fields) : Action ElementId := do
  if (← Action.forest).hasText id then
    textSlot id fields
    Action.change fun f => f.setMark id (.bool (markOf f fields))
  return id

theorem elementHead_eq (type : String) (fields : Fields) : elementHead type fields = (do
    Action.tell fun _ => (ignoredEvents type fields).forM Account.report
    let id ← newElement type fields
    readAttributes type id (← listField (← Action.forest) type fields "attributes")
    fillSlot id fields) := by
  rw [elementHead]
  rfl

theorem fillSlot_fails {id : ElementId} {fields : Fields} {s : Store} {fault : Fault}
    (h : Fails (fillSlot id fields) s fault) :
    s.forest.hasText id = true ∧ Fails (textSlot id fields) s fault := by
  rw [fillSlot, (Action.runs_forest s).fails_bind] at h
  split at h
  next slot =>
    rw [fails_bind_iff] at h
    rcases h with h | ⟨_, s1, _, h⟩
    · exact ⟨slot, h⟩
    · rw [(Action.runs_change _ s1).fails_bind] at h
      exact absurd h Action.not_fails_pure
  · exact absurd h Action.not_fails_pure

theorem elementHead_fails {type : String} {fields : Fields} (plain : Value.refsFields fields = [])
    (named : type? fields = some type) {s : Store} {fault : Fault}
    (h : Fails (elementHead type fields) s fault) : Ends (Trips (.record fields)) fault ∨
      ∃ kind v s', HasHead (fun _ => True) type kind fields ∧ kind.hasText = true ∧
        fields.lookup "text" = some v ∧ v.isRecord = true ∧ Fails (node v) s' fault := by
  obtain ⟨s1, told, _⟩ := ignoredEvents_runs type fields s
  rw [elementHead_eq, told.fails_bind, fails_bind_iff] at h
  rcases h with h | ⟨id, s2, made, h⟩
  · refine .inl ((newElement_fails plain h).imp ?_)
    rintro ⟨kind, known, generic, parts⟩
    exact .tag named known generic parts
  obtain ⟨kind, known, tag⟩ := (newElement_runs_iff plain s1).1 ⟨id, s2, made⟩
  obtain ⟨given, there⟩ := get?_of_newElement known made
  rw [(Action.runs_forest s2).fails_bind, fails_bind_iff] at h
  rcases h with h | ⟨pairs, s3, listed, h⟩
  · exact .inl (.inl (listField_refuses (Action.fails_liftM_iff.1 h)))
  obtain ⟨hpairs, rfl⟩ := runs_liftM_iff.1 listed
  rw [fails_bind_iff] at h
  rcases h with h | ⟨_, s4, read, h⟩
  · have listed := listField_eq_ok_iff.1 hpairs
    refine .inl ((readAttributes_fails (fun v hv => refs_of_listed? plain listed hv) h).imp ?_)
    rintro ⟨before, pair, after, rfl, texts, long⟩
    exact .pair named known tag listed texts long
  obtain ⟨attributes, there'⟩ := get?_of_readAttributes there read
  obtain ⟨slot, h⟩ := fillSlot_fails h
  rw [Forest.hasText, there'] at slot
  rcases textSlot_fails h with h | ⟨v, hv, record, h⟩
  · exact .inl (.inl h)
  · have texts := isPair_of_readAttributes read
    exact .inr ⟨kind, v, s4, ⟨known, tag, ⟨pairs, listField_eq_ok_iff.1 hpairs, texts⟩,
      fun _ _ _ _ => trivial⟩, slot, hv, record, h⟩

/-- An element whose tag and attributes are well gets to its text. -/
theorem exists_upToText {type : String} {fields : Fields} {kind : Kind}
    (plain : Value.refsFields fields = []) (head : HasHead (fun _ => True) type kind fields)
    (s : Store) : ∃ id s', s'.forest.hasText id = kind.hasText ∧
      ∀ fault, Fails (fillSlot id fields) s' fault → Fails (elementHead type fields) s fault := by
  obtain ⟨pairs, hpairs, texts⟩ := head.attributes
  obtain ⟨s1, told, _⟩ := ignoredEvents_runs type fields s
  obtain ⟨id, s2, made⟩ := (newElement_runs_iff plain s1).2 ⟨kind, head.known, head.tag⟩
  obtain ⟨given, there⟩ := get?_of_newElement head.known made
  obtain ⟨s3, read⟩ := (readAttributes_runs_iff there).2 texts
  obtain ⟨attributes, there'⟩ := get?_of_readAttributes there read
  refine ⟨id, s3, ?_, fun fault h => ?_⟩
  · rw [Forest.hasText, there']
    rfl
  · rw [elementHead_eq, told.fails_bind, made.fails_bind, (Action.runs_forest s2).fails_bind,
      (runs_liftM (listField_eq_ok_iff.2 hpairs) s2).fails_bind, read.fails_bind]
    exact h

/-! ## Nodes -/

theorem HasHead.isElement {type : String} {kind : Kind} {fields : Fields}
    (plain : Value.refsFields fields = []) (head : HasHead Reads type kind fields) :
    HasHead IsElement type kind fields := by
  refine head.imp fun v hv reads => ?_
  obtain ⟨_, _, _, runs⟩ := reads
  exact isElement_of_runs (Value.refs_of_lookup plain hv) runs

/-- What reading a child comes to, it comes to for the holder as well, if all that stands before is
well. -/
theorem ends_of_children {type : String} {holder : Ref} {fields : Fields}
    (plain : Value.refsFields fields = []) (named : type? fields = some type)
    (head : type = documentType ∨ ∃ kind, HasHead IsElement type kind fields) {s : Store}
    {fault : Fault} (h : Fails (children type holder fields) s fault)
    (ends : ∀ items, listed? fields "children" = some items → ∀ v ∈ items, ∀ s',
      Fails (node v) s' fault → Ends (Trips v) fault) : Ends (Trips (.record fields)) fault := by
  rcases children_fails h with h | ⟨before, v, after, s', listed, held, h⟩
  · exact .inl h
  have hmem : v ∈ before ++ v :: after := List.mem_append_right _ List.mem_cons_self
  refine (ends _ listed v hmem s' h).imp fun trips => ?_
  refine .child named head listed (fun w hw => ?_) trips
  obtain ⟨_, _, _, runs⟩ := held w hw
  exact isElement_of_runs (refs_of_listed? plain listed (List.mem_append_left _ hw)) runs

/-- Data that cannot be read are refused, or reading trips in them, by induction on their size. -/
theorem ends_of_fails {v : Datum} (plain : v.refs = []) {s : Store} {fault : Fault}
    (h : Fails (node v) s fault) : Ends (Trips v) fault := by
  match v with
  | .made o v =>
    rw [node_made] at h
    exact (ends_of_fails (v := v) plain h).imp .made
  | .record fields =>
    rw [node, (Action.runs_forest s).fails_bind, fails_bind_iff] at h
    rcases h with h | ⟨type, s1, first, h⟩
    · exact .inl (typeOf_refuses (Action.fails_liftM_iff.1 h))
    obtain ⟨htype, rfl⟩ := runs_liftM_iff.1 first
    have named := typeOf_eq_ok_iff.1 htype
    split at h
    next document =>
      rw [(Action.runs_insertDocument s).fails_bind, fails_bind_iff] at h
      rcases h with h | ⟨_, s2, _, h⟩
      · refine ends_of_children plain named (.inl document) h fun items hitems v hv s' h => ?_
        exact ends_of_fails (refs_of_listed? plain hitems hv) h
      · exact absurd h Action.not_fails_pure
    next =>
      rw [fails_bind_iff] at h
      rcases h with h | ⟨id, s2, headed, h⟩
      · rcases elementHead_fails plain named h with h | ⟨kind, v, s', head, slot, hv, record, h⟩
        · exact h
        · refine (ends_of_fails (Value.refs_of_lookup plain hv) h).imp fun trips => ?_
          exact .text named head slot hv record trips
      obtain ⟨kind, head⟩ := hasHead_of_runs plain headed
      rw [fails_bind_iff] at h
      rcases h with h | ⟨_, s3, _, h⟩
      · refine ends_of_children plain named (.inr ⟨kind, head.isElement plain⟩) h
          fun items hitems v hv s' h => ?_
        exact ends_of_fails (refs_of_listed? plain hitems hv) h
      · exact absurd h Action.not_fails_pure
  | .scalar _ | .list _ | .ref _ | .renderer .. =>
    rw [node, (Action.runs_forest s).fails_bind] at h
    · exact .inl ⟨_, _, (Action.fails_throw_iff.1 h).symm⟩
    all_goals simp
termination_by sizeOf v
decreasing_by
  · rw [Value.made.sizeOf_spec]
    omega
  · have hlt := Value.sizeOf_lookup_lt hv
    rw [Value.record.sizeOf_spec]
    omega
  · exact sizeOf_lt_of_listed? hitems hv
  · exact sizeOf_lt_of_listed? hitems hv

/-- The items before the one that stops the reading are read. -/
theorem attachAll_stops {holder : Ref} {before : List Datum} {v : Datum} {after : List Datum}
    (held : ∀ w ∈ before, AlwaysReads w)
    (stops : ∀ s, ∃ fault, Stumbles fault ∧ Fails (node v) s fault) (s : Store) :
    ∃ fault, Stumbles fault ∧ Fails (attachAll holder (before ++ v :: after)) s fault := by
  induction before generalizing s with
  | nil =>
    obtain ⟨fault, stumbles, h⟩ := stops s
    refine ⟨fault, stumbles, ?_⟩
    rw [List.nil_append, attachAll]
    exact fails_bind_iff.2 (.inl h)
  | cons w before ih =>
    obtain ⟨id, s1, first⟩ := held w List.mem_cons_self s
    obtain ⟨fault, stumbles, h⟩ := ih (fun x hx => held x (List.mem_cons_of_mem w hx))
      { s1 with forest := s1.forest.attach holder (.ref (.element id)) }
    refine ⟨fault, stumbles, ?_⟩
    rw [List.cons_append, attachAll, first.fails_bind,
      (runs_elementOnly_iff.2 ⟨rfl, rfl⟩).fails_bind, (Action.runs_change _ s1).fails_bind]
    exact h

theorem children_stops {type : String} {holder : Ref} {fields : Fields} {before : List Datum}
    {v : Datum} {after : List Datum} (plain : Value.refsFields fields = [])
    (listed : listed? fields "children" = some (before ++ v :: after))
    (held : ∀ w ∈ before, IsElement w)
    (stops : ∀ s, ∃ fault, Stumbles fault ∧ Fails (node v) s fault) (s : Store) :
    ∃ fault, Stumbles fault ∧ Fails (children type holder fields) s fault := by
  have reads : ∀ w ∈ before, AlwaysReads w := by
    intro w hw
    have hplain := refs_of_listed? plain listed (List.mem_append_left _ hw)
    exact alwaysReads_of_isElement (held w hw) hplain
  obtain ⟨fault, stumbles, h⟩ := attachAll_stops reads stops s
  refine ⟨fault, stumbles, ?_⟩
  rw [children_eq, (Action.runs_forest s).fails_bind, listField_eq_ok_iff.2 listed]
  exact h

/-- Behind its type a node fails as a document or as an element. -/
theorem fails_record_iff {fields : Fields} {type : String} (named : type? fields = some type)
    {s : Store} {fault : Fault} : Fails (node (.record fields)) s fault ↔
      Fails (if type = documentType then (do
          let id ← Action.insertDocument
          children type (.document id) fields
          return Ref.document id)
        else (do
          let id ← elementHead type fields
          children type (.element id) fields
          return Ref.element id)) s fault := by
  rw [node, (Action.runs_forest s).fails_bind,
    (runs_liftM (typeOf_eq_ok_iff.2 named) s).fails_bind]

theorem stumbles_of_trips {v : Datum} (h : Trips v) (plain : v.refs = []) (s : Store) :
    ∃ fault, Stumbles fault ∧ Fails (node v) s fault := by
  induction h generalizing s with
  | made _ ih =>
    rw [node_made]
    exact ih plain s
  | @tag fields type kind named known generic parts =>
    obtain ⟨s1, told, _⟩ := ignoredEvents_runs type fields s
    obtain ⟨fault, stumbles, h⟩ := newElement_stumbles plain known generic parts s1
    refine ⟨fault, stumbles, ?_⟩
    rw [fails_record_iff named, if_neg (ne_documentType_of_ofPayloadName? known), elementHead_eq]
    exact fails_bind_iff.2 (.inl (told.fails_bind.2 (fails_bind_iff.2 (.inl h))))
  | @pair fields type kind before after pair named known tag listed texts long =>
    obtain ⟨s1, told, _⟩ := ignoredEvents_runs type fields s
    obtain ⟨id, s2, made⟩ := (newElement_runs_iff plain s1).2 ⟨kind, known, tag⟩
    have hplain : pair.refs = [] :=
      refs_of_listed? plain listed (List.mem_append_right _ List.mem_cons_self)
    have failed : Fails (readAttributes type id (before ++ pair :: after)) s2 .numberTooLong :=
      readAttributes_stumbles texts hplain long s2
    refine ⟨.numberTooLong, .inr (.inr rfl), ?_⟩
    rw [fails_record_iff named, if_neg (ne_documentType_of_ofPayloadName? known), elementHead_eq]
    refine fails_bind_iff.2 (.inl ?_)
    rw [told.fails_bind, made.fails_bind, (Action.runs_forest s2).fails_bind,
      (runs_liftM (listField_eq_ok_iff.2 listed) s2).fails_bind]
    exact fails_bind_iff.2 (.inl failed)
  | @text fields type kind v named head slot hv record _ ih =>
    obtain ⟨id, s1, hslot, upTo⟩ := exists_upToText plain head s
    obtain ⟨fault, stumbles, h⟩ := ih (Value.refs_of_lookup plain hv) s1
    refine ⟨fault, stumbles, ?_⟩
    have filling : Fails (fillSlot id fields) s1 fault := by
      rw [fillSlot, (Action.runs_forest s1).fails_bind, hslot, slot, if_pos rfl, textSlot_eq, hv]
      simp only [record, if_true]
      exact fails_bind_iff.2 (.inl (fails_bind_iff.2 (.inl h)))
    rw [fails_record_iff named, if_neg (ne_documentType_of_ofPayloadName? head.known)]
    exact fails_bind_iff.2 (.inl (upTo fault filling))
  | @child fields type before after v named head listed held _ ih =>
    have hplain : v.refs = [] :=
      refs_of_listed? plain listed (List.mem_append_right _ List.mem_cons_self)
    have stops (holder : Ref) (s' : Store) :=
      @children_stops type holder fields before v after plain listed held (ih hplain) s'
    rcases head with document | ⟨kind, head⟩
    · obtain ⟨fault, stumbles, h⟩ := stops (.document s.forest.insertDocument.1)
        { s with forest := s.forest.insertDocument.2 }
      refine ⟨fault, stumbles, ?_⟩
      rw [fails_record_iff named, if_pos document, (Action.runs_insertDocument s).fails_bind]
      exact fails_bind_iff.2 (.inl h)
    · have reads : HasHead AlwaysReads type kind fields := head.imp fun w hw isElement =>
        alwaysReads_of_isElement isElement (Value.refs_of_lookup plain hw)
      obtain ⟨id, s1, headed⟩ := exists_elementHead_runs plain reads s
      obtain ⟨fault, stumbles, h⟩ := stops (.element id) s1
      refine ⟨fault, stumbles, ?_⟩
      rw [fails_record_iff named, if_neg (ne_documentType_of_ofPayloadName? head.known),
        headed.fails_bind]
      exact fails_bind_iff.2 (.inl h)

/-! ## The outcome of reading -/

/-- The data are read, or they are refused as data that describe no tree. -/
def ReadsOrRefuses (act : Action Ref) (s : Store) : Prop :=
  (∃ r s', Runs act s r s') ∨ ∃ fault, Refuses fault ∧ Fails act s fault

theorem not_refuses_of_stumbles {fault : Fault} (h : Stumbles fault) : ¬ Refuses fault := by
  rintro ⟨type, cause, rfl⟩
  rcases h with h | h | h <;> cases h

theorem readsOrRefuses_node_iff {v : Datum} (plain : v.refs = []) (s : Store) :
    ReadsOrRefuses (node v) s ↔ ¬ Trips v := by
  constructor
  · rintro h trips
    obtain ⟨fault, stumbles, failed⟩ := stumbles_of_trips trips plain s
    rcases h with ⟨r, s', runs⟩ | ⟨other, refuses, failed'⟩
    · exact runs.not_fails failed
    · rw [failed.unique failed'] at stumbles
      exact not_refuses_of_stumbles stumbles refuses
  · intro h
    rcases Action.runs_or_fails (node v) s with runs | ⟨fault, failed⟩
    · exact .inl runs
    rcases ends_of_fails plain failed with refuses | ⟨trips, _⟩
    · exact .inr ⟨fault, refuses, failed⟩
    · exact absurd trips h

/-- The fault of a text that is not read as JSON, though that does not say that it is none. -/
def Overtaxes (fault : JsonFault) : Prop :=
  (∃ count, fault = .digitsTooMany count) ∨ ∃ shape, fault = .nestedTooDeep shape

/-- A text that is no JSON is refused, unless a number in it is too long or it is nested too deep. -/
theorem readsOrRefuses_nodeOfJson_iff (limits : Limits) (text : String) (s : Store) :
    ReadsOrRefuses (nodeOfJson limits text) s ↔
      (∀ v, Json.read limits text.toList = .ok v → ¬ Trips v) ∧
        ∀ fault, Json.read (ρ := Ref) limits text.toList = .error fault → ¬ Overtaxes fault := by
  rw [nodeOfJson]
  cases h : Json.read (ρ := Ref) limits text.toList with
  | ok v =>
    rw [readsOrRefuses_node_iff (Json.plain_of_read h)]
    simp
  | error fault =>
    have failed : Fails (throw fault.toFault : Action Ref) s fault.toFault :=
      Action.fails_throw_iff.2 rfl
    constructor
    · rintro (⟨r, s', runs⟩ | ⟨other, ⟨type, cause, rfl⟩, failed'⟩)
      · exact absurd failed runs.not_fails
      · refine ⟨fun _ => (nomatch ·), fun other same => ?_⟩
        obtain rfl := Except.error.inj same
        rintro (⟨count, rfl⟩ | ⟨shape, rfl⟩)
        · cases failed.unique failed'
        · cases failed.unique failed'
    · rintro ⟨-, bearable⟩
      refine .inr ⟨fault.toFault, ?_, failed⟩
      cases fault with
      | digitsTooMany count => exact absurd (.inl ⟨count, rfl⟩) (bearable _ rfl)
      | nestedTooDeep shape => exact absurd (.inr ⟨shape, rfl⟩) (bearable _ rfl)
      | _ => exact ⟨_, _, rfl⟩

theorem fails_nodeOfJson {limits : Limits} {text : String} {fault : JsonFault}
    (h : Json.read (ρ := Ref) limits text.toList = .error fault) (s : Store) :
    Fails (nodeOfJson limits text) s fault.toFault := by
  rw [nodeOfJson, h]
  exact Action.fails_throw_iff.2 rfl

/-- An element whose tag is a list with a name in it. -/
def listTag : Datum :=
  .record [("_type", .text "HtmlElement"), ("tag_name", .list [.text "a"])]

theorem trips_listTag : Trips listTag :=
  .tag rfl (rfl : _ = some (Kind.generic .element)) rfl ⟨_, rfl, rfl, .inl ⟨_, rfl⟩⟩

end Payload

end Hypertext
