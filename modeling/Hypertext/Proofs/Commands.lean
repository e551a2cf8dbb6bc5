import Hypertext.Proofs.Faces
import Hypertext.Proofs.Sparing

/-! The marks that commands set. A command that completes has set those of its log, `markings`, and one
that fails has spared what was there before. The main statement is `lands_runCommand`. -/
namespace Hypertext
set_option autoImplicit false

/-! ## Tags that can be described -/

namespace Forest

variable (f : Forest) (id : ElementId)

theorem isTooLong_of_tagOf {f : Forest} {id : ElementId} {tag : String} (h : f.tagOf id = .text tag) :
    f.isTooLong (.ref (.element id)) = false := by
  rw [tagOf] at h
  rw [isTooLong, Value.isTooLong, describesTooLong]
  cases there : f.get? id with
  | none => rfl
  | some e =>
    rw [there] at h
    have text : e.tag = .text tag := h
    simp [text, Value.isTooLong, Scalar.isTooLong]

theorem tagOf_update (other : ElementId) (change : Element → Element)
    (same : ∀ e, (change e).tag = e.tag) :
    (f.update other change).tagOf id = f.tagOf id := by
  rw [tagOf, get?_update]
  split
  next h =>
    rw [h, tagOf]
    cases f.get? other with
    | none => rfl
    | some e => exact same e
  next => rfl

theorem tagOf_setChildren (holder : Ref) (children : List Datum) :
    (f.setChildren holder children).tagOf id = f.tagOf id := by
  cases holder with
  | element other => exact tagOf_update f id other _ fun _ => rfl
  | document d => rfl

theorem tagOf_setParent (other : ElementId) (parent : ParentLink) :
    (f.setParent other parent).tagOf id = f.tagOf id := tagOf_update f id other _ fun _ => rfl

theorem tagOf_attach (holder : Ref) (child : Datum) :
    (f.attach holder child).tagOf id = f.tagOf id := by
  unfold attach
  split
  · exact (tagOf_setChildren ..).trans (tagOf_setParent ..)
  · exact tagOf_setChildren ..

theorem tagOf_setContent (other : ElementId) (content : Datum) :
    (f.setContent other content).tagOf id = f.tagOf id := by
  rw [setContent]
  split
  · have filled := tagOf_update f id other ({ · with content, mark := .bool false }) fun _ => rfl
    dsimp only
    split
    · exact (tagOf_setParent ..).trans ((tagOf_setChildren ..).trans filled)
    · exact filled
  · exact tagOf_update f id other ({ · with content }) fun _ => rfl

end Forest

namespace Session

open Hypertext.Payload (restored flags)

/-! ## The marks that commands set -/

namespace View

variable (v : View)

def ref? (name : String) : Option Ref := (v.registers.get? name).bind Value.ref?

def element? (name : String) : Option ElementId := (v.ref? name).bind Ref.element?

end View

/-- The elements of a chain, from the next new one on. Where one is put into the text slot of the one
before, that one is not marked any more. -/
def chained (link : Link) (next : Nat) (before : Option ElementId) : Nat → MarkLog
  | 0 => []
  | count + 1 =>
    ⟨⟨next⟩, .bool false⟩ :: (if link = .text then before.toList.map (⟨·, .bool false⟩) else [])
      ++ chained link (next + 1) (some ⟨next⟩) count

/-- The payload that a command reads. -/
def payload? (v : View) : Command → Option Datum
  | .readPayload data => (v.registers.resolve data).toOption
  | .readJson text => (Json.read v.limits text.toList).toOption
  | .copy on false => (v.ref? on).bind fun r => (v.forest.payload r).result.toOption
  | .copy on true => do
    let text ← (v.forest.json v.limits (← v.ref? on) .null).result.toOption
    (Json.read v.limits text.toList).toOption
  | _ => none

/-- What becomes of the mark of an element for which something is set. -/
def assigned (id : ElementId) (value : Datum) : Setting → MarkLog
  | .text => [⟨id, .bool false⟩]
  | .mark => [⟨id, value⟩]
  | .parent | .property _ => []

/-- The marks that a command sets if it completes: a new element is not marked, nor is an element with
a new text, unless the text is set to be written as it is; a mark that is set is the mark; and the
elements of a payload have the marks that it gives them. -/
def markings (v : View) : Command → MarkLog
  | .create .. => [⟨⟨v.forest.elements.size⟩, .bool false⟩]
  | .chain start _ count link =>
    chained link v.forest.elements.size (v.element? start) count
  | .set on setting value => (v.element? on).toList.flatMap fun id =>
    assigned id ((v.registers.resolve value).toOption.getD .null) setting
  | .setVerbatim on _ =>
    (v.element? on).toList.flatMap fun id => [⟨id, .bool false⟩, ⟨id, .bool true⟩]
  | c => restored v.forest.elements.size ((payload? v c).toList.flatMap (flags v.forest))

/-- A command has completed with some marks, and there is room for what a register takes of it. -/
def Completes (expected : MarkLog) (result : Result) (g : Forest) (log : MarkLog) : Prop :=
  log = expected ∧ ∀ d, result.object = some d → g.Knows d

variable {spared : Forest} {v : View}

/-- A command that only answers. -/
theorem spares_of_quiet {act : Act Result} {expected : MarkLog} (none : expected = [])
    (quiet : Act.Quiet v act fun result => ∀ d, result.object = some d → v.forest.Knows d) :
    Act.Spares spared v act (Completes expected) :=
  quiet.spares.imp fun _ _ _ _ h => ⟨h.2.2.trans none.symm, h.2.1 ▸ h.1⟩

/-- An answer without an object. -/
theorem quiet_plain (d : Datum) : Act.Quiet v (return Result.plain d)
    fun result => ∀ d, result.object = some d → v.forest.Knows d := .pure fun _ h => by cases h

theorem run_described (w : Datum) (s : Session) :
    (described w).run s = ((s.forest.literal w).map fun text => ⟨.text text, some w⟩, s) := by
  rw [described, Act.run_bind]
  show (liftExcept (s.forest.literal w) >>= fun text =>
    pure (⟨.text text, some w⟩ : Result) : Act Result).run s = _
  rw [Act.run_bind]
  cases s.forest.literal w <;> rfl

theorem quiet_described (w : Datum) :
    Act.Quiet v (described w) fun result => result.object = some w := by
  intro s hs
  rw [run_described]
  refine ⟨hs, fun result answer => ?_⟩
  cases told : s.forest.literal w with
  | error fault =>
    rw [told] at answer
    cases answer
  | ok text =>
    rw [told] at answer
    rw [← Except.ok.inj answer]

/-- A command that describes what another action has found. What has no description fails once the
action is done, so the action has to spare the forest wherever it leads to such a thing. -/
theorem spares_described {α : Type} {act : Act α} {expected : MarkLog}
    {Q : α → Forest → MarkLog → Prop} (object : α → Datum) (spares : Act.Spares spared v act Q)
    (undone : ∀ a g log, Q a g log → g.isTooLong (object a) = true → spared.Evolves v.forest g log)
    (h : ∀ a g log, ({} : Forest).Evolves v.forest g log → Q a g log →
      log = expected ∧ g.Knows (object a)) :
    Act.Spares spared v (act >>= fun a => described (object a)) (Completes expected) := by
  intro s hs
  obtain ⟨g, log, same, failed, answered⟩ := spares s hs
  rw [Act.run_bind]
  generalize act.run s = result at same failed answered ⊢
  obtain ⟨fault | a, s'⟩ := result
  · exact ⟨g, log, same, fun _ _ => failed fault rfl, fun _ answer => nomatch answer⟩
  · obtain ⟨evolves, ha⟩ := answered a rfl
    obtain ⟨hlog, known⟩ := h a g log evolves ha
    obtain rfl : s'.forest = g := congrArg View.forest same
    simp only [run_described, Forest.literal]
    refine ⟨s'.forest, log, same, fun fault failure => ?_, fun result answer => ⟨evolves, hlog, ?_⟩⟩
    · cases long : s'.forest.isTooLong (object a) with
      | true => exact undone a _ log ha long
      | false =>
        rw [long] at failure
        cases failure
    · intro d hd
      cases long : s'.forest.isTooLong (object a) with
      | true =>
        rw [long] at answer
        cases answer
      | false =>
        rw [long] at answer
        obtain rfl := Except.ok.inj answer
        rwa [← Option.some.inj hd]

/-- A command that answers with a value after it has changed something. -/
theorem spares_answered {α : Type} {act : Act α} {answer : α → Datum} {expected : MarkLog}
    {Q : α → Forest → MarkLog → Prop} (spares : Act.Spares spared v act Q)
    (h : ∀ a g log, Q a g log → log = expected) :
    Act.Spares spared v (act >>= fun a => return Result.plain (answer a)) (Completes expected) := by
  refine (spares.map (f := fun a _ => Result.plain (answer a)) fun _ _ => rfl).imp
    fun result g log _ ⟨a, s, hresult, ha⟩ => ⟨h a g log ha, fun d hd => ?_⟩
  rw [hresult] at hd
  cases hd

/-! ## Creation -/

theorem spares_construct (maker : Parameter.Maker) (named : List Parameter) {args : Arguments}
    (known : ∀ r ∈ args.refs, v.forest.HasRoom r) :
    Act.Spares v.forest v (construct maker named args) fun id g log =>
      v.forest.Evolves v.forest g log ∧ Action.Adds v.forest id g log := by
  rw [construct]
  split
  · exact Act.spares_throw _
  · refine Act.spares_onStore fun store same => ?_
    rw [← same] at known ⊢
    exact Action.spares_construct (.refl _) _ known

theorem spares_insertDocument :
    Act.Spares v.forest v (onStore Action.insertDocument) fun d g log =>
      v.forest.Evolves v.forest g log ∧ log = [] ∧ g.HasRoom (.document d) := by
  refine Act.spares_onStore fun store same => ?_
  rw [← same]
  refine ⟨[], Forest.evolves_insertDocument (.refl _), fun d answer => ⟨rfl, ?_⟩⟩
  obtain rfl := Except.ok.inj answer
  show store.forest.documents.size < (store.forest.documents.push (some [])).size
  rw [Array.size_push]
  exact Nat.lt_succ_self _

/-- Attaching either happens or fails before anything has changed. -/
theorem run_attach (holder : Ref) (d : Datum) (store : Store) :
    (Action.attach holder d).run store =
        (.ok (), { store with forest := store.forest.attach holder d }) ∨
      ∃ fault, (Action.attach holder d).run store = (.error fault, store) := by
  have read : Action.forest.run store = (.ok store.forest, store) := rfl
  rw [Action.attach, Action.run_bind, read]
  dsimp only
  split
  · exact .inr ⟨_, rfl⟩
  · exact .inl rfl

theorem spares_attached (spared : Forest) (holder : Ref) {d : Datum} (known : v.forest.Knows d) :
    Act.Spares spared v (onStore (Action.attach holder d)) fun _ _ log => log = [] := by
  intro s hs
  rw [run_onStore]
  have start : s.store.forest = v.forest := congrArg View.forest hs
  obtain ran | ⟨fault, ran⟩ := run_attach holder d s.store
  · refine ⟨v.forest.attach holder d, [], ?_, fun _ failure => ?_, fun _ _ => ⟨?_, rfl⟩⟩
    · rw [ran, ← hs]
      rfl
    · rw [ran] at failure
      cases failure
    · exact Forest.evolves_attach Forest.not_hasRoom_empty known
  · refine ⟨v.forest, [], ?_, fun _ _ => .refl .., fun _ answer => ?_⟩
    · rw [ran]
      exact hs
    · rw [ran] at answer
      cases answer

variable (isSealed : v.Sealed)
include isSealed

theorem spares_create (kind : Kind) (given : Given) :
    Act.Spares v.forest v (runCommand (.create kind given))
      (Completes (markings v (.create kind given))) := by
  refine (knows_arguments isSealed given).then fun args known => ?_
  refine spares_described (fun id => .ref (.element id))
    (spares_construct (.kind kind) given.parameters known) (fun _ _ _ h _ => h.1)
    fun id g log _ h => ?_
  obtain ⟨-, adds⟩ := h
  refine ⟨?_, fun r hr => List.mem_singleton.1 hr ▸ adds.hasRoom⟩
  obtain ⟨rfl, -, rfl⟩ := adds
  rfl

theorem spares_createDocument (given : Given) :
    Act.Spares v.forest v (runCommand (.createDocument given)) (Completes []) := by
  refine (knows_arguments isSealed given).then fun _ _ => ?_
  split
  · exact Act.spares_throw _
  · refine spares_described (fun d => .ref (.document d)) spares_insertDocument
      (fun _ _ _ h _ => h.1) fun d g log _ h => ⟨h.2.1, fun r hr => ?_⟩
    rw [List.mem_singleton.1 hr]
    exact h.2.2

/-! ## Children -/

theorem hasRoom_refAt (name asked : String) :
    Act.Quiet v (refAt name asked) v.forest.HasRoom :=
  (quiet_refAt name asked).weaken fun _ => isSealed.hasRoom_register

theorem knows_valueAt (name : String) : Act.Quiet v (valueAt name) v.forest.Knows :=
  (quiet_valueAt name).weaken fun _ => isSealed.knows_register

theorem spares_child (on : String) (index : Int) :
    Act.Spares v.forest v (runCommand (.child on index)) (Completes []) := by
  refine spares_of_quiet rfl (.get fun s hs => (hasRoom_refAt isSealed on _).bind fun holder _ => ?_)
  have found : Act.Quiet v (liftExcept (itemAt (s.forest.childrenOf holder) index)) v.forest.Knows :=
    .liftExcept fun d hd => by
      rw [itemAt] at hd
      split at hd
      · split at hd
        next item hitem =>
          obtain ⟨i, -, hi⟩ := Option.bind_eq_some_iff.1 hitem
          rw [← Except.ok.inj hd]
          subst hs
          exact isSealed.knows_child (List.mem_of_getElem? hi)
        next => cases hd
      · cases hd
  exact found.bind fun d known => (quiet_described d).weaken fun result h d' hd' => by
    rwa [← Option.some.inj (h.symm.trans hd')]

theorem spares_add (on child : String) :
    Act.Spares v.forest v (runCommand (.add on child)) (Completes []) := by
  refine (hasRoom_refAt isSealed on _).then fun holder room => ?_
  refine (knows_valueAt isSealed child).then fun d known => ?_
  have added : ({} : Forest).Evolves v.forest (v.forest.add holder d) [] :=
    Forest.evolves_add Forest.not_hasRoom_empty known
  exact spares_answered (Act.spares_change added) fun _ _ _ h => h.2

theorem spares_remove (on child : String) :
    Act.Spares v.forest v (runCommand (.remove on child)) (Completes []) := by
  refine (hasRoom_refAt isSealed on _).then fun holder room => ?_
  refine (knows_valueAt isSealed child).then fun d known => Act.spares_get fun s _ => ?_
  have removed : ({} : Forest).Evolves v.forest (v.forest.remove holder d) [] :=
    Forest.evolves_remove Forest.not_hasRoom_empty d
  exact spares_answered (Act.spares_change removed) fun _ _ _ h => h.2

theorem spares_attach (on child : String) :
    Act.Spares v.forest v (runCommand (.attach on child)) (Completes []) := by
  refine (hasRoom_refAt isSealed on _).then fun holder room => ?_
  refine (knows_valueAt isSealed child).then fun d known => ?_
  exact spares_answered (spares_attached v.forest holder known) fun _ _ _ h => h

omit isSealed in
/-- Without a tag of its own nothing is made of a kind that needs one. -/
theorem run_construct_untagged {kind : Kind} (untagged : kind.tag? = none) (store : Store) :
    (Action.construct kind {}).run store = (.error (.tagRequired kind.name), store) := by
  have refused : kind.tagFor store.forest .null = .error (.tagRequired kind.name) := by
    unfold Kind.tagFor
    rw [untagged]
    rfl
  have read : Action.forest.run store = (.ok store.forest, store) := rfl
  rw [Action.construct, Action.run_bind, read]
  simp only [refused]
  rfl

omit isSealed in
theorem exists_run_construct {kind : Kind} {tag : String} (tagged : kind.tag? = some tag)
    (store : Store) : ∃ id store', (Action.construct kind {}).run store = (.ok id, store') ∧
      store'.forest.tagOf id = .text tag := by
  have accepted : kind.tagFor store.forest .null = .ok (.text tag) := by
    unfold Kind.tagFor
    rw [tagged]
  obtain ⟨store', id, runs, -, -, there⟩ := Payload.construct_runs kind store accepted
  exact ⟨id, store', runs, by rw [Forest.tagOf, there]; rfl⟩

omit isSealed in
theorem run_attach_element (holder : Ref) (id : ElementId) (store : Store) :
    (Action.attach holder (.ref (.element id))).run store =
      (.ok (), { store with forest := store.forest.attach holder (.ref (.element id)) }) := by
  cases holder <;> rfl

omit isSealed in
/-- Where a first element can be linked, a chain is made to its end, and its last element can be
described, unless it is the first one. -/
theorem exists_run_chainFrom {kind : Kind} {tag : String} (tagged : kind.tag? = some tag) (link : Link)
    (count : Nat) {s : Session} {r : Ref} (room : s.forest.HasRoom r)
    (takes : link = .text → ∃ id, r = .element id)
    (short : count = 0 → s.forest.isTooLong (.ref r) = false) :
    ∃ d s', (chainFrom kind link count (.ref r)).run s = (.ok d, s') ∧
      s'.view = { s.view with forest := s'.forest } ∧ s'.forest.Knows d ∧
      s'.forest.isTooLong d = false ∧
      ({} : Forest).Evolves s.forest s'.forest
        (chained link s.forest.elements.size r.element? count) := by
  induction count generalizing s r with
  | zero =>
    refine ⟨.ref r, s, rfl, rfl, fun r' hr' => ?_, short rfl, .refl ..⟩
    obtain rfl := List.mem_singleton.1 hr'
    exact room
  | succ count ih =>
    obtain ⟨id, store, made, named⟩ := exists_run_construct tagged s.store
    have bare : ∀ r ∈ ({} : Arguments).refs, s.store.forest.HasRoom r := by
      simp [Arguments.refs, Value.refs]
    obtain ⟨log, evolves, answered⟩ := Action.spares_construct (Forest.fits_empty _) kind bare
    rw [made] at evolves answered
    have new : store.forest.HasRoom (.element id) := (answered id rfl).hasRoom
    obtain ⟨hid, size, rfl⟩ := answered id rfl
    have ran : (onStore (Action.construct kind {})).run s = (.ok id, { s with store }) := by
      rw [run_onStore, made]
    have known : store.forest.Knows (.ref (.element id)) := fun r' hr' =>
      List.mem_singleton.1 hr' ▸ new
    -- the new element is the first one of what is left of the chain
    have rest : ∀ f : Forest, f.elements.size = store.forest.elements.size →
        f.tagOf id = store.forest.tagOf id → ({} : Forest).Evolves store.forest f
          (if link = .text then r.element?.toList.map (⟨·, .bool false⟩) else []) →
        ∃ d s', (chainFrom kind link count (.ref (.element id))).run
            { s with store := { store with forest := f } } = (.ok d, s') ∧
          s'.view = { s.view with forest := s'.forest } ∧ s'.forest.Knows d ∧
          s'.forest.isTooLong d = false ∧ ({} : Forest).Evolves s.forest s'.forest
            (chained link s.forest.elements.size r.element? (count + 1)) := by
      intro f same tag linked
      obtain ⟨d, s', run, view, known', short', evolves'⟩ := @ih
        { s with store := { store with forest := f } } (.element id) (linked.fits.room new)
        (fun _ => ⟨id, rfl⟩) fun _ => Forest.isTooLong_of_tagOf (tag.trans named)
      refine ⟨d, s', run, view, known', short', ?_⟩
      have whole := (evolves.trans linked).trans evolves'
      have start : f.elements.size = s.forest.elements.size + 1 := same.trans size
      rw [chained]
      rw [show Session.forest { s with store := { store with forest := f } } = f from rfl, start,
        hid] at whole
      exact whole
    rw [chainFrom, Act.run_bind, ran]
    dsimp only
    cases link with
    | child =>
      rw [Act.run_bind, run_onStore, run_attach_element]
      exact rest _ (Action.size_attach ..) (Forest.tagOf_attach ..) (Forest.evolves_attach Forest.not_hasRoom_empty known)
    | text =>
      obtain ⟨holder, rfl⟩ := takes rfl
      exact rest _ (Payload.size_setContent ..) (Forest.tagOf_setContent ..)
        (Forest.evolves_setContent Forest.not_hasRoom_empty known)

omit isSealed in
/-- An object either takes the first element of a chain, or refuses it once the element is made. -/
theorem takes_or_refuses (link : Link) (d : Datum) :
    (∃ r, d = .ref r ∧ (link = .text → ∃ id, r = .element id)) ∨
      ∃ asked, ∀ kind count, chainFrom kind link (count + 1) d =
        onStore (Action.construct kind {}) >>= fun id =>
          (refuse d asked : Act Unit) >>= fun _ => chainFrom kind link count (.ref (.element id)) := by
  cases link with
  | child =>
    cases d with
    | ref r => exact .inl ⟨r, rfl, fun h => by cases h⟩
    | _ => exact .inr ⟨"attach", fun _ _ => by rw [chainFrom]⟩
  | text =>
    cases d with
    | ref r =>
      cases r with
      | element id => exact .inl ⟨.element id, rfl, fun _ => ⟨id, rfl⟩⟩
      | document d => exact .inr ⟨"text", fun _ _ => by rw [chainFrom]⟩
    | _ => exact .inr ⟨"text", fun _ _ => by rw [chainFrom]⟩

theorem spares_chain (start : String) (kind : Kind) (count : Nat) (link : Link) :
    Act.Spares v.forest v (runCommand (.chain start kind count link))
      (Completes (markings v (.chain start kind count link))) := by
  refine (quiet_valueAt start).then fun d hd => ?_
  have made : Act.Spares v.forest v (chainFrom kind link count d) fun d' g log =>
      (g.isTooLong d' = true → v.forest.Evolves v.forest g log) ∧
        log = chained link v.forest.elements.size (v.element? start) count ∧ g.Knows d' := by
    cases count with
    | zero => exact Act.spares_pure ⟨fun _ => .refl .., rfl, isSealed.knows_register hd⟩
    | succ count =>
      -- it is the first link at most that fails
      obtain ⟨r, rfl, takes⟩ | ⟨asked, refused⟩ := takes_or_refuses link d
      · have first : v.element? start = r.element? := by
          rw [View.element?, View.ref?, hd]
          rfl
        cases tagged : kind.tag? with
        | some tag =>
          intro s hs
          have room : s.forest.HasRoom r := by
            subst hs
            exact isSealed.hasRoom_register hd
          obtain ⟨d', s', run, view, known, short, evolves⟩ :=
            exists_run_chainFrom tagged link (count + 1) room takes (nomatch ·)
          subst hs
          rw [run]
          refine ⟨s'.forest, _, view, fun _ failure => (by cases failure), fun a answer => ⟨evolves, ?_⟩⟩
          rw [← Except.ok.inj answer, first]
          exact ⟨fun long => (by rw [short] at long; cases long), rfl, known⟩
        | none =>
          have fails : Act.Quiet v (onStore (Action.construct kind {})) fun _ => False :=
            .onStore (fun store => by rw [run_construct_untagged tagged])
              fun store a _ answer => by
                rw [run_construct_untagged tagged] at answer
                cases answer
          exact fails.then fun _ h => h.elim
      · rw [refused]
        have unlinked : Act.Spares v.forest v (onStore (Action.construct kind {})) fun _ g log =>
            v.forest.Evolves v.forest g log ∧ True :=
          Act.spares_onStore fun store same => by
            rw [← same]
            exact (Action.spares_construct (.refl _) kind (by simp [Arguments.refs, Value.refs])).imp
              fun _ _ _ _ => trivial
        refine unlinked.then fun id g log _ _ => ?_
        exact (quiet_refuse (P := fun _ => False) d asked).then fun _ h => h.elim
  exact spares_described id made (fun _ _ _ h => h.1) fun d' g log _ h => h.2

omit isSealed in
theorem element?_of_get? {name : String} {id : ElementId}
    (h : v.registers.get? name = some (.ref (.element id))) : v.element? name = some id := by
  rw [View.element?, View.ref?, h]
  rfl

/-! ## Elements -/

theorem spares_textOf (on : String) :
    Act.Spares v.forest v (runCommand (.textOf on)) (Completes []) := by
  refine spares_of_quiet rfl ((quiet_elementAt on _).bind fun id _ => ?_)
  refine (quiet_tell _).bind fun d hd => (quiet_described d).weaken fun result h d' hd' => ?_
  obtain rfl := Option.some.inj (h.symm.trans hd')
  cases there : v.forest.get? id with
  | none =>
    rw [Query.answer, Query.subject?, there] at hd
    obtain rfl : Value.null = d := Except.ok.inj hd
    exact fun _ hr => absurd hr List.not_mem_nil
  | some e =>
    rw [Query.answer, Query.subject?, there] at hd
    obtain rfl : e.content = d := Except.ok.inj hd
    exact fun r hr => isSealed.held _ r (Forest.mem_held_of_content there hr)

omit isSealed in
theorem spares_assign (spared : Forest) (id : ElementId) {d : Datum} (known : v.forest.Knows d)
    (setting : Setting) : Act.Spares spared v (assign id d setting) fun _ _ log =>
      log = assigned id d setting := by
  have free : ¬ ({} : Forest).HasRoom (.element id) := Forest.not_hasRoom_empty
  cases setting with
  | text =>
    exact (Act.spares_change (Forest.evolves_setContent free known)).imp fun _ _ _ _ h => h.2
  | mark => exact (Act.spares_change (Forest.evolves_setMark known free)).imp fun _ _ _ _ h => h.2
  | parent =>
    refine Act.spares_get fun s hs => ?_
    have linked : Act.Quiet v (liftExcept (linkTo s.forest d)) fun _ => True :=
      .liftExcept fun _ _ => trivial
    exact linked.then fun link _ =>
      (Act.spares_change (Forest.evolves_setParent ..)).imp fun _ _ _ _ h => h.2
  | property p =>
    exact (Act.spares_change (Forest.evolves_setProperty known free p)).imp fun _ _ _ _ h => h.2

theorem spares_set (on : String) (setting : Setting) (value : Term) :
    Act.Spares v.forest v (runCommand (.set on setting value))
      (Completes (markings v (.set on setting value))) := by
  refine (quiet_valueAt on).then fun holder hon => ?_
  have taken : Act.Quiet v (settingValue value setting) fun d => v.forest.Knows d ∧
      (setting = .mark → v.registers.resolve value = .ok d) := by
    cases setting with
    | text =>
      exact (quiet_make value).weaken fun d hd => ⟨isSealed.knows_made hd, fun h => by cases h⟩
    | _ => exact (quiet_resolve value).weaken fun d hd => ⟨isSealed.knows_resolved hd, fun _ => hd⟩
  refine taken.then fun d hd => ?_
  obtain ⟨known, resolved⟩ := hd
  have unasked : ∀ setting, holder.ref? = none → markings v (.set on setting value) = [] := by
    intro setting h
    rw [markings, View.element?, View.ref?, hon, Option.bind_some, h]
    rfl
  split
  · exact (Act.Quiet.throw (P := fun _ => False) _).fails
  next c =>
    have passed : Act.Quiet v (pure () : Act Unit) fun _ => True := .pure trivial
    exact passed.then fun _ _ => spares_of_quiet (unasked _ rfl) (quiet_plain .null)
  next id =>
    refine spares_answered (spares_assign v.forest id known setting) fun _ _ log h => ?_
    rw [h, markings, element?_of_get? hon, Option.toList_some, List.flatMap_singleton]
    cases setting with
    | mark =>
      rw [resolved rfl]
      rfl
    | _ => rfl
  · exact (quiet_refuse (P := fun _ => False) _ _).fails

theorem spares_setVerbatim (on : String) (text : Term) :
    Act.Spares v.forest v (runCommand (.setVerbatim on text))
      (Completes (markings v (.setVerbatim on text))) := by
  refine (quiet_textElementAt on).then fun id hid => ?_
  refine (quiet_make text).then fun d hd => ?_
  have known := isSealed.knows_made hd
  have filled : ({} : Forest).Evolves v.forest (v.forest.setContent id d) [⟨id, .bool false⟩] :=
    Forest.evolves_setContent Forest.not_hasRoom_empty known
  have marked := Forest.evolves_setMark_bool (v.forest.setContent id d) id true
  refine spares_answered (Act.spares_change (filled.trans marked)) fun _ _ log h => ?_
  rw [h.2, markings, element?_of_get? hid.1]
  rfl

omit isSealed in
/-- Changes that show only in attributes spare everything. -/
theorem spares_callAttributes (id : ElementId) (call : Attributes.Call Symbol) :
    Act.Spares v.forest v (callAttributes id call) fun _ _ log => log = [] := by
  refine Act.spares_get fun s hs => ?_
  have resolved : Act.Quiet v (liftExcept (s.registers.resolveCall call)) fun _ => True :=
    .liftExcept fun _ _ => trivial
  refine resolved.then fun call _ => ?_
  refine (Act.spares_change_before (Forest.evolves_setAttributes v.forest v.forest id _)).then
    fun _ g log _ h => ?_
  have answered : Act.Quiet { v with forest := g }
      (liftExcept (call.run (s.forest.attributesOf id)).1) fun _ => True :=
    .liftExcept fun _ _ => trivial
  exact answered.spares.imp fun _ _ more _ h' => by rw [h.2, h'.2.2]; rfl

omit isSealed in
theorem spares_attributes (on asked : String) (call : Attributes.Call Symbol) :
    Act.Spares v.forest v (do return Result.plain (← callAttributes (← elementAt on asked) call))
      (Completes []) :=
  (quiet_elementAt on asked).then fun id _ =>
    spares_answered (spares_callAttributes id call) fun _ _ _ h => h

omit isSealed in
theorem spares_getStyle (on name : String) :
    Act.Spares v.forest v (runCommand (.getStyle on name)) (Completes []) := by
  refine (quiet_elementAt on _).then fun id _ => ?_
  refine (Act.spares_change_before (Forest.evolves_setStyled v.forest v.forest id)).then
    fun _ g log _ h => Act.spares_get fun s _ => ?_
  rw [h.2]
  exact spares_of_quiet rfl (quiet_plain _)

omit isSealed in
theorem quiet_mapM_resolve (write : Style.Write Term) :
    Act.Quiet v (write.mapM resolve) fun _ => True := by
  cases write with
  | strikethrough => exact .pure trivial
  | _ => exact (quiet_resolve _).bind fun _ _ => .pure trivial

omit isSealed in
theorem quiet_spelled (d : Datum) : Act.Quiet v (spelled d) fun _ => True := by
  cases d with
  | ref r => exact (quiet_tell _).bind fun _ _ => .pure trivial
  | scalar s =>
    rw [spelled]
    split
    · exact .throw _
    · exact .pure trivial
  | _ => exact .get fun _ _ => (Act.Quiet.liftExcept fun _ _ => trivial).bind fun _ _ => .pure trivial

omit isSealed in
theorem spares_writeStyle (id : ElementId) (write : Style.Write Term) :
    Act.Spares v.forest v (writeStyle id write) fun _ _ log => log = [] := by
  refine (Act.spares_change_before (Forest.evolves_setStyled v.forest v.forest id)).then
    fun _ g log styled h => ?_
  refine (quiet_mapM_resolve write).then fun write _ => ?_
  have rest : ∀ write : Style.Write Datum, Act.Spares v.forest { v with forest := g } (do
      let f := (← get).forest
      let attributes ← liftExcept (write.apply f.typeOfRef (f.attributesOf id))
      change (·.setAttributes id attributes)
      return Style.text attributes) fun _ _ more => log ++ more = [] := by
    intro write
    refine Act.spares_get fun s _ => ?_
    have applied : Act.Quiet { v with forest := g }
        (liftExcept (write.apply s.forest.typeOfRef (s.forest.attributesOf id))) fun _ => True :=
      .liftExcept fun _ _ => trivial
    refine applied.then fun attributes _ => ?_
    refine ((Act.spares_change (Forest.evolves_setAttributes _ _ id attributes)).map
      (f := fun _ _ => Style.text attributes) fun _ _ => rfl).imp fun _ _ more _ h' => ?_
    obtain ⟨_, _, _, _, hmore⟩ := h'
    rw [h.2, hmore]
    rfl
  have passed : ∀ {v : View} (write : Style.Write Datum),
      Act.Quiet v (pure write : Act (Style.Write Datum)) fun _ => True := fun _ => .pure trivial
  split
  · exact (quiet_spelled _).then fun _ _ => (passed _).then fun _ _ => rest _
  · exact (quiet_spelled _).then fun _ _ => (passed _).then fun _ _ => rest _
  · exact (quiet_spelled _).then fun _ _ => (passed _).then fun _ _ => rest _
  · exact (passed _).then fun _ _ => rest _

omit isSealed in
theorem spares_getting (on : String) (query : Query) :
    Act.Spares v.forest v (runCommand (.get on query)) (Completes []) := by
  refine (quiet_valueAt on).then fun d _ => ?_
  have told : ∀ g, Act.Spares v.forest { v with forest := g }
      (do return Result.plain (← tell (query.answer d))) (Completes []) := fun g =>
    (quiet_tell _).then fun a _ => spares_of_quiet rfl (quiet_plain a)
  split
  · refine (Act.spares_change_before (Forest.evolves_setStyled v.forest v.forest _)).then
      fun _ g log _ h => ?_
    rw [h.2]
    exact told g
  · have passed : Act.Quiet v (pure () : Act Unit) fun _ => True := .pure trivial
    exact passed.then fun _ _ => told v.forest

/-! ## Renders -/

omit isSealed in
theorem spares_renderDocument (id : DocumentId) (pretty : Datum) :
    Act.Spares spared v (renderDocument id pretty) (Completes []) :=
  spares_of_quiet rfl (.get fun _ _ => (quiet_tell _).bind fun _ _ => quiet_plain _)

omit isSealed in
theorem quiet_rendererAt (name asked : String) :
    Act.Quiet v (rendererAt name asked) fun _ => True := by
  refine (quiet_valueAt name).bind fun d _ => ?_
  split
  · exact .pure trivial
  · exact quiet_refuse _ _

omit isSealed in
theorem quiet_documentAt (name asked : String) :
    Act.Quiet v (documentAt name asked) fun _ => True := by
  refine (quiet_valueAt name).bind fun d _ => ?_
  split
  · exact .pure trivial
  · exact quiet_refuse _ _

theorem spares_renderer (roots : List String) (pretty indent : Term) :
    Act.Spares v.forest v (runCommand (.renderer roots pretty indent)) (Completes []) := by
  refine spares_of_quiet rfl ?_
  refine (Act.Quiet.mapM_all fun name _ => knows_valueAt isSealed name).bind fun roots hroots => ?_
  refine .get fun s hs => ?_
  refine (quiet_resolve pretty).bind fun pretty hpretty => ?_
  refine (quiet_resolve indent).bind fun indent hindent => ?_
  generalize hmade : Renderer.make s.settings roots pretty indent = made
  have known : v.forest.Knows made.toValue := by
    subst hs hmade
    intro r hr
    simp only [Renderer.toValue, Renderer.make, Value.refs, List.mem_append] at hr
    obtain (hr | hr) | hr := hr
    · obtain ⟨d, hd, hr⟩ := Value.mem_refsList_iff.1 hr
      exact hroots d hd r hr
    · exact isSealed.knows_resolved hpretty r hr
    · split at hr
      · exact isSealed.refs r (List.mem_append_right _ (List.mem_append_right _ hr))
      · exact isSealed.knows_resolved hindent r hr
  have identified : Act.Quiet v (onStore (Action.identified made.toValue)) v.forest.Knows := by
    refine .onStore (fun store => ?_) fun store d _ answer r hr => ?_
    · obtain ⟨w, store', runs, -, same⟩ := Action.runs_identified made.toValue store
      rw [show (Action.identified made.toValue).run store = _ from runs, same]
    · obtain ⟨w, store', runs, erased, -⟩ := Action.runs_identified made.toValue store
      rw [show (Action.identified made.toValue).run store = _ from runs] at answer
      obtain rfl := Except.ok.inj answer
      rw [← Value.mem_refs_erased, erased, Value.mem_refs_erased] at hr
      exact known r hr
  exact identified.bind fun d hd => .pure fun d' hd' => Option.some.inj hd' ▸ hd

/-! ## Payloads -/

omit isSealed in
/-- A payload that is known is read. -/
theorem spares_readNode {d : Datum} (known : v.forest.Knows d) :
    Act.Spares v.forest v (readNode (Payload.node d))
      (Completes (restored v.forest.elements.size (flags v.forest d))) := by
  refine spares_described .ref (Act.spares_onStore (Q := fun r g log => g.HasRoom r ∧
    log = restored v.forest.elements.size (flags v.forest d)) fun store same => ?_)
    (fun _ _ _ h _ => h.1)
    fun r g log _ h => ⟨h.2.2, fun r' hr' => List.mem_singleton.1 hr' ▸ h.2.1⟩
  rw [← same] at known ⊢
  exact (Payload.restores d store.forest store (.refl _) known).imp
    fun r g log h => ⟨h.2.1, h.2.2.1⟩

omit isSealed in
theorem spares_readNodeOfJson (text : String) :
    Act.Spares v.forest v (readNode (Payload.nodeOfJson v.limits text)) (Completes
      (restored v.forest.elements.size
        ((Json.read (ρ := Ref) v.limits text.toList).toOption.toList.flatMap (flags v.forest)))) := by
  refine spares_described .ref (Act.spares_onStore (Q := fun r g log => g.HasRoom r ∧
    log = restored v.forest.elements.size
      ((Json.read (ρ := Ref) v.limits text.toList).toOption.toList.flatMap (flags v.forest)))
    fun store same => ?_)
    (fun _ _ _ h _ => h.1)
    fun r g log _ h => ⟨h.2.2, fun r' hr' => List.mem_singleton.1 hr' ▸ h.2.1⟩
  rw [← same]
  refine (Payload.spares_nodeOfJson v.limits store text).imp fun r g log h => ?_
  obtain ⟨room, d, read, restored⟩ := h
  refine ⟨room, ?_⟩
  rw [restored.1, read]
  simp [Except.toOption]

theorem spares_readPayload (data : Term) :
    Act.Spares v.forest v (runCommand (.readPayload data))
      (Completes (markings v (.readPayload data))) := by
  refine (quiet_make data).then fun d hd => ?_
  have same : markings v (.readPayload data) =
      restored v.forest.elements.size (flags v.forest d) := by
    obtain ⟨o, hd⟩ := hd
    show restored _ ((payload? v (.readPayload data)).toList.flatMap _) = _
    rw [payload?, Registers.resolve_of_make hd]
    simp [Except.toOption, Payload.flags_erased]
  rw [same]
  exact spares_readNode (isSealed.knows_made hd)

theorem spares_copy (on : String) : Act.Spares v.forest v (runCommand (.copy on false))
    (Completes (markings v (.copy on false))) := by
  refine (quiet_refAt on _).then fun r hr => (quiet_tell _).then fun d hd => ?_
  have same : markings v (.copy on false) =
      restored v.forest.elements.size (flags v.forest d) := by
    show restored _ ((payload? v (.copy on false)).toList.flatMap _) = _
    rw [payload?, View.ref?, hr]
    simp [Value.ref?, hd, Except.toOption]
  rw [same]
  refine spares_readNode fun s hs => ?_
  obtain ⟨id, held⟩ := Forest.mem_held_of_payload hd hs
  exact isSealed.held _ s held

omit isSealed in
theorem spares_copyByJson (on : String) : Act.Spares v.forest v (runCommand (.copy on true))
    (Completes (markings v (.copy on true))) := by
  refine (quiet_refAt on _).then fun r hr => Act.spares_get fun s hs => ?_
  subst hs
  refine (quiet_tell _).then fun text htext => ?_
  have same : markings s.view (.copy on true) = restored s.forest.elements.size
      ((Json.read (ρ := Ref) s.limits text.toList).toOption.toList.flatMap (flags s.forest)) := by
    have told : (s.forest.json s.limits r .null).result = .ok text := htext
    show restored _ ((payload? s.view (.copy on true)).toList.flatMap _) = _
    rw [payload?, View.ref?, hr]
    simp [Value.ref?, view, told, Except.toOption]
  rw [same]
  exact spares_readNodeOfJson text

/-! ## All commands -/

/-- The commands that set registers or settings. -/
def Sets : Command → Prop
  | .drop _ | .setSettings _ | .loadSettings _ | .resetSettings => True
  | _ => False

theorem spares_runCommand {c : Command} (plain : ¬ Sets c) :
    Act.Spares v.forest v (runCommand c) (Completes (markings v c)) := by
  match c with
  | .create kind given => exact spares_create isSealed kind given
  | .createDocument given => exact spares_createDocument isSealed given
  | .chain start kind count link => exact spares_chain isSealed start kind count link
  | .bind value =>
    exact spares_of_quiet rfl ((quiet_make value).bind fun d hd => .pure fun d' hd' =>
      Option.some.inj hd' ▸ isSealed.knows_made hd)
  | .child on index => exact spares_child isSealed on index
  | .textOf on => exact spares_textOf isSealed on
  | .drop _ | .setSettings _ | .loadSettings _ | .resetSettings => exact absurd trivial plain
  | .fail message => exact spares_of_quiet rfl (.throw _)
  | .add on child => exact spares_add isSealed on child
  | .remove on child => exact spares_remove isSealed on child
  | .attach on child => exact spares_attach isSealed on child
  | .set on setting value => exact spares_set isSealed on setting value
  | .setVerbatim on text => exact spares_setVerbatim isSealed on text
  | .attribute on call => exact spares_attributes on _ call
  | .attributes on call => exact spares_attributes on _ call
  | .getStyle on name => exact spares_getStyle on name
  | .writeStyle on write =>
    exact (quiet_elementAt on _).then fun id _ =>
      spares_answered (spares_writeStyle id write) fun _ _ _ h => h
  | .get on query => exact spares_getting on query
  | .render on pretty =>
    refine (quiet_documentAt on _).then fun id _ => (quiet_resolve pretty).then fun pretty _ => ?_
    exact spares_renderDocument id pretty
  | .renderer roots pretty indent => exact spares_renderer isSealed roots pretty indent
  | .run on =>
    refine (quiet_valueAt on).then fun d _ => ?_
    split
    · exact spares_renderDocument _ _
    · exact spares_of_quiet rfl ((quiet_rendererAt on _).bind fun _ _ => (quiet_tell _).bind fun _ _ =>
        quiet_plain _)
  | .runInner on element =>
    exact spares_of_quiet rfl ((quiet_rendererAt on _).bind fun _ _ => (quiet_valueAt element).bind fun _ _ =>
      (quiet_tell _).bind fun _ _ => quiet_plain _)
  | .getSettings => exact spares_of_quiet rfl (.get fun _ _ => quiet_plain _)
  | .payload on =>
    exact spares_of_quiet rfl ((quiet_refAt on _).bind fun _ _ => (quiet_tell _).bind fun _ _ => quiet_plain _)
  | .json on indent =>
    exact spares_of_quiet rfl ((quiet_valueAt on).bind fun d _ => (quiet_resolve indent).bind fun _ _ =>
      (quiet_refOf d _).bind fun _ _ => .get fun _ _ => (quiet_tell _).bind fun _ _ => quiet_plain _)
  | .readPayload data => exact spares_readPayload isSealed data
  | .readJson text =>
    refine Act.spares_get fun s hs => ?_
    subst hs
    exact spares_readNodeOfJson text
  | .copy on byJson =>
    cases byJson with
    | true => exact spares_copyByJson on
    | false => exact spares_copy isSealed on
  | .journal =>
    exact spares_of_quiet rfl fun s hs => ⟨hs, fun _ answer => by
      rw [← Except.ok.inj answer]
      exact fun _ h => by cases h⟩

theorem resets_settings {settings : Settings} (known : ∀ r ∈ settings.refs, v.forest.HasRoom r) :
    Act.Resets v (modify fun s => { s with settings }) fun _ => True := by
  intro s hs
  subst hs
  refine ⟨fun _ _ run => (by cases run), fun _ _ run => ?_⟩
  cases run
  refine ⟨trivial, .refl .., fun r hr => ?_⟩
  obtain hr | hr := List.mem_append.1 hr
  · exact isSealed.refs r (List.mem_append_left _ hr)
  · exact known r hr

theorem resets_drop (names : List String) :
    Act.Resets v (modify fun s => { s with registers := s.registers.drop names }) fun _ => True := by
  intro s hs
  subst hs
  refine ⟨fun _ _ run => (by cases run), fun _ _ run => ?_⟩
  cases run
  refine ⟨trivial, .refl .., fun r hr => ?_⟩
  obtain hr | hr := List.mem_append.1 hr
  · obtain ⟨entry, mem, hr⟩ := List.mem_flatMap.1 hr
    refine isSealed.refs r (List.mem_append_left _ ?_)
    exact List.mem_flatMap.2 ⟨entry, List.mem_of_mem_filter mem, hr⟩
  · exact isSealed.refs r (List.mem_append_right _ hr)

/-- Fields stand for what is known. -/
theorem knows_fields (fields : List (String × Term)) : Act.Quiet v (resolveFields fields)
    fun taken => ∀ r, (∃ field ∈ taken, r ∈ field.2.refs) → v.forest.HasRoom r := by
  refine (Act.Quiet.mapM_all (P := fun taken => v.forest.Knows taken.2) fun field _ => ?_).weaken
    fun taken htaken r ⟨field, mem, hr⟩ => htaken field mem r hr
  exact (quiet_resolve _).bind fun _ hd => .pure (isSealed.knows_resolved hd)

theorem resets_runCommand {c : Command} (sets : Sets c) :
    Act.Resets v (runCommand c) fun result => result = .null := by
  -- each of them ends with a change after which there is nothing to answer
  have done : ∀ {act : Act Unit}, Act.Resets v act (fun _ => True) →
      Act.Resets v (act >>= fun _ => return Result.null) fun result => result = Result.null :=
    fun resets => resets.map fun _ _ h => ⟨rfl, h.2⟩
  match c with
  | .drop names => exact done (resets_drop isSealed names)
  | .setSettings fields =>
    refine (knows_fields isSealed fields).lands fun taken known => ?_
    have read : Act.Quiet v (liftExcept (Settings.ofArguments taken))
        fun settings => ∀ r ∈ settings.refs, v.forest.HasRoom r :=
      .liftExcept fun _ h r hr => known r (Settings.mem_refs_ofArguments h hr)
    exact read.lands fun _ h => done (resets_settings isSealed h)
  | .loadSettings fields =>
    intro s hs
    refine ((knows_fields isSealed fields).lands fun taken known => ?_) s hs
    have read : Act.Quiet v (liftExcept (Settings.ofData s.limits taken))
        fun settings => ∀ r ∈ settings.refs, v.forest.HasRoom r :=
      .liftExcept fun _ h r hr => known r (Settings.mem_refs_ofData h hr)
    exact read.lands fun _ h => done (resets_settings isSealed h)
  | .resetSettings =>
    exact done (resets_settings isSealed fun r hr => absurd hr List.not_mem_nil)

/-- A command that fails spares what was there before it and keeps registers and settings. One that
completes has set the marks of its log, and all that is referred to is known. -/
theorem lands_runCommand (c : Command) :
    Act.Lands v (runCommand c) fun result s' => Evolved v s' (markings v c) ∧
      ∀ d, result.object = some d → s'.forest.Knows d := by
  by_cases sets : Sets c
  · have unmarked : markings v c = [] := by
      match c with
      | .drop _ | .setSettings _ | .loadSettings _ | .resetSettings => rfl
    refine (resets_runCommand isSealed sets).imp fun result s' h => ?_
    rw [unmarked, h.1]
    exact ⟨h.2, fun d hd => by cases hd⟩
  · refine ((spares_runCommand isSealed sets).lands isSealed).imp fun result s' h => ?_
    obtain ⟨log, evolved, rfl, known⟩ := h
    exact ⟨evolved, known⟩

end Session

end Hypertext
