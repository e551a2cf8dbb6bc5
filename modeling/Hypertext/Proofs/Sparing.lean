import Hypertext.Proofs.Restorations

/-! What actions of a session do to its forest. An action that fails spares what was there before, and
one that completes evolves it, with a log of the marks that it sets. What a session knows stays known to
it: nothing holds what there is no room for, nor do registers and settings refer to it. The rules for
chains of actions are `Act.Spares.then`, for actions on the forest, and `Act.Quiet.lands`. -/
namespace Hypertext
set_option autoImplicit false

/-! ## What terms stand for -/

namespace Registers

variable {g : Registers} {name : String} {d : Datum} {r : Ref} {t : Term} {o : Origin}

theorem mem_refs_of_get? (h : g.get? name = some d) (hr : r ∈ d.refs) : r ∈ g.refs := by
  obtain ⟨before, after, entries, -⟩ := List.lookup_eq_some_iff.1 h
  rw [refs, entries]
  exact List.mem_flatMap.2 ⟨(name, d), by simp, hr⟩

theorem mem_refs_of_object {x : Symbol} (hr : r ∈ (g.object x).refs) : r ∈ g.refs := by
  rw [object] at hr
  cases h : g.meaning x with
  | error fault =>
    rw [h] at hr
    cases hr
  | ok d =>
    rw [h] at hr
    cases x with
    | number text => cases h
    | register name =>
      rw [meaning, get] at h
      split at h
      next found => exact mem_refs_of_get? found (Except.ok.inj h ▸ hr)
      next => cases h

theorem resolve_of_make (h : g.make o t = .ok d) : g.resolve t = .ok d.erased := by
  rw [make] at h
  rw [resolve]
  cases checked : g.check t.refs with
  | error fault =>
    rw [checked] at h
    cases h
  | ok _ =>
    rw [checked] at h
    rw [← Except.ok.inj h, Value.erased_make]
    rfl

theorem mem_refs_of_resolve (h : g.resolve t = .ok d) (hr : r ∈ d.refs) : r ∈ g.refs := by
  rw [resolve] at h
  cases checked : g.check t.refs with
  | error fault =>
    rw [checked] at h
    cases h
  | ok _ =>
    rw [checked] at h
    rw [← Except.ok.inj h] at hr
    obtain ⟨x, -, hr⟩ := (Value.mem_refs_subst ..).1 hr
    exact mem_refs_of_object (Value.mem_refs_erased.1 hr)

theorem mem_refs_of_make (h : g.make o t = .ok d) (hr : r ∈ d.refs) : r ∈ g.refs :=
  mem_refs_of_resolve (resolve_of_make h) (Value.mem_refs_erased.2 hr)

end Registers

namespace Settings

variable {fields : List (String × Datum)} {settings : Settings} {r : Ref}

theorem mem_refs_ofFields (hr : r ∈ (ofFields fields).refs) :
    ∃ field ∈ fields, r ∈ field.2.refs := by
  have looked : ∀ (name : String) (default : Scalar),
      r ∈ ((fields.lookup name).getD (.scalar default)).refs → ∃ field ∈ fields, r ∈ field.2.refs := by
    intro name default hr
    cases h : fields.lookup name with
    | none =>
      rw [h] at hr
      cases hr
    | some v =>
      rw [h] at hr
      exact Value.mem_refsFields_iff.1 (Value.mem_refs_of_lookup h hr)
  obtain hr | hr := List.mem_append.1 hr
  · exact looked _ _ hr
  · exact looked _ _ hr

theorem mem_refs_ofArguments (h : ofArguments fields = .ok settings) (hr : r ∈ settings.refs) :
    ∃ field ∈ fields, r ∈ field.2.refs := by
  rw [ofArguments] at h
  split at h
  · exact mem_refs_ofFields (Except.ok.inj h ▸ hr)
  · cases h

theorem mem_refs_ofData {limits : Limits} (h : ofData limits fields = .ok settings)
    (hr : r ∈ settings.refs) : ∃ field ∈ fields, r ∈ field.2.refs := by
  simp only [ofData] at h
  cases hunit : indentOf limits (ofFields fields).indent with
  | error fault =>
    rw [hunit] at h
    cases h
  | ok unit =>
    rw [hunit] at h
    rw [← Except.ok.inj h] at hr
    refine mem_refs_ofFields ?_
    obtain hr | hr := List.mem_append.1 hr
    · exact List.mem_append_left _ hr
    · refine List.mem_append_right _ ?_
      -- a number becomes a text, and any other unit stays what it is
      unfold indentOf at hunit
      split at hunit
      · cases htext : Text.repeated limits " " ‹Int› with
        | error fault =>
          rw [htext] at hunit
          cases hunit
        | ok text =>
          rw [htext] at hunit
          rw [← Except.ok.inj hunit] at hr
          cases hr
      · rwa [Except.ok.inj hunit]

end Settings

theorem Parameter.mem_refs_arguments {named : List (Parameter × Datum)} {items : List Datum} {r : Ref}
    (mem : r ∈ (Parameter.arguments named items).refs) :
    (∃ given ∈ named, r ∈ given.2.refs) ∨ ∃ v ∈ items, r ∈ v.refs := by
  have looked : ∀ {p : Parameter} {d : Datum}, named.lookup p = some d → r ∈ d.refs →
      ∃ given ∈ named, r ∈ given.2.refs := by
    intro p d h hr
    obtain ⟨before, after, rfl, -⟩ := List.lookup_eq_some_iff.1 h
    exact ⟨(p, d), by simp, hr⟩
  have asked : ∀ {p : Parameter} {default : Scalar},
      r ∈ ((named.lookup p).getD (.scalar default)).refs → ∃ given ∈ named, r ∈ given.2.refs := by
    intro p default hr
    cases h : named.lookup p with
    | none =>
      rw [h] at hr
      cases hr
    | some d =>
      rw [h] at hr
      exact looked h hr
  simp only [Arguments.refs, arguments, List.mem_append] at mem
  obtain ((hr | hr) | hr) | hr := mem
  · exact .inl (asked hr)
  · exact .inl (asked hr)
  · obtain ⟨pair, hpair, hr⟩ := List.mem_flatMap.1 hr
    obtain ⟨p, -, hp⟩ := List.mem_filterMap.1 hpair
    obtain ⟨d, hd, rfl⟩ := Option.map_eq_some_iff.1 hp
    exact .inl (looked hd hr)
  · exact .inr (List.mem_flatMap.1 hr)

def Ref.element? : Ref → Option ElementId
  | .element id => some id
  | .document _ => none

/-- There is room for everything that a value refers to. -/
def Forest.Knows (f : Forest) (d : Datum) : Prop := ∀ r ∈ d.refs, f.HasRoom r

namespace Session

/-! ## What a session knows -/

namespace View

def refs (v : View) : List Ref := v.registers.refs ++ v.settings.refs

/-- Nothing refers to what there is no room for. -/
structure Sealed (v : View) : Prop where
  held : v.forest.Closed
  refs : ∀ r ∈ v.refs, v.forest.HasRoom r

variable {v : View} {name : String} {d : Datum} {t : Term}

theorem Sealed.knows_register (isSealed : v.Sealed) (h : v.registers.get? name = some d) :
    v.forest.Knows d := fun _ hr =>
  isSealed.refs _ (List.mem_append_left _ (Registers.mem_refs_of_get? h hr))

theorem Sealed.hasRoom_register (isSealed : v.Sealed) {r : Ref}
    (h : v.registers.get? name = some (.ref r)) : v.forest.HasRoom r :=
  isSealed.knows_register h r (List.mem_singleton_self r)

theorem Sealed.knows_made (isSealed : v.Sealed) (h : ∃ o, v.registers.make o t = .ok d) :
    v.forest.Knows d := by
  obtain ⟨o, h⟩ := h
  exact fun _ hr => isSealed.refs _ (List.mem_append_left _ (Registers.mem_refs_of_make h hr))

theorem Sealed.knows_resolved (isSealed : v.Sealed) (h : v.registers.resolve t = .ok d) :
    v.forest.Knows d := fun _ hr =>
  isSealed.refs _ (List.mem_append_left _ (Registers.mem_refs_of_resolve h hr))

theorem Sealed.knows_child (isSealed : v.Sealed) {holder : Ref} (h : d ∈ v.forest.childrenOf holder) :
    v.forest.Knows d := fun _ hr => isSealed.held holder _ (Forest.mem_held_of_child h hr)

end View

variable {α β : Type} {spared : Forest} {v : View}

theorem quiet_refOf (d : Datum) (asked : String) :
    Act.Quiet v (refOf d asked) fun r => d = .ref r := by
  cases d with
  | ref r => exact .pure rfl
  | scalar _ | list _ | record _ | renderer _ _ _ | made _ _ => exact quiet_refuse _ _

theorem quiet_refAt (name asked : String) :
    Act.Quiet v (refAt name asked) fun r => v.registers.get? name = some (.ref r) :=
  (quiet_valueAt name).bind fun d hd => (quiet_refOf d asked).weaken fun _ h => h ▸ hd

theorem Act.Quiet.mapM_all {γ : Type} {act : γ → Act α} {P : α → Prop} {l : List γ}
    (h : ∀ x ∈ l, Quiet v (act x) P) : Quiet v (l.mapM act) fun as => ∀ a ∈ as, P a := by
  refine (mapM (P := fun _ => P) h).weaken fun as has => ?_
  clear h
  induction has with
  | nil => exact fun a ha => absurd ha List.not_mem_nil
  | cons first _ ih => exact List.forall_mem_cons.2 ⟨first, ih⟩

/-- What an element is made with is known, if the session is sealed. -/
theorem knows_arguments (isSealed : v.Sealed) (given : Given) :
    Act.Quiet v (arguments given) fun args => ∀ r ∈ args.refs, v.forest.HasRoom r := by
  refine (Act.Quiet.mapM_all (P := v.forest.Knows) fun t _ =>
    (quiet_make t).weaken fun _ => isSealed.knows_made).bind fun items hitems => ?_
  refine (Act.Quiet.mapM_all (P := fun taken => v.forest.Knows taken.2) fun given _ => ?_).bind
    fun named hnamed => .pure fun r hr => ?_
  · obtain ⟨p, t⟩ := given
    by_cases text : p = .text
    · simp only [if_pos text]
      exact (quiet_make t).bind fun _ hd => .pure (isSealed.knows_made hd)
    · simp only [if_neg text]
      exact (quiet_resolve t).bind fun _ hd => .pure (isSealed.knows_resolved hd)
  · obtain ⟨taken, mem, hr⟩ | ⟨d, mem, hr⟩ := Parameter.mem_refs_arguments hr
    · exact hnamed taken mem r hr
    · exact hitems d mem r hr

/-! ## Actions that spare a forest where they fail -/

/-- Within a view an action evolves the forest and leaves registers and settings as they are. If it
fails it spares a part of the forest, and if it answers, something holds of the answer, the forest and
the log. -/
def Act.Spares (spared : Forest) (v : View) (act : Act α) (Q : α → Forest → MarkLog → Prop) : Prop :=
  ∀ s : Session, s.view = v → ∃ g log, (act.run s).2.view = { v with forest := g } ∧
    (∀ fault, (act.run s).1 = .error fault → spared.Evolves v.forest g log) ∧
    ∀ a, (act.run s).1 = .ok a → ({} : Forest).Evolves v.forest g log ∧ Q a g log

namespace Act

variable {act : Act α} {next : α → Act β} {P : α → Prop} {Q : α → Forest → MarkLog → Prop}
  {R : β → Forest → MarkLog → Prop}

theorem Spares.imp {Q' : α → Forest → MarkLog → Prop} (spares : Spares spared v act Q)
    (h : ∀ a g log, ({} : Forest).Evolves v.forest g log → Q a g log → Q' a g log) :
    Spares spared v act Q' := by
  intro s hs
  obtain ⟨g, log, same, failed, answered⟩ := spares s hs
  refine ⟨g, log, same, failed, fun a answer => ?_⟩
  obtain ⟨evolves, ha⟩ := answered a answer
  exact ⟨evolves, h a g log evolves ha⟩

theorem Quiet.spares (quiet : Quiet v act P) :
    Spares spared v act fun a g log => P a ∧ g = v.forest ∧ log = [] := by
  intro s hs
  obtain ⟨same, answers⟩ := quiet s hs
  exact ⟨v.forest, [], same, fun _ _ => .refl .., fun a answer =>
    ⟨.refl .., answers a answer, rfl, rfl⟩⟩

theorem spares_pure {a : α} (h : Q a v.forest []) : Spares spared v (pure a) Q :=
  (Quiet.pure (P := fun b => b = a) rfl).spares.imp fun _ _ _ _ ⟨hb, hg, hlog⟩ => by
    rw [hb, hg, hlog]
    exact h

theorem spares_throw (fault : Fault) : Spares spared v (throw fault) Q :=
  (Quiet.throw (P := fun _ => False) fault).spares.imp fun _ _ _ _ h => h.1.elim

/-- What follows a quiet action is in the same view. -/
theorem Quiet.then (quiet : Quiet v act P) (second : ∀ a, P a → Spares spared v (next a) R) :
    Spares spared v (act >>= next) R := by
  intro s hs
  obtain ⟨same, answers⟩ := quiet s hs
  rw [run_bind]
  generalize act.run s = result at same answers ⊢
  obtain ⟨fault | a, s'⟩ := result
  · exact ⟨v.forest, [], same, fun _ _ => .refl .., fun _ answer => nomatch answer⟩
  · exact second a (answers a rfl) s' same

/-- What follows a failure does not run. -/
theorem Quiet.fails (quiet : Quiet v act fun _ => False) : Spares spared v (act >>= next) R :=
  quiet.then fun _ h => h.elim

/-- What follows knows the session that is read. -/
theorem spares_get {next : Session → Act β}
    (h : ∀ s : Session, s.view = v → Spares spared v (next s) R) :
    Spares spared v (MonadState.get >>= next) R := fun s hs => h s hs s hs

/-- What follows an action that spares the forest where it answers too. -/
theorem Spares.then
    (first : Spares spared v act fun a g log => spared.Evolves v.forest g log ∧ Q a g log)
    (second : ∀ a g log, spared.Evolves v.forest g log → Q a g log →
      Spares spared { v with forest := g } (next a) fun b h more => R b h (log ++ more)) :
    Spares spared v (act >>= next) R := by
  intro s hs
  obtain ⟨g, log, same, failed, answered⟩ := first s hs
  rw [run_bind]
  generalize act.run s = result at same failed answered ⊢
  obtain ⟨fault | a, s'⟩ := result
  · exact ⟨g, log, same, fun _ _ => failed fault rfl, fun _ answer => nomatch answer⟩
  · obtain ⟨evolves, spares, ha⟩ := answered a rfl
    obtain ⟨h, more, same', failed', answered'⟩ := second a g log spares ha s' same
    refine ⟨h, log ++ more, same', fun fault failure => spares.trans (failed' fault failure),
      fun b answer => ?_⟩
    obtain ⟨evolves', hb⟩ := answered' b answer
    exact ⟨evolves.trans evolves', hb⟩

/-- What follows only answers. -/
theorem Spares.map {f : α → Session → β} (first : Spares spared v act Q)
    (answers : ∀ a s, (next a).run s = (.ok (f a s), s)) :
    Spares spared v (act >>= next) fun b g log => ∃ a s, b = f a s ∧ Q a g log := by
  intro s hs
  obtain ⟨g, log, same, failed, answered⟩ := first s hs
  rw [run_bind]
  generalize act.run s = result at same failed answered ⊢
  obtain ⟨fault | a, s'⟩ := result
  · exact ⟨g, log, same, fun _ _ => failed fault rfl, fun _ answer => nomatch answer⟩
  · obtain ⟨evolves, ha⟩ := answered a rfl
    simp only [answers]
    exact ⟨g, log, same, fun _ failure => (nomatch failure), fun b answer =>
      ⟨evolves, a, s', (Except.ok.inj answer).symm, ha⟩⟩

theorem spares_onStore {act : Action α}
    (spares : ∀ store : Store, store.forest = v.forest → Action.Spares spared store act Q) :
    Spares spared v (onStore act) fun a g log => spared.Evolves v.forest g log ∧ Q a g log := by
  intro s hs
  have start : s.store.forest = v.forest := congrArg View.forest hs
  obtain ⟨log, evolves, answered⟩ := spares s.store start
  rw [run_onStore]
  rw [start] at evolves
  refine ⟨(act.run s.store).2.forest, log, ?_, fun _ _ => evolves, fun a answer =>
    ⟨evolves.free, evolves, answered a answer⟩⟩
  rw [← hs]
  rfl

/-- A change cannot fail. -/
theorem spares_change {f : Forest → Forest} {log : MarkLog}
    (evolves : ({} : Forest).Evolves v.forest (f v.forest) log) :
    Spares spared v (change f) fun _ g log' => g = f v.forest ∧ log' = log := by
  intro s hs
  have start : s.store.forest = v.forest := congrArg View.forest hs
  rw [change, run_onStore]
  refine ⟨f v.forest, log, ?_, fun _ failure => (nomatch failure), fun _ _ => ⟨evolves, rfl, rfl⟩⟩
  rw [← hs]
  rfl

/-- A change that spares the forest. -/
theorem spares_change_before {f : Forest → Forest} {log : MarkLog}
    (evolves : spared.Evolves v.forest (f v.forest) log) :
    Spares spared v (change f) fun _ g log' =>
      spared.Evolves v.forest g log' ∧ g = f v.forest ∧ log' = log :=
  (spares_change evolves.free).imp fun _ _ _ _ h => ⟨h.1 ▸ h.2 ▸ evolves, h⟩

end Act

/-! ## What comes of an action -/

/-- What a failure leaves: registers and settings are the same, and the forest is spared. -/
def Spared (v : View) (s' : Session) : Prop :=
  ∃ g log, s'.view = { v with forest := g } ∧ v.forest.Evolves v.forest g log

/-- What an action leaves that completes with some marks: all that is referred to is known. -/
structure Evolved (v : View) (s' : Session) (log : MarkLog) : Prop where
  forest : ({} : Forest).Evolves v.forest s'.forest log
  refs : ∀ r ∈ s'.view.refs, s'.forest.HasRoom r

namespace Act

/-- Within a view an action fails and the forest is spared, or it completes and something holds. -/
def Lands (v : View) (act : Act α) (Q : α → Session → Prop) : Prop :=
  ∀ s : Session, s.view = v → (∀ fault s', act.run s = (.error fault, s') → Spared v s') ∧
    ∀ a s', act.run s = (.ok a, s') → Q a s'

variable {act : Act α} {next : α → Act β} {P : α → Prop} {Q : α → Session → Prop}
  {R : β → Session → Prop}

theorem lands_pure {a : α} (h : ∀ s : Session, s.view = v → Q a s) : Lands v (pure a) Q := by
  refine fun s hs => ⟨fun _ _ run => (by cases run), fun _ _ run => ?_⟩
  cases run
  exact h s hs

theorem Quiet.lands (quiet : Quiet v act P) (second : ∀ a, P a → Lands v (next a) R) :
    Lands v (act >>= next) R := by
  intro s hs
  obtain ⟨same, answers⟩ := quiet s hs
  rw [run_bind]
  generalize act.run s = result at same answers ⊢
  obtain ⟨fault | a, s'⟩ := result
  · refine ⟨fun _ s'' run => ?_, fun _ _ run => by cases run⟩
    cases run
    exact ⟨v.forest, [], same, .refl ..⟩
  · exact second a (answers a rfl) s' same

/-- What follows only answers. -/
theorem Lands.map {f : α → β} (first : Lands v act Q) (h : ∀ a s', Q a s' → R (f a) s') :
    Lands v (act >>= fun a => return f a) R := by
  intro s hs
  obtain ⟨failed, answered⟩ := first s hs
  rw [run_bind]
  generalize act.run s = result at failed answered ⊢
  obtain ⟨fault | a, s'⟩ := result
  · refine ⟨fun _ s'' run => ?_, fun _ _ run => by cases run⟩
    cases run
    exact failed fault s' rfl
  · refine ⟨fun _ _ run => (by cases run), fun _ s'' run => ?_⟩
    cases run
    exact h a s' (answered a s' rfl)

theorem Lands.imp {Q' : α → Session → Prop} (lands : Lands v act Q) (h : ∀ a s', Q a s' → Q' a s') :
    Lands v act Q' := fun s hs =>
  ⟨(lands s hs).1, fun a s' run => h a s' ((lands s hs).2 a s' run)⟩

theorem Spares.lands (isSealed : v.Sealed) {Q : α → Forest → MarkLog → Prop}
    (spares : Spares v.forest v act Q) :
    Lands v act fun a s' => ∃ log, Evolved v s' log ∧ Q a s'.forest log := by
  intro s hs
  obtain ⟨g, log, same, failed, answered⟩ := spares s hs
  refine ⟨fun fault s' run => ?_, fun a s' run => ?_⟩
  · rw [run] at same failed
    exact ⟨g, log, same, failed fault rfl⟩
  · rw [run] at same answered
    obtain rfl : s'.forest = g := congrArg View.forest same
    obtain ⟨evolves, ha⟩ := answered a rfl
    refine ⟨log, ⟨evolves, fun r hr => ?_⟩, ha⟩
    rw [same] at hr
    exact evolves.fits.room (isSealed.refs r hr)

/-- Within a view an action keeps the forest. Where it answers, registers and settings may be others,
which refer to what is known. -/
def Resets (v : View) (act : Act α) (P : α → Prop) : Prop :=
  Lands v act fun a s' => P a ∧ Evolved v s' []

end Act

end Session

end Hypertext
