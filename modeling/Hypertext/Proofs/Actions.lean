import Hypertext.Store

/-! Runs of actions that succeed, one rule for each way to make an action. -/
namespace Hypertext
set_option autoImplicit false

/-- From the first store the action answers and leaves the second one. -/
def Action.Runs {α : Type} (act : Action α) (s : Store) (a : α) (s' : Store) : Prop :=
  act.run s = (.ok a, s')

namespace Action

variable {α β : Type}

theorem runs_pure (a : α) (s : Store) : Runs (pure a) s a s := rfl

/-- A chain of two actions goes on from what the first has left, or ends with its failure. -/
theorem run_bind (act : Action α) (next : α → Action β) (s : Store) :
    (act >>= next).run s = match act.run s with
      | (.ok a, s') => (next a).run s'
      | (.error fault, s') => (.error fault, s') := by
  show (ExceptT.run (act >>= next)).run s = match (ExceptT.run act).run s with
    | (.ok a, s') => (next a).run s'
    | (.error fault, s') => (.error fault, s')
  rw [ExceptT.run_bind, StateT.run_bind]
  show (match (ExceptT.run act).run s with | (result, s') => _) = _
  obtain ⟨fault | a, s'⟩ := (ExceptT.run act).run s
  · rfl
  · rfl

theorem runs_bind_iff {act : Action α} {next : α → Action β} {s s'' : Store} {b : β} :
    Runs (act >>= next) s b s'' ↔ ∃ a s', Runs act s a s' ∧ Runs (next a) s' b s'' := by
  simp only [Runs, run_bind]
  obtain ⟨fault | a, s'⟩ := act.run s
  · refine ⟨(nomatch ·), ?_⟩
    rintro ⟨_, _, first, _⟩
    cases first
  · refine ⟨fun h => ⟨a, s', rfl, h⟩, ?_⟩
    rintro ⟨_, _, first, second⟩
    obtain ⟨h, rfl⟩ := Prod.mk.inj first
    obtain rfl := Except.ok.inj h
    exact second

theorem Runs.bind {act : Action α} {next : α → Action β} {s s' s'' : Store} {a : α} {b : β}
    (first : Runs act s a s') (second : Runs (next a) s' b s'') :
    Runs (act >>= next) s b s'' := runs_bind_iff.2 ⟨a, s', first, second⟩

/-- From one store an action has one outcome. -/
theorem Runs.unique {act : Action α} {s s' s'' : Store} {a b : α} (first : Runs act s a s')
    (second : Runs act s b s'') : a = b ∧ s' = s'' := by
  obtain ⟨h, rfl⟩ := Prod.mk.inj (first.symm.trans second)
  exact ⟨Except.ok.inj h, rfl⟩

theorem not_runs_throw (fault : Fault) (s s' : Store) (a : α) :
    ¬ Runs (throw fault) s a s' := fun h => nomatch h

theorem runs_forest (s : Store) : Runs forest s s.forest s := rfl

theorem runs_change (f : Forest → Forest) (s : Store) :
    Runs (change f) s () { s with forest := f s.forest } := rfl

theorem runs_insert (e : Element) (s : Store) :
    Runs (insert e) s (s.forest.insert e).1 { s with forest := (s.forest.insert e).2 } := rfl

theorem runs_insertDocument (s : Store) :
    Runs insertDocument s s.forest.insertDocument.1
      { s with forest := s.forest.insertDocument.2 } := rfl

/-- A reading that reports nothing leaves the journal as it is. -/
theorem runs_tell (reading : Forest → Reading α) {a : α} (s : Store)
    (h : reading s.forest = pure a) : Runs (tell reading) s a s := by
  have told : (s.forest.records []).reports = #[] ∧ (s.forest.records []).result = .ok () :=
    ⟨rfl, rfl⟩
  obtain ⟨forest, journal, recording, origins⟩ := s
  simp only at h told
  cases recording with
  | false =>
    show Runs (liftExcept (reading forest).result) _ _ _
    rw [h]
    rfl
  | true =>
    show Runs (do
      modify fun s => { s with journal := s.journal ++
        (forest.records (reading forest).reports.toList).reports }
      liftExcept (forest.records (reading forest).reports.toList).result
      liftExcept (reading forest).result) _ _ _
    rw [h]
    show Runs (do
      modify fun s => { s with journal := s.journal ++ (forest.records []).reports }
      liftExcept (forest.records []).result
      liftExcept (.ok a)) _ _ _
    rw [told.1, told.2]
    have first : Runs (modify fun s => { s with journal := s.journal ++ #[] })
        ⟨forest, journal, true, origins⟩ () ⟨forest, journal, true, origins⟩ := by
      show (Except.ok (), (⟨forest, journal ++ #[], true, origins⟩ : Store)) = _
      rw [Array.append_empty]
    exact first.bind ((runs_pure () _).bind (runs_pure a _))

/-- Without recording a reading leaves everything as it is. -/
theorem run_tell_of_quiet (reading : Forest → Reading α) {s : Store} (quiet : s.recording = false) :
    (tell reading).run s = ((reading s.forest).result, s) := by
  obtain ⟨forest, journal, recording, origins⟩ := s
  obtain rfl : recording = false := quiet
  show (liftExcept (reading forest).result).run _ = _
  cases (reading forest).result with
  | error fault => rfl
  | ok a => rfl

/-- A reading whose events can all be recorded answers, and leaves the forest as it is. -/
theorem exists_runs_tell (reading : Forest → Reading α) {a : α} (s : Store)
    (answer : (reading s.forest).result = .ok a)
    (told : (s.forest.records (reading s.forest).reports.toList).result = .ok ()) :
    ∃ s', Runs (tell reading) s a s' ∧ s'.forest = s.forest := by
  obtain ⟨forest, journal, recording, origins⟩ := s
  simp only at answer told
  cases recording with
  | false =>
    refine ⟨⟨forest, journal, false, origins⟩, ?_, rfl⟩
    show Runs (liftExcept (reading forest).result) _ _ _
    rw [answer]
    rfl
  | true =>
    refine ⟨⟨forest, journal ++ (forest.records (reading forest).reports.toList).reports, true,
      origins⟩, ?_, rfl⟩
    show Runs (do
      modify fun s => { s with journal := s.journal ++
        (forest.records (reading forest).reports.toList).reports }
      liftExcept (forest.records (reading forest).reports.toList).result
      liftExcept (reading forest).result) _ _ _
    rw [told, answer]
    rfl

/-- A value gets an origin or keeps what it has; apart from that it is the same. -/
theorem runs_identified (v : Datum) (s : Store) :
    ∃ w s', Runs (identified v) s w s' ∧ w.erased = v.erased ∧ s'.forest = s.forest := by
  cases h : v.needsOrigin with
  | true =>
    refine ⟨.made ⟨[s.origins]⟩ v, { s with origins := s.origins + 1 }, ?_, rfl, rfl⟩
    rw [Runs, identified, h]
    rfl
  | false =>
    refine ⟨v, s, ?_, rfl, rfl⟩
    rw [Runs, identified, h]
    rfl

end Action

end Hypertext
