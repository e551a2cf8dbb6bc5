import Hypertext.Forest.Lemmas
import Hypertext.Proofs.Moments

/-! What a failure leaves. It goes up through the scopes around the step that failed and leaves the
session of that moment, but for the marks of elements whose text was to be written as it is, and
for the settings from before the outermost scope that had some of its own. -/
namespace Hypertext.Session
set_option autoImplicit false

/-! ## Leaving scopes -/

/-- Leaves scopes whose blocks have failed, from the first to the last. -/
def unwind (running : List Running) (s : Session) : Session :=
  running.foldl (fun s r => abandon r.scope s) s

def Scope.verbatim? : Scope → Option ElementId
  | .verbatim id => some id
  | _ => none

def Scope.saved? : Scope → Option Settings
  | .settings saved => some saved
  | _ => none

/-- The elements whose text the blocks of some scopes are to set as it is. -/
def verbatims (running : List Running) : List ElementId := running.filterMap (·.scope.verbatim?)

/-- The outermost scope with settings of its own. -/
def outermostSettings? (running : List Running) : Option Running :=
  (running.filter (·.scope.saved?.isSome)).getLast?

/-- What a scope saves for its end are the settings from before it. -/
def Running.Saves (r : Running) : Prop :=
  ∀ saved, r.scope.saved? = some saved → saved = r.before.settings

/-- A session against an earlier one, after a failure has left some scopes: an element is marked
if one of the scopes is its own, the settings are those from before the outermost scope that had
some, and all else is the same. -/
structure Unwound (running : List Running) (s s' : Session) : Prop where
  elements : ∀ id, s'.forest.get? id = (s.forest.get? id).map fun e =>
    if id ∈ verbatims running then { e with mark := .bool true } else e
  documents : ∀ d, s'.forest.roots? d = s.forest.roots? d
  registers : s'.registers = s.registers
  settings : s'.settings =
    ((outermostSettings? running).map (·.before.settings)).getD s.settings

theorem Unwound.refl (s : Session) : Unwound [] s s := by
  refine ⟨fun id => ?_, fun _ => rfl, rfl, rfl⟩
  simp [verbatims]

theorem unwound_abandon {r : Running} (saves : r.Saves) (s : Session) :
    Unwound [r] s (abandon r.scope s) := by
  have unmarked : ∀ {before : Session} {scope : Scope}, scope.verbatim? = none → ∀ id,
      s.forest.get? id = (s.forest.get? id).map fun e =>
        if id ∈ verbatims [⟨before, scope⟩] then { e with mark := .bool true } else e := by
    intro before scope none id
    simp [verbatims, none]
  obtain ⟨before, scope⟩ := r
  cases scope with
  | building parent child => exact ⟨unmarked rfl, fun _ => rfl, rfl, rfl⟩
  | document id => exact ⟨unmarked rfl, fun _ => rfl, rfl, rfl⟩
  | settings saved => exact ⟨unmarked rfl, fun _ => rfl, rfl, saves saved rfl⟩
  | verbatim id =>
    refine ⟨fun other => ?_, fun _ => rfl, rfl, rfl⟩
    show (s.forest.setMark id (.bool true)).get? other = _
    rw [Forest.get?_setMark]
    by_cases same : other = id
    · subst same
      simp [verbatims, Scope.verbatim?]
    · simp [same, verbatims, Scope.verbatim?]

/-- Scopes further out come later, and what they have saved prevails. -/
theorem Unwound.append {inner outer : List Running} {s s' s'' : Session}
    (first : Unwound inner s s') (second : Unwound outer s' s'') :
    Unwound (inner ++ outer) s s'' := by
  refine ⟨fun id => ?_, fun d => (second.documents d).trans (first.documents d),
    second.registers.trans first.registers, ?_⟩
  · rw [second.elements, first.elements, Option.map_map]
    refine congrArg (Option.map · _) (funext fun e => ?_)
    have either : id ∈ verbatims (inner ++ outer) ↔ id ∈ verbatims inner ∨ id ∈ verbatims outer := by
      rw [verbatims, List.filterMap_append, List.mem_append]
      rfl
    by_cases hinner : id ∈ verbatims inner <;> by_cases houter : id ∈ verbatims outer <;>
      simp [either, hinner, houter]
  · rw [second.settings, first.settings]
    simp only [outermostSettings?, List.filter_append, List.getLast?_append]
    cases (outer.filter (·.scope.saved?.isSome)).getLast? <;> rfl

theorem unwound_unwind {running : List Running} (saves : ∀ r ∈ running, r.Saves) (s : Session) :
    Unwound running s (unwind running s) := by
  induction running generalizing s with
  | nil => exact .refl s
  | cons r running ih =>
    exact (unwound_abandon (saves r List.mem_cons_self) s).append
      (ih (fun r' hr' => saves r' (List.mem_cons_of_mem r hr')) _)

/-! ## Opening scopes -/

/-- An entrance saves the settings from before it, if any. -/
theorem saved_of_entered {s s' : Session} {entrance : Entrance} {scope : Scope}
    (entered : (enter entrance).run s = (.ok scope, s')) {saved : Settings}
    (saves : scope.saved? = some saved) : saved = s.settings := by
  cases entrance with
  | build parent entry named args =>
    rw [enter, Act.run_bind] at entered
    split at entered
    next => cases entered; cases saves
    next => cases entered
  | place parent element => cases entered; cases saves
  | document =>
    rw [enter, Act.run_bind] at entered
    split at entered
    next => cases entered; cases saves
    next => cases entered
  | verbatim id => cases entered; cases saves
  | settings fields =>
    rw [enter, Act.run_bind] at entered
    cases hfields : Settings.ofArguments fields with
    | error fault => rw [hfields] at entered; cases entered
    | ok settings =>
      rw [hfields] at entered
      cases entered
      exact (Option.some.inj saves).symm

theorem saves_of_opened {s s' : Session} {o : Opening} {entrance : Entrance} {scope : Scope}
    (opened : (opening o).run s = (.ok (entrance, scope), s')) : Running.Saves ⟨s, scope⟩ := by
  intro saved saves
  obtain ⟨s₁, approached, entered⟩ := opening_ok_iff.1 opened
  have same := (quiet_approach o s rfl).1
  rw [approached] at same
  exact (saved_of_entered entered saves).trans (congrArg View.settings same)

/-! ## Failures -/

/-- Only the last of some moments is a failure, and leaving the scopes that were open then, within
some that stay open, gives a session. -/
def Fails (moments : List Moment) (running : List Running) (fault : Fault) (s' : Session) : Prop :=
  ∃ before m inner, moments = before ++ [m] ∧ (∀ x ∈ before, x.fault? = none) ∧
    m.fault? = some fault ∧ m.running = inner ++ running ∧ (∀ r ∈ inner, r.Saves) ∧
    s' = unwind inner m.session

variable {running : List Running} {fault : Fault} {s s' : Session}

theorem Fails.after {moments later : List Moment} (fails : Fails later running fault s')
    (quiet : ∀ x ∈ moments, x.fault? = none) : Fails (moments ++ later) running fault s' := by
  obtain ⟨before, m, inner, rfl, earlier, rest⟩ := fails
  refine ⟨moments ++ before, m, inner, (List.append_assoc ..).symm, fun x hx => ?_, rest⟩
  exact (List.mem_append.1 hx).elim (quiet x) (earlier x)

/-- A failure within a block goes up through the scope of the block. -/
theorem Fails.abandon {moments : List Moment} {r : Running}
    (fails : Fails moments (r :: running) fault s') (saves : r.Saves) :
    Fails moments running fault (abandon r.scope s') := by
  obtain ⟨before, m, inner, hmoments, earlier, hfault, hrunning, hinner, rfl⟩ := fails
  refine ⟨before, m, inner ++ [r], hmoments, earlier, hfault, ?_, fun x hx => ?_, ?_⟩
  · rw [hrunning, List.append_assoc]
    rfl
  · obtain hx | hx := List.mem_append.1 hx
    · exact hinner x hx
    · rw [List.mem_singleton.1 hx]
      exact saves
  · rw [unwind, unwind, List.foldl_append]
    rfl

/-- The moments of a step against its outcome. -/
def Accounts (moments : List Moment) (running : List Running) (deeds : List Deed) :
    Outcome × Session → Prop
  | (.done _, s') => ∃ before, moments = before ++ [⟨running, s', deeds, none⟩] ∧
      ∀ x ∈ before, x.fault? = none
  | (.failed fault _, s') => Fails moments running fault s'

theorem accounts_ending (running : List Running) (held : List Ref) (s : Session) (step : Step)
    {before : List Moment} (quiet : ∀ x ∈ before, x.fault? = none) :
    Accounts (before ++ [s.ending running held step]) running (s.deedsOf step)
      (s.runStep held step) := by
  unfold ending
  obtain ⟨a | ⟨fault, answers⟩, s'⟩ := s.runStep held step
  · exact ⟨before, rfl, quiet⟩
  · exact ⟨before, _, [], rfl, quiet, rfl, rfl, (nomatch ·, ·), rfl⟩

mutual

/-- The last moment of a step is its end, or the failure within it. -/
theorem stepMoments_account (running : List Running) (held : List Ref) (s : Session) (step : Step) :
    Accounts (stepMoments running held s step) running (s.deedsOf step) (s.runStep held step) := by
  have nothing : ∀ x ∈ ([] : List Moment), x.fault? = none := (nomatch ·, ·)
  match step with
  | .command c name =>
    rw [stepMoments]
    exact accounts_ending running held s _ nothing
  | .brief o name =>
    rw [stepMoments]
    exact accounts_ending running held s _ nothing
  | .scope o name block =>
    rw [stepMoments]
    cases opened : (opening o).run s with
    | mk result s' =>
    obtain fault | ⟨entrance, scope⟩ := result
    · exact accounts_ending running held s _ nothing
    · have within := blockMoments_account (⟨s, scope⟩ :: running)
        (entrance.refs ++ scope.refs ++ held)
        (s'.enterBlock (entrance.refs ++ scope.refs ++ held) name scope.object) block
      have outcome := runStep_scope opened held name block
      simp only
      generalize runBlock _ _ block = result at within outcome ⊢
      obtain ⟨answers, fault | fault, s''⟩ := result
      · exact accounts_ending running held s _ within
      · rw [outcome, List.append_nil]
        exact within.abandon (saves_of_opened opened)

/-- A block fails with its last moment, or with none of its moments. -/
theorem blockMoments_account (running : List Running) (held : List Ref) (s : Session)
    (block : List Step) : match s.runBlock held block with
      | (_, none, _) => ∀ m ∈ blockMoments (·.settle held) running held s block, m.fault? = none
      | (_, some fault, s') =>
        Fails (blockMoments (·.settle held) running held s block) running fault s' := by
  match block with
  | [] =>
    rw [runBlock, blockMoments]
    exact (nomatch ·, ·)
  | step :: rest =>
    have first := stepMoments_account running held s step
    rw [runBlock_cons, blockMoments]
    generalize s.runStep held step = result at first ⊢
    obtain ⟨a | ⟨fault, answers⟩, s'⟩ := result
    · obtain ⟨before, hmoments, quiet⟩ := first
      have quiet : ∀ x ∈ stepMoments running held s step, x.fault? = none := by
        rw [hmoments]
        intro x hx
        obtain hx | hx := List.mem_append.1 hx
        · exact quiet x hx
        · rw [List.mem_singleton.1 hx]
      have later := blockMoments_account running held (s'.settle held) rest
      simp only
      generalize (s'.settle held).runBlock held rest = result at later ⊢
      obtain ⟨answers, fault | fault, s''⟩ := result
      · exact fun x hx => (List.mem_append.1 hx).elim (quiet x) (later x)
      · exact later.after quiet
    · simp only [List.append_nil]
      exact first

end

/-- A step that fails at the top leaves the session of the failure once all scopes are left. -/
theorem eq_unwind_of_failed {step : Step} {answers : Option (List Answer)}
    (failed : s.runStep [] step = (.failed fault answers, s')) :
    ∃ before m, stepMoments [] [] s step = before ++ [m] ∧ (∀ x ∈ before, x.fault? = none) ∧
      m.fault? = some fault ∧ (∀ r ∈ m.running, r.Saves) ∧ s' = unwind m.running m.session := by
  have account := stepMoments_account [] [] s step
  rw [failed] at account
  obtain ⟨before, m, inner, hmoments, quiet, hfault, hrunning, saves, rfl⟩ := account
  obtain rfl : m.running = inner := hrunning.trans (List.append_nil inner)
  exact ⟨before, m, hmoments, quiet, hfault, saves, rfl⟩

end Hypertext.Session
