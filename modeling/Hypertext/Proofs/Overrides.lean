import Hypertext.Proofs.Blindness

/-! Settings that hold for a block alone. When the block is left, at its end or by a failure, those
from before it are back, whatever was put in place within. Within it and outside all such blocks
those prevail that were put in place last. The main statement is `overrides_well_bracketed`. -/
namespace Hypertext.Session
set_option autoImplicit false

/-! ## Settings that are put in place -/

/-- Fields with what their terms stand for. -/
def taken (s : Session) (fields : List (String × Term)) : Except Fault (List (String × Datum)) :=
  fields.mapM fun (name, t) => return (name, ← s.registers.resolve t)

/-- The settings that fields give to a block. -/
def overriding (s : Session) (fields : List (String × Term)) : Except Fault Settings :=
  s.taken fields >>= Settings.ofArguments

/-- The settings that a command puts in place, if it does and completes. -/
def put? (s : Session) : Command → Option Settings
  | .setSettings fields => (s.taken fields >>= Settings.ofArguments).toOption
  | .loadSettings fields => (s.taken fields >>= Settings.ofData s.limits).toOption
  | .resetSettings => some {}
  | _ => none

mutual

/-- The settings that a step puts in place, one after the other, but for those that are put in
place while a scope within has settings of its own. -/
def stepSettings (held : List Ref) (s : Session) : Step → List Settings
  | .command c _ => (s.put? c).toList
  | .brief _ _ => []
  | .scope o name block =>
    match (opening o).run s with
    | (.error _, _) => []
    | (.ok (entrance, scope), s') =>
      match scope.saved? with
      | some _ => []
      | none =>
        let within := entrance.refs ++ scope.refs ++ held
        blockSettings within (s'.enterBlock within name scope.object) block

/-- The same of steps that follow each other, up to the first that fails. -/
def blockSettings (held : List Ref) (s : Session) : List Step → List Settings
  | [] => []
  | step :: rest =>
    stepSettings held s step ++
      match s.runStep held step with
      | (.failed _ _, _) => []
      | (.done _, s') => blockSettings held (s'.settle held) rest

end

/-- The same of a program, which goes on after a step that fails. -/
def programSettings (watched : List String) (s : Session) : List Step → List Settings
  | [] => []
  | step :: rest =>
    stepSettings [] s step ++ programSettings watched (s.perform watched step).2 rest

variable {s s' : Session} {held : List Ref} {entrance : Entrance} {scope : Scope} {fault : Fault}

/-! ## Commands -/

theorem run_resolve (t : Term) (s : Session) : (resolve t).run s = (s.registers.resolve t, s) := by
  show (liftExcept (s.registers.resolve t)).run s = _
  cases s.registers.resolve t <;> rfl

/-- Actions on a list that each only answer. -/
theorem run_mapM {γ α : Type} {act : γ → Act α} {answer : γ → Except Fault α} (s : Session)
    (h : ∀ x, (act x).run s = (answer x, s)) (l : List γ) :
    (l.mapM act).run s = (l.mapM answer, s) := by
  induction l with
  | nil => rfl
  | cons x l ih =>
    rw [List.mapM_cons, List.mapM_cons, Act.run_bind, h]
    cases answer x with
    | error fault => rfl
    | ok a =>
      simp only [Act.run_bind, ih]
      cases l.mapM answer <;> rfl

theorem run_resolveFields (fields : List (String × Term)) (s : Session) :
    (resolveFields fields).run s = (s.taken fields, s) := by
  refine run_mapM s (fun field => ?_) fields
  obtain ⟨name, t⟩ := field
  show _ = (s.registers.resolve t >>= fun d => pure (name, d), s)
  rw [Act.run_bind, run_resolve]
  cases s.registers.resolve t <;> rfl

/-- After a command those settings prevail that it has put in place, if any. -/
theorem settings_runCommand (c : Command) (s : Session) :
    ((runCommand c).run s).2.settings = (s.put? c).getD s.settings := by
  have read : ∀ (fields : List (String × Term))
      (parse : List (String × Datum) → Except Fault Settings),
      ((do
        let settings ← liftExcept (parse (← resolveFields fields))
        modify fun s => { s with settings }
        return Result.null : Act Result).run s).2.settings =
          ((s.taken fields >>= parse).toOption).getD s.settings := by
    intro fields parse
    rw [Act.run_bind, run_resolveFields]
    cases s.taken fields with
    | error fault => rfl
    | ok taken =>
      show ((liftExcept (parse taken) >>= _ : Act Result).run s).2.settings =
        ((parse taken).toOption).getD s.settings
      cases parse taken <;> rfl
  by_cases puts : PutsSettings c
  · match c with
    | .setSettings fields => exact read fields Settings.ofArguments
    | .loadSettings fields => exact read fields (Settings.ofData s.limits)
    | .resetSettings => rfl
  · have none : s.put? c = none := by
      unfold put?
      split
      · exact absurd trivial puts
      · exact absurd trivial puts
      · exact absurd trivial puts
      · rfl
    rw [none]
    exact keeps_runCommand puts s

/-! ## Scopes -/

theorem run_approach_settings (fields : List (String × Term)) (s : Session) :
    (approach (.settings fields)).run s = ((s.taken fields).map .settings, s) := by
  rw [approach, Act.run_bind, run_resolveFields]
  cases s.taken fields <;> rfl

theorem run_enter_settings (fields : List (String × Datum)) (s : Session) :
    (enter (.settings fields)).run s = match Settings.ofArguments fields with
      | .error fault => (.error fault, s)
      | .ok given => (.ok (.settings s.settings), s.under given) := by
  rw [enter, Act.run_bind]
  cases Settings.ofArguments fields <;> rfl

/-- A scope with settings of its own is opened if its fields give some. It puts them in place and
saves those from before it. -/
theorem run_opening_settings (fields : List (String × Term)) (s : Session) :
    (opening (.settings fields)).run s = match s.overriding fields with
      | .error fault => (.error fault, s)
      | .ok given => (.ok (.settings ((s.taken fields).toOption.getD []), .settings s.settings),
          s.under given) := by
  rw [run_opening, run_approach_settings, overriding]
  cases s.taken fields with
  | error fault => rfl
  | ok taken =>
    simp only [Except.map, run_enter_settings]
    show _ = match Settings.ofArguments taken with
      | Except.error fault => (Except.error fault, s)
      | Except.ok given => (Except.ok (Entrance.settings taken, _), s.under given)
    cases Settings.ofArguments taken <;> rfl

/-- Where no scope is opened the settings stay. -/
theorem settings_of_closed {o : Opening} (closed : (opening o).run s = (.error fault, s')) :
    s'.settings = s.settings := by
  have kept (plain : IsPlain o) := (blind_opening (R := Eq) plain s s.settings rfl).1
  rw [closed] at kept
  cases o with
  | settings fields =>
    rw [run_opening_settings] at closed
    split at closed <;> cases closed
    rfl
  | _ => exact kept trivial

/-- Settings that a scope saves are those from before it. A scope that saves none keeps them. -/
theorem settings_of_opened {o : Opening}
    (opened : (opening o).run s = (.ok (entrance, scope), s')) :
    scope.saved?.getD s'.settings = s.settings := by
  have kept (plain : IsPlain o) : scope.saved?.getD s'.settings = s.settings := by
    have same := (blind_opening (R := Eq) plain s s.settings rfl).1
    have none := answers_opening plain s
    rw [opened] at same none
    rw [show scope.saved? = .none from none _ rfl]
    exact same
  cases o with
  | settings fields =>
    rw [run_opening_settings] at opened
    split at opened <;> cases opened
    rfl
  | _ => exact kept trivial

theorem settings_leave (scope : Scope) (s : Session) :
    ((leave scope).run s).2.settings = scope.saved?.getD s.settings := by
  cases scope with
  | settings saved => rfl
  | _ => exact (blind_leave (R := Eq) rfl s s.settings rfl).1

theorem settings_abandon (scope : Scope) (s : Session) :
    (abandon scope s).settings = scope.saved?.getD s.settings := by
  cases scope with
  | building parent child => rfl
  | _ => exact settings_leave _ s

/-- What leaving a block with settings of its own makes of its run: it ends as the block does, with
the settings that were saved. -/
def closing (saved : Settings) : List Answer × Option Fault × Session → Outcome × Session
  | (answers, some fault, s) => (.failed fault (some answers), s.under saved)
  | (answers, none, s) => (.done (.scope .null answers), s.under saved)

/-- What is held while a block with settings of its own runs. -/
def heldWithin (held : List Ref) (s : Session) (fields : List (String × Term)) : List Ref :=
  (Entrance.settings ((s.taken fields).toOption.getD [])).refs ++ s.settings.refs ++ held

theorem runStep_settings {fields : List (String × Term)} {given : Settings}
    (gives : s.overriding fields = .ok given) (held : List Ref) (name : Option String)
    (block : List Step) : s.runStep held (.scope (.settings fields) name block) =
      closing s.settings (runBlock (heldWithin held s fields)
        ((s.under given).enterBlock (heldWithin held s fields) name .null) block) := by
  have opened := run_opening_settings fields s
  rw [gives] at opened
  rw [runStep_scope opened]
  show (match runBlock (heldWithin held s fields)
      ((s.under given).enterBlock (heldWithin held s fields) name .null) block with
    | (answers, some fault, s) => _
    | (answers, none, s) => _) = _
  generalize runBlock _ _ block = result
  obtain ⟨answers, _ | fault, s'⟩ := result
  · cases name <;> rfl
  · rfl

/-! ## Steps -/

theorem settings_bind (s : Session) (name : Option String) (object : Option Datum) :
    (s.bind name object).settings = s.settings := by
  cases name <;> cases object <;> rfl

theorem settings_enterBlock (s : Session) (held : List Ref) (name : Option String) (d : Datum) :
    (s.enterBlock held name d).settings = s.settings := by
  cases name <;> rfl

/-- Without a block settings are put in place for a moment only. -/
theorem settings_brief (held : List Ref) (s : Session) (o : Opening) (name : Option String) :
    (s.runStep held (.brief o name)).2.settings = s.settings := by
  rw [runStep_brief]
  cases opened : (opening o).run s with
  | mk result s₁ =>
  obtain fault | ⟨entrance, scope⟩ := result
  · exact settings_of_closed opened
  · have left := (settings_leave scope s₁).trans (settings_of_opened opened)
    simp only
    generalize (leave scope).run s₁ = result at left ⊢
    obtain ⟨fault | _, s₂⟩ := result
    · exact left
    · exact (settings_bind ..).trans left

/-- A scope that has saved settings brings them back, and any other keeps those of its block. -/
theorem settings_scope {o : Opening} (opened : (opening o).run s = (.ok (entrance, scope), s'))
    (held : List Ref) (name : Option String) (block : List Step) :
    (s.runStep held (.scope o name block)).2.settings = scope.saved?.getD
      (runBlock (entrance.refs ++ scope.refs ++ held)
        (s'.enterBlock (entrance.refs ++ scope.refs ++ held) name scope.object)
        block).2.2.settings := by
  rw [runStep_scope opened]
  generalize runBlock _ _ block = result
  obtain ⟨answers, _ | fault, s₁⟩ := result
  · have left := settings_leave scope s₁
    simp only
    generalize (leave scope).run s₁ = result at left ⊢
    obtain ⟨fault | _, s₂⟩ := result
    · exact left
    · exact (settings_bind ..).trans left
  · exact settings_abandon scope s₁

/-- Settings that a block has of its own are gone once it is left, whatever it was made of. -/
theorem settings_restored (held : List Ref) (s : Session) (fields : List (String × Term))
    (name : Option String) (block : List Step) :
    (s.runStep held (.scope (.settings fields) name block)).2.settings = s.settings := by
  have opened := run_opening_settings fields s
  cases gives : s.overriding fields with
  | error fault =>
    rw [gives] at opened
    obtain ⟨answers, failed⟩ := runStep_scope_of_error opened held name block
    rw [failed]
  | ok given =>
    rw [gives] at opened
    exact settings_scope opened held name block

/-- From one session to a later one those settings prevail that were put in place last, if any. -/
def Prevails (put : List Settings) (s s' : Session) : Prop :=
  s'.settings = put.getLast?.getD s.settings

theorem Prevails.append {first second : List Settings} {s s₁ s₂ : Session}
    (h : Prevails first s s₁) (h' : Prevails second s₁ s₂) : Prevails (first ++ second) s s₂ := by
  rw [Prevails] at *
  rw [h', h, List.getLast?_append]
  cases second.getLast? <;> rfl

mutual

/-- By induction on the step. What a block puts in place reaches beyond it only if its scope has no
settings to bring back. -/
theorem prevails_step (held : List Ref) (s : Session) (step : Step) :
    Prevails (stepSettings held s step) s (s.runStep held step).2 := by
  match step with
  | .command c name =>
    have put : Prevails (s.put? c).toList s ((runCommand c).run s).2 := by
      rw [Prevails, settings_runCommand]
      cases s.put? c <;> rfl
    rw [stepSettings, runStep]
    generalize (runCommand c).run s = result at put ⊢
    obtain ⟨fault | result, s₁⟩ := result
    · exact put
    · exact (settings_bind ..).trans put
  | .brief o name => exact settings_brief held s o name
  | .scope o name block =>
    rw [stepSettings]
    cases opened : (opening o).run s with
    | mk result s₁ =>
    obtain fault | ⟨entrance, scope⟩ := result
    · obtain ⟨answers, failed⟩ := runStep_scope_of_error opened held name block
      rw [failed]
      exact settings_of_closed opened
    · have before := settings_of_opened opened
      have after := settings_scope opened held name block
      simp only
      cases saves : scope.saved? with
      | some saved =>
        rw [saves] at before after
        exact after.trans before
      | none =>
        rw [saves] at before after
        have within := prevails_block (entrance.refs ++ scope.refs ++ held)
          (s₁.enterBlock (entrance.refs ++ scope.refs ++ held) name scope.object) block
        rw [Prevails, settings_enterBlock, show s₁.settings = s.settings from before] at within
        exact after.trans within

theorem prevails_block (held : List Ref) (s : Session) (block : List Step) :
    Prevails (blockSettings held s block) s (s.runBlock held block).2.2 := by
  match block with
  | [] => rfl
  | step :: rest =>
    have first := prevails_step held s step
    rw [blockSettings, runBlock_cons]
    generalize s.runStep held step = result at first ⊢
    obtain ⟨a | ⟨fault, answers⟩, s₁⟩ := result
    · exact first.append (prevails_block held (s₁.settle held) rest)
    · simpa only [List.append_nil] using first

end

/-! ## Programs -/

theorem settings_perform (s : Session) (watched : List String) (step : Step) :
    (s.perform watched step).2.settings = (s.runStep [] step).2.settings :=
  congrArg View.settings (quiet_watch watched (s.runStep [] step).2.collect rfl).1

theorem prevails_program (watched : List String) (s : Session) (program : List Step) :
    Prevails (programSettings watched s program) s (s.runProgram watched program).2 := by
  induction program generalizing s with
  | nil => rfl
  | cons step rest ih =>
    have first : Prevails (stepSettings [] s step) s (s.perform watched step).2 :=
      (settings_perform s watched step).trans (prevails_step [] s step)
    exact first.append (ih _)

/-- A run that goes on, unless it has failed. -/
def goOn (held : List Ref) (rest : List Step) :
    List Answer × Option Fault × Session → List Answer × Option Fault × Session
  | (answers, some fault, s) => (answers, some fault, s)
  | (answers, none, s) =>
    let (more, fault, s) := s.runBlock held rest
    (answers ++ more, fault, s)

/-- A block runs through the session that any first part of it leaves. -/
theorem runBlock_append (held : List Ref) (s : Session) (before rest : List Step) :
    s.runBlock held (before ++ rest) = goOn held rest (s.runBlock held before) := by
  induction before generalizing s with
  | nil => rfl
  | cons step before ih =>
    rw [List.cons_append, runBlock_cons, runBlock_cons]
    generalize s.runStep held step = result
    obtain ⟨a | ⟨fault, answers⟩, s₁⟩ := result
    · simp only [ih]
      generalize (s₁.settle held).runBlock held before = result
      obtain ⟨answers, _ | fault, s₂⟩ := result <;> rfl
    · rfl

/-- Settings that are to hold for a block: once it is left, at its end or by a failure, those from
before it are back, whatever it was made of. At each point within, the settings are those that
were put in place last since the block was entered, outside the blocks within it that have
settings of their own, or the given ones if there were none; and at the end of a program they are
those that were put in place last outside all such blocks, or the default ones. -/
theorem overrides_well_bracketed :
    (∀ (s : Session) (held : List Ref) (fields : List (String × Term)) (name : Option String),
      (∀ block, (s.runStep held (.scope (.settings fields) name block)).2.settings = s.settings) ∧
      (s.runStep held (.brief (.settings fields) name)).2.settings = s.settings ∧
      ∀ given, s.overriding fields = .ok given → ∃ within start, start.settings = given ∧
        ∀ before rest,
          s.runStep held (.scope (.settings fields) name (before ++ rest)) =
            closing s.settings (goOn within rest (start.runBlock within before)) ∧
          (start.runBlock within before).2.2.settings =
            (blockSettings within start before).getLast?.getD given) ∧
    ∀ (limits : Limits) (watched : List String) (program : List Step),
      (({ limits } : Session).runProgram watched program).2.settings =
        (programSettings watched { limits } program).getLast?.getD {} := by
  refine ⟨fun s held fields name => ⟨settings_restored held s fields name,
    settings_brief held s _ name, fun given gives => ?_⟩,
    fun limits watched program => prevails_program watched { limits } program⟩
  have entered := settings_enterBlock (s.under given) (heldWithin held s fields) name .null
  refine ⟨heldWithin held s fields, _, entered, fun before rest => ⟨?_, ?_⟩⟩
  · rw [runStep_settings gives, runBlock_append]
  · have prevails := prevails_block (heldWithin held s fields)
      ((s.under given).enterBlock (heldWithin held s fields) name .null) before
    rwa [Prevails, entered] at prevails

/-- A block that goes back to the default settings, and fails within a block of its own. -/
theorem overrides_well_bracketed_of_failure :
    let s : Session := { limits := .least, settings := { indent := .text "\t" } }
    let opening : Opening := .settings [("pretty_print", .bool true)]
    let reset : Step := .command .resetSettings none
    let inner : Step := .scope (.settings [("indent", .text "x")]) none
      [.command (.setSettings [("indent", .text "y")]) none, .command (.fail "stop") none]
    s.overriding [("pretty_print", .bool true)] = .ok { prettyPrint := .bool true } ∧
      (s.runStep [] (.scope opening none [reset, inner])).2.settings = { indent := .text "\t" } ∧
      ∃ (within : List Ref) (start : Session), s.runStep [] (.scope opening none [reset, inner]) =
          closing s.settings (start.runBlock within [reset, inner]) ∧
        (start.runBlock within []).2.2.settings = { prettyPrint := .bool true } ∧
        (start.runBlock within [reset, inner]).2.2.settings = {} := by
  intro s opening reset inner
  have gives : s.overriding [("pretty_print", .bool true)] = .ok { prettyPrint := .bool true } := rfl
  obtain ⟨left, -, within⟩ := overrides_well_bracketed.1 s [] [("pretty_print", .bool true)] none
  obtain ⟨held, start, -, runs⟩ := within _ gives
  exact ⟨gives, left [reset, inner], held, start, (runs [] [reset, inner]).1, (runs [] []).2,
    (runs [reset, inner] []).2⟩

end Hypertext.Session
