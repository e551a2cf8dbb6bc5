import Hypertext.Proofs.Builders
import Hypertext.Proofs.Unwinding

/-! Runs of programs that only build. At each moment, at any depth of scopes, the tree agrees with
what was done so far. -/
namespace Hypertext.Session
set_option autoImplicit false

variable {deeds : List Deed} {running : List Running} {held : List Ref} {s s' : Session}

/-! ## Along a run -/

/-- Each moment has a property, with all deeds up to it. -/
def Along (P : List Deed → Moment → Prop) : List Deed → List Moment → Prop
  | _, [] => True
  | deeds, m :: rest => P (deeds ++ m.deeds) m ∧ Along P (deeds ++ m.deeds) rest

theorem along_getElem? {P : List Deed → Moment → Prop} {moments : List Moment} {i : Nat}
    {m : Moment}
    (along : Along P deeds moments) (reached : moments[i]? = some m) :
    P (deeds ++ (moments.take (i + 1)).flatMap (·.deeds)) m := by
  induction moments generalizing deeds i with
  | nil => cases reached
  | cons first rest ih =>
    cases i with
    | zero =>
      cases reached
      simpa using along.1
    | succ i =>
      rw [List.take_succ_cons, List.flatMap_cons, ← List.append_assoc]
      exact ih along.2 reached

theorem along_append {P : List Deed → Moment → Prop} {first second : List Moment} :
    Along P deeds (first ++ second) ↔
      Along P deeds first ∧ Along P (deeds ++ first.flatMap (·.deeds)) second := by
  induction first generalizing deeds with
  | nil => simp [Along]
  | cons m first ih => simp [Along, ih, and_assoc]

/-- The tree of a moment agrees with all deeds up to it, and what its scopes need is held. -/
def Sound (deeds : List Deed) (m : Moment) : Prop :=
  Building deeds m.running m.session ∧ ∃ held, ∀ r ∈ m.running, r.scope.Framed held

/-! ## Steps without blocks -/

/-- A step keeps the agreement, and the registers that it does not name. -/
def Ends (deeds : List Deed) (running : List Running) (held : List Ref) (s : Session)
    (step : Step) : Prop :=
  match s.runStep held step with
  | (.done _, s') => Building (deeds ++ s.deedsOf step) running s' ∧
      ∀ n ∉ step.names, s'.registers.get? n = s.registers.get? n
  | (.failed _ _, s') => Building deeds running s'

theorem Ends.along {step : Step} (ends : Ends deeds running held s step)
    (framed : ∀ r ∈ running, r.scope.Framed held) :
    Along Sound deeds [s.ending running held step] := by
  unfold Ends at ends
  unfold ending
  generalize s.runStep held step = result at ends ⊢
  obtain ⟨a | ⟨fault, answers⟩, s'⟩ := result
  · exact ⟨⟨ends.1, held, framed⟩, trivial⟩
  · refine ⟨⟨?_, held, framed⟩, trivial⟩
    rw [List.append_nil]
    exact ends

theorem bind_null (s : Session) (name : Option String) : s.bind name Result.null.object = s := by
  cases name <;> rfl

theorem text_ends {on : String} {t : Term} {name : Option String} (plain : t.ref? = none)
    (building : Building deeds running s) :
    Ends deeds running held s (.command (.set on .text t) name) := by
  have nothing : s.deedsOf (.command (.set on .text t) name) = [] := by
    cases t with
    | ref x => cases plain
    | _ => rfl
  unfold Ends
  rw [runStep, nothing, List.append_nil]
  obtain ⟨s', ⟨⟨fault, run⟩, same⟩ | ⟨run, set⟩⟩ := run_setText on t s
  · rw [run]
    exact building.of_view same
  · rw [run]
    simp only [bind_null]
    obtain ⟨-, same⟩ | ⟨id, o, d, -, made, forest, registers⟩ := set
    · have registers : s'.registers = s.registers := congrArg View.registers same
      exact ⟨building.of_view same, fun n _ => by rw [registers]⟩
    · refine ⟨building.sameShape ?_ registers, fun n _ => by rw [registers]⟩
      rw [forest]
      exact Forest.sameShape_setContent id (ref?_of_make plain made)

theorem fail_ends {message : String} {name : Option String} (building : Building deeds running s) :
    Ends deeds running held s (.command (.fail message) name) := building

theorem drop_ends {names : List String} {name : Option String}
    (building : Building deeds running s) :
    Ends deeds running held s (.command (.drop names) name) := by
  have run : (runCommand (.drop names)).run s =
      (.ok .null, { s with registers := s.registers.drop names }) := rfl
  have nothing : s.deedsOf (.command (.drop names) name) = [] := rfl
  unfold Ends
  rw [runStep, run, nothing, List.append_nil]
  simp only [bind_null]
  refine ⟨⟨building.orderly, fun entry hentry => ?_, building.scopes⟩, fun n hn => ?_⟩
  · exact building.registers entry (List.mem_filter.1 hentry).1
  · refine Registers.get?_drop fun h => hn ?_
    rw [Step.names]
    exact List.mem_append_left _ h

/-- A scope that is left binds what it has made. -/
theorem bind_of_left {r : Running} (framed : r.scope.Framed held)
    (building : Building deeds (r :: running) s) (name : Option String) :
    match (leave r.scope).run s with
    | (.error _, s') => Building deeds running s'
    | (.ok (), s') =>
      Building (deeds ++ r.scope.deeds) running (s'.bind name r.scope.made?) ∧
        ∀ n ∉ name.toList, (s'.bind name r.scope.made?).registers.get? n =
          s.registers.get? n := by
  have left := leave_builds framed building
  generalize (leave r.scope).run s = result at left ⊢
  obtain ⟨fault | _, s'⟩ := result
  · exact left
  · obtain ⟨building, registers, made⟩ := left
    refine ⟨building.bind name made, fun n hn => ?_⟩
    rw [get?_bind s' _ hn, registers]

theorem brief_ends {o : Opening} {name : Option String} (builds : o.Builds)
    (building : Building deeds running s) : Ends deeds running held s (.brief o name) := by
  have opened := opening_builds held builds building
  unfold Ends
  rw [runStep_brief, deedsOf]
  generalize (opening o).run s = result at opened ⊢
  obtain ⟨fault | ⟨entrance, scope⟩, s₁⟩ := result
  · exact opened
  have left := bind_of_left (r := ⟨s, scope⟩) opened.framed opened.building name
  simp only at left ⊢
  generalize (leave scope).run s₁ = result at left ⊢
  obtain ⟨fault | _, s₂⟩ := result
  · exact left
  · refine ⟨left.1, fun n hn => ?_⟩
    rw [← opened.registers]
    exact left.2 n hn

/-! ## Moves -/

theorem eq_of_make_register {g : Registers} {name : String} {v d : Datum} {o : Origin}
    (bound : g.get? name = some v) (made : g.make o (.ref (.register name)) = .ok d) : d = v := by
  have meaning : g.meaning (.register name) = .ok v := by
    rw [Registers.meaning, Registers.get, bound]
  unfold Registers.make at made
  cases hcheck : g.check (Value.refs (.ref (.register name))) with
  | error fault => rw [hcheck] at made; cases made
  | ok checked =>
    rw [hcheck] at made
    have object : g.object (.register name) = v := by
      rw [Registers.object, meaning]
      rfl
    rw [← object]
    exact (Except.ok.inj made).symm

/-- A child that was attached to an element can go on to the text slot of this. -/
theorem move_ends (held : List Ref) {parent child : String} (name : Option String) {h : Ref}
    {x : ElementId}
    (holder : s.registers.get? parent = some (.ref h))
    (object : s.registers.get? child = some (.ref (.element x)))
    (attached : Deed.attached h x ∈ deeds) (building : Building deeds running s) :
    Ends deeds running held s (.command (.set parent .text (.ref (.register child))) name) := by
  unfold Ends
  rw [runStep]
  obtain ⟨s', ⟨⟨fault, run⟩, same⟩ | ⟨run, set⟩⟩ := run_setText parent (.ref (.register child)) s
  · rw [run]
    exact building.of_view same
  rw [run]
  simp only [bind_null]
  obtain ⟨⟨c, choice⟩, -⟩ | ⟨id, o, d, bound, made, forest, registers⟩ := set
  · rw [holder] at choice
    cases choice
  obtain rfl : h = .element id := by simpa [holder] using bound
  obtain rfl := eq_of_make_register object made
  have deed : s.deedsOf (.command (.set parent .text (.ref (.register child))) name) =
      if s.forest.hasText id then [.moved id x] else [] := by
    simp only [deedsOf, holder, object]
  refine ⟨?_, fun n _ => by rw [registers]⟩
  rw [deed]
  split
  next slot =>
    have alive := Forest.isThere_element.1 (building.get? object)
    have changed := Forest.changed_move (x := x) slot
    have there : ∀ r, s.forest.isThere r = true → s'.forest.isThere r = true := fun r hr => by
      rw [forest]
      exact (changed.isThere r).trans hr
    refine building.next ?_ there registers fun r hr => (building.scopes r hr).mono there
    rw [forest]
    exact building.orderly.move slot attached alive
  next slotless =>
    rw [List.append_nil]
    refine building.sameShape ?_ registers
    rw [forest]
    exact Forest.sameShape_setContent_of_slotless slotless _

/-! ## Builders -/

/-- What a step opens, with the name for what is made. -/
def opens? : Step → Option (Opening × Option String)
  | .brief o name | .scope o name _ => some (o, name)
  | .command _ _ => none

theorem opens_of_builds {step : Step} {parent child : String}
    (builds : step.builds? = some (parent, child)) :
    ∃ entry given, opens? step = some (.build parent entry given, some child) := by
  have named : ∀ {on : String} {name : Option String}, name.map (on, ·) = some (parent, child) →
      on = parent ∧ name = some child := by
    intro on name h
    obtain ⟨_, rfl, same⟩ := Option.map_eq_some_iff.1 h
    cases same
    exact ⟨rfl, rfl⟩
  unfold Step.builds? at builds
  split at builds
  next =>
    obtain ⟨rfl, rfl⟩ := named builds
    exact ⟨_, _, rfl⟩
  next =>
    obtain ⟨rfl, rfl⟩ := named builds
    exact ⟨_, _, rfl⟩
  next => cases builds

theorem builds_of_opens {step : Step} {o : Opening} {name : Option String}
    (isBuilding : IsBuilding step) (opens : opens? step = some (o, name)) : o.Builds := by
  cases isBuilding with
  | brief builds => cases opens; exact builds
  | scope builds within => cases opens; exact builds
  | _ => cases opens

/-- A step that opens a scope and completes has left the scope. -/
theorem left_of_done {step : Step} {o : Opening} {name : Option String} {a : Answer}
    (opens : opens? step = some (o, name)) (done : s.runStep held step = (.done a, s')) :
    ∃ entrance scope s₁ s₂ s₃, (opening o).run s = (.ok (entrance, scope), s₁) ∧
      (leave scope).run s₂ = (.ok (), s₃) ∧ s' = s₃.bind name scope.made? ∧
      s.deedsOf step = scope.deeds := by
  cases step with
  | command c name => cases opens
  | brief o name =>
    cases opens
    rw [runStep_brief] at done
    cases opened : (opening o).run s with
    | mk result s₁ =>
    rw [opened] at done
    obtain fault | ⟨entrance, scope⟩ := result
    · cases done
    simp only at done
    split at done
    next => cases done
    next s₂ left =>
      cases done
      exact ⟨entrance, scope, s₁, s₁, s₂, rfl, left, rfl, by rw [deedsOf, opened]⟩
  | scope o name block =>
    cases opens
    cases opened : (opening o).run s with
    | mk result s₁ =>
    obtain fault | ⟨entrance, scope⟩ := result
    · obtain ⟨answers, failed⟩ := runStep_scope_of_error opened held name block
      cases failed.symm.trans done
    rw [runStep_scope opened] at done
    split at done
    next => cases done
    next s₂ ran =>
      split at done
      next => cases done
      next s₃ left =>
        cases done
        exact ⟨entrance, scope, s₁, s₂, s₃, rfl, left, rfl, by rw [deedsOf, opened]⟩

/-- A builder that completes has attached the element that its name is bound to. -/
theorem build_done {step : Step} {parent child : String} {a : Answer}
    (builds : step.builds? = some (parent, child)) (isBuilding : IsBuilding step)
    (building : Building deeds running s) (done : s.runStep held step = (.done a, s')) :
    ∃ h x, s.registers.get? parent = some (.ref h) ∧ s.deedsOf step = [.attached h x] ∧
      s'.registers.get? child = some (.ref (.element x)) := by
  obtain ⟨entry, given, opens⟩ := opens_of_builds builds
  obtain ⟨entrance, scope, s₁, s₂, s₃, opened, left, rfl, deed⟩ := left_of_done opens done
  cases builds_of_opens isBuilding opens with
  | build items text =>
    have built := opening_build held parent entry items text building
    rw [opened] at built
    obtain ⟨-, d, x, bound, rfl⟩ := built
    -- an element can only be attached to an element or a document
    obtain ⟨h, rfl⟩ : ∃ h, d = .ref h := by
      cases d with
      | ref h => exact ⟨h, rfl⟩
      | _ => cases left
    exact ⟨h, x, bound, deed, Registers.get?_bind_self⟩

/-! ## Steps in a row -/

/-- The session after steps that all complete. From one to the next leads `next`. -/
def runThrough (next : Session → Session) (held : List Ref) (s : Session) :
    List Step → Option Session
  | [] => some s
  | step :: rest => match s.runStep held step with
    | (.failed _ _, _) => none
    | (.done _, s') => runThrough next held (next s') rest

theorem runThrough_of_runBlock {block : List Step} {answers : List Answer}
    (ran : s.runBlock held block = (answers, none, s')) :
    runThrough (·.settle held) held s block = some s' := by
  induction block generalizing s answers with
  | nil =>
    rw [runBlock] at ran
    cases ran
    rfl
  | cons step rest ih =>
    rw [runBlock_cons] at ran
    rw [runThrough]
    generalize s.runStep held step = result at ran ⊢
    obtain ⟨a | ⟨fault, answers⟩, s₁⟩ := result
    · cases later : (s₁.settle held).runBlock held rest with
      | mk answers end? =>
      obtain ⟨fault, s₂⟩ := end?
      simp only [later] at ran
      cases ran
      exact ih later
    · cases ran

/-- All moments of a step are sound, and so is what it leaves when it completes. -/
def Keeps (deeds : List Deed) (running : List Running) (held : List Ref) (s : Session)
    (step : Step) : Prop :=
  Along Sound deeds (stepMoments running held s step) ∧
    ∀ a s', s.runStep held step = (.done a, s') →
      Building (deeds ++ (stepMoments running held s step).flatMap (·.deeds)) running s' ∧
        ∀ n ∉ step.names, s'.registers.get? n = s.registers.get? n

/-- The same of steps that follow each other. -/
def KeepsAll (next : Session → Session) (deeds : List Deed) (running : List Running)
    (held : List Ref) (s : Session) (steps : List Step) : Prop :=
  Along Sound deeds (blockMoments next running held s steps) ∧
    ∀ s', runThrough next held s steps = some s' →
      Building (deeds ++ (blockMoments next running held s steps).flatMap (·.deeds)) running s' ∧
        ∀ n ∉ Step.namesAll steps, s'.registers.get? n = s.registers.get? n

/-- A step ends after the moments within it. -/
theorem Ends.keeps_after {step : Step} {moments : List Moment}
    (ends : Ends (deeds ++ moments.flatMap (·.deeds)) running held s step)
    (framed : ∀ r ∈ running, r.scope.Framed held) (along : Along Sound deeds moments)
    (last : stepMoments running held s step = moments ++ [s.ending running held step]) :
    Keeps deeds running held s step := by
  rw [Keeps, last, along_append]
  refine ⟨⟨along, ends.along framed⟩, fun a s' done => ?_⟩
  have deed : (s.ending running held step).deeds = s.deedsOf step := by
    rw [ending, done]
  rw [List.flatMap_append, List.flatMap_singleton, deed, ← List.append_assoc]
  rw [Ends, done] at ends
  exact ends

theorem Ends.keeps {step : Step} (ends : Ends deeds running held s step)
    (framed : ∀ r ∈ running, r.scope.Framed held)
    (only : stepMoments running held s step = [s.ending running held step]) :
    Keeps deeds running held s step := by
  have ends' : Ends (deeds ++ [].flatMap Moment.deeds) running held s step := by
    rw [List.flatMap_nil, List.append_nil]
    exact ends
  exact ends'.keeps_after framed trivial only

theorem KeepsAll.nil {next : Session → Session} (building : Building deeds running s) :
    KeepsAll next deeds running held s [] := by
  refine ⟨trivial, fun s' last => ?_⟩
  cases last
  rw [blockMoments, List.flatMap_nil, List.append_nil]
  exact ⟨building, fun _ _ => rfl⟩

theorem KeepsAll.cons {next : Session → Session} {step : Step} {rest : List Step}
    (registers : ∀ s, (next s).registers = s.registers)
    (first : Keeps deeds running held s step)
    (later : ∀ a s', s.runStep held step = (.done a, s') → KeepsAll next
      (deeds ++ (stepMoments running held s step).flatMap (·.deeds)) running held (next s') rest) :
    KeepsAll next deeds running held s (step :: rest) := by
  rw [KeepsAll, blockMoments, along_append, runThrough, Step.namesAll]
  obtain ⟨along, completes⟩ := first
  cases ran : s.runStep held step with
  | mk outcome s₁ =>
  obtain a | ⟨fault, answers⟩ := outcome
  · obtain ⟨alongLater, completesLater⟩ := later a s₁ ran
    refine ⟨⟨along, alongLater⟩, fun s' last => ?_⟩
    obtain ⟨building, kept⟩ := completesLater s' last
    rw [List.flatMap_append, ← List.append_assoc]
    refine ⟨building, fun n hn => ?_⟩
    obtain ⟨hfirst, hlater⟩ := not_or.1 (mt List.mem_append.2 hn)
    rw [kept n hlater, registers, (completes a s₁ ran).2 n hfirst]
  · exact ⟨⟨along, trivial⟩, (nomatch ·, ·)⟩

/-! ## Scopes -/

theorem scope_keeps_of_error {o : Opening} {fault : Fault} {name : Option String}
    {block : List Step} (closed : (opening o).run s = (.error fault, s'))
    (framed : ∀ r ∈ running, r.scope.Framed held) (building : Building deeds running s') :
    Keeps deeds running held s (.scope o name block) := by
  obtain ⟨answers, failed⟩ := runStep_scope_of_error closed held name block
  have ends : Ends deeds running held s (.scope o name block) := by
    rw [Ends, failed]
    exact building
  exact ends.keeps framed (by rw [stepMoments, closed])

variable {entrance : Entrance} {scope : Scope}

/-- A block runs with one more scope around it, and is framed by what this scope needs. -/
theorem framed_within (s : Session) (framed : ∀ r ∈ running, r.scope.Framed held)
    (new : scope.Framed (entrance.refs ++ scope.refs ++ held)) :
    ∀ r ∈ ⟨s, scope⟩ :: running, r.scope.Framed (entrance.refs ++ scope.refs ++ held) := by
  intro r hr
  obtain rfl | hr := List.mem_cons.1 hr
  · exact new
  · exact (framed r hr).mono fun _ => List.mem_append_right _

/-- What a block keeps its scope keeps. -/
theorem scope_keeps {o : Opening} {name : Option String} {block : List Step}
    (opened : (opening o).run s = (.ok (entrance, scope), s'))
    (framed : ∀ r ∈ running, r.scope.Framed held)
    (opens : Opens deeds running held s entrance scope s')
    (kept : KeepsAll (·.settle (entrance.refs ++ scope.refs ++ held)) deeds (⟨s, scope⟩ :: running)
      (entrance.refs ++ scope.refs ++ held)
      (s'.enterBlock (entrance.refs ++ scope.refs ++ held) name scope.object) block) :
    Keeps deeds running held s (.scope o name block) := by
  obtain ⟨along, completes⟩ := kept
  have outcome := runStep_scope opened held name block
  have moments := stepMoments_scope opened running held name block
  have inner := framed_within s framed opens.framed
  generalize entrance.refs ++ scope.refs ++ held = within at *
  cases ran : (s'.enterBlock within name scope.object).runBlock within block with
  | mk answers end? =>
  obtain ⟨fault | fault, s₂⟩ := end?
  · rw [ran] at outcome moments
    obtain ⟨built, registers⟩ := completes s₂ (runThrough_of_runBlock ran)
    have left := bind_of_left (inner _ List.mem_cons_self) built name
    refine Ends.keeps_after ?_ framed along moments
    rw [Ends, outcome, deedsOf, opened]
    simp only at left ⊢
    generalize (leave scope).run s₂ = result at left ⊢
    obtain ⟨fault | _, s₃⟩ := result
    · exact left
    · refine ⟨left.1, fun n hn => ?_⟩
      rw [Step.names] at hn
      obtain ⟨hname, hblock⟩ := not_or.1 (mt List.mem_append.2 hn)
      rw [left.2 n hname, registers n hblock, get?_enterBlock _ _ hname, opens.registers]
  · rw [ran] at outcome moments
    simp only at outcome moments
    rw [Keeps, moments, List.append_nil, outcome]
    refine ⟨along, fun a s' done => ?_⟩
    cases done

/-! ## Programs -/

mutual

/-- The induction on programs that build: nothing that runs, at any depth, breaks the agreement. -/
theorem step_keeps {deeds : List Deed} {running : List Running} {held : List Ref} {s : Session}
    (step : Step) (isBuilding : IsBuilding step) (framed : ∀ r ∈ running, r.scope.Framed held)
    (building : Building deeds running s) : Keeps deeds running held s step := by
  match step with
  | .command c name =>
    have only : stepMoments running held s (.command c name) =
        [s.ending running held (.command c name)] := by rw [stepMoments]
    cases isBuilding with
    | text plain => exact (text_ends plain building).keeps framed only
    | drop => exact (drop_ends building).keeps framed only
    | fail => exact (fail_ends building).keeps framed only
  | .brief o name =>
    cases isBuilding with
    | brief builds => exact (brief_ends builds building).keeps framed (by rw [stepMoments])
  | .scope o name block =>
    cases isBuilding with
    | scope builds within =>
    have opens := opening_builds held builds building
    cases opened : (opening o).run s with
    | mk result s₁ =>
    rw [opened] at opens
    obtain fault | ⟨entrance, scope⟩ := result
    · exact scope_keeps_of_error opened framed opens
    have inner := framed_within s framed opens.framed
    have start := opens.building.enterBlock inner name opens.object
    exact scope_keeps opened framed opens <|
      steps_keep (fun _ _ building => building.settle inner) (fun _ => rfl) block within inner start

theorem steps_keep {deeds : List Deed} {running : List Running} {held : List Ref} {s : Session}
    {next : Session → Session}
    (keeps : ∀ deeds s, Building deeds running s → Building deeds running (next s))
    (registers : ∀ s, (next s).registers = s.registers) (steps : List Step)
    (areBuilding : AreBuilding steps) (framed : ∀ r ∈ running, r.scope.Framed held)
    (building : Building deeds running s) : KeepsAll next deeds running held s steps := by
  match steps with
  | [] => exact .nil building
  | step :: rest =>
    cases areBuilding with
    | cons first later =>
      have kept := step_keeps step first framed building
      exact .cons registers kept fun a s' done =>
        steps_keep keeps registers rest later framed (keeps _ _ (kept.2 a s' done).1)
    | @move _ rest parent child name first builds apart later =>
      have kept := step_keeps step first framed building
      refine .cons registers kept fun a s' done => ?_
      obtain ⟨building', same⟩ := kept.2 a s' done
      obtain ⟨h, x, holder, deed, object⟩ := build_done builds first building done
      have attached : .attached h x ∈
          deeds ++ (stepMoments running held s step).flatMap (·.deeds) := by
        have account := stepMoments_account running held s step
        rw [done] at account
        obtain ⟨before, moments, -⟩ := account
        rw [moments, deed]
        simp
      have moved := (move_ends held name (by rw [registers, same parent apart, holder])
        (by rw [registers, object]) attached (keeps _ _ building')).keeps framed
        (by rw [stepMoments])
      exact .cons registers moved fun a s' done =>
        steps_keep keeps registers rest later framed (keeps _ _ (moved.2 a s' done).1)

end

theorem building_empty (limits : Limits) : Building [] [] { limits } where
  orderly :=
    { logged := ⟨List.nodup_nil, (nomatch ·, ·, ·), (nomatch ·, ·, ·), (nomatch ·, ·, ·),
        (nomatch ·, ·, ·)⟩
      children := fun h there => by cases h <;> cases there
      linked := fun h x there => by cases h <;> cases there
      tag := fun id e there => by cases there
      slot := fun id e r there => by cases there
      waiting := (nomatch ·, ·)
      distinct := List.nodup_nil }
  registers := (nomatch ·, ·)
  scopes := (nomatch ·, ·)

theorem view_afterStep (watched : List String) (s : Session) :
    (afterStep watched s).view = s.collect.view :=
  (quiet_watch watched s.collect rfl).1

theorem program_keeps (limits : Limits) (watched : List String) {program : List Step}
    (areBuilding : AreBuilding program) :
    KeepsAll (afterStep watched) [] [] [] { limits } program :=
  steps_keep (fun _ s building => building.collect.of_view (view_afterStep watched s))
    (fun s => congrArg View.registers (view_afterStep watched s)) program areBuilding (nomatch ·, ·)
    (building_empty limits)

/-! ## Trees in order -/

/-- A tree in the order in which it was built. -/
structure InOrder (f : Forest) (deeds : List Deed) : Prop where
  /-- No element is held at two places. -/
  once : ∀ x p q, f.Stands x p → f.Stands x q → p = q
  /-- What an element holds, as a child or as its text, has this element as its parent. -/
  parent_child : ∀ x id i, f.Stands x (.child (.element id) i) → f.link x = .element id
  parent_text : ∀ x id, f.Stands x (.text id) → f.link x = .element id
  /-- What a document holds has no parent. -/
  parent_root : ∀ x d i, f.Stands x (.child (.document d) i) → f.link x = .absent
  acyclic : f.Acyclic
  /-- Children are what was attached, in this order, without what is a text since. -/
  children : ∀ h, f.isThere h = true →
    f.childrenOf h = (Deed.built deeds h).map (.ref <| .element ·)

theorem inOrder_of_orderly {f : Forest} {pending : List ElementId}
    (orderly : f.Orderly deeds pending) : InOrder f deeds where
  once _ _ _ := orderly.place_unique
  parent_child _ _ _ := orderly.link_child
  parent_text _ _ := orderly.link_text
  parent_root _ _ _ := orderly.link_child
  acyclic := orderly.acyclic
  children := orderly.children

/-- At the end of each step of a program that builds, at any depth of blocks, the tree is in the
order in which the builders have completed so far. -/
theorem building_in_order (limits : Limits) (watched : List String) {program : List Step}
    (areBuilding : AreBuilding program) {i : Nat} {m : Moment}
    (reached : (programMoments { limits } watched program)[i]? = some m) :
    InOrder m.session.forest
      (((programMoments { limits } watched program).take (i + 1)).flatMap (·.deeds)) := by
  have sound := along_getElem? (program_keeps limits watched areBuilding).1 reached
  exact inOrder_of_orderly sound.1.orderly

/-- A page with a box, and a line whose text was built in its own block. The block of the box adds
to the page as well, before the box itself is there. -/
def page : List Step :=
  [.scope .document (some "page")
    [.scope (.build "page" .div {}) (some "box")
      [.brief (.build "box" .p { named := [(.text, .text "first")] }) none,
        .brief (.build "page" .p { named := [(.text, .text "aside")] }) none,
        .brief (.build "box" .p { named := [(.text, .text "second")] }) none],
      .scope (.build "page" .p {}) (some "line")
        [.brief (.build "line" .b { named := [(.text, .text "bold")] }) (some "word"),
          .command (.set "line" .text (.ref (.register "word"))) none]]]

theorem page_building : AreBuilding page := by
  refine .cons (.scope .document (.cons (.scope Opening.builds_plain ?box)
    (.cons (.scope Opening.builds_plain ?line) .nil))) .nil
  case box =>
    exact .cons (.brief Opening.builds_text)
      (.cons (.brief Opening.builds_text) (.cons (.brief Opening.builds_text) .nil))
  case line => exact .move (.brief Opening.builds_text) rfl (by decide) .nil

theorem page_in_order : AreBuilding page ∧
    ∃ m, (programMoments { limits := .least } [] page)[7]? = some m ∧ InOrder m.session.forest
      [.attached (.element ⟨0⟩) ⟨1⟩, .attached (.document ⟨0⟩) ⟨2⟩, .attached (.element ⟨0⟩) ⟨3⟩,
        .attached (.document ⟨0⟩) ⟨0⟩, .attached (.element ⟨4⟩) ⟨5⟩, .moved ⟨4⟩ ⟨5⟩,
        .attached (.document ⟨0⟩) ⟨4⟩] := by
  have last : ((programMoments { limits := .least } [] page)[7]?).isSome = true := by decide +kernel
  obtain ⟨m, reached⟩ := Option.isSome_iff_exists.1 last
  refine ⟨page_building, m, reached, ?_⟩
  have deeds : ((programMoments { limits := .least } [] page).take 8).flatMap (·.deeds) =
      [.attached (.element ⟨0⟩) ⟨1⟩, .attached (.document ⟨0⟩) ⟨2⟩, .attached (.element ⟨0⟩) ⟨3⟩,
        .attached (.document ⟨0⟩) ⟨0⟩, .attached (.element ⟨4⟩) ⟨5⟩, .moved ⟨4⟩ ⟨5⟩,
        .attached (.document ⟨0⟩) ⟨4⟩] := by decide +kernel
  have order := building_in_order .least [] page_building reached
  rw [deeds] at order
  exact order

end Hypertext.Session
