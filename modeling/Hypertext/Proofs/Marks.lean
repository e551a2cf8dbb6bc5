import Hypertext.Proofs.Commands
import Hypertext.Proofs.Escaping
import Hypertext.Proofs.Moments

/-! The marks of elements over a session. A log tells each time at which an element gets a mark: when it
is made, when its text or its mark is set, and when a scope that writes its text as it is ends in
whatever way. At every stage of a program the mark of an element is what the log says last of it. The
main statement is `escaped_unless_marked`. -/
namespace Hypertext
set_option autoImplicit false

/-! ## What a collection leaves -/

namespace Forest

variable {f : Forest} {P : Ref → Prop}

theorem forall_gather (closed : ∀ r s, P r → s ∈ f.held r → P s) (unseen : Array Bool)
    (found pending : List Ref) (hfound : ∀ r ∈ found, P r) (hpending : ∀ r ∈ pending, P r) :
    ∀ r ∈ f.gather unseen found pending, P r := by
  induction unseen, found, pending using gather.induct f with
  | case1 unseen found =>
    rw [gather]
    exact hfound
  | case2 unseen found r pending bound fresh ih =>
    rw [gather, dif_pos bound, if_pos fresh]
    obtain ⟨hr, rest⟩ := List.forall_mem_cons.1 hpending
    exact ih (List.forall_mem_cons.2 ⟨hr, hfound⟩)
      (List.forall_mem_append.2 ⟨fun s hs => closed r s hr hs, rest⟩)
  | case3 unseen found r pending bound old ih =>
    rw [gather, dif_pos bound, if_neg old]
    exact ih hfound (List.forall_mem_cons.1 hpending).2
  | case4 unseen found r pending outside ih =>
    rw [gather, dif_neg outside]
    exact ih hfound (List.forall_mem_cons.1 hpending).2

/-- What is left by a collection is within what the roots are in, if nothing in there holds anything
outside. -/
theorem forall_collect {roots : List Ref} (closed : ∀ r s, P r → s ∈ f.held r → P s)
    (hroots : ∀ r ∈ roots, P r) {r : Ref} (left : (f.collect roots).isThere r = true) : P r :=
  forall_gather closed _ _ _ (fun _ h => absurd h List.not_mem_nil) hroots r
    (isThere_keepOnly.1 left).1

theorem isThere_of_mark? {x : ElementId} {d : Datum} (h : f.mark? x = some d) :
    f.isThere (.element x) = true := by
  obtain ⟨e, there, -⟩ := Option.bind_eq_some_iff.1 h
  exact isThere_element.2 ⟨e, there⟩

end Forest

namespace Session

/-! ## Sessions that a log accounts for -/

variable {base : Forest} {log more : MarkLog} {s s' : Session}

/-- What a forest had room for holds only what it had room for, registers and settings refer to nothing
else, and the marks of these elements are what the log says last of them. -/
structure Marked (base : Forest) (log : MarkLog) (s : Session) : Prop where
  fits : base.Fits s.forest
  held : ∀ r t, base.HasRoom r → t ∈ s.forest.held r → base.HasRoom t
  refs : ∀ r ∈ s.view.refs, base.HasRoom r
  marks : ∀ x d, base.HasRoom (.element x) → s.forest.mark? x = some d → log.last? x = some d

theorem Marked.sealed (marked : Marked s.forest log s) : s.view.Sealed :=
  ⟨fun r t ht => marked.held r t (Forest.hasRoom_of_isThere (Forest.isThere_of_mem_held ht)) ht,
    marked.refs⟩

/-- After an action that completes. -/
theorem Marked.after (marked : Marked s.forest log s) (evolved : Evolved s.view s' more) :
    Marked s'.forest (log ++ more) s' where
  fits := .refl _
  held r t _ ht := evolved.forest.closed marked.sealed.held r t ht
  refs := evolved.refs
  marks x d _ hx := by
    rw [MarkLog.last?_append]
    refine Option.or_eq_some_iff.2 ((Option.or_eq_some_iff.1 (evolved.forest.marks x d hx)).imp_right
      (.imp_right fun told => ?_))
    exact marked.marks x d (Forest.hasRoom_of_isThere (Forest.isThere_of_mark? told)) told

/-- After an action that fails. -/
theorem Marked.failed (marked : Marked s.forest log s) (spared : Spared s.view s') :
    Marked s.forest log s' := by
  obtain ⟨g, more, same, evolves⟩ := spared
  obtain rfl : s'.forest = g := congrArg View.forest same
  refine ⟨evolves.fits, fun r t room ht => ?_, fun r hr => ?_, fun x d room hx => ?_⟩
  · obtain ht | ⟨-, itself⟩ := evolves.held r t ht
    · exact marked.held r t room ht
    · rw [itself room]
      exact room
  · rw [same] at hr
    exact marked.refs r hr
  · have told := evolves.marks x d hx
    rw [MarkLog.last?_eq_none fun w hw h => evolves.apart w hw (h ▸ room), Option.none_or] at told
    exact marked.marks x d room told

/-- Nothing is known less for what is dropped. -/
theorem Marked.pruned (marked : Marked base log s) {roots : List Ref}
    (pruned : s.forest.Pruned s'.forest roots) (refs : ∀ r ∈ s'.view.refs, base.HasRoom r) :
    Marked base log s' where
  fits := marked.fits.trans pruned.fits
  held r t room ht := marked.held r t room (pruned.held_subset ht)
  refs := refs
  marks x d room hx := marked.marks x d room (pruned.mark?_eq hx)

/-- A base of the same size is as good. -/
theorem Marked.rebase {base' : Forest} (marked : Marked base log s) (below : base'.Fits base)
    (above : base.Fits base') : Marked base' log s where
  fits := below.trans marked.fits
  held r t room ht := above.room (marked.held r t (below.room room) ht)
  refs r hr := above.room (marked.refs r hr)
  marks x d room hx := marked.marks x d (below.room room) hx

/-- What a collection leaves was known. -/
theorem Marked.collect (marked : Marked base log s) : Marked s.collect.forest log s.collect := by
  have pruned : s.forest.Pruned s.collect.forest s.refs := s.forest.collect_pruned s.refs
  have known : ∀ {r : Ref}, s.collect.forest.isThere r = true → base.HasRoom r := fun left =>
    Forest.forall_collect marked.held marked.refs left
  exact {
    fits := .refl _
    held := fun r t _ ht => pruned.fits.room
      (marked.fits.room (marked.held r t (known (Forest.isThere_of_mem_held ht))
        (pruned.held_subset ht)))
    refs := fun r hr => pruned.fits.room (marked.fits.room (marked.refs r hr))
    marks := fun x d _ hx =>
      marked.marks x d (known (Forest.isThere_of_mark? hx)) (pruned.mark?_eq hx) }

/-! ## Scopes -/

/-- An element that is built for a scope is not marked. -/
def Entrance.markings (f : Forest) : Entrance → MarkLog
  | .build .. => [⟨⟨f.elements.size⟩, .bool false⟩]
  | _ => []

/-- The mark that is set when a scope ends, in whatever way. -/
def Scope.markings : Scope → MarkLog
  | .verbatim id => [⟨id, .bool true⟩]
  | _ => []

theorem knows_approach {v : View} (isSealed : v.Sealed) (o : Opening) :
    Act.Quiet v (approach o) fun entrance => ∀ r ∈ entrance.refs, v.forest.HasRoom r := by
  cases o with
  | build parent entry given =>
    refine (knows_valueAt isSealed parent).bind fun _ hparent =>
      (knows_arguments isSealed given).bind fun _ hargs => .pure ?_
    exact List.forall_mem_append.2 ⟨hparent, hargs⟩
  | place parent element =>
    refine (knows_valueAt isSealed parent).bind fun _ hparent =>
      (quiet_make element).bind fun _ hmade => .pure ?_
    exact List.forall_mem_append.2 ⟨hparent, isSealed.knows_made hmade⟩
  | document => exact .pure fun r hr => absurd hr List.not_mem_nil
  | verbatim on =>
    refine (quiet_textElementAt on).bind fun id hid => .pure fun r hr => ?_
    rw [List.mem_singleton.1 hr]
    exact isSealed.hasRoom_register hid.1
  | settings fields =>
    refine (knows_fields isSealed fields).bind fun taken known => .pure fun r hr => known r ?_
    obtain ⟨field, mem, hr⟩ := List.mem_flatMap.1 hr
    exact ⟨field, mem, hr⟩

variable {v : View}

theorem lands_enter (isSealed : v.Sealed) {entrance : Entrance}
    (known : ∀ r ∈ entrance.refs, v.forest.HasRoom r) :
    Act.Lands v (enter entrance) fun scope s' =>
      Evolved v s' (entrance.markings v.forest) ∧ ∀ r ∈ scope.refs, s'.forest.HasRoom r := by
  have unchanged : ∀ {s : Session}, s.view = v → Evolved v s [] := by
    rintro s rfl
    exact ⟨.refl .., isSealed.refs⟩
  cases entrance with
  | build parent entry named args =>
    have given : ∀ r ∈ args.refs, v.forest.HasRoom r := fun r hr =>
      known r (List.mem_append_right _ hr)
    have constructed := spares_construct (.builder entry) named given
    refine (constructed.lands isSealed).map fun id s' h => ?_
    obtain ⟨_, evolved, -, adds⟩ := h
    have room := adds.hasRoom
    obtain ⟨rfl, -, rfl⟩ := adds
    refine ⟨evolved, fun r hr => ?_⟩
    obtain rfl : r = .element ⟨v.forest.elements.size⟩ := by
      simpa [Scope.refs, Scope.object, Value.refs] using hr
    exact room
  | place parent element =>
    refine Act.lands_pure fun s hs => ⟨unchanged hs, fun r hr => ?_⟩
    rw [show s.forest = v.forest from congrArg View.forest hs]
    exact known r (List.mem_append_right _ (by simpa [Scope.refs, Scope.object] using hr))
  | document =>
    refine (spares_insertDocument.lands isSealed).map fun d s' h => ?_
    obtain ⟨_, evolved, -, rfl, room⟩ := h
    refine ⟨evolved, fun r hr => ?_⟩
    obtain rfl : r = .document d := by simpa [Scope.refs, Scope.object, Value.refs] using hr
    exact room
  | verbatim id =>
    refine Act.lands_pure fun s hs => ⟨unchanged hs, fun r hr => ?_⟩
    rw [show s.forest = v.forest from congrArg View.forest hs]
    exact known r hr
  | settings fields =>
    have read : Act.Quiet v (liftExcept (Settings.ofArguments fields))
        fun settings => ∀ r ∈ settings.refs, v.forest.HasRoom r :=
      .liftExcept fun _ h r hr => by
        obtain ⟨field, mem, hr⟩ := Settings.mem_refs_ofArguments h hr
        exact known r (List.mem_flatMap.2 ⟨field, mem, hr⟩)
    have here : Act.Quiet v (MonadState.get : Act Session) fun s => s.settings = v.settings :=
      fun _ hs => ⟨hs, fun _ answer => Except.ok.inj answer ▸ congrArg View.settings hs⟩
    refine read.lands fun settings known' => here.lands fun s same => ?_
    refine (resets_settings isSealed known').map fun _ s' h => ⟨h.2, fun r hr => ?_⟩
    have hr : r ∈ v.settings.refs := by
      simpa [Scope.refs, Scope.object, Value.refs, same] using hr
    exact h.2.forest.fits.room (isSealed.refs r (List.mem_append_right _ hr))

/-- A scope that is opened has marked what its entrance says and knows what it refers to. -/
theorem lands_opening (isSealed : v.Sealed) (o : Opening) :
    Act.Lands v (opening o) fun opened s' =>
      Evolved v s' (opened.1.markings v.forest) ∧ ∀ r ∈ opened.2.refs, s'.forest.HasRoom r :=
  (knows_approach isSealed o).lands fun _ known => (lands_enter isSealed known).map fun _ _ h => h

theorem lands_leave (isSealed : v.Sealed) {scope : Scope}
    (known : ∀ r ∈ scope.refs, v.forest.HasRoom r) :
    Act.Lands v (leave scope) fun _ s' => Evolved v s' scope.markings := by
  cases scope with
  | building parent child =>
    have refused : ∀ d, Act.Quiet v (refuse (α := Unit) d "attach") fun _ => False := fun d =>
      quiet_refuse d _
    have given : v.forest.Knows child := fun r hr => known r (List.mem_append_left _ hr)
    have attached : Act.Spares v.forest v (attach parent child) fun _ _ log => log = [] := by
      cases parent with
      | ref holder => exact spares_attached v.forest holder given
      | _ => exact (refused _).spares.imp fun _ _ _ _ h => h.1.elim
    refine (attached.lands isSealed).imp fun _ s' h => ?_
    obtain ⟨_, evolved, rfl⟩ := h
    exact evolved
  | document d => exact Act.lands_pure fun s hs => hs ▸ ⟨.refl .., (hs ▸ isSealed).refs⟩
  | verbatim id =>
    have marked := Forest.evolves_setMark_bool v.forest id true
    refine (Act.Spares.lands isSealed (Act.spares_change marked)).imp fun _ s' h => ?_
    obtain ⟨log, evolved, -, rfl⟩ := h
    exact evolved
  | settings saved =>
    exact (resets_settings isSealed fun r hr => known r (List.mem_append_right _ hr)).imp
      fun _ _ h => h.2

/-! ## Registers and blocks -/

theorem Marked.bind (marked : Marked base log s) (name : Option String) {object : Option Datum}
    (known : ∀ d, object = some d → ∀ r ∈ d.refs, base.HasRoom r) :
    Marked base log (s.bind name object) := by
  cases name with
  | none => exact marked
  | some name =>
    cases object with
    | none => exact marked
    | some d =>
      refine ⟨marked.fits, marked.held, fun r hr => ?_, marked.marks⟩
      obtain hr | hr := List.mem_append.1 hr
      · obtain hr | hr := List.mem_append.1 hr
        · exact known d rfl r hr
        · obtain ⟨entry, mem, hr⟩ := List.mem_flatMap.1 hr
          refine marked.refs r (List.mem_append_left _ ?_)
          exact List.mem_flatMap.2 ⟨entry, List.mem_of_mem_filter mem, hr⟩
      · exact marked.refs r (List.mem_append_right _ hr)

theorem Marked.settle (marked : Marked base log s) (held : List Ref) :
    Marked base log (s.settle held) :=
  marked.pruned (s.forest.settle_pruned (s.refs ++ held)) marked.refs

theorem Marked.settled (marked : Marked s.forest log s) (held : List Ref) :
    Marked (s.settle held).forest log (s.settle held) :=
  (marked.settle held).rebase (s.forest.settle_pruned (s.refs ++ held)).fitted
    (s.forest.settle_pruned (s.refs ++ held)).fits

theorem Marked.enterBlock (marked : Marked s.forest log s) (held : List Ref) (name : Option String)
    {d : Datum} (known : s.forest.Knows d) :
    Marked (s.enterBlock held name d).forest log (s.enterBlock held name d) := by
  cases name with
  | none => exact marked
  | some name =>
    have bound : Marked s.forest log (s.bind (some name) (some d)) :=
      marked.bind (some name) fun d' hd' => Option.some.inj hd' ▸ known
    exact Marked.settled (s := s.bind (some name) (some d)) bound held

theorem Marked.abandon (marked : Marked base log s) {scope : Scope}
    (known : ∀ r ∈ scope.refs, base.HasRoom r) :
    Marked base (log ++ scope.markings) (abandon scope s) := by
  cases scope with
  | building parent child => exact (List.append_nil log).symm ▸ marked
  | document d => exact (List.append_nil log).symm ▸ marked
  | verbatim id =>
    have evolves := Forest.evolves_setMark_bool s.forest id true
    refine ⟨marked.fits.trans evolves.fits, fun r t room ht =>
      marked.held r t room (Forest.mem_held_of_setMark ht), marked.refs, fun x d room hx => ?_⟩
    rw [Scope.markings, MarkLog.last?_append]
    exact Option.or_eq_some_iff.2 ((Option.or_eq_some_iff.1 (evolves.marks x d hx)).imp_right
      (.imp_right (marked.marks x d room)))
  | settings saved =>
    rw [show Scope.markings (.settings saved) = [] from rfl, List.append_nil]
    refine ⟨marked.fits, marked.held, fun r hr => ?_, marked.marks⟩
    obtain hr | hr := List.mem_append.1 hr
    · exact marked.refs r (List.mem_append_left _ hr)
    · exact known r (List.mem_append_right _ hr)

/-! ## Logs of steps -/

mutual

/-- The marks that a step sets, told from the steps within it. A command that fails sets none. -/
def stepLog (held : List Ref) (s : Session) : Step → MarkLog
  | .command c _ =>
    match (runCommand c).run s with
    | (.ok _, _) => markings s.view c
    | (.error _, _) => []
  | .brief o _ =>
    match (opening o).run s with
    | (.ok (entrance, scope), _) => entrance.markings s.forest ++ scope.markings
    | (.error _, _) => []
  | .scope o name block =>
    match (opening o).run s with
    | (.ok (entrance, scope), s') =>
      let within := entrance.refs ++ scope.refs ++ held
      entrance.markings s.forest
        ++ blockLog within (s'.enterBlock within name scope.object) block ++ scope.markings
    | (.error _, _) => []

/-- The marks that the steps of a block set up to its end or its first failure. -/
def blockLog (held : List Ref) (s : Session) : List Step → MarkLog
  | [] => []
  | step :: rest =>
    stepLog held s step ++
      match s.runStep held step with
      | (.done _, s') => blockLog held (s'.settle held) rest
      | (.failed _ _, _) => []

end

/-! ## Stages -/

/-- A session at which a step can begin, and what was marked before. -/
structure Stage where
  session : Session
  log : MarkLog

mutual

/-- The stages within a step: those of its block. -/
def stepStages (held : List Ref) (s : Session) (log : MarkLog) : Step → List Stage
  | .command _ _ | .brief _ _ => []
  | .scope o name block =>
    match (opening o).run s with
    | (.ok (entrance, scope), s') =>
      let within := entrance.refs ++ scope.refs ++ held
      blockStages within (s'.enterBlock within name scope.object)
        (log ++ entrance.markings s.forest) block
    | (.error _, _) => []

/-- The stages of a block: before each of its steps and within it, and at its end. -/
def blockStages (held : List Ref) (s : Session) (log : MarkLog) : List Step → List Stage
  | [] => [⟨s, log⟩]
  | step :: rest =>
    ⟨s, log⟩ :: stepStages held s log step ++
      match s.runStep held step with
      | (.done _, s') => blockStages held (s'.settle held) (log ++ stepLog held s step) rest
      | (.failed _ _, _) => []

end

/-- The stages of a program. A failed step does not end it. -/
def programStages (watched : List String) (s : Session) (log : MarkLog) : List Step → List Stage
  | [] => [⟨s, log⟩]
  | step :: rest =>
    ⟨s, log⟩ :: stepStages [] s log step ++
      programStages watched (s.perform watched step).2 (log ++ stepLog [] s step) rest

/-! ## Logs of runs -/

/-- A run from one session to another is accounted for: what there was room for at its start still is,
and so is what is new, if the run has completed. -/
def Accounted (s : Session) (log : MarkLog) (s' : Session) (completed : Prop) : Prop :=
  ∃ base, s.forest.Fits base ∧ Marked base log s' ∧ (completed → base = s'.forest)

/-- A step is accounted for, and each stage within it is. -/
def StepAccounted (step : Step) : Prop :=
  ∀ held s log, Marked s.forest log s →
    Accounted s (log ++ stepLog held s step) (s.runStep held step).2
        (∃ answer, (s.runStep held step).1 = .done answer) ∧
      ∀ stage ∈ stepStages held s log step, Marked stage.session.forest stage.log stage.session

/-- The same for a block. -/
def BlockAccounted (block : List Step) : Prop :=
  ∀ held s log, Marked s.forest log s →
    Accounted s (log ++ blockLog held s block) (s.runBlock held block).2.2
        ((s.runBlock held block).2.1 = none) ∧
      ∀ stage ∈ blockStages held s log block, Marked stage.session.forest stage.log stage.session

theorem not_done {fault : Fault} {block : Option (List Answer)} :
    ¬ ∃ answer, Outcome.failed fault block = .done answer := by
  rintro ⟨_, h⟩
  cases h

theorem accounted_failed (marked : Marked s.forest log s) (spared : Spared s.view s')
    {completed : Prop} (fails : ¬ completed) : Accounted s log s' completed :=
  ⟨s.forest, .refl _, marked.failed spared, (absurd · fails)⟩

/-- What completes binds a register in the end. -/
theorem accounted_bound (fits : s.forest.Fits s'.forest) (marked : Marked s'.forest log s')
    (name : Option String) {object : Option Datum}
    (known : ∀ d, object = some d → s'.forest.Knows d) (completed : Prop) :
    Accounted s log (s'.bind name object) completed :=
  ⟨s'.forest, fits, marked.bind name known, fun _ => (forest_bind s' name object).symm⟩

/-- A scope that cannot be left marks nothing when it ends. -/
theorem markings_of_leave_error {scope : Scope} {fault : Fault}
    (fails : (leave scope).run s = (.error fault, s')) : scope.markings = [] := by
  cases scope with
  | verbatim id => cases fails
  | building _ _ | document _ | settings _ => rfl

theorem Scope.knows_object {scope : Scope} {f : Forest} (known : ∀ r ∈ scope.refs, f.HasRoom r) :
    f.Knows scope.object := fun r hr => known r (List.mem_append_left _ hr)

theorem Scope.knows_made {scope : Scope} {f : Forest} (known : ∀ r ∈ scope.refs, f.HasRoom r) :
    ∀ d, scope.made? = some d → f.Knows d := by
  intro d hd
  have same : d = scope.object := by
    cases scope <;> cases hd <;> rfl
  rw [same]
  exact Scope.knows_object known

theorem fits_enterBlock (s : Session) (held : List Ref) (name : Option String) (d : Datum) :
    s.forest.Fits (s.enterBlock held name d).forest := by
  cases name with
  | none => exact .refl _
  | some name => exact (s.forest.settle_pruned _).fits

/-- A session with the same view is as good. -/
theorem Marked.of_view (marked : Marked base log s) (same : s'.view = s.view) : Marked base log s' := by
  obtain ⟨fits, held, refs, marks⟩ := marked
  have forest : s'.forest = s.forest := congrArg View.forest same
  rw [← forest] at fits held marks
  rw [← same] at refs
  exact ⟨fits, held, refs, marks⟩

theorem stepAccounted_command (c : Command) (name : Option String) :
    StepAccounted (.command c name) := by
  intro held s log marked
  have lands := lands_runCommand marked.sealed c s rfl
  refine ⟨?_, fun stage hstage => by rw [stepStages] at hstage; cases hstage⟩
  rw [stepLog, runStep]
  cases ran : (runCommand c).run s with
  | mk result s' =>
  obtain fault | result := result
  · dsimp only
    rw [List.append_nil]
    exact accounted_failed marked (lands.1 fault s' ran) not_done
  · obtain ⟨evolved, known⟩ := lands.2 result s' ran
    exact accounted_bound evolved.forest.fits (marked.after evolved) name known _

section
variable {s₁ : Session} {scope : Scope} (fits : s.forest.Fits s₁.forest)
  (marked : Marked s₁.forest log s₁) (known : ∀ r ∈ scope.refs, s₁.forest.HasRoom r)
include fits marked known

/-- A step whose scope is left has marked what leaving marks. -/
theorem accounted_left {answer : Unit} (left : (leave scope).run s₁ = (.ok answer, s'))
    (name : Option String) (completed : Prop) :
    Accounted s (log ++ scope.markings) (s'.bind name scope.made?) completed := by
  have evolved := (lands_leave marked.sealed known s₁ rfl).2 answer s' left
  exact accounted_bound (fits.trans evolved.forest.fits) (marked.after evolved) name
    (Scope.knows_made fun r hr => evolved.forest.fits.room (known r hr)) completed

/-- A step whose scope cannot be left has marked what was marked before. -/
theorem accounted_stuck {fault : Fault} (left : (leave scope).run s₁ = (.error fault, s'))
    {completed : Prop} (fails : ¬ completed) :
    Accounted s (log ++ scope.markings) s' completed := by
  rw [markings_of_leave_error left, List.append_nil]
  exact ⟨s₁.forest, fits, marked.failed ((lands_leave marked.sealed known s₁ rfl).1 fault s' left),
    (absurd · fails)⟩

end

theorem stepAccounted_brief (o : Opening) (name : Option String) : StepAccounted (.brief o name) := by
  intro held s log marked
  have lands := lands_opening marked.sealed o s rfl
  refine ⟨?_, fun stage hstage => by rw [stepStages] at hstage; cases hstage⟩
  rw [stepLog, runStep_brief]
  cases opened : (opening o).run s with
  | mk result s₁ =>
  obtain fault | ⟨entrance, scope⟩ := result
  · dsimp only
    rw [List.append_nil]
    exact accounted_failed marked (lands.1 fault s₁ opened) not_done
  · obtain ⟨evolved, known⟩ := lands.2 (entrance, scope) s₁ opened
    have entered := marked.after evolved
    dsimp only
    rw [← List.append_assoc]
    cases left : (leave scope).run s₁ with
    | mk result s₂ =>
    obtain fault | answer := result
    · exact accounted_stuck evolved.forest.fits entered known left not_done
    · exact accounted_left evolved.forest.fits entered known left name _

theorem stepAccounted_scope (o : Opening) (name : Option String) {block : List Step}
    (within : BlockAccounted block) : StepAccounted (.scope o name block) := by
  intro held s log marked
  have lands := lands_opening marked.sealed o s rfl
  rw [stepLog, stepStages]
  cases opened : (opening o).run s with
  | mk result s₁ =>
  obtain fault | ⟨entrance, scope⟩ := result
  · obtain ⟨answers, failed⟩ := runStep_scope_of_error opened held name block
    refine ⟨?_, fun stage hstage => by cases hstage⟩
    rw [failed]
    dsimp only
    rw [List.append_nil]
    exact accounted_failed marked (lands.1 fault s₁ opened) not_done
  · obtain ⟨evolved, known⟩ := lands.2 (entrance, scope) s₁ opened
    have entered := (marked.after evolved).enterBlock (entrance.refs ++ scope.refs ++ held) name
      (Scope.knows_object known)
    have room := fits_enterBlock s₁ (entrance.refs ++ scope.refs ++ held) name scope.object
    rw [runStep_scope opened]
    dsimp only
    obtain ⟨⟨base, fits, ended, same⟩, stages⟩ :=
      within (entrance.refs ++ scope.refs ++ held) _ _ entered
    refine ⟨?_, stages⟩
    rw [← List.append_assoc, ← List.append_assoc]
    have fits₁ : s.forest.Fits base := (evolved.forest.fits.trans room).trans fits
    have known₁ : ∀ r ∈ scope.refs, base.HasRoom r := fun r hr =>
      (room.trans fits).room (known r hr)
    generalize (s₁.enterBlock _ name scope.object).runBlock _ block = result at ended same ⊢
    obtain ⟨answers, fault | fault, s₂⟩ := result
    · obtain rfl : base = s₂.forest := same rfl
      dsimp only
      cases left : (leave scope).run s₂ with
      | mk result s₃ =>
      obtain fault | answer := result
      · exact accounted_stuck fits₁ ended known₁ left not_done
      · exact accounted_left fits₁ ended known₁ left name _
    · exact ⟨base, fits₁, ended.abandon known₁, (absurd · not_done)⟩

theorem blockAccounted_nil : BlockAccounted [] := by
  intro held s log marked
  rw [blockLog, blockStages, runBlock, List.append_nil]
  refine ⟨⟨s.forest, .refl _, marked, fun _ => rfl⟩, fun stage hstage => ?_⟩
  rw [List.mem_singleton.1 hstage]
  exact marked

theorem blockAccounted_cons {step : Step} {rest : List Step} (first : StepAccounted step)
    (later : BlockAccounted rest) : BlockAccounted (step :: rest) := by
  intro held s log marked
  obtain ⟨⟨base, fits, ended, same⟩, stages⟩ := first held s log marked
  rw [blockLog, blockStages, runBlock_cons, ← List.append_assoc]
  cases ran : s.runStep held step with
  | mk outcome s₁ =>
  rw [ran] at ended same
  cases outcome with
  | failed fault block =>
    refine ⟨?_, fun stage hstage => ?_⟩
    · rw [List.append_nil]
      exact ⟨base, fits, ended, fun h => by cases h⟩
    · rw [List.append_nil] at hstage
      obtain rfl | hstage := List.mem_cons.1 hstage
      · exact marked
      · exact stages stage hstage
  | done answer =>
    obtain rfl : base = s₁.forest := same ⟨answer, rfl⟩
    obtain ⟨⟨base, fits', ended', same'⟩, stages'⟩ := later held _ _ (ended.settled held)
    have room : s₁.forest.Fits (s₁.settle held).forest := (s₁.forest.settle_pruned _).fits
    refine ⟨⟨base, (fits.trans room).trans fits', ended', same'⟩, fun stage hstage => ?_⟩
    obtain hstage | hstage := List.mem_append.1 hstage
    · obtain rfl | hstage := List.mem_cons.1 hstage
      · exact marked
      · exact stages stage hstage
    · exact stages' stage hstage

mutual

/-- Every step is accounted for, whatever steps stand within it. -/
theorem stepAccounted : (step : Step) → StepAccounted step
  | .command c name => stepAccounted_command c name
  | .brief o name => stepAccounted_brief o name
  | .scope o name block => stepAccounted_scope o name (blockAccounted block)

theorem blockAccounted : (block : List Step) → BlockAccounted block
  | [] => blockAccounted_nil
  | step :: rest => blockAccounted_cons (stepAccounted step) (blockAccounted rest)

end

/-! ## Programs -/

theorem view_perform (s : Session) (watched : List String) (step : Step) :
    (s.perform watched step).2.view = (s.runStep [] step).2.collect.view :=
  (quiet_watch watched (s.runStep [] step).2.collect rfl).1

/-- Every stage of a program is accounted for, if its start is. -/
theorem marked_at_stages (watched : List String) (program : List Step) (s : Session) (log : MarkLog)
    (marked : Marked s.forest log s) : ∀ stage ∈ programStages watched s log program,
      Marked stage.session.forest stage.log stage.session := by
  induction program generalizing s log with
  | nil =>
    intro stage hstage
    rw [List.mem_singleton.1 hstage]
    exact marked
  | cons step rest ih =>
    intro stage hstage
    obtain ⟨⟨base, -, ended, -⟩, stages⟩ := stepAccounted step [] s log marked
    have next : Marked (s.perform watched step).2.forest (log ++ stepLog [] s step)
        (s.perform watched step).2 := by
      have same := view_perform s watched step
      have forest : (s.perform watched step).2.forest = _ := congrArg View.forest same
      rw [forest]
      exact ended.collect.of_view same
    obtain hstage | hstage := List.mem_append.1 hstage
    · obtain rfl | hstage := List.mem_cons.1 hstage
      · exact marked
      · exact stages stage hstage
    · exact ih _ _ next stage hstage

/-- At the start there is nothing to account for. -/
theorem marked_start (limits : Limits) (recording : Bool) :
    Marked {} [] { limits, store.recording := recording } where
  fits := .refl _
  held r t room _ := absurd room Forest.not_hasRoom_empty
  refs r hr := by cases hr
  marks x d room _ := absurd room Forest.not_hasRoom_empty

/-- What there is at a stage of a program has the mark that the log says last of it. -/
theorem last?_of_stage {limits : Limits} {recording : Bool} {watched : List String}
    {program : List Step} {stage : Stage}
    (reached : stage ∈ programStages watched { limits, store.recording := recording } [] program)
    {x : ElementId} {e : Element} (there : stage.session.forest.get? x = some e)
    (text : e.hasText = true) : stage.log.last? x = some e.mark := by
  have marked := marked_at_stages watched program { limits, store.recording := recording } []
    (marked_start limits recording) stage reached
  exact marked.marks x e.mark (Forest.index_lt there)
    ((Forest.mark?_of_get? there).trans (if_pos text))

/-- Escaping is never switched off but on request. At each stage of a program, before each step at any
depth and at the end of each block, the own mark of an element with a text slot is what was set last
of it: false when it was made or got a text, the value when its mark was set, and true when a scope
that writes its text as it is has ended in whatever way. As long as only marks that count as false
are set, every text in every render is written escaped. -/
theorem escaped_unless_marked (limits : Limits) (recording : Bool) (watched : List String)
    (program : List Step) :
    ∀ stage ∈ programStages watched { limits, store.recording := recording } [] program,
      (∀ x e, stage.session.forest.get? x = some e → e.hasText = true →
        stage.log.last? x = some e.mark) ∧
      ((∀ w ∈ stage.log, ∀ isTrue, w.mark.truth isTrue = false) →
        stage.session.forest.EscapesAll) := by
  intro stage reached
  refine ⟨fun x e there text => last?_of_stage reached there text, fun none => ?_⟩
  refine Forest.Unmarked.escapes fun x e there text => ?_
  have told := last?_of_stage reached there text
  exact none _ (MarkLog.mem_of_last? told) _

/-- Two lines. The mark of the first is set and taken away by a new text, and the second is marked
although its block fails. -/
def lines : List Step :=
  [.scope .document (some "page")
    [.command (.create (.catalog .p) { named := [(.text, .text "<i>")] }) (some "first"),
      .command (.create (.catalog .p) { named := [(.text, .text "<b>")] }) (some "second"),
      .command (.set "first" .mark (.bool true)) none,
      .command (.set "first" .text (.text "<u>")) none,
      .scope (.verbatim "second") none [.command (.fail "broken") none]]]

theorem escaped_unless_marked_of_lines :
    (∃ made, (programStages [] { limits := .least } [] lines)[3]? = some made ∧ made.session.forest.EscapesAll) ∧
      (∃ within e, (programStages [] { limits := .least } [] lines)[6]? = some within ∧
        within.session.forest.get? ⟨0⟩ = some e ∧ e.mark = .bool false) ∧
      ∃ ended, (programStages [] { limits := .least } [] lines)[7]? = some ended ∧
        ∀ e, ended.session.forest.get? ⟨1⟩ = some e → e.hasText = true → e.mark = .bool true := by
  have logged : ∀ (i : Nat) (log : MarkLog),
      ((programStages [] { limits := .least } [] lines)[i]?).map Stage.log = some log →
        ∃ stage, (programStages [] { limits := .least } [] lines)[i]? = some stage ∧ stage.log = log :=
    fun _ _ h => Option.map_eq_some_iff.1 h
  refine ⟨?made, ?within, ?ended⟩
  case made =>
    obtain ⟨made, reached, log⟩ := logged 3 [⟨⟨0⟩, .bool false⟩, ⟨⟨1⟩, .bool false⟩]
      (by decide +kernel)
    refine ⟨made, reached,
      (escaped_unless_marked .least false [] lines made (List.mem_of_getElem? reached)).2 fun w hw _ => ?_⟩
    have off : w.mark = .bool false := by
      rw [log] at hw
      revert w
      decide
    rw [off]
    rfl
  case within =>
    obtain ⟨within, reached, log⟩ := logged 6 [⟨⟨0⟩, .bool false⟩, ⟨⟨1⟩, .bool false⟩,
      ⟨⟨0⟩, .bool true⟩, ⟨⟨0⟩, .bool false⟩] (by decide +kernel)
    have there : (((programStages [] { limits := .least } [] lines)[6]?).bind (·.session.forest.get? ⟨0⟩)).any
        Element.hasText = true := by decide +kernel
    rw [reached, Option.bind_some] at there
    obtain ⟨e, he, text⟩ := (Option.any_eq_true _ _).1 there
    have told := (escaped_unless_marked .least false [] lines within (List.mem_of_getElem? reached)).1
      ⟨0⟩ e he text
    rw [log] at told
    exact ⟨within, e, reached, he, (Option.some.inj told).symm⟩
  case ended =>
    obtain ⟨ended, reached, log⟩ := logged 7 [⟨⟨0⟩, .bool false⟩, ⟨⟨1⟩, .bool false⟩,
      ⟨⟨0⟩, .bool true⟩, ⟨⟨0⟩, .bool false⟩, ⟨⟨1⟩, .bool true⟩] (by decide +kernel)
    refine ⟨ended, reached, fun e he text => ?_⟩
    have told := (escaped_unless_marked .least false [] lines ended (List.mem_of_getElem? reached)).1
      ⟨1⟩ e he text
    rw [log] at told
    exact (Option.some.inj told).symm

end Session

end Hypertext
