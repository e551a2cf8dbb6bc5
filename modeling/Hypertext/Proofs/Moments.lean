import Hypertext.Proofs.Ownership
import Hypertext.Proofs.Quiet

/-! The moments of a run: the end of each step that completes, at any depth, up to the end of the
run or the first failure. Steps within a step have their moments before it. -/
namespace Hypertext.Session
set_option autoImplicit false

/-- A scope whose block runs, with the session before the step that opened it. -/
structure Running where
  before : Session
  scope : Scope

/-- A step that has completed, or has failed by itself and not by a step within. -/
structure Moment where
  /-- The scopes around the step, the innermost first. -/
  running : List Running
  session : Session
  deeds : List Deed
  fault? : Option Fault

def Scope.deeds : Scope → List Deed
  | .building (.ref holder) (.ref (.element child)) => [.attached holder child]
  | _ => []

/-- Opens a scope. -/
def opening (o : Opening) : Act (Entrance × Scope) := do
  let entrance ← approach o
  return (entrance, ← enter entrance)

/-- What a step that completes has done by itself. -/
def deedsOf (s : Session) : Step → List Deed
  | .command (.set on .text (.ref (.register name))) _ =>
    match s.registers.get? on, s.registers.get? name with
    | some (.ref (.element id)), some (.ref (.element child)) =>
      if s.forest.hasText id then [.moved id child] else []
    | _, _ => []
  | .command _ _ => []
  | .brief o _ | .scope o _ _ =>
    match (opening o).run s with
    | (.ok (_, scope), _) => scope.deeds
    | (.error _, _) => []

/-- The moment at which a step ends. -/
def ending (running : List Running) (held : List Ref) (s : Session) (step : Step) : Moment :=
  match s.runStep held step with
  | (.done _, s') => ⟨running, s', s.deedsOf step, none⟩
  | (.failed fault _, s') => ⟨running, s', [], some fault⟩

mutual

/-- The moments of a step. Where a step within fails, the step itself has none. -/
def stepMoments (running : List Running) (held : List Ref) (s : Session) : Step → List Moment
  | .command c name => [s.ending running held (.command c name)]
  | .brief o name => [s.ending running held (.brief o name)]
  | .scope o name block =>
    match (opening o).run s with
    | (.error _, _) => [s.ending running held (.scope o name block)]
    | (.ok (entrance, scope), s') =>
      let within := entrance.refs ++ scope.refs ++ held
      let start := s'.enterBlock within name scope.object
      blockMoments (·.settle within) (⟨s, scope⟩ :: running) within start block ++
        match runBlock within start block with
        | (_, some _, _) => []
        | (_, none, _) => [s.ending running held (.scope o name block)]

/-- The moments of steps that follow each other, up to the first that fails. From one to the next
leads `next`. -/
def blockMoments (next : Session → Session) (running : List Running) (held : List Ref)
    (s : Session) : List Step → List Moment
  | [] => []
  | step :: rest =>
    stepMoments running held s step ++
      match s.runStep held step with
      | (.failed _ _, _) => []
      | (.done _, s') => blockMoments next running held (next s') rest

end

/-- What follows each step of a program. -/
def afterStep (watched : List String) (s : Session) : Session := ((watch watched).run s.collect).2

/-- The moments of a program, up to the first failure. -/
def programMoments (s : Session) (watched : List String) (program : List Step) : List Moment :=
  blockMoments (afterStep watched) [] [] s program

/-! ## Scopes, opened or not -/

variable {held : List Ref} {s s' : Session} {o : Opening} {entrance : Entrance} {scope : Scope}
  {fault : Fault}

theorem run_opening (o : Opening) (s : Session) :
    (opening o).run s = match (approach o).run s with
      | (.error fault, s) => (.error fault, s)
      | (.ok entrance, s) =>
        match (enter entrance).run s with
        | (.error fault, s) => (.error fault, s)
        | (.ok scope, s) => (.ok (entrance, scope), s) := by
  rw [opening, Act.run_bind]
  obtain ⟨fault | entrance, s₁⟩ := (approach o).run s
  · rfl
  · simp only [Act.run_bind]
    obtain ⟨fault | scope, s₂⟩ := (enter entrance).run s₁ <;> rfl

theorem opening_ok_iff : (opening o).run s = (.ok (entrance, scope), s') ↔
    ∃ s₁, (approach o).run s = (.ok entrance, s₁) ∧ (enter entrance).run s₁ = (.ok scope, s') := by
  rw [run_opening]
  generalize (approach o).run s = first
  obtain ⟨fault | entrance₁, s₁⟩ := first
  · exact ⟨(nomatch ·), fun ⟨_, h, _⟩ => nomatch h⟩
  · simp only
    constructor
    · intro h
      split at h
      next => cases h
      next entered =>
        cases h
        exact ⟨s₁, rfl, entered⟩
    · rintro ⟨s₂, approached, entered⟩
      cases approached
      rw [entered]

/-- A scope that is opened runs its block, and is left at the end of the block or given up. -/
theorem runStep_scope (opened : (opening o).run s = (.ok (entrance, scope), s'))
    (held : List Ref) (name : Option String) (block : List Step) :
    s.runStep held (.scope o name block) =
      match runBlock (entrance.refs ++ scope.refs ++ held)
        (s'.enterBlock (entrance.refs ++ scope.refs ++ held) name scope.object) block with
      | (answers, some fault, s) => (.failed fault (some answers), abandon scope s)
      | (answers, none, s) =>
        match (leave scope).run s with
        | (.error fault, s) => (.failed fault (some answers), s)
        | (.ok (), s) =>
          let s := s.bind name scope.made?
          (.done (.scope (s.label scope.object) answers), s) := by
  obtain ⟨s₁, approached, entered⟩ := opening_ok_iff.1 opened
  have ran := runStep.eq_3 held s o name block
  rw [approached] at ran
  simp only [entered] at ran
  exact ran

/-- Where no scope is opened the step fails. -/
theorem runStep_scope_of_error (closed : (opening o).run s = (.error fault, s'))
    (held : List Ref) (name : Option String) (block : List Step) :
    ∃ answers, s.runStep held (.scope o name block) = (.failed fault answers, s') := by
  rw [run_opening] at closed
  rw [runStep]
  generalize (approach o).run s = first at closed ⊢
  obtain ⟨fault | entrance, s₁⟩ := first
  · cases closed
    exact ⟨_, rfl⟩
  · simp only at closed ⊢
    generalize (enter entrance).run s₁ = second at closed ⊢
    obtain ⟨fault | scope, s₂⟩ := second
    · cases closed
      exact ⟨_, rfl⟩
    · cases closed

/-- Without a block a scope is left as soon as it is opened. -/
theorem runStep_brief (o : Opening) (name : Option String) :
    s.runStep held (.brief o name) = match (opening o).run s with
      | (.error fault, s) => (.failed fault none, s)
      | (.ok (_, scope), s) =>
        match (leave scope).run s with
        | (.error fault, s) => (.failed fault none, s)
        | (.ok (), s) =>
          let s := s.bind name scope.made?
          (.done (.value (s.label scope.object)), s) := by
  rw [runStep, run_opening]
  simp only [Act.run_bind]
  obtain ⟨fault | entrance, s₁⟩ := (approach o).run s
  · rfl
  · simp only
    obtain ⟨fault | scope, s₂⟩ := (enter entrance).run s₁
    · rfl
    · simp only
      obtain ⟨fault | _, s₃⟩ := (leave scope).run s₂ <;> rfl

theorem stepMoments_scope (opened : (opening o).run s = (.ok (entrance, scope), s'))
    (running : List Running) (held : List Ref) (name : Option String) (block : List Step) :
    stepMoments running held s (.scope o name block) =
      blockMoments (·.settle (entrance.refs ++ scope.refs ++ held)) (⟨s, scope⟩ :: running)
        (entrance.refs ++ scope.refs ++ held)
        (s'.enterBlock (entrance.refs ++ scope.refs ++ held) name scope.object) block ++
        match runBlock (entrance.refs ++ scope.refs ++ held)
          (s'.enterBlock (entrance.refs ++ scope.refs ++ held) name scope.object) block with
        | (_, some _, _) => []
        | (_, none, _) => [s.ending running held (.scope o name block)] := by
  rw [stepMoments, opened]

theorem runBlock_cons (held : List Ref) (s : Session) (step : Step) (rest : List Step) :
    s.runBlock held (step :: rest) = match s.runStep held step with
      | (.failed fault block, s) => ((block.map .broken).toList, some fault, s)
      | (.done answer, s) =>
        let (answers, fault, s) := runBlock held (s.settle held) rest
        (answer :: answers, fault, s) :=
  runBlock.eq_2 held s step rest

theorem forest_bind (s : Session) (name : Option String) (object : Option Datum) :
    (s.bind name object).forest = s.forest := by
  cases name <;> cases object <;> rfl

end Hypertext.Session
