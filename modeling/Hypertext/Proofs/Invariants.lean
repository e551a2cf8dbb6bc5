import Hypertext.Proofs.Moments
import Hypertext.Proofs.Operations

/-! Invariants of programs. What the commands of a program maintain, and what ordinary operations keep, as
those of openings and of leaving scopes are, holds wherever the program comes to, at any depth and
whatever has failed before. The main statements are `holds_in_programs` and
`holds_in_all_programs`. -/
namespace Hypertext
set_option autoImplicit false

variable {P : Forest → Prop} {p : Command → Prop}

/-! ## Programs -/

mutual

/-- Whether all commands of a step have a property, at any depth. -/
def Step.Each (p : Command → Prop) : Step → Prop
  | .command c _ => p c
  | .brief _ _ => True
  | .scope _ _ block => EachOf p block

def Step.EachOf (p : Command → Prop) : List Step → Prop
  | [] => True
  | step :: rest => step.Each p ∧ EachOf p rest

end

namespace Step

theorem eachOf_append {steps more : List Step} :
    EachOf p (steps ++ more) ↔ EachOf p steps ∧ EachOf p more := by
  induction steps with
  | nil => simp [EachOf]
  | cons step steps ih => rw [List.cons_append, EachOf, EachOf, ih, and_assoc]

mutual

theorem each_of_forall (all : ∀ c, p c) : ∀ step : Step, step.Each p
  | .command c _ => all c
  | .brief _ _ => trivial
  | .scope _ _ block => eachOf_of_forall all block

theorem eachOf_of_forall (all : ∀ c, p c) : ∀ steps : List Step, EachOf p steps
  | [] => trivial
  | step :: rest => ⟨each_of_forall all step, eachOf_of_forall all rest⟩

end

end Step

namespace Session

/-- Where a program can come to: between its steps, and at each moment within one of them, whether
earlier ones have failed or not. -/
inductive ComesTo (s : Session) (watched : List String) (program : List Step) : Session → Prop where
  | between {earlier later : List Step} (split : program = earlier ++ later) :
    ComesTo s watched program (s.runProgram watched earlier).2
  | within {earlier later : List Step} {step : Step} {m : Moment}
    (split : program = earlier ++ step :: later)
    (mem : m ∈ stepMoments [] [] (s.runProgram watched earlier).2 step) :
    ComesTo s watched program m.session

open Act

/-! ## Openings and scopes -/

theorem maintains_enter (kept : Forest.IsKept P) (entrance : Entrance) :
    Maintains P (enter entrance) := by
  cases entrance with
  | build parent entry named args =>
    exact (maintains_construct (.builder entry) named args
      (Action.maintains_construct_catalog kept entry args)).bind fun _ => maintains_pure _
  | place parent element => exact maintains_pure _
  | document =>
    exact (maintains_onStore (Action.maintains_insertDocument kept)).bind fun _ => maintains_pure _
  | verbatim id => exact maintains_pure _
  | settings fields =>
    intro s h
    rw [enter, run_bind]
    cases Settings.ofArguments fields with
    | error fault => exact h
    | ok settings => exact h

theorem maintains_opening (kept : Forest.IsKept P) (o : Opening) : Maintains P (opening o) :=
  (Quiet.maintains fun _ => quiet_approach o).bind fun entrance =>
    (maintains_enter kept entrance).bind fun _ => maintains_pure _

theorem maintains_leave (kept : Forest.IsKept P) (scope : Scope) : Maintains P (leave scope) := by
  cases scope with
  | building parent child =>
    cases parent with
    | ref holder => exact maintains_attach kept holder child
    | _ => exact maintains_refuse _ _
  | document id => exact maintains_pure ()
  | verbatim id =>
    exact maintains_change fun f => kept.apply f (.setMark id (.bool true)) ⟨true, rfl⟩
  | settings saved => exact fun _ h => h

/-! ## Steps -/

theorem holds_bind {s : Session} (h : P s.forest) (name : Option String) (object : Option Datum) :
    P (s.bind name object).forest := by
  rw [forest_bind]
  exact h

theorem holds_settle (kept : Forest.IsKept P) {s : Session} (h : P s.forest) (held : List Ref) :
    P (s.settle held).forest := kept.pruned (s.forest.settle_pruned (s.refs ++ held)) h

theorem holds_enterBlock (kept : Forest.IsKept P) {s : Session} (h : P s.forest) (held : List Ref)
    (name : Option String) (v : Datum) : P (s.enterBlock held name v).forest := by
  cases name with
  | none => exact h
  | some name => exact holds_settle kept (holds_bind h (some name) (some v)) held

theorem holds_abandon (kept : Forest.IsKept P) {s : Session} (h : P s.forest) (scope : Scope) :
    P (abandon scope s).forest := by
  cases scope with
  | building parent child => exact h
  | document id => exact maintains_leave kept (.document id) s h
  | verbatim id => exact maintains_leave kept (.verbatim id) s h
  | settings saved => exact maintains_leave kept (.settings saved) s h

theorem session_ending (running : List Running) (held : List Ref) (s : Session) (step : Step) :
    (s.ending running held step).session = (s.runStep held step).2 := by
  rw [ending]
  split
  next ran => rw [ran]
  next ran => rw [ran]

/-- Whether a step completes or fails, all its moments have a property if the forest before it has
it, and so has what the step leaves. -/
def StepMaintains (P : Forest → Prop) (step : Step) : Prop :=
  ∀ (running : List Running) (held : List Ref) (s : Session), P s.forest →
    P (s.runStep held step).2.forest ∧
      ∀ m ∈ stepMoments running held s step, P m.session.forest

/-- The same of steps that follow each other, whatever leads from one to the next. -/
def BlockMaintains (P : Forest → Prop) (block : List Step) : Prop :=
  ∀ (running : List Running) (held : List Ref) (s : Session), P s.forest →
    P (s.runBlock held block).2.2.forest ∧
      ∀ next : Session → Session, (∀ s : Session, P s.forest → P (next s).forest) →
        ∀ m ∈ blockMoments next running held s block, P m.session.forest

/-- A step without moments but its end. -/
theorem stepMaintains_of_end {step : Step}
    (only : ∀ running held s, stepMoments running held s step = [s.ending running held step])
    (maintains : ∀ (held : List Ref) (s : Session), P s.forest →
      P (s.runStep held step).2.forest) : StepMaintains P step := by
  intro running held s h
  refine ⟨maintains held s h, fun m hm => ?_⟩
  rw [only, List.mem_singleton] at hm
  rw [hm, session_ending]
  exact maintains held s h

theorem stepMaintains_command {c : Command} (maintains : Maintains P (runCommand c))
    (name : Option String) : StepMaintains P (.command c name) := by
  refine stepMaintains_of_end (fun _ _ _ => by rw [stepMoments]) fun held s h => ?_
  have after := maintains s h
  rw [runStep]
  generalize (runCommand c).run s = result at after ⊢
  obtain ⟨fault | result, s'⟩ := result
  · exact after
  · exact holds_bind after name result.object

theorem stepMaintains_brief (kept : Forest.IsKept P) (o : Opening) (name : Option String) :
    StepMaintains P (.brief o name) := by
  refine stepMaintains_of_end (fun _ _ _ => by rw [stepMoments]) fun held s h => ?_
  have opened := maintains_opening kept o s h
  rw [runStep_brief]
  generalize (opening o).run s = result at opened ⊢
  obtain ⟨fault | ⟨entrance, scope⟩, s₁⟩ := result
  · exact opened
  have left := maintains_leave kept scope s₁ opened
  simp only
  generalize (leave scope).run s₁ = result at left ⊢
  obtain ⟨fault | _, s₂⟩ := result
  · exact left
  · exact holds_bind left name scope.made?

theorem stepMaintains_scope (kept : Forest.IsKept P) (o : Opening) (name : Option String)
    {block : List Step} (within : BlockMaintains P block) : StepMaintains P (.scope o name block) := by
  intro running held s h
  have opens := maintains_opening kept o s h
  cases opened : (opening o).run s with
  | mk result s₁ =>
  rw [opened] at opens
  obtain fault | ⟨entrance, scope⟩ := result
  · obtain ⟨answers, failed⟩ := runStep_scope_of_error opened held name block
    have last : P (s.runStep held (.scope o name block)).2.forest := by
      rw [failed]
      exact opens
    refine ⟨last, fun m hm => ?_⟩
    rw [stepMoments, opened, List.mem_singleton] at hm
    rw [hm, session_ending]
    exact last
  have outcome := runStep_scope opened held name block
  have moments := stepMoments_scope opened running held name block
  generalize entrance.refs ++ scope.refs ++ held = inner at outcome moments
  obtain ⟨ran, during⟩ := within (⟨s, scope⟩ :: running) inner
    (s₁.enterBlock inner name scope.object) (holds_enterBlock kept opens inner name scope.object)
  have inside := during (·.settle inner) fun s h => holds_settle kept h inner
  generalize (s₁.enterBlock inner name scope.object).runBlock inner block = result
    at ran outcome moments
  obtain ⟨answers, fault | fault, s₂⟩ := result
  · have left := maintains_leave kept scope s₂ ran
    have last : P (s.runStep held (.scope o name block)).2.forest := by
      rw [outcome]
      simp only
      generalize (leave scope).run s₂ = result at left ⊢
      obtain ⟨fault | _, s₃⟩ := result
      · exact left
      · exact holds_bind left name scope.made?
    refine ⟨last, fun m hm => ?_⟩
    rw [moments] at hm
    obtain hm | hm := List.mem_append.1 hm
    · exact inside m hm
    · rw [List.mem_singleton.1 hm, session_ending]
      exact last
  · refine ⟨?_, fun m hm => ?_⟩
    · rw [outcome]
      exact holds_abandon kept ran scope
    · rw [moments, List.append_nil] at hm
      exact inside m hm

theorem blockMaintains_nil : BlockMaintains P [] := by
  intro running held s h
  rw [runBlock]
  refine ⟨h, fun next _ m hm => ?_⟩
  rw [blockMoments] at hm
  cases hm

theorem blockMaintains_cons (kept : Forest.IsKept P) {step : Step} {rest : List Step}
    (first : StepMaintains P step) (later : BlockMaintains P rest) :
    BlockMaintains P (step :: rest) := by
  intro running held s h
  obtain ⟨after, moments⟩ := first running held s h
  rw [runBlock_cons]
  cases ran : s.runStep held step with
  | mk outcome s₁ =>
  rw [ran] at after
  cases outcome with
  | done answer =>
    refine ⟨(later running held _ (holds_settle kept after held)).1, fun next keeps m hm => ?_⟩
    rw [blockMoments, ran] at hm
    obtain hm | hm := List.mem_append.1 hm
    · exact moments m hm
    · exact (later running held _ (keeps s₁ after)).2 next keeps m hm
  | failed fault block =>
    refine ⟨after, fun next keeps m hm => ?_⟩
    rw [blockMoments, ran, List.append_nil] at hm
    exact moments m hm

/-! ## What programs maintain -/

mutual

theorem stepMaintains (kept : Forest.IsKept P)
    (maintains : ∀ c, p c → Maintains P (runCommand c)) {step : Step} (each : step.Each p) :
    StepMaintains P step := by
  match step with
  | .command c name => exact stepMaintains_command (maintains c each) name
  | .brief o name => exact stepMaintains_brief kept o name
  | .scope o name block =>
    exact stepMaintains_scope kept o name (blockMaintains kept maintains each)

theorem blockMaintains (kept : Forest.IsKept P)
    (maintains : ∀ c, p c → Maintains P (runCommand c)) {block : List Step}
    (each : Step.EachOf p block) : BlockMaintains P block := by
  match block with
  | [] => exact blockMaintains_nil
  | step :: rest =>
    exact blockMaintains_cons kept (stepMaintains kept maintains each.1)
      (blockMaintains kept maintains each.2)

end

section Programs

variable (kept : Forest.IsKept P) (maintains : ∀ c, p c → Maintains P (runCommand c))
include kept maintains

theorem holds_after_program (watched : List String) {program : List Step}
    (each : Step.EachOf p program) {s : Session} (before : P s.forest) :
    P (s.runProgram watched program).2.forest := by
  induction program generalizing s with
  | nil => exact before
  | cons step rest ih =>
    have ran := (stepMaintains kept maintains each.1 [] [] s before).1
    have collected := kept.pruned ((s.runStep [] step).2.forest.collect_pruned
      (s.runStep [] step).2.refs) ran
    have same : (s.perform watched step).2.forest = (s.runStep [] step).2.collect.forest :=
      congrArg View.forest (quiet_watch watched (s.runStep [] step).2.collect rfl).1
    have after : P (s.perform watched step).2.forest := by
      rw [same]
      exact collected
    exact ih each.2 after

/-- What holds of the forest before a program holds wherever the program comes to, if its commands
maintain it. -/
theorem holds_in_programs {s s' : Session} {watched : List String} {program : List Step}
    (each : Step.EachOf p program) (before : P s.forest) (comes : s.ComesTo watched program s') :
    P s'.forest := by
  cases comes with
  | between split =>
    subst split
    exact holds_after_program kept maintains watched (Step.eachOf_append.1 each).1 before
  | within split mem =>
    subst split
    obtain ⟨earlier, step, -⟩ := Step.eachOf_append.1 each
    have reached := holds_after_program kept maintains watched earlier before
    exact (stepMaintains kept maintains step [] [] _ reached).2 _ mem

end Programs

/-- What all operations keep holds wherever any program comes to. -/
theorem holds_in_all_programs (kept : Forest.IsAlwaysKept P) {s s' : Session}
    {watched : List String} {program : List Step} (before : P s.forest)
    (comes : s.ComesTo watched program s') : P s'.forest :=
  holds_in_programs (p := fun _ => True) kept.isKept (fun c _ => maintains_runCommand kept c)
    (Step.eachOf_of_forall (fun _ => trivial) program) before comes

end Session

end Hypertext
