import Hypertext.Proofs.Building

/-! Failures while a tree is built. What the failure of a step leaves is the tree of the moment of
the failure: builders whose blocks were running have attached nothing, those that had completed
stay attached, and an element has become marked if its text was to be written as it is. -/
namespace Hypertext
set_option autoImplicit false

def Outcome.Completed : Outcome → Prop
  | .done _ => True
  | .failed _ _ => False

instance : DecidablePred Outcome.Completed
  | .done _ => .isTrue trivial
  | .failed _ _ => .isFalse id

namespace Session

variable {s s' : Session} {running : List Running} {deeds : List Deed}

/-! ## Programs that complete -/

theorem runThrough_of_runProgram (watched : List String) {program : List Step}
    (completed : ∀ report ∈ (runProgram s watched program).1, report.outcome.Completed) :
    runThrough (afterStep watched) [] s program = some (runProgram s watched program).2 := by
  induction program generalizing s with
  | nil => rfl
  | cons step rest ih =>
    have first : (s.runStep [] step).1.Completed := completed _ List.mem_cons_self
    rw [runThrough]
    cases ran : s.runStep [] step with
    | mk outcome s₁ =>
    have after : (s.perform watched step).2 = afterStep watched s₁ := by
      rw [perform, ran]
      rfl
    rw [ran] at first
    cases outcome with
    | failed fault answers => exact first.elim
    | done a =>
      have later : (runProgram s watched (step :: rest)).2 =
          (runProgram (afterStep watched s₁) watched rest).2 := by
        rw [← after]
        rfl
      rw [later]
      refine ih fun report hreport => completed report ?_
      rw [← after] at hreport
      exact List.mem_cons_of_mem _ hreport

/-- A program that builds and completes leaves a tree that agrees with all its deeds. -/
theorem building_of_completed (limits : Limits) (watched : List String) {program : List Step}
    (areBuilding : AreBuilding program)
    (completed : ∀ report ∈ (runProgram { limits } watched program).1, report.outcome.Completed) :
    Building ((programMoments { limits } watched program).flatMap (·.deeds)) []
      (runProgram { limits } watched program).2 := by
  have last := runThrough_of_runProgram watched completed
  exact ((program_keeps limits watched areBuilding).2 _ last).1

/-! ## Leaving scopes -/

theorem sameShape_abandon (scope : Scope) (s : Session) :
    s.forest.SameShape (abandon scope s).forest := by
  cases scope with
  | verbatim id => exact Forest.sameShape_setMark id (.bool true)
  | _ => exact .refl _

theorem sameShape_unwind (running : List Running) (s : Session) :
    s.forest.SameShape (unwind running s).forest := by
  induction running generalizing s with
  | nil => exact .refl _
  | cons r running ih => exact (sameShape_abandon r.scope s).trans (ih _)

/-! ## Builders -/

/-- What a failure leaves of builders. -/
structure Interrupted (f : Forest) (running : List Running) (deeds : List Deed) : Prop where
  /-- An element whose block was running is held by nothing, and has no parent. -/
  unattached : ∀ r ∈ running, ∀ x, r.scope.child? = some x →
    (∃ e, f.get? x = some e ∧ e.parent = .absent) ∧ ∀ p, ¬ f.Stands x p
  /-- An element whose builder had completed is still there for its holder, unless it became a
  text. -/
  attached : ∀ h x, .attached h x ∈ deeds → (∀ id, .moved id x ∉ deeds) → f.isThere h = true →
    .ref (.element x) ∈ f.childrenOf h ∧ f.link x = Forest.linkTo h

theorem interrupted_of_orderly {f : Forest} (orderly : f.Orderly deeds (pendings running)) :
    Interrupted f running deeds where
  unattached r hr x child := by
    obtain ⟨there, new⟩ := orderly.waiting x (List.mem_filterMap.2 ⟨r, hr, child⟩)
    refine ⟨there, fun p stands => ?_⟩
    cases p with
    | child h i =>
      have built := (orderly.built_of_stands stands).2
      exact new h (Deed.mem_built.1 (List.mem_of_getElem? built)).1
    | text id => exact new _ (orderly.logged.moved id x (orderly.moved_of_stands stands).1)
  attached h x done unmoved there := by
    have built : x ∈ Deed.built deeds h := Deed.mem_built.2 ⟨done, unmoved⟩
    have child : .ref (.element x) ∈ f.childrenOf h := by
      rw [orderly.children h there]
      exact List.mem_map_of_mem built
    obtain ⟨i, place⟩ := List.getElem?_of_mem child
    exact ⟨child, orderly.link_child place⟩

/-- A failure at any depth leaves the tree, the registers and the settings of its moment, but for
the marks of elements whose blocks were to set their text as it is, and for settings from before
the outermost scope that had some of its own. Where all there is comes from builders, no builder
whose block was running has attached its element, and all that had completed stay attached. -/
theorem failure_unwinds (limits : Limits) (watched : List String) {earlier : List Step}
    {step : Step} {fault : Fault} {answers : Option (List Answer)}
    (failed : (runProgram { limits } watched earlier).2.runStep [] step =
      (.failed fault answers, s')) :
    ∃ before m, stepMoments [] [] (runProgram { limits } watched earlier).2 step = before ++ [m] ∧
      (∀ x ∈ before, x.fault? = none) ∧ m.fault? = some fault ∧
      Unwound m.running m.session s' ∧
      (AreBuilding earlier → IsBuilding step →
        (∀ report ∈ (runProgram { limits } watched earlier).1, report.outcome.Completed) →
        Interrupted s'.forest m.running
          ((programMoments { limits } watched earlier ++ before ++ [m]).flatMap (·.deeds))) := by
  obtain ⟨before, m, moments, quiet, hfault, saves, rfl⟩ := eq_unwind_of_failed failed
  refine ⟨before, m, moments, quiet, hfault, unwound_unwind saves m.session,
    fun areBuilding isBuilding completed => ?_⟩
  have start := building_of_completed limits watched areBuilding completed
  have framed : ∀ r ∈ ([] : List Running), r.scope.Framed [] := (nomatch ·, ·)
  have along := (step_keeps step isBuilding framed start).1
  rw [moments, along_append] at along
  have orderly := along.2.1.1.orderly.sameShape (sameShape_unwind m.running m.session)
  rw [List.flatMap_append, List.flatMap_append, List.flatMap_singleton]
  exact interrupted_of_orderly orderly

/-- A line gets a word while the box around it is built, and then the block of the box fails. -/
def interruption : Step :=
  .scope .document (some "page")
    [.brief (.build "page" .p {}) (some "line"),
      .scope (.settings [("indent", .int 4)]) none
        [.scope (.verbatim "line") none
          [.scope (.build "page" .div {}) (some "box")
            [.brief (.build "line" .b { named := [(.text, .text "word")] }) none,
              .command (.fail "stop") none]]]]

theorem interruption_building : IsBuilding interruption := by
  have box : AreBuilding [.scope (.build "page" .div {}) (some "box")
      [.brief (.build "line" .b { named := [(.text, .text "word")] }) none,
        .command (.fail "stop") none]] :=
    .cons (.scope Opening.builds_plain
      (.cons (.brief Opening.builds_text) (.cons .fail .nil))) .nil
  exact .scope .document (.cons (.brief Opening.builds_plain)
    (.cons (.scope .settings (.cons (.scope .verbatim box) .nil)) .nil))

theorem interruption_unwinds : ∃ fault answers s' before m,
    ({ limits := .least } : Session).runStep [] interruption = (.failed fault answers, s') ∧
      stepMoments [] [] { limits := .least } interruption = before ++ [m] ∧
      pendings m.running = [⟨1⟩] ∧ verbatims m.running = [⟨0⟩] ∧
      Unwound m.running m.session s' ∧
      Interrupted s'.forest m.running
        [.attached (.document ⟨0⟩) ⟨0⟩, .attached (.element ⟨0⟩) ⟨2⟩] := by
  have fails : ¬ (({ limits := .least } : Session).runStep [] interruption).1.Completed := by decide +kernel
  have last : (stepMoments [] [] { limits := .least } interruption).getLast?.map
      (fun m => (pendings m.running, verbatims m.running)) = some ([⟨1⟩], [⟨0⟩]) := by
    decide +kernel
  have deeds : (stepMoments [] [] { limits := .least } interruption).flatMap (·.deeds) =
      [.attached (.document ⟨0⟩) ⟨0⟩, .attached (.element ⟨0⟩) ⟨2⟩] := by decide +kernel
  cases ran : ({ limits := .least } : Session).runStep [] interruption with
  | mk outcome s' =>
  rw [ran] at fails
  cases outcome with
  | done a => exact absurd trivial fails
  | failed fault answers =>
    have failed : (runProgram { limits := .least } [] []).2.runStep [] interruption =
        (.failed fault answers, s') := ran
    obtain ⟨before, m, moments, -, -, unwound, rest⟩ := failure_unwinds .least [] failed
    have interrupted := rest .nil interruption_building (List.forall_mem_nil _)
    have moments : stepMoments [] [] { limits := .least } interruption = before ++ [m] := moments
    have earlier : programMoments { limits := .least } [] [] = [] := by
      rw [programMoments, blockMoments]
    rw [earlier, List.nil_append, ← moments, deeds] at interrupted
    rw [moments, List.getLast?_concat, Option.map_some] at last
    obtain ⟨running, marked⟩ := Prod.mk.inj (Option.some.inj last)
    exact ⟨fault, answers, s', before, m, rfl, moments, running, marked, unwound, interrupted⟩

end Session

end Hypertext
