import Mathlib.Data.List.Forall2
import Hypertext.Proofs.Actions
import Hypertext.Session.Run

/-! Actions of a session that leave its forest, its registers and its settings as they are. They
may still count origins and record events. -/
namespace Hypertext.Session
set_option autoImplicit false

/-- What a quiet action leaves as it is. -/
structure View where
  forest : Forest
  registers : Registers
  settings : Settings
  limits : Limits

def view (s : Session) : View := ⟨s.forest, s.registers, s.settings, s.limits⟩

/-- Within a view an action changes nothing of it, and what it answers has a property. -/
def Act.Quiet {α : Type} (v : View) (act : Act α) (P : α → Prop) : Prop :=
  ∀ s : Session, s.view = v → (act.run s).2.view = v ∧ ∀ a, (act.run s).1 = .ok a → P a

variable {α β γ : Type} {v : View} {P Q : α → Prop}

/-- A chain of two actions goes on from what the first has left, or ends with its failure. -/
theorem Act.run_bind (act : Act α) (next : α → Act β) (s : Session) :
    (act >>= next).run s = match act.run s with
      | (.ok a, s') => (next a).run s'
      | (.error fault, s') => (.error fault, s') := by
  show (ExceptT.run (act >>= next)).run s = match (ExceptT.run act).run s with
    | (.ok a, s') => (next a).run s'
    | (.error fault, s') => (.error fault, s')
  rw [ExceptT.run_bind, StateT.run_bind]
  show (match (ExceptT.run act).run s with | (result, s') => _) = _
  obtain ⟨fault | a, s'⟩ := (ExceptT.run act).run s
  · rfl
  · rfl

theorem run_onStore (act : Action α) (s : Session) : (onStore act).run s =
    ((act.run s.store).1, { s with store := (act.run s.store).2 }) := by
  rw [onStore, Act.run_bind]
  show (liftExcept (act.run s.store).1).run { s with store := (act.run s.store).2 } = _
  cases (act.run s.store).1 <;> rfl

/-- What is true of answers, and of chains of actions of which it is true, is true of actions on a list
that keep some of their answers. -/
theorem Act.filterMapM_of_bind (P : ∀ {δ : Type}, Act δ → Prop)
    (pure : ∀ {δ : Type} (d : δ), P (Pure.pure d))
    (bind : ∀ {δ ε : Type} {act : Act δ} {next : δ → Act ε}, P act → (∀ d, P (next d)) →
      P (act >>= next))
    {act : γ → Act (Option α)} (h : ∀ x, P (act x)) (l : List γ) : P (l.filterMapM act) := by
  have loop : ∀ (l : List γ) (found : List α), P (List.filterMapM.loop act l found) := by
    intro l
    induction l with
    | nil => exact fun found => pure found.reverse
    | cons x l ih =>
      refine fun found => bind (h x) fun a => ?_
      cases a with
      | none => exact ih found
      | some a => exact ih (a :: found)
  exact loop l []

namespace Act.Quiet

/-! ## Rules -/

theorem pure {a : α} (h : P a) : Quiet v (Pure.pure a) P :=
  fun _ hs => ⟨hs, fun _ answer => Except.ok.inj answer ▸ h⟩

theorem throw (fault : Fault) : Quiet v (MonadExcept.throw fault) P :=
  fun _ hs => ⟨hs, (nomatch ·, ·)⟩

theorem weaken {act : Act α} (quiet : Quiet v act P) (h : ∀ a, P a → Q a) : Quiet v act Q :=
  fun s hs => ⟨(quiet s hs).1, fun a answer => h a ((quiet s hs).2 a answer)⟩

theorem bind {R : β → Prop} {act : Act α} {next : α → Act β} (first : Quiet v act P)
    (second : ∀ a, P a → Quiet v (next a) R) : Quiet v (act >>= next) R := by
  intro s hs
  obtain ⟨same, answers⟩ := first s hs
  rw [run_bind]
  generalize act.run s = result at same answers ⊢
  obtain ⟨fault | a, s'⟩ := result
  · exact ⟨same, fun _ answer => nomatch answer⟩
  · exact second a (answers a rfl) s' same

/-- What follows knows the session that is read. -/
theorem get {next : Session → Act β} {R : β → Prop}
    (h : ∀ s : Session, s.view = v → Quiet v (next s) R) :
    Quiet v (MonadState.get >>= next) R := fun s hs => h s hs s hs

theorem liftExcept {e : Except Fault α} (h : ∀ a, e = .ok a → P a) :
    Quiet v (Session.liftExcept e) P := by
  cases e with
  | error fault => exact throw fault
  | ok a => exact pure (h a rfl)

theorem onStore {act : Action α} (same : ∀ store, (act.run store).2.forest = store.forest)
    (h : ∀ (store : Store) (a : α), store.forest = v.forest → (act.run store).1 = .ok a → P a) :
    Quiet v (Session.onStore act) P := by
  intro s hs
  rw [run_onStore, ← hs]
  refine ⟨?_, fun a => h s.store a (congrArg View.forest hs)⟩
  simp only [view, forest, same]

/-- The answers to a list of actions correspond to the list. -/
theorem mapM {act : γ → Act α} {P : γ → α → Prop} {l : List γ}
    (h : ∀ x ∈ l, Quiet v (act x) (P x)) : Quiet v (l.mapM act) (List.Forall₂ P l) := by
  induction l with
  | nil => exact pure .nil
  | cons x l ih =>
    rw [List.mapM_cons]
    refine (h x List.mem_cons_self).bind fun a ha => ?_
    refine (ih fun y hy => h y (List.mem_cons_of_mem x hy)).bind fun as has => ?_
    exact pure (.cons ha has)

theorem filterMapM {act : γ → Act (Option α)} {l : List γ}
    (h : ∀ x, Quiet v (act x) fun _ => True) : Quiet v (l.filterMapM act) fun _ => True :=
  filterMapM_of_bind (fun act => Quiet v act fun _ => True) (fun _ => pure trivial)
    (fun first second => first.bind fun a _ => second a) h l

end Act.Quiet

/-! ## Readings -/

open Act

/-- A reading changes nothing but the journal, and it is answered where it answers itself. -/
theorem run_tell (reading : Forest → Reading α) (store : Store) :
    ∃ journal told, (Action.tell reading).run store =
      ((told : Except Fault Unit) >>= fun _ => (reading store.forest).result,
        { store with journal }) := by
  have lifted : ∀ {γ : Type} (e : Except Fault γ) (store : Store),
      (Action.liftExcept e).run store = (e, store) := by
    intro γ e store
    cases e <;> rfl
  obtain ⟨forest, journal, recording, origins⟩ := store
  cases recording with
  | false => exact ⟨journal, .ok (), Action.run_tell_of_quiet reading rfl⟩
  | true =>
    refine ⟨journal ++ (forest.records (reading forest).reports.toList).reports,
      (forest.records (reading forest).reports.toList).result, ?_⟩
    show (do
      modify fun s => { s with journal := s.journal ++
        (forest.records (reading forest).reports.toList).reports }
      Action.liftExcept (forest.records (reading forest).reports.toList).result
      Action.liftExcept (reading forest).result : Action α).run
        ⟨forest, journal, true, origins⟩ = _
    rw [Action.run_bind]
    show (do
      Action.liftExcept (forest.records (reading forest).reports.toList).result
      Action.liftExcept (reading forest).result : Action α).run
        ⟨forest, journal ++ _, true, origins⟩ = _
    rw [Action.run_bind, lifted]
    cases (forest.records (reading forest).reports.toList).result with
    | error fault => rfl
    | ok told => exact lifted (reading forest).result _

theorem forest_tell (reading : Forest → Reading α) (store : Store) :
    ((Action.tell reading).run store).2.forest = store.forest := by
  obtain ⟨journal, told, run⟩ := run_tell reading store
  rw [run]

theorem quiet_tell (reading : Forest → Reading α) :
    Quiet v (tell reading) fun a => (reading v.forest).result = .ok a :=
  Quiet.onStore (forest_tell reading) fun store a same answer => by
    obtain ⟨journal, told, run⟩ := run_tell reading store
    rw [run, same] at answer
    cases told with
    | error fault => cases answer
    | ok told => exact answer

theorem quiet_valueAt (name : String) :
    Quiet v (valueAt name) fun d => v.registers.get? name = some d := by
  refine Quiet.get fun s hs => Quiet.liftExcept fun d hd => ?_
  subst hs
  unfold Registers.get at hd
  split at hd
  next found => rw [← Except.ok.inj hd]; exact found
  next => cases hd

theorem quiet_refuse (d : Datum) (asked : String) : Quiet v (refuse (α := α) d asked) P :=
  Quiet.get fun _ _ => Quiet.throw _

theorem quiet_elementAt (name asked : String) :
    Quiet v (elementAt name asked) fun id =>
      v.registers.get? name = some (.ref (.element id)) := by
  refine (quiet_valueAt name).bind fun d hd => ?_
  split
  · exact Quiet.pure hd
  · exact quiet_refuse _ _

theorem quiet_textElementAt (name : String) :
    Quiet v (textElementAt name) fun id =>
      v.registers.get? name = some (.ref (.element id)) ∧ v.forest.hasText id = true := by
  refine (quiet_elementAt name _).bind fun id hid => ?_
  refine Quiet.get fun s hs => ?_
  subst hs
  split
  next slot => exact Quiet.pure ⟨hid, slot⟩
  next => exact quiet_refuse _ _

theorem quiet_resolve (t : Term) :
    Quiet v (resolve t) fun d => v.registers.resolve t = .ok d := by
  refine Quiet.get fun s hs => Quiet.liftExcept fun d hd => ?_
  subst hs
  exact hd

theorem quiet_resolveFields (fields : List (String × Term)) :
    Quiet v (resolveFields fields)
      (List.Forall₂ (fun field taken => v.registers.resolve field.2 = .ok taken.2) fields) :=
  Quiet.mapM fun _ _ => (quiet_resolve _).bind fun _ hd => Quiet.pure hd

/-- What a term makes is what it stands for, under some origin. -/
theorem quiet_make (t : Term) :
    Quiet v (make t) fun d => ∃ o, v.registers.make o t = .ok d := by
  have origin : ∀ store : Store, (Action.origin.run store).2.forest = store.forest := fun _ => rfl
  refine (Quiet.onStore (P := fun _ => True) origin fun _ _ _ _ => trivial).bind fun o _ => ?_
  refine Quiet.get fun s hs => Quiet.liftExcept fun d hd => ⟨o, ?_⟩
  subst hs
  exact hd

/-! ## Openings -/

theorem quiet_arguments (given : Given) :
    Quiet v (arguments given) fun args => ∃ named items,
      args = Parameter.arguments named items ∧ given.items.length = items.length ∧
      List.Forall₂ (fun (given : Parameter × Term) (taken : Parameter × Datum) =>
        taken.1 = given.1 ∧
          (given.1 = .text → ∃ o, v.registers.make o given.2 = .ok taken.2)) given.named named := by
  refine (Quiet.mapM fun t _ => quiet_make t).bind fun items hitems => ?_
  refine (Quiet.mapM (P := fun given taken => taken.1 = given.1 ∧
    (given.1 = .text → ∃ o, v.registers.make o given.2 = .ok taken.2)) fun given _ => ?_).bind
    fun named hnamed => Quiet.pure ⟨named, items, rfl, hitems.length_eq, hnamed⟩
  obtain ⟨p, t⟩ := given
  by_cases text : p = .text
  · simp only [if_pos text]
    exact (quiet_make t).bind fun d hd => Quiet.pure ⟨rfl, fun _ => hd⟩
  · simp only [if_neg text]
    exact (quiet_resolve t).bind fun d _ => Quiet.pure ⟨rfl, fun h => absurd h text⟩

/-- Before a scope is entered nothing has changed. -/
theorem quiet_approach (o : Opening) : Quiet v (approach o) fun _ => True := by
  cases o with
  | build parent entry given =>
    exact (quiet_valueAt parent).bind fun _ _ => (quiet_arguments given).bind fun _ _ =>
      Quiet.pure trivial
  | place parent element =>
    exact (quiet_valueAt parent).bind fun _ _ => (quiet_make element).bind fun _ _ =>
      Quiet.pure trivial
  | document => exact Quiet.pure trivial
  | verbatim on => exact (quiet_textElementAt on).bind fun _ _ => Quiet.pure trivial
  | settings fields => exact (quiet_resolveFields fields).bind fun _ _ => Quiet.pure trivial

theorem quiet_watch (names : List String) : Quiet v (watch names) fun _ => True := by
  refine Quiet.get fun s _ => Quiet.filterMapM fun name => ?_
  split
  · exact Quiet.pure trivial
  · exact (quiet_tell _).bind fun _ _ => Quiet.pure trivial

end Hypertext.Session
