import Hypertext.Journal.Entries
import Hypertext.Value.Origin

/-! A forest together with the journal of what happened in it, and actions on both. An action that
fails keeps what it did before it failed. -/
namespace Hypertext
set_option autoImplicit false

structure Store where
  forest : Forest := {}
  journal : Array Journal.Record := #[]
  /-- Without recording the journal stays as it is. -/
  recording : Bool := false
  /-- How many origins were given. Each is given once. -/
  origins : Nat := 0

/-- An action on a store, with its answer or the cause of its failure. -/
abbrev Action (α : Type) := ExceptT Fault (StateM Store) α

namespace Action

def run {α : Type} (act : Action α) (s : Store) : Except Fault α × Store :=
  (ExceptT.run act).run s

def forest : Action Forest := return (← get).forest

/-- A change of the forest with an answer. The forest is taken out of the store while it changes,
so that it changes in place. -/
def changing {α : Type} (f : Forest → α × Forest) : Action α :=
  modifyGet fun s =>
    let forest := s.forest
    let s := { s with forest := {} }
    let (a, forest) := f forest
    (a, { s with forest })

def change (f : Forest → Forest) : Action Unit := changing fun forest => ((), f forest)

def liftExcept {α : Type} : Except Fault α → Action α
  | .ok a => return a
  | .error fault => throw fault

/-- A reading of the forest. Its events are recorded before it answers or fails; where one of them
cannot be recorded, that is the failure. -/
def tell {α : Type} (reading : Forest → Reading α) : Action α := do
  let s ← get
  let reading := reading s.forest
  if s.recording then
    let told := s.forest.records reading.reports.toList
    modify fun s => { s with journal := s.journal ++ told.reports }
    liftExcept told.result
  liftExcept reading.result

def origin : Action Origin :=
  modifyGet fun s => (⟨[s.origins]⟩, { s with origins := s.origins + 1 })

/-- A value told apart from all others, as it is or by a new origin. -/
def identified (v : Datum) : Action Datum := do
  if v.needsOrigin then return .made (← origin) v else return v

def insert (e : Element) : Action ElementId := changing (·.insert e)

def insertDocument : Action DocumentId := changing (·.insertDocument)

end Action

end Hypertext
