import Hypertext.Construction
import Hypertext.Render.Renderer
import Hypertext.Session.Registers

/-! The state of a session, actions on it, and the objects behind register names. -/
namespace Hypertext
set_option autoImplicit false

structure Session where
  limits : Limits
  store : Store := {}
  settings : Settings := {}
  registers : Registers := {}

namespace Session

/-- An action on a session. One that fails keeps what it did before it failed. -/
abbrev Act (α : Type) := ExceptT Fault (StateM Session) α

def forest (s : Session) : Forest := s.store.forest

/-! ## Actions -/

def liftExcept {α : Type} : Except Fault α → Act α
  | .ok a => return a
  | .error fault => throw fault

/-- The session after an action on its store. The store is taken out of the session while it
changes, so that it changes in place. -/
def withStore {α : Type} (s : Session) (act : Action α) : Except Fault α × Session :=
  let store := s.store
  let s := { s with store := {} }
  let (answer, store) := act.run store
  (answer, { s with store })

def onStore {α : Type} (act : Action α) : Act α := do
  liftExcept (← modifyGet (·.withStore act))

def change (f : Forest → Forest) : Act Unit := onStore (Action.change f)

def mapForest (s : Session) (f : Forest → Forest) : Session := (s.withStore (Action.change f)).2

def tell {α : Type} (reading : Forest → Reading α) : Act α := onStore (Action.tell reading)

/-! ## Objects -/

def valueAt (name : String) : Act Datum := do liftExcept ((← get).registers.get name)

def refuse {α : Type} (v : Datum) (asked : String) : Act α := do
  throw (.nameMissing ((← get).forest.typeName v) asked)

/-- An element or document, which is asked for something that only these have. -/
def refOf (v : Datum) (asked : String) : Act Ref := do
  match v with
  | .ref r => return r
  | v => refuse v asked

def refAt (name asked : String) : Act Ref := do refOf (← valueAt name) asked

def elementAt (name asked : String) : Act ElementId := do
  match ← valueAt name with
  | .ref (.element id) => return id
  | v => refuse v asked

/-- An element with a text slot, which alone can be made verbatim. -/
def textElementAt (name : String) : Act ElementId := do
  let id ← elementAt name "unsafe_text"
  if (← get).forest.hasText id then return id
  refuse (.ref (.element id)) "unsafe_text"

def documentAt (name asked : String) : Act DocumentId := do
  match ← valueAt name with
  | .ref (.document id) => return id
  | v => refuse v asked

def rendererAt (name asked : String) : Act Renderer := do
  let v ← valueAt name
  match Renderer.ofValue? v with
  | some r => return r
  | none => refuse v asked

def resolve (t : Term) : Act Datum := do liftExcept ((← get).registers.resolve t)

def make (t : Term) : Act Datum := do
  let o ← onStore Action.origin
  liftExcept ((← get).registers.make o t)

def resolveFields (fields : List (String × Term)) : Act (List (String × Datum)) :=
  fields.mapM fun (name, t) => return (name, ← resolve t)

end Session

end Hypertext
