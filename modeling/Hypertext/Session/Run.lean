import Hypertext.Forest.Holding
import Hypertext.Session.Command

/-! Running a session. The first failure in a block ends the block and goes up through its scopes:
nothing is attached any more, elements whose text is written as it is keep their mark, and the
settings from before a scope come back. Before the first step of a block and after each of its
steps what nothing holds any more is dropped, and after each step of the program what no register
and no setting reaches. -/
namespace Hypertext.Session
set_option autoImplicit false

/-! ## Scopes -/

/-- A scope that is open: what is to be done when it is left. -/
inductive Scope where
  | building (parent child : Datum)
  | document (id : DocumentId)
  | verbatim (id : ElementId)
  | settings (saved : Settings)

namespace Scope

def object : Scope → Datum
  | building _ child => child
  | document id => .ref (.document id)
  | verbatim id => .ref (.element id)
  | settings _ => .null

/-- What a register takes once the scope is left: what the scope was opened to make. -/
def made? : Scope → Option Datum
  | building _ child => some child
  | document id => some (.ref (.document id))
  | verbatim _ | settings _ => none

def refs (scope : Scope) : List Ref :=
  scope.object.refs ++ match scope with
    | settings saved => saved.refs
    | _ => []

end Scope

inductive Entrance where
  | build (parent : Datum) (entry : Catalog) (named : List Parameter) (args : Arguments)
  | place (parent element : Datum)
  | document
  | verbatim (id : ElementId)
  | settings (fields : List (String × Datum))

namespace Entrance

/-- What an opening was given, which is held as long as its scope is open. -/
def refs : Entrance → List Ref
  | build parent _ _ args => parent.refs ++ args.refs
  | place parent element => parent.refs ++ element.refs
  | document => []
  | verbatim id => [.element id]
  | settings fields => fields.flatMap (·.2.refs)

end Entrance

/-- Where this fails there is no scope, and no block. -/
def approach : Opening → Act Entrance
  | .build parent entry given =>
    return .build (← valueAt parent) entry given.parameters (← arguments given)
  | .place parent element => return .place (← valueAt parent) (← make element)
  | .document => return .document
  | .verbatim on => return .verbatim (← textElementAt on)
  | .settings fields => return .settings (← resolveFields fields)

/-- Where this fails the block of the scope is there, but none of its steps runs. -/
def enter : Entrance → Act Scope
  | .build parent entry named args =>
    return .building parent (.ref (.element (← construct (.builder entry) named args)))
  | .place parent element => return .building parent element
  | .document => return .document (← onStore Action.insertDocument)
  | .verbatim id => return .verbatim id
  | .settings fields => do
    let settings ← liftExcept (Settings.ofArguments fields)
    let saved := (← get).settings
    modify fun s => { s with settings }
    return .settings saved

/-- Only an element or document can have something attached. -/
def attach (parent child : Datum) : Act Unit := do
  match parent with
  | .ref holder => onStore (Action.attach holder child)
  | v => refuse v "attach"

def leave : Scope → Act Unit
  | .building parent child => attach parent child
  | .document _ => return
  | .verbatim id => change (·.setMark id (.bool true))
  | .settings saved => modify fun s => { s with settings := saved }

/-- Leaves a scope whose block has failed: nothing is attached. -/
def abandon (scope : Scope) (s : Session) : Session :=
  match scope with
  | .building .. => s
  | scope => ((leave scope).run s).2

/-! ## Steps -/

/-- Binds a register, if one is named and there is an object for it. -/
def bind (s : Session) (name : Option String) (object : Option Datum) : Session :=
  match name, object with
  | some name, some v => { s with registers := s.registers.bind name v }
  | _, _ => s

def label (s : Session) (v : Datum) : Value Label := s.registers.label s.forest v

def refs (s : Session) : List Ref := s.registers.refs ++ s.settings.refs

/-- Drops what nothing holds any more, while open scopes hold some references. -/
def settle (s : Session) (held : List Ref) : Session :=
  let roots := s.refs ++ held
  s.mapForest (·.settle roots)

/-- Binds a register for the block of a scope. What it held before goes at once, if nothing else
holds it. -/
def enterBlock (s : Session) (held : List Ref) (name : Option String) (v : Datum) : Session :=
  match name with
  | none => s
  | some _ => (s.bind name (some v)).settle held

mutual

/-- The register of a scope is bound for its block. When the scope is left at the end of its block
it is bound again if the scope has made something; else it stays as the block left it. -/
def runStep (held : List Ref) (s : Session) : Step → Outcome × Session
  | .command c name =>
    match (runCommand c).run s with
    | (.error fault, s) => (.failed fault none, s)
    | (.ok result, s) =>
      let s := s.bind name result.object
      (.done (.value (s.label result.answer)), s)
  | .brief o name =>
    match (do let scope ← enter (← approach o); leave scope; return scope : Act Scope).run s with
    | (.error fault, s) => (.failed fault none, s)
    | (.ok scope, s) =>
      let s := s.bind name scope.made?
      (.done (.value (s.label scope.object)), s)
  | .scope o name block =>
    match (approach o).run s with
    | (.error fault, s) => (.failed fault none, s)
    | (.ok entrance, s) =>
      match (enter entrance).run s with
      | (.error fault, s) => (.failed fault (some []), s)
      | (.ok scope, s) =>
        let held := entrance.refs ++ scope.refs ++ held
        match runBlock held (s.enterBlock held name scope.object) block with
        | (answers, some fault, s) => (.failed fault (some answers), abandon scope s)
        | (answers, none, s) =>
          match (leave scope).run s with
          | (.error fault, s) => (.failed fault (some answers), s)
          | (.ok (), s) =>
            let s := s.bind name scope.made?
            (.done (.scope (s.label scope.object) answers), s)

/-- The answers of a block up to its end or its first failure. -/
def runBlock (held : List Ref) (s : Session) :
    List Step → List Answer × Option Fault × Session
  | [] => ([], none, s)
  | step :: rest =>
    match runStep held s step with
    | (.failed fault block, s) => ((block.map .broken).toList, some fault, s)
    | (.done answer, s) =>
      let (answers, fault, s) := runBlock held (s.settle held) rest
      (answer :: answers, fault, s)

end

/-! ## Programs -/

/-- Drops what no register and no setting reaches. -/
def collect (s : Session) : Session :=
  let roots := s.refs
  s.mapForest (·.collect roots)

def watch (names : List String) : Act (List (String × String)) := do
  let registers := (← get).registers
  names.filterMapM fun name => do
    match registers.get? name with
    | none => return none
    | some v => return some (name, ← tell (·.textOf v))

structure Report where
  outcome : Outcome
  watched : Except Fault (List (String × String))

def perform (s : Session) (watched : List String) (step : Step) : Report × Session :=
  let (outcome, s) := s.runStep [] step
  let (texts, s) := (watch watched).run s.collect
  (⟨outcome, texts⟩, s)

/-- The reports of the steps of a program. A failed step does not end it. -/
def runProgram (s : Session) (watched : List String) : List Step → List Report × Session
  | [] => ([], s)
  | step :: rest =>
    let (report, s) := s.perform watched step
    let (reports, s) := runProgram s watched rest
    (report :: reports, s)

end Hypertext.Session
