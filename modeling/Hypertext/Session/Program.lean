import Hypertext.Session.Parameter
import Hypertext.Session.Query
import Hypertext.Session.Registers

/-! Programs of a session. A step is a plain command, or opens a scope in which a block of further
steps runs: an element that is attached only after its block, a new document, an element whose
text is written as it is, or settings that hold for the block alone. Steps name objects by
register. -/
namespace Hypertext
set_option autoImplicit false

structure Given where
  named : List (Parameter × Term) := []
  items : List Term := []

def Given.parameters (given : Given) : List Parameter := given.named.map (·.1)

inductive Link where
  | child
  | text
  deriving DecidableEq, Repr

inductive Setting where
  | text
  | mark
  | parent
  | property (p : Property)
  deriving DecidableEq, Repr

def Setting.name : Setting → String
  | .text => "text"
  | .mark => "unsafe"
  | .parent => "parent"
  | .property .direction => "direction"
  | .property p => p.key

inductive Command where
  | create (kind : Kind) (given : Given)
  | createDocument (given : Given)
  /-- So many new elements of a kind, each linked to the one before. -/
  | chain (start : String) (kind : Kind) (count : Nat) (link : Link)
  | bind (value : Term)
  | child (on : String) (index : Int)
  | textOf (on : String)
  | drop (names : List String)
  | fail (message : String)
  | add (on child : String)
  | remove (on child : String)
  | attach (on child : String)
  /-- Sets something on an element. A choice takes it too, but shows nothing of it. -/
  | set (on : String) (setting : Setting) (value : Term)
  /-- Sets the text and marks the element, so that the text is written as it is. -/
  | setVerbatim (on : String) (text : Term)
  | attribute (on : String) (call : Attributes.Call Symbol)
  | attributes (on : String) (call : Attributes.Call Symbol)
  | getStyle (on name : String)
  | writeStyle (on : String) (write : Style.Write Term)
  | get (on : String) (query : Query)
  | render (on : String) (pretty : Term)
  | renderer (roots : List String) (pretty indent : Term)
  /-- Runs a renderer, or renders a document by the active settings. -/
  | run (on : String)
  | runInner (on element : String)
  | setSettings (fields : List (String × Term))
  | loadSettings (fields : List (String × Term))
  | resetSettings
  | getSettings
  | payload (on : String)
  | json (on : String) (indent : Term)
  | readPayload (data : Term)
  | readJson (text : String)
  /-- A copy by way of a payload, or of its JSON text. -/
  | copy (on : String) (byJson : Bool)
  /-- The records since the last such command. -/
  | journal

inductive Opening where
  /-- A new element for a parent. -/
  | build (parent : String) (entry : Catalog) (given : Given)
  /-- An element that is there already, for a parent. -/
  | place (parent : String) (element : Term)
  | document
  | verbatim (on : String)
  | settings (fields : List (String × Term))

/-- Each step may name a register for its object. Not all steps have one. -/
inductive Step where
  | command (c : Command) (name : Option String)
  | brief (o : Opening) (name : Option String)
  | scope (o : Opening) (name : Option String) (block : List Step)

/-! ## Answers -/

inductive Answer where
  | value (v : Value Label)
  | scope (v : Value Label) (block : List Answer)
  /-- The answers of a block that failed, up to the failure. -/
  | broken (block : List Answer)

/-- A failed step keeps the answers of its block, if it had one. -/
inductive Outcome where
  | done (a : Answer)
  | failed (fault : Fault) (block : Option (List Answer))

end Hypertext
