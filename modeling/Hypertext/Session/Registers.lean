import Hypertext.Attributes.Call
import Hypertext.Forest
import Hypertext.Session.Term
import Hypertext.Value.Origin

/-! Named registers of a session. What a register holds stays alive with everything that is reached
from there. -/
namespace Hypertext
set_option autoImplicit false

/-- How an answer refers to an element or document: by a register, or by its description. -/
inductive Label where
  | register (name : String)
  | description (text : String)
  deriving DecidableEq, Repr

/-- At most one entry for each name. -/
structure Registers where
  toList : List (String × Datum) := []
  deriving Repr

namespace Registers

def get? (g : Registers) (name : String) : Option Datum := g.toList.lookup name

def drop (g : Registers) (names : List String) : Registers :=
  ⟨g.toList.filter fun (name, _) => !names.contains name⟩

def bind (g : Registers) (name : String) (v : Datum) : Registers :=
  ⟨(name, v) :: (g.drop [name]).toList⟩

def refs (g : Registers) : List Ref := g.toList.flatMap (·.2.refs)

def least? : List String → Option String
  | [] => none
  | name :: rest =>
    match least? rest with
    | none => some name
    | some other => some (if other < name then other else name)

def isRef (r : Ref) : Datum → Bool
  | .ref s => r == s
  | _ => false

/-- The first register, in the order of names, that holds a reference itself. -/
def nameOf? (g : Registers) (r : Ref) : Option String :=
  least? ((g.toList.filter (isRef r ·.2)).map (·.1))

def get (g : Registers) (name : String) : Except Fault Datum :=
  match g.get? name with
  | some v => .ok v
  | none => .error (.registerUnbound name)

/-! ## Terms -/

def meaning (g : Registers) : Symbol → Except Fault Datum
  | .register name => g.get name
  | .number text => .error (.notNumber text)

/-- Fails with the first of some symbols that stands for nothing. -/
def check (g : Registers) (symbols : List Symbol) : Except Fault Unit :=
  symbols.forM fun x => (g.meaning x).map fun _ => ()

def object (g : Registers) (x : Symbol) : Datum := (g.meaning x).toOption.getD .null

def valueOf (g : Registers) (x : Symbol) : Datum := (g.object x).erased

/-- A term with its symbols replaced by what they stand for, without origins. -/
def resolve (g : Registers) (t : Term) : Except Fault Datum :=
  (g.check t.refs).map fun _ => t.subst g.valueOf

/-- A term with its symbols replaced by the very objects that they stand for, made under an
origin. -/
def make (g : Registers) (o : Origin) (t : Term) : Except Fault Datum :=
  (g.check t.refs).map fun _ => Value.make g.object o t

def resolveCall (g : Registers) (call : Attributes.Call Symbol) :
    Except Fault (Attributes.Call Ref) :=
  (g.check call.refs).map fun _ => call.subst g.valueOf

/-! ## Answers -/

/-- An answer with its references shown by labels. -/
def label (g : Registers) (f : Forest) (v : Datum) : Value Label :=
  v.subst fun r =>
    match g.nameOf? r with
    | some name => .ref (.register name)
    | none => .ref (.description (f.describe r))

end Registers

end Hypertext
