import Hypertext.Construction

/-! The parameters that constructions take by name. A kind takes the attributes that it declares, a
text if it has a slot for one, and a tag if it fixes none; a call that names any other parameter
is refused as a whole. -/
namespace Hypertext
set_option autoImplicit false

inductive Parameter where
  | tag
  | text
  | property (p : Property)
  | other (name : String)
  deriving DecidableEq, Repr

namespace Parameter

def name : Parameter → String
  | tag => "tag_name"
  | text => "text"
  | property p => p.key
  | other name => name

/-- The parameter of a name. The direction of a text is set later, never at the start. -/
def ofName : String → Parameter
  | "tag_name" => tag
  | "text" => text
  | name =>
    match Property.all.find? fun p => p != .direction && p.key == name with
    | some p => property p
    | none => other name

/-- The slot of a line break stays empty. -/
def takenBy (kind : Kind) : Parameter → Bool
  | tag => kind.tag?.isNone
  | text => kind.hasText && kind != .catalog .br
  | property p => p.declaredBy kind
  | other _ => false

/-- The arguments of a construction. Attributes are set in the order in which they are declared,
whatever the order of the call. -/
def arguments (named : List (Parameter × Datum)) (items : List Datum) : Arguments where
  tag := (named.lookup tag).getD .null
  text := (named.lookup text).getD (.text "")
  properties := Property.all.filterMap fun p => (named.lookup (property p)).map (p, ·)
  items := items

/-- What makes elements: a kind itself, or the builder of a catalog entry. -/
inductive Maker where
  | kind (k : Kind)
  | builder (c : Catalog)
  deriving DecidableEq, Repr

namespace Maker

def made : Maker → Kind
  | kind k => k
  | builder c => .catalog c

def callee : Maker → String
  | kind k =>
    (if k.level?.isSome then Kind.heading.name
      else if k = .generic .inlineText then Generic.text.name
      else k.name) ++ ".__init__"
  | builder .del => "del_"
  | builder c => c.tag

/-- The builder of a division takes no text. -/
def takes (m : Maker) (p : Parameter) : Bool :=
  p.takenBy m.made && !(m == .builder .div && p == .text)

end Maker

def refusal? (callee : String) (takes : Parameter → Bool) (given : List Parameter) :
    Option Fault :=
  (given.find? (!takes ·)).map fun p => .argumentUnexpected callee p.name

def Maker.refusal? (m : Maker) (given : List Parameter) : Option Fault :=
  Parameter.refusal? m.callee m.takes given

/-- A document takes no parameters. -/
def documentRefusal? (given : List Parameter) : Option Fault :=
  refusal? (documentType ++ ".__init__") (fun _ => false) given

end Parameter

end Hypertext
