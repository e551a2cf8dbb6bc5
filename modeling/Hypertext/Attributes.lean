import Hypertext.Value.Spelling

/-! The attributes of an element: pairs of a key and a value, at most one pair for each key, in the
order of the last write that changed the key. Setting a key to a new value moves it to the end;
adding a pair that is already there changes nothing. -/
namespace Hypertext
set_option autoImplicit false

structure Attribute where
  key : String
  value : String
  deriving DecidableEq, Repr

namespace Attribute

/-- Values are written as they are. -/
def render (a : Attribute) : String := a.key ++ "=\"" ++ a.value ++ "\""

def literal (a : Attribute) : String :=
  "Attribute(key=" ++ Text.quoted a.key ++ ", value=" ++ Text.quoted a.value ++ ")"

/-- What a value writes into an attribute. Null writes nothing and so removes the attribute; a
reference has no text of its own here. -/
def valueOf? {ρ : Type} (v : Value ρ) : Option String :=
  match v.unwrapped with
  | .null => none
  | v => some (v.plain (fun _ => "") fun _ => "")

end Attribute

structure Attributes where
  toList : List Attribute := []
  deriving DecidableEq, Repr

namespace Attributes

/-! ## Reading -/

def empty : Attributes := {}

def size (c : Attributes) : Nat := c.toList.length

def find? (c : Attributes) (key : String) : Option Attribute := c.toList.find? (·.key == key)

def get? (c : Attributes) (key : String) : Option String := (c.find? key).map (·.value)

def hasKey (c : Attributes) (key : String) : Bool := (c.find? key).isSome

def has (c : Attributes) (a : Attribute) : Bool := c.find? a.key == some a

/-! ## Writing -/

def erase (c : Attributes) (key : String) : Attributes := ⟨c.toList.filter (·.key != key)⟩

def add (c : Attributes) (a : Attribute) : Attributes :=
  if c.has a then c else ⟨(c.erase a.key).toList ++ [a]⟩

/-- Removes a pair; another value of the same key is kept. -/
def discard (c : Attributes) (a : Attribute) : Attributes :=
  if c.has a then c.erase a.key else c

def write (c : Attributes) (key : String) : Option String → Attributes
  | none => c.erase key
  | some value => c.add ⟨key, value⟩

def changes (c : Attributes) (key : String) : Option String → Bool
  | none => c.hasKey key
  | some value => !c.has ⟨key, value⟩

def pop? (c : Attributes) : Option (Attribute × Attributes) :=
  c.toList.head?.map fun a => (a, c.discard a)

def ofList (pairs : List Attribute) : Attributes := pairs.foldl add empty

/-! ## Text -/

def render (c : Attributes) : String := " ".intercalate (c.toList.map Attribute.render)

def literal (c : Attributes) : String :=
  "Attributes([" ++ ", ".intercalate (c.toList.map Attribute.literal) ++ "])"

end Attributes

end Hypertext
