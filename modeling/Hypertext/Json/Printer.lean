import Hypertext.Text.Hex
import Hypertext.Value.Spelling

/-! JSON text of values. Fields are written in the order of their names and only ASCII is used, so
the text of a value does not depend on how it was built. Choices, references and renderers have no
JSON text, and neither have whole numbers of too many digits. -/
namespace Hypertext.Json
set_option autoImplicit false

open Number (NumberNames)

/-! ## Texts -/

/-- One half of a character above the basic plane, or a character of that plane. -/
def codeUnit (n : Nat) : List Char := '\\' :: 'u' :: Text.hexDigits .lower 4 n

def codeUnits (c : Char) : List Char :=
  if c.toNat < 0x10000 then codeUnit c.toNat
  else codeUnit (0xD800 + (c.toNat - 0x10000) / 0x400)
    ++ codeUnit (0xDC00 + (c.toNat - 0x10000) % 0x400)

def escapedChar (c : Char) : List Char :=
  if c = '"' then ['\\', '"']
  else if c = '\\' then ['\\', '\\']
  else if c = '\n' then ['\\', 'n']
  else if c = '\r' then ['\\', 'r']
  else if c = '\t' then ['\\', 't']
  else if c = '\x0c' then ['\\', 'f']
  else if c = '\x08' then ['\\', 'b']
  else if 0x20 ≤ c.toNat ∧ c.toNat < 0x7F then [c]
  else codeUnits c

def printText (s : List Char) : List Char := '"' :: s.flatMap escapedChar ++ ['"']

/-! ## Values -/

/-- On one line, or one item to a line with a unit of indentation for each level. -/
inductive Layout where
  | compact
  | lines (unit : String)
  deriving DecidableEq, Repr

def numberNames : NumberNames := ⟨"Infinity", "NaN"⟩

def printScalar : Scalar → List Char
  | .null => "null".toList
  | .bool true => "true".toList
  | .bool false => "false".toList
  | .int i => Number.integerChars i
  | .float x => (x.text numberNames).toList
  | .text s => printText s.toList
  | .choice c => printText c.value.toList

def lineBreak (unit : String) (level : Nat) : List Char :=
  '\n' :: (List.replicate level unit.toList).flatten

def enclose (layout : Layout) (level : Nat) (left right : Char) (items : List (List Char)) :
    List Char :=
  match items, layout with
  | [], _ => [left, right]
  | items, .compact => left :: [',', ' '].intercalate items ++ [right]
  | items, .lines unit =>
    left :: lineBreak unit (level + 1) ++ (',' :: lineBreak unit (level + 1)).intercalate items
      ++ lineBreak unit level ++ [right]

/-- The order of names is that of their characters. -/
def sortFields {α : Type} (fields : List (String × α)) : List (String × α) :=
  fields.mergeSort fun x y => decide (x.1 ≤ y.1)

def printField (field : String × List Char) : List Char :=
  printText field.1.toList ++ ':' :: ' ' :: field.2

variable {ρ : Type}

mutual

/-- The text of a value; references and renderers are written as null. -/
def print (layout : Layout) (level : Nat) : Value ρ → List Char
  | .scalar s => printScalar s
  | .list items => enclose layout level '[' ']' (printList layout (level + 1) items)
  | .record fields =>
    enclose layout level '\x7b' '\x7d'
      ((sortFields (printFields layout (level + 1) fields)).map printField)
  | .ref _ | .renderer .. => printScalar .null
  | .made _ v => print layout level v

def printList (layout : Layout) (level : Nat) : List (Value ρ) → List (List Char)
  | [] => []
  | v :: rest => print layout level v :: printList layout level rest

def printFields (layout : Layout) (level : Nat) :
    List (String × Value ρ) → List (String × List Char)
  | [] => []
  | (name, v) :: rest => (name, print layout level v) :: printFields layout level rest

end

mutual

/-- Why the first part, in the order of writing, that has no JSON text has none. -/
def fault? (ofRef : ρ → String) : Value ρ → Option Fault
  | .scalar (.choice c) => some (.notSerializable c.family)
  | .scalar s => if s.isTooLong then some .numberTooLong else none
  | .list items => faultOfList? ofRef items
  | .record fields => (sortFields (faultsOfFields ofRef fields)).findSome? (·.2)
  | .ref r => some (.notSerializable (ofRef r))
  | .made _ v => fault? ofRef v
  | v => some (.notSerializable (v.typeName ofRef))

def faultOfList? (ofRef : ρ → String) : List (Value ρ) → Option Fault
  | [] => none
  | v :: rest => (fault? ofRef v).or (faultOfList? ofRef rest)

def faultsOfFields (ofRef : ρ → String) : List (String × Value ρ) → List (String × Option Fault)
  | [] => []
  | (name, v) :: rest => (name, fault? ofRef v) :: faultsOfFields ofRef rest

end

def write (ofRef : ρ → String) (layout : Layout) (v : Value ρ) : Except Fault String :=
  match fault? ofRef v with
  | some fault => .error fault
  | none => .ok (String.ofList (print layout 0 v))

end Hypertext.Json
