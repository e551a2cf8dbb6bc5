import Hypertext.Text.Repetition

/-! Markup put together from parts, and the shapes that parts have. -/
namespace Hypertext
set_option autoImplicit false

/-- The parts of a text, in order. Only opening and closing tags, line breaks and texts that are
not empty count as parts. -/
structure Markup where
  parts : Array String := #[]
  deriving DecidableEq, Repr

namespace Markup

def empty : Markup := {}

/-- An empty text adds nothing. -/
def append (m : Markup) (s : String) : Markup :=
  if s = "" then m else ⟨m.parts.push s⟩

/-- The space before the attributes is left out if there are none. -/
def openingTag (tag attributes : String) : String :=
  if attributes = "" then "<" ++ tag ++ ">" else "<" ++ tag ++ " " ++ attributes ++ ">"

def closingTag (tag : String) : String := "</" ++ tag ++ ">"

def openTag (m : Markup) (tag attributes : String) : Markup :=
  ⟨m.parts.push (openingTag tag attributes)⟩

def closeTag (m : Markup) (tag : String) : Markup := ⟨m.parts.push (closingTag tag)⟩

def newline (m : Markup) : Markup := ⟨m.parts.push "\n"⟩

/-- A unit once for each level. An empty unit is not worth the count. -/
def repeated (unit : String) (level : Nat) : String :=
  if unit = "" then "" else String.join (List.replicate level unit)

theorem foldl_replicate_empty (level : Nat) (s : String) :
    (List.replicate level "").foldl (· ++ ·) s = s := by
  induction level with
  | zero => rfl
  | succ level ih => rw [List.replicate_succ, List.foldl_cons, String.append_empty, ih]

theorem repeated_eq_join (unit : String) (level : Nat) :
    repeated unit level = String.join (List.replicate level unit) := by
  unfold repeated
  split
  case isFalse => rfl
  case isTrue h => rw [h, String.join, foldl_replicate_empty]

def indent (m : Markup) (unit : String) (level : Nat) : Markup := m.append (repeated unit level)

/-- The same for a level of any size; one below one leaves nothing. -/
def indentBy (m : Markup) (limits : Limits) (unit : String) (level : Int) :
    Except Fault Markup :=
  (Text.repeated limits unit level).map m.append

def size (m : Markup) : Nat := m.parts.size

def build (m : Markup) : String := String.join m.parts.toList

end Markup

end Hypertext
