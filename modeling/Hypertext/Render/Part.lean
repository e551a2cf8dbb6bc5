import Hypertext.Render.Canvas

/-! The parts of an output, and how fragments become parts. Reading a fragment may report or fail,
and a unit of indentation may be any value, so that a part need not be a text; then the parts
cannot be joined. Parts that are texts are joined one after the other, and an empty one does not
count. -/
namespace Hypertext
set_option autoImplicit false

inductive Part where
  | text (s : String)
  | other (type : String)
  deriving DecidableEq, Repr

namespace Part

/-- An empty text leaves no part. -/
def push (parts : Array Part) : Part → Array Part
  | text s => if s = "" then parts else parts.push (text s)
  | other type => parts.push (other type)

def join (index : Nat) (before : String) : List Part → Except Fault String
  | [] => .ok before
  | text s :: rest => join (index + 1) (before ++ s) rest
  | other type :: _ => .error (.partNotText index type)

end Part

/-- What stands for so many levels of depth. -/
abbrev Indentation := Nat → Except Fault Part

namespace Indentation

def ofText (unit : String) : Indentation := fun level => .ok (.text (Markup.repeated unit level))

/-- A number multiplied is zero only if a factor is, and the other one is no infinite or undefined
number. -/
def isZero (level : Nat) : Scalar → Bool
  | .bool b => !b || level == 0
  | .int i => i == 0 || level == 0
  | .float (.finite _ mantissa _) => mantissa == 0 || level == 0
  | _ => false

/-- A unit repeated. Texts and lists are strung together and numbers are multiplied; an empty list
and a zero leave no part, and other values cannot be repeated. -/
def ofValue (f : Forest) (unit : Datum) : Indentation := fun level =>
  match unit with
  | .text s => ofText s level
  | .list items => .ok (if items.isEmpty || level == 0 then .text "" else .other "list")
  | .float x => .ok (if isZero level (.float x) then .text "" else .other "float")
  | .bool b => .ok (if isZero level (.bool b) then .text "" else .other "int")
  | .int i => .ok (if isZero level (.int i) then .text "" else .other "int")
  | v => .error (.notOperand "*" (f.typeName v))

end Indentation

def Fragment.part (indent : Indentation) : Fragment → Reading Part
  | opening x => return .text (Markup.openingTag (← x.tag) x.attributes)
  | closing x => return .text (Markup.closingTag (← x.tag))
  | content x => return .text (← x.content)
  | newline => return .text "\n"
  | indentation level => .ofExcept (indent level)
  | refusal fault => .fail fault

namespace Canvas

def compose (c : Canvas) (indent : Indentation) : Reading String := do
  let parts ← Account.fold (fun parts x => return Part.push parts (← x.part indent)) #[]
    c.fragments.toList
  .ofExcept (Part.join 0 "" parts.toList)

end Canvas

/-! ## Parts that are texts -/

namespace Part

theorem join_text (index : Nat) (before : String) (texts : List String) :
    join index before (texts.map text) = .ok (texts.foldl (· ++ ·) before) := by
  induction texts generalizing index before with
  | nil => rfl
  | cons s texts ih => rw [List.map_cons, join, ih, List.foldl_cons]

theorem push_text {parts : Array Part} {texts : List String}
    (h : parts.toList = texts.map text) (s : String) :
    ∃ more : List String, (push parts (text s)).toList = more.map text ∧
      more.foldl (· ++ ·) "" = texts.foldl (· ++ ·) "" ++ s := by
  rw [push]
  by_cases hs : s = ""
  · exact ⟨texts, by rw [if_pos hs, h], by simp [hs]⟩
  · exact ⟨texts ++ [s], by simp [if_neg hs, h], by simp⟩

end Part

end Hypertext
