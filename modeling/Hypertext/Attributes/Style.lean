import Hypertext.Attributes
import Hypertext.Color
import Hypertext.Fault
import Hypertext.Text.Blank

/-! The style attribute. Its text is all there is: writing appends a declaration `key:value;` and
never removes one, reading scans the text from the left and takes the first declaration of a
name. A declaration is a name, a colon between optional blanks, and a value up to the next
semicolon or the end; text that is no declaration is passed over. -/
namespace Hypertext.Style
set_option autoImplicit false

def key : String := "style"

/-! ## Scanning -/

def isLetter (c : Char) : Bool :=
  c == '_' || ('a' ≤ c && c ≤ 'z') || ('A' ≤ c && c ≤ 'Z')

def isNameChar (c : Char) : Bool := isLetter c || ('0' ≤ c && c ≤ '9') || c == '-'

structure Declaration where
  name : String
  value : String
  deriving DecidableEq, Repr

/-- The longest name at the start, and what follows it. A hyphen may come before the first
letter. -/
def name? : List Char → Option (List Char × List Char)
  | '-' :: c :: rest =>
    if isLetter c then some ('-' :: c :: rest.takeWhile isNameChar, rest.dropWhile isNameChar)
    else none
  | c :: rest =>
    if isLetter c then some (c :: rest.takeWhile isNameChar, rest.dropWhile isNameChar) else none
  | [] => none

/-- The value after a colon. Blanks before it do not belong to it, except that a value of blanks
alone is the last one of them; a value has at least one character. -/
def value? (s : List Char) : Option (List Char × List Char) :=
  let blanks := s.takeWhile Text.isBlank
  let rest := s.dropWhile Text.isBlank
  match rest.takeWhile (· != ';') with
  | [] => blanks.getLast?.map fun c => ([c], rest)
  | value => some (value, rest.dropWhile (· != ';'))

def declaration? (s : List Char) : Option (Declaration × List Char) := do
  let (name, rest) ← name? s
  match rest.dropWhile Text.isBlank with
  | ':' :: rest =>
    let (value, rest) ← value? rest
    return (⟨String.ofList name, String.ofList value⟩, rest)
  | _ => none

theorem length_dropWhile_le {α : Type} (p : α → Bool) (s : List α) :
    (s.dropWhile p).length ≤ s.length := (List.dropWhile_sublist p).length_le

theorem length_of_name? {s name rest : List Char} (h : name? s = some (name, rest)) :
    rest.length < s.length := by
  unfold name? at h
  split at h
  · split at h
    · obtain ⟨-, rfl⟩ := Prod.mk.inj (Option.some.inj h)
      have := length_dropWhile_le isNameChar ‹List Char›
      simp only [List.length_cons]
      grind
    · cases h
  · split at h
    · obtain ⟨-, rfl⟩ := Prod.mk.inj (Option.some.inj h)
      have := length_dropWhile_le isNameChar ‹List Char›
      simp only [List.length_cons]
      grind
    · cases h
  · cases h

theorem length_of_value? {s value rest : List Char} (h : value? s = some (value, rest)) :
    rest.length ≤ s.length := by
  have hb := length_dropWhile_le Text.isBlank s
  unfold value? at h
  simp only at h
  split at h
  · obtain ⟨c, -, hc⟩ := Option.map_eq_some_iff.1 h
    obtain ⟨-, rfl⟩ := Prod.mk.inj hc
    exact hb
  · obtain ⟨-, rfl⟩ := Prod.mk.inj (Option.some.inj h)
    exact Nat.le_trans (length_dropWhile_le _ _) hb

theorem length_of_declaration? {s : List Char} {d : Declaration} {rest : List Char}
    (h : declaration? s = some (d, rest)) : rest.length < s.length := by
  unfold declaration? at h
  obtain ⟨⟨name, after⟩, hname, h⟩ := Option.bind_eq_some_iff.1 h
  have hn := length_of_name? hname
  have hd := length_dropWhile_le Text.isBlank after
  simp only at h
  split at h
  next more hcolon =>
    obtain ⟨⟨value, last⟩, hvalue, h⟩ := Option.bind_eq_some_iff.1 h
    have hv := length_of_value? hvalue
    obtain ⟨-, rfl⟩ := Prod.mk.inj (Option.some.inj h)
    rw [hcolon] at hd
    simp only [List.length_cons] at hd hv
    show last.length < s.length
    omega
  · cases h

/-- All declarations of a text, from left to right. Where none starts, the scan moves on by one
character. -/
def declarations (s : List Char) : List Declaration :=
  match _h : declaration? s with
  | some (d, rest) => d :: declarations rest
  | none =>
    match s with
    | [] => []
    | _ :: rest => declarations rest
termination_by s.length
decreasing_by
  · exact length_of_declaration? _h
  · simp only [List.length_cons]; omega

def lookup? (style name : String) : Option String :=
  ((declarations style.toList).find? (·.name == name)).map (·.value)

/-! ## The style of an element -/

def text (c : Attributes) : String := (c.get? key).getD ""

def get? (c : Attributes) (name : String) : Option String :=
  (c.get? key).bind (lookup? · name)

/-- Null appends nothing. -/
def set {ρ : Type} (c : Attributes) (name : String) (value : Value ρ) : Attributes :=
  match Attribute.valueOf? value with
  | none => c
  | some value => c.write key (some (text c ++ name ++ ":" ++ value ++ ";"))

inductive Write (α : Type) where
  | declare (name : String) (value : α)
  | align (value : α)
  | textAlign (value : α)
  | background (packed : α)
  | color (packed : α)
  | strikethrough
  deriving Repr

namespace Write

/-- The same write of another value, which an action finds. -/
def mapM {m : Type → Type} [Monad m] {α β : Type} (f : α → m β) : Write α → m (Write β)
  | declare name value => return declare name (← f value)
  | align value => return align (← f value)
  | textAlign value => return textAlign (← f value)
  | background packed => return background (← f packed)
  | color packed => return color (← f packed)
  | strikethrough => return strikethrough

def colorCode {ρ : Type} (typeOfRef : ρ → String) (v : Value ρ) : Except Fault (Value ρ) :=
  match Color.codeOf? v with
  | some code => .ok (.text code)
  | none => .error (.notOperand "&" (v.typeName typeOfRef))

def declaration {ρ : Type} (typeOfRef : ρ → String) :
    Write (Value ρ) → Except Fault (String × Value ρ)
  | declare name value => .ok (name, value)
  | align value => .ok ("align", value)
  | textAlign value => .ok ("text-align", value)
  | background packed => (colorCode typeOfRef packed).map ("background-color", ·)
  | color packed => (colorCode typeOfRef packed).map ("color", ·)
  | strikethrough => .ok ("text-decoration", .text "line-through")

def apply {ρ : Type} (typeOfRef : ρ → String) (c : Attributes) (w : Write (Value ρ)) :
    Except Fault Attributes :=
  (w.declaration typeOfRef).map fun (name, value) => set c name value

end Write

end Hypertext.Style
