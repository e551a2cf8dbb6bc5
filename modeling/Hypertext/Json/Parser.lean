import Hypertext.Fault
import Hypertext.Limits
import Hypertext.Value
import Hypertext.Number.Literal
import Hypertext.Text.Hex

/-! Reading JSON text. Of two fields with one name the last wins; numbers with a fraction or an
exponent are read as the nearest binary number, others as integers; the names of the
infinite and undefined numbers are accepted, and whole numbers have a limit of digits. Lists and
records may be nested up to a depth. The first fault from the left is reported. -/
namespace Hypertext.Json
set_option autoImplicit false

open Number (Literal isDigit ofDigits)

def isSpace (c : Char) : Bool := c == ' ' || c == '\t' || c == '\n' || c == '\r'

def skip (s : List Char) : List Char := s.dropWhile isSpace

/-! ## Texts -/

/-- What stands for a half of a character that has no other half. -/
def replacement : Char := Char.ofNat 0xFFFD

def isHighHalf (n : Nat) : Bool := 0xD800 ≤ n && n ≤ 0xDBFF
def isLowHalf (n : Nat) : Bool := 0xDC00 ≤ n && n ≤ 0xDFFF

def joinHalves (high low : Nat) : Char :=
  Char.ofNat (0x10000 + (high - 0xD800) * 0x400 + (low - 0xDC00))

def charOfUnit (n : Nat) : Char :=
  if isHighHalf n || isLowHalf n then replacement else Char.ofNat n

def shortEscape? : Char → Option Char
  | '"' => some '"'
  | '\\' => some '\\'
  | '/' => some '/'
  | 'b' => some '\x08'
  | 'f' => some '\x0c'
  | 'n' => some '\n'
  | 'r' => some '\r'
  | 't' => some '\t'
  | _ => none

/-- The low half written at the start, if a high half can be joined with it, and what follows.
Digits that are no digits are a fault here already. -/
def lowHalf? : List Char → Except JsonFault (Option (Nat × List Char))
  | '\\' :: 'u' :: a :: b :: c :: d :: e :: rest =>
    match Text.readHex? [a, b, c, d] with
    | none => .error .unicodeEscape
    | some n => .ok (if isLowHalf n then some (n, e :: rest) else none)
  | _ => .ok none

/-- The character of an escape by code, after its `u`, and what follows. A text cannot end right
after the digits. -/
def unicodeEscape : List Char → Except JsonFault (Char × List Char)
  | a :: b :: c :: d :: e :: rest =>
    match Text.readHex? [a, b, c, d] with
    | none => .error .unicodeEscape
    | some n =>
      if isHighHalf n then do
        match ← lowHalf? (e :: rest) with
        | some (low, rest) => return (joinHalves n low, rest)
        | none => return (replacement, e :: rest)
      else .ok (charOfUnit n, e :: rest)
  | _ => .error .unicodeEscape

def escape : List Char → Except JsonFault (Char × List Char)
  | [] => .error .unterminated
  | 'u' :: rest => unicodeEscape rest
  | c :: rest =>
    match shortEscape? c with
    | some d => .ok (d, rest)
    | none => .error .escape

theorem length_of_lowHalf? {s rest : List Char} {n : Nat}
    (h : lowHalf? s = .ok (some (n, rest))) : rest.length < s.length := by
  unfold lowHalf? at h
  split at h
  · split at h
    · cases h
    · split at h
      · obtain ⟨-, rfl⟩ := Prod.mk.inj (Option.some.inj (Except.ok.inj h))
        simp only [List.length_cons]
        omega
      · cases h
  · cases h

theorem length_of_unicodeEscape {s rest : List Char} {c : Char}
    (h : unicodeEscape s = .ok (c, rest)) : rest.length < s.length := by
  unfold unicodeEscape at h
  split at h
  · split at h
    · cases h
    · split at h
      next e after _ _ _ _ =>
        match hlow : lowHalf? (e :: after) with
        | .error fault => simp [hlow, bind, Except.bind] at h
        | .ok none =>
          simp only [hlow, bind, Except.bind, pure, Except.pure] at h
          obtain ⟨-, rfl⟩ := Prod.mk.inj (Except.ok.inj h)
          simp only [List.length_cons]
          omega
        | .ok (some (low, last)) =>
          have := length_of_lowHalf? hlow
          simp only [hlow, bind, Except.bind, pure, Except.pure] at h
          obtain ⟨-, rfl⟩ := Prod.mk.inj (Except.ok.inj h)
          simp only [List.length_cons] at this ⊢
          omega
      · obtain ⟨-, rfl⟩ := Prod.mk.inj (Except.ok.inj h)
        simp only [List.length_cons]
        omega
  · cases h

theorem length_of_escape {s rest : List Char} {c : Char} (h : escape s = .ok (c, rest)) :
    rest.length < s.length := by
  unfold escape at h
  split at h
  · cases h
  next after =>
    have := length_of_unicodeEscape h
    simp only [List.length_cons]
    omega
  · split at h
    · obtain ⟨-, rfl⟩ := Prod.mk.inj (Except.ok.inj h)
      simp only [List.length_cons]
      omega
    · cases h

def text (s : List Char) : Except JsonFault (List Char × List Char) :=
  match s with
  | [] => .error .unterminated
  | '"' :: rest => .ok ([], rest)
  | '\\' :: rest =>
    match _h : escape rest with
    | .error fault => .error fault
    | .ok (c, after) => do
      let (s, after) ← text after
      return (c :: s, after)
  | c :: rest =>
    if c.toNat < 0x20 then .error .control
    else do
      let (s, rest) ← text rest
      return (c :: s, rest)
termination_by s.length
decreasing_by
  · have := length_of_escape _h
    simp only [List.length_cons]
    omega
  · simp only [List.length_cons]
    omega

/-! ## Numbers -/

/-- The digits before the point: a zero, or digits that start with none. -/
def wholePart? : List Char → Option (List Char × List Char)
  | '0' :: rest => some (['0'], rest)
  | c :: rest =>
    if isDigit c then some (c :: rest.takeWhile isDigit, rest.dropWhile isDigit) else none
  | [] => none

/-- The digits after a point; a point without digits is not taken. -/
def fractionPart (s : List Char) : List Char × List Char :=
  match s with
  | '.' :: rest =>
    match rest.takeWhile isDigit with
    | [] => ([], s)
    | digits => (digits, rest.dropWhile isDigit)
  | _ => ([], s)

/-- The exponent; a mark without digits is not taken. -/
def exponentPart (s : List Char) : Option Int × List Char :=
  match s with
  | mark :: rest =>
    if mark = 'e' ∨ mark = 'E' then
      let (negative, rest) := Literal.sign rest
      match rest.takeWhile isDigit with
      | [] => (none, s)
      | digits =>
        let n : Int := ofDigits digits
        (some (if negative then -n else n), rest.dropWhile isDigit)
    else (none, s)
  | [] => (none, s)

variable {ρ : Type}

/-- The whole number of some digits, if they are not too many. -/
def wholeNumber (negative : Bool) (digits : List Char) : Except JsonFault Int :=
  if digitLimit < digits.length then .error (.digitsTooMany digits.length)
  else
    let n : Int := ofDigits digits
    .ok (if negative then -n else n)

def number (s : List Char) : Except JsonFault (Value ρ × List Char) :=
  let (negative, rest) := match s with
    | '-' :: rest => (true, rest)
    | rest => (false, rest)
  match wholePart? rest with
  | none => .error .value
  | some (whole, rest) =>
    let (fraction, rest) := fractionPart rest
    let (power, rest) := exponentPart rest
    if fraction = [] ∧ power = none then
      (wholeNumber negative whole).map fun n => (.int n, rest)
    else .ok (.float (Literal.value ⟨negative, whole, fraction, power.getD 0⟩), rest)

/-! ## Values -/

def word (s : List Char) : Except JsonFault (Value ρ × List Char) :=
  match s with
  | 'n' :: 'u' :: 'l' :: 'l' :: rest => .ok (.null, rest)
  | 't' :: 'r' :: 'u' :: 'e' :: rest => .ok (.bool true, rest)
  | 'f' :: 'a' :: 'l' :: 's' :: 'e' :: rest => .ok (.bool false, rest)
  | 'N' :: 'a' :: 'N' :: rest => .ok (.float .undefined, rest)
  | 'I' :: 'n' :: 'f' :: 'i' :: 'n' :: 'i' :: 't' :: 'y' :: rest =>
    .ok (.float (.infinite false), rest)
  | '-' :: 'I' :: 'n' :: 'f' :: 'i' :: 'n' :: 'i' :: 't' :: 'y' :: rest =>
    .ok (.float (.infinite true), rest)
  | s => number s

/-- A later field takes the place of an earlier one of its name. -/
def putField (fields : List (String × Value ρ)) (name : String) (v : Value ρ) :
    List (String × Value ρ) :=
  if fields.any (·.1 == name) then
    fields.map fun field => if field.1 == name then (name, v) else field
  else fields ++ [(name, v)]

mutual

/-- The value at the start of a text, within so many more lists and records. -/
def value (depth : Nat) : Nat → List Char → Except JsonFault (Value ρ × List Char)
  | 0, _ => .error .value
  | fuel + 1, s =>
    match s with
    | '"' :: rest => do
      let (t, rest) ← text rest
      return (.text (String.ofList t), rest)
    | '[' :: rest =>
      match depth, skip rest with
      | 0, _ => .error (.nestedTooDeep "array")
      | _ + 1, ']' :: rest => .ok (.list [], rest)
      | depth + 1, rest => do
        let (items, rest) ← items depth fuel rest
        return (.list items, rest)
    | '\x7b' :: rest =>
      match depth, skip rest with
      | 0, _ => .error (.nestedTooDeep "object")
      | _ + 1, '\x7d' :: rest => .ok (.record [], rest)
      | depth + 1, rest => do
        let (found, rest) ← fields depth fuel [] rest
        return (.record found, rest)
    | s => word s

def items (depth : Nat) : Nat → List Char → Except JsonFault (List (Value ρ) × List Char)
  | 0, _ => .error .value
  | fuel + 1, s => do
    let (v, rest) ← value depth fuel s
    match skip rest with
    | ']' :: rest => return ([v], rest)
    | ',' :: rest =>
      let (vs, rest) ← items depth fuel (skip rest)
      return (v :: vs, rest)
    | _ => .error .comma

def fields (depth : Nat) : Nat → List (String × Value ρ) → List Char →
    Except JsonFault (List (String × Value ρ) × List Char)
  | 0, _, _ => .error .value
  | fuel + 1, found, s =>
    match s with
    | '"' :: rest => do
      let (name, rest) ← text rest
      match skip rest with
      | ':' :: rest =>
        let (v, rest) ← value depth fuel (skip rest)
        let found := putField found (String.ofList name) v
        match skip rest with
        | '\x7d' :: rest => return (found, rest)
        | ',' :: rest => fields depth fuel found (skip rest)
        | _ => .error .comma
      | _ => .error .colon
    | _ => .error .propertyName

end

/-- The value that a text stands for. Of two nested calls at least one takes up a character, so
twice the length of the text suffices as fuel. -/
def read (limits : Limits) (s : List Char) : Except JsonFault (Value ρ) :=
  match s with
  | '\uFEFF' :: _ => .error .byteOrderMark
  | s => do
    let (v, rest) ← value limits.depth (2 * s.length + 2) (skip s)
    if skip rest = [] then return v else .error .extraData

end Hypertext.Json
