import Hypertext.Json.Parser
import Hypertext.Json.Printer
import Hypertext.Proofs.Digits

/-! JSON text of scalars, read back. Each character of a text is read back from its escape,
whatever follows, and a whole number from its digits, unless they are too many. The main
statements are `text_printText` and `number_integerChars`. -/
namespace Hypertext
set_option autoImplicit false

open Number (isDigit)

namespace Text

/-! ## Digits in base sixteen -/

theorem hexDigits_lt (letters : HexCase) (width n : Nat) :
    ∀ c ∈ hexDigits letters width n, c.toNat < 0x80 :=
  hexDigits_all letters (by cases letters <;> decide) width n

theorem readHex?_concat (digits : List Char) (c : Char) :
    readHex? (digits ++ [c]) = (do return 16 * (← readHex? digits) + (← hexValue? c)) := by
  rw [readHex?, List.foldl_append]
  rfl

theorem readHex?_hexDigits (letters : HexCase) (width n : Nat) :
    readHex? (hexDigits letters width n) = some (n % 16 ^ width) := by
  induction width generalizing n with
  | zero => rw [Nat.pow_zero, Nat.mod_one]; rfl
  | succ width ih =>
    rw [hexDigits, readHex?_concat, ih, hexValue?_hexDigit letters _ (Nat.mod_lt _ (by omega))]
    show some (16 * (n / 16 % 16 ^ width) + n % 16) = _
    rw [Nat.pow_succ, Nat.mul_comm (16 ^ width), Nat.mod_mul, Nat.add_comm]

/-- Four digits as one list, which is how they are read. -/
theorem exists_hexDigits_four (letters : HexCase) (n : Nat) :
    ∃ a b c d, hexDigits letters 4 n = [a, b, c, d] :=
  ⟨_, _, _, _, rfl⟩

end Text

namespace Json

/-! ## Characters -/

/-- The code of a character is never that of a half. -/
theorem not_isHalf (c : Char) : isHighHalf c.toNat = false ∧ isLowHalf c.toNat = false := by
  have valid : c.toNat < 0xD800 ∨ 0xDFFF < c.toNat ∧ c.toNat < 0x110000 := c.valid
  simp only [isHighHalf, isLowHalf, Bool.and_eq_false_iff, decide_eq_false_iff_not]
  omega

theorem toNat_lt (c : Char) : c.toNat < 0x110000 := by
  have valid : c.toNat < 0xD800 ∨ 0xDFFF < c.toNat ∧ c.toNat < 0x110000 := c.valid
  omega

/-- An escape by code that is no high half stands for its character. -/
theorem escape_codeUnit {n : Nat} (hn : n < 0x10000) (high : isHighHalf n = false)
    {rest : List Char} (more : rest ≠ []) :
    escape ('u' :: Text.hexDigits .lower 4 n ++ rest) = .ok (charOfUnit n, rest) := by
  obtain ⟨e, rest, rfl⟩ := List.exists_cons_of_ne_nil more
  obtain ⟨a, b, c, d, hdigits⟩ := Text.exists_hexDigits_four .lower n
  have hread := Text.readHex?_hexDigits .lower 4 n
  have small : n % 16 ^ 4 = n := Nat.mod_eq_of_lt hn
  rw [small, hdigits] at hread
  rw [hdigits]
  show unicodeEscape (a :: b :: c :: d :: e :: rest) = _
  rw [unicodeEscape, hread]
  simp only [high, Bool.false_eq_true, if_false]

/-- A high half and the low half after it stand for one character. -/
theorem escape_halves {high low : Nat} (hhigh : isHighHalf high = true)
    (hlow : isLowHalf low = true) {rest : List Char} (more : rest ≠ []) :
    escape ('u' :: Text.hexDigits .lower 4 high ++ (codeUnit low ++ rest)) =
      .ok (joinHalves high low, rest) := by
  obtain ⟨e, rest, rfl⟩ := List.exists_cons_of_ne_nil more
  obtain ⟨a, b, c, d, hdigits⟩ := Text.exists_hexDigits_four .lower high
  obtain ⟨a', b', c', d', hdigits'⟩ := Text.exists_hexDigits_four .lower low
  have bounds : high < 16 ^ 4 ∧ low < 16 ^ 4 := by
    simp only [isHighHalf, isLowHalf, Bool.and_eq_true, decide_eq_true_eq] at hhigh hlow
    omega
  have hread := Text.readHex?_hexDigits .lower 4 high
  have hread' := Text.readHex?_hexDigits .lower 4 low
  rw [Nat.mod_eq_of_lt bounds.1, hdigits] at hread
  rw [Nat.mod_eq_of_lt bounds.2, hdigits'] at hread'
  rw [codeUnit, hdigits, hdigits']
  show unicodeEscape (a :: b :: c :: d :: '\\' :: 'u' :: a' :: b' :: c' :: d' :: e :: rest) = _
  rw [unicodeEscape, hread]
  simp only [hhigh, if_true, lowHalf?, hread', hlow]
  rfl

/-- The halves of a character above the basic plane give it back. -/
theorem joinHalves_eq {c : Char} (above : 0x10000 ≤ c.toNat) :
    joinHalves (0xD800 + (c.toNat - 0x10000) / 0x400) (0xDC00 + (c.toNat - 0x10000) % 0x400) =
      c := by
  have hcode : 0x10000 + (0xD800 + (c.toNat - 0x10000) / 0x400 - 0xD800) * 0x400 +
      (0xDC00 + (c.toNat - 0x10000) % 0x400 - 0xDC00) = c.toNat := by
    omega
  rw [joinHalves, hcode, Char.ofNat_toNat]

theorem isHalf_of_above {c : Char} (above : 0x10000 ≤ c.toNat) :
    isHighHalf (0xD800 + (c.toNat - 0x10000) / 0x400) = true ∧
      isLowHalf (0xDC00 + (c.toNat - 0x10000) % 0x400) = true := by
  have hlt := toNat_lt c
  simp only [isHighHalf, isLowHalf, Bool.and_eq_true, decide_eq_true_eq]
  omega

/-! ## Texts -/

theorem text_escape {s rest : List Char} {c : Char} (h : escape s = .ok (c, rest)) :
    text ('\\' :: s) = (text rest).map fun read => (c :: read.1, read.2) := by
  rw [text]
  split
  next h' => rw [h] at h'; cases h'
  next h' =>
    obtain ⟨rfl, rfl⟩ := Prod.mk.inj (Except.ok.inj (h.symm.trans h'))
    cases text _ <;> rfl

theorem text_codeUnits (c : Char) {rest : List Char} (more : rest ≠ []) :
    text (codeUnits c ++ rest) = (text rest).map fun read => (c :: read.1, read.2) := by
  rw [codeUnits]
  split
  next below =>
    have hchar : charOfUnit c.toNat = c := by
      rw [charOfUnit, (not_isHalf c).1, (not_isHalf c).2, Char.ofNat_toNat]
      rfl
    have hescape := escape_codeUnit below (not_isHalf c).1 more
    rw [hchar] at hescape
    exact text_escape hescape
  next above =>
    have halves := isHalf_of_above (c := c) (by omega)
    have hescape := escape_halves halves.1 halves.2 more
    rw [joinHalves_eq (by omega)] at hescape
    rw [List.append_assoc]
    exact text_escape hescape

/-- A character that is neither a control character nor special stands for itself. -/
theorem text_plain {c : Char} (quote : c ≠ '"') (slash : c ≠ '\\') (printed : 0x20 ≤ c.toNat)
    (rest : List Char) :
    text (c :: rest) = (text rest).map fun read => (c :: read.1, read.2) := by
  rw [text]
  · rw [if_neg (by omega)]
    cases text rest <;> rfl
  · exact quote
  · exact slash

/-- What is written for a character is read as that character. -/
theorem text_escapedChar (c : Char) {rest : List Char} (more : rest ≠ []) :
    text (escapedChar c ++ rest) = (text rest).map fun read => (c :: read.1, read.2) := by
  rw [escapedChar]
  split
  next h => subst h; exact text_escape rfl
  split
  next h => subst h; exact text_escape rfl
  split
  next h => subst h; exact text_escape rfl
  split
  next h => subst h; exact text_escape rfl
  split
  next h => subst h; exact text_escape rfl
  split
  next h => subst h; exact text_escape rfl
  split
  next h => subst h; exact text_escape rfl
  split
  next quote slash _ _ _ _ _ printed => exact text_plain quote slash printed.1 rest
  next => exact text_codeUnits c more

/-- A printed text is read back after its first mark. -/
theorem text_printText (s rest : List Char) :
    text (s.flatMap escapedChar ++ '"' :: rest) = .ok (s, rest) := by
  induction s with
  | nil =>
    show text ('"' :: rest) = _
    rw [text]
  | cons c s ih =>
    rw [List.flatMap_cons, List.append_assoc, text_escapedChar c (by simp), ih]
    rfl

/-! ## Characters in use -/

/-- Whether only characters of ASCII are used. -/
def IsAscii (s : List Char) : Prop := ∀ c ∈ s, c.toNat < 0x80

theorem isAscii_nil : IsAscii [] := fun _ hc => absurd hc List.not_mem_nil

theorem isAscii_of_all {s : List Char} (h : s.all (·.toNat < 0x80) = true) : IsAscii s :=
  fun c hc => of_decide_eq_true (List.all_eq_true.1 h c hc)

theorem isAscii_cons {c : Char} {s : List Char} (first : c.toNat < 0x80) (rest : IsAscii s) :
    IsAscii (c :: s) := fun d hd => (List.mem_cons.1 hd).elim (fun h => h ▸ first) (rest d)

theorem isAscii_append {s t : List Char} (first : IsAscii s) (second : IsAscii t) :
    IsAscii (s ++ t) := fun c hc => (List.mem_append.1 hc).elim (first c) (second c)

theorem isAscii_codeUnit (n : Nat) : IsAscii (codeUnit n) :=
  isAscii_cons (by decide) (isAscii_cons (by decide) (Text.hexDigits_lt .lower 4 n))

theorem isAscii_escapedChar (c : Char) : IsAscii (escapedChar c) := by
  have short (d : Char) (hd : d.toNat < 0x80) : IsAscii ['\\', d] :=
    isAscii_cons (by decide) (isAscii_cons hd isAscii_nil)
  rw [escapedChar]
  split
  · exact short _ (by decide)
  split
  · exact short _ (by decide)
  split
  · exact short _ (by decide)
  split
  · exact short _ (by decide)
  split
  · exact short _ (by decide)
  split
  · exact short _ (by decide)
  split
  · exact short _ (by decide)
  split
  next printed => exact isAscii_cons (by omega) isAscii_nil
  next =>
    rw [codeUnits]
    split
    · exact isAscii_codeUnit _
    · exact isAscii_append (isAscii_codeUnit _) (isAscii_codeUnit _)

theorem isAscii_printText (s : List Char) : IsAscii (printText s) := by
  refine isAscii_cons (by decide) (isAscii_append ?_
    (isAscii_cons (by decide) isAscii_nil))
  intro c hc
  obtain ⟨d, _, hc⟩ := List.mem_flatMap.1 hc
  exact isAscii_escapedChar d c hc

theorem isAscii_integerChars (i : Int) : IsAscii (Number.integerChars i) := by
  have digits (n : Nat) : IsAscii (Number.digits n) := by
    intro c hc
    have digit := List.all_eq_true.1 (Number.all_isDigit_digits n) c hc
    rw [isDigit, Bool.and_eq_true, decide_eq_true_eq, decide_eq_true_eq] at digit
    have hle : c.toNat ≤ '9'.toNat := digit.2
    exact Nat.lt_of_le_of_lt hle (by decide)
  cases i with
  | ofNat n => exact digits n
  | negSucc n => exact isAscii_cons (by decide) (digits (n + 1))

/-! ## Whole numbers -/

/-- A number stops before what follows: no digit, no point and no mark of an exponent. -/
def EndsNumber (rest : List Char) : Prop :=
  ∀ c more, rest = c :: more → isDigit c = false ∧ c ≠ '.' ∧ c ≠ 'e' ∧ c ≠ 'E'

section Numbers

variable {rest : List Char} (ends : EndsNumber rest)
include ends

theorem span_digits {digits : List Char} (all : digits.all isDigit = true) :
    (digits ++ rest).takeWhile isDigit = digits ∧ (digits ++ rest).dropWhile isDigit = rest := by
  have stop : rest.takeWhile isDigit = [] ∧ rest.dropWhile isDigit = rest := by
    cases rest with
    | nil => exact ⟨rfl, rfl⟩
    | cons c more =>
      have hc := (ends c more rfl).1
      rw [List.takeWhile_cons, List.dropWhile_cons, hc]
      exact ⟨rfl, rfl⟩
  rw [List.all_eq_true] at all
  rw [List.takeWhile_append_of_pos all, List.dropWhile_append_of_pos all, stop.1, stop.2,
    List.append_nil]
  exact ⟨rfl, rfl⟩

theorem wholePart?_digits (n : Nat) :
    wholePart? (Number.digits n ++ rest) = some (Number.digits n, rest) := by
  obtain rfl | pos := Nat.eq_zero_or_pos n
  · rw [Number.digits, if_pos (by omega)]
    rfl
  · obtain ⟨c, more, hdigits⟩ := List.exists_cons_of_ne_nil (Number.digits_ne_nil n)
    have all := Number.all_isDigit_digits n
    have first : c ≠ '0' := Number.head_digits_ne_zero pos hdigits
    rw [hdigits] at all ⊢
    rw [List.all_cons, Bool.and_eq_true] at all
    rw [List.cons_append, wholePart?]
    · rw [if_pos all.1, (span_digits ends all.2).1, (span_digits ends all.2).2]
    · exact first

theorem fractionPart_of_ends : fractionPart rest = ([], rest) := by
  rw [fractionPart]
  exact fun more h => (ends '.' more h).2.1 rfl

theorem exponentPart_of_ends : exponentPart rest = (none, rest) := by
  cases rest with
  | nil => rfl
  | cons c more =>
    have hc := (ends c more rfl).2.2
    rw [exponentPart, if_neg (not_or.2 hc)]

end Numbers

section Numbers

variable {ρ : Type} {rest : List Char} (ends : EndsNumber rest)
include ends

theorem number_of_sign {s digits : List Char} {negative : Bool}
    (signed : (match s with | '-' :: rest => (true, rest) | rest => (false, rest)) =
      (negative, digits ++ rest))
    (whole : wholePart? (digits ++ rest) = some (digits, rest)) :
    number (ρ := ρ) s = (wholeNumber negative digits).map fun i => (.int i, rest) := by
  unfold number
  split
  next h =>
    obtain ⟨rfl, rfl⟩ := Prod.mk.inj (h.symm.trans signed)
    simp only [whole, fractionPart_of_ends ends, exponentPart_of_ends ends, and_self, if_true]

theorem number_digits (n : Nat) :
    number (ρ := ρ) (Number.digits n ++ rest) =
      (wholeNumber false (Number.digits n)).map fun i => (.int i, rest) := by
  refine number_of_sign ends ?_ (wholePart?_digits ends n)
  obtain ⟨c, more, hdigits⟩ := List.exists_cons_of_ne_nil (Number.digits_ne_nil n)
  have all := Number.all_isDigit_digits n
  rw [hdigits, List.all_cons, Bool.and_eq_true] at all
  rw [hdigits, List.cons_append]
  split
  next h =>
    obtain ⟨rfl, _⟩ := List.cons.inj h
    exact absurd all.1 (by decide)
  next => rfl

theorem number_negative (n : Nat) :
    number (ρ := ρ) ('-' :: (Number.digits n ++ rest)) =
      (wholeNumber true (Number.digits n)).map fun i => (.int i, rest) :=
  number_of_sign ends rfl (wholePart?_digits ends n)

end Numbers

end Json

end Hypertext
