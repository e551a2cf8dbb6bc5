import Hypertext.Proofs.JsonScalars
import Hypertext.Proofs.Sorting

/-! JSON text of values, read back. Texts, truth values, whole numbers that are not too long, lists
and records with distinct names come back as they were, apart from origins and with the fields
sorted, in both layouts and whatever follows, if they are not nested deeper than is read. The main
statements are `read_print`, and `isAscii_print` about the characters that are used. -/
namespace Hypertext
set_option autoImplicit false

open Number (isDigit)

/-! ## Values with exact text -/

/-- Whether a scalar is read as it was written. -/
def Scalar.IsExact : Scalar → Prop
  | .null | .bool _ | .text _ => True
  | .int i => (Number.digits i.natAbs).length ≤ digitLimit
  | .float _ | .choice _ => False

namespace Value

variable {ρ : Type}

mutual

def IsExact : Value ρ → Prop
  | .scalar s => s.IsExact
  | .list items => AllExact items
  | .record fields => (fields.map (·.1)).Nodup ∧ FieldsExact fields
  | .ref _ | .renderer .. => False
  | .made _ v => IsExact v

def AllExact : List (Value ρ) → Prop
  | [] => True
  | v :: rest => IsExact v ∧ AllExact rest

def FieldsExact : List (String × Value ρ) → Prop
  | [] => True
  | (_, v) :: rest => IsExact v ∧ FieldsExact rest

end

mutual

/-- How deep lists and records are nested in a value. -/
def nesting : Value ρ → Nat
  | .list items => nestingOfAll items + 1
  | .record fields => nestingOfFields fields + 1
  | .made _ v => nesting v
  | .scalar _ | .ref _ | .renderer .. => 0

def nestingOfAll : List (Value ρ) → Nat
  | [] => 0
  | v :: rest => max (nesting v) (nestingOfAll rest)

def nestingOfFields : List (String × Value ρ) → Nat
  | [] => 0
  | (_, v) :: rest => max (nesting v) (nestingOfFields rest)

end

end Value

namespace Json

variable {ρ : Type}

/-! ## Gaps -/

def IsGap (gap : List Char) : Prop := ∀ c ∈ gap, isSpace c = true

/-- A layout that indents with spaces. -/
def Layout.IsBlank : Layout → Prop
  | .compact => True
  | .lines unit => IsGap unit.toList

theorem isGap_lineBreak {unit : String} (blank : IsGap unit.toList) (level : Nat) :
    IsGap (lineBreak unit level) := by
  intro c hc
  rw [lineBreak, List.mem_cons, List.mem_flatten] at hc
  obtain rfl | ⟨part, hpart, hc⟩ := hc
  · rfl
  · rw [List.eq_of_mem_replicate hpart] at hc
    exact blank c hc

theorem skip_of_head {c : Char} (h : isSpace c = false) (more : List Char) :
    skip (c :: more) = c :: more := by
  rw [skip, List.dropWhile_cons, h]
  rfl

theorem skip_space (rest : List Char) : skip (' ' :: rest) = skip rest := rfl

theorem skip_gap {gap : List Char} (blank : IsGap gap) (rest : List Char) :
    skip (gap ++ rest) = skip rest := List.dropWhile_append_of_pos blank

/-- No mark after a value could be a part of a number. -/
theorem endsNumber_mark (mark : Char) (h : mark ∈ [',', ']', '\x7d']) (rest : List Char) :
    EndsNumber (mark :: rest) := by
  rintro c more hmore
  obtain ⟨rfl, _⟩ := List.cons.inj hmore
  simp only [List.mem_cons, List.not_mem_nil, or_false] at h
  obtain rfl | rfl | rfl := h <;> decide

theorem endsNumber_gap {gap : List Char} (blank : IsGap gap) (mark : Char)
    (h : mark ∈ [',', ']', '\x7d']) (rest : List Char) : EndsNumber (gap ++ mark :: rest) := by
  cases gap with
  | nil => exact endsNumber_mark mark h rest
  | cons space gap =>
    rintro c more hmore
    obtain ⟨rfl, _⟩ := List.cons.inj hmore
    have hspace := blank space List.mem_cons_self
    simp only [isSpace, Bool.or_eq_true, beq_iff_eq] at hspace
    obtain ((rfl | rfl) | rfl) | rfl := hspace <;> decide

/-- Parts are enclosed with gaps after the opening mark, after each comma and before the closing
mark. -/
theorem enclose_eq {layout : Layout} (blank : layout.IsBlank) (level : Nat) (left right : Char)
    {parts : List (List Char)} (some : parts ≠ []) :
    ∃ before between after, IsGap before ∧ IsGap between ∧ IsGap after ∧
      enclose layout level left right parts =
        left :: (before ++ ((',' :: between).intercalate parts ++ (after ++ [right]))) := by
  have space : IsGap [' '] := fun c hc => by rw [List.mem_singleton.1 hc]; rfl
  have none : IsGap [] := fun c hc => absurd hc List.not_mem_nil
  obtain ⟨part, parts, rfl⟩ := List.exists_cons_of_ne_nil some
  cases layout with
  | compact => exact ⟨[], [' '], [], none, space, none, rfl⟩
  | lines unit =>
    refine ⟨lineBreak unit (level + 1), lineBreak unit (level + 1), lineBreak unit level,
      isGap_lineBreak blank _, isGap_lineBreak blank _, isGap_lineBreak blank _, ?_⟩
    rw [enclose]
    · simp only [List.cons_append, List.append_assoc]
    · exact fun h => nomatch h

/-! ## Parts read back -/

/-- A text from which a value is read within a depth, whatever follows it. It starts with neither a
space nor the end of a list. Reading it takes no more fuel than twice its length. -/
structure ReadsBack (depth : Nat) (t : List Char) (v : Value ρ) : Prop where
  starts : ∃ c more, t = c :: more ∧ isSpace c = false ∧ c ≠ ']'
  reads : ∀ fuel rest, 2 * t.length ≤ fuel → EndsNumber rest →
    value depth fuel (t ++ rest) = .ok (v, rest)

variable {depth : Nat}

theorem ReadsBack.skip {t : List Char} {v : Value ρ} (h : ReadsBack depth t v) (rest : List Char) :
    skip (t ++ rest) = t ++ rest := by
  obtain ⟨c, more, rfl, hc, _⟩ := h.starts
  exact skip_of_head hc _

section Parts

variable {t : List Char} {v : Value ρ} (back : ReadsBack depth t v) {fuel : Nat}
  (hfuel : 2 * t.length ≤ fuel) {gap : List Char} (blank : IsGap gap)
include back hfuel blank

theorem items_last (rest : List Char) :
    items depth (fuel + 1) (t ++ (gap ++ ']' :: rest)) = .ok ([v], rest) := by
  rw [items, back.reads fuel _ hfuel (endsNumber_gap blank ']' (by decide) rest)]
  simp only [bind, Except.bind, skip_gap blank, skip_of_head (c := ']') rfl]
  rfl

theorem items_next (rest : List Char) :
    items depth (fuel + 1) (t ++ ',' :: (gap ++ rest)) =
      (items depth fuel (skip rest)).map fun read => (v :: read.1, read.2) := by
  rw [items, back.reads fuel _ hfuel (endsNumber_mark ',' (by decide) _)]
  simp only [bind, Except.bind, skip_of_head (c := ',') rfl, skip_gap blank]
  cases items depth fuel (Json.skip rest) with
  | error fault => rfl
  | ok read => rfl

theorem fields_last (name : String) (found : List (String × Value ρ)) (rest : List Char) :
    fields depth (fuel + 1) found (printField (name, t) ++ (gap ++ '\x7d' :: rest)) =
      .ok (putField found name v, rest) := by
  have reads := back.reads fuel _ hfuel (endsNumber_gap blank '\x7d' (by decide) rest)
  rw [printField, printText]
  simp only [List.cons_append, List.append_assoc, List.nil_append]
  rw [fields, text_printText]
  simp only [bind, Except.bind, skip_of_head (c := ':') rfl, skip_space, back.skip, reads,
    skip_gap blank, skip_of_head (c := '\x7d') rfl, String.ofList_toList]
  rfl

theorem fields_next (name : String) (found : List (String × Value ρ)) (rest : List Char) :
    fields depth (fuel + 1) found (printField (name, t) ++ ',' :: (gap ++ rest)) =
      fields depth fuel (putField found name v) (skip rest) := by
  have reads := back.reads fuel _ hfuel (endsNumber_mark ',' (by decide) (gap ++ rest))
  rw [printField, printText]
  simp only [List.cons_append, List.append_assoc, List.nil_append]
  rw [fields, text_printText]
  simp only [bind, Except.bind, skip_of_head (c := ':') rfl, skip_space, back.skip, reads,
    skip_gap blank, skip_of_head (c := ',') rfl, String.ofList_toList]

end Parts

theorem putField_of_new {found : List (String × Value ρ)} {name : String}
    (new : name ∉ found.map (·.1)) (v : Value ρ) : putField found name v = found ++ [(name, v)] := by
  rw [putField, if_neg]
  simpa using new

theorem length_printField (name : String) (t : List Char) :
    t.length < (printField (name, t)).length := by
  show t.length < (printText name.toList ++ ':' :: ' ' :: t).length
  rw [List.length_append, List.length_cons, List.length_cons]
  omega

/-- Parts that are strung together start as the first one does. -/
theorem intercalate_starts {α : Type} (separator : List Char) (t : α → List Char) {a : α} {c : Char}
    (h : ∃ more, t a = c :: more) (parts : List α) :
    ∃ more, separator.intercalate ((a :: parts).map t) = c :: more := by
  obtain ⟨more, h⟩ := h
  cases parts with
  | nil => exact ⟨more, by rw [List.map_singleton, List.intercalate_singleton, h]⟩
  | cons b parts =>
    rw [List.map_cons, List.map_cons, List.intercalate_cons_cons, h, List.append_assoc]
    exact ⟨_, rfl⟩

section Lists

variable {α : Type} {between after : List Char} (hbetween : IsGap between) (hafter : IsGap after)
  (rest : List Char)
include hbetween hafter

/-- The items of a list are read one after the other, by induction on the list. -/
theorem items_intercalate (t : α → List Char) (v : α → Value ρ) {parts : List α}
    (some : parts ≠ []) (back : ∀ a ∈ parts, ReadsBack depth (t a) (v a)) (fuel : Nat)
    (hfuel : 2 * ((',' :: between).intercalate (parts.map t)).length < fuel) :
    items depth fuel ((',' :: between).intercalate (parts.map t) ++ (after ++ ']' :: rest)) =
      .ok (parts.map v, rest) := by
  induction parts generalizing fuel with
  | nil => exact absurd rfl some
  | cons a parts ih =>
    have head := back a List.mem_cons_self
    obtain ⟨fuel, rfl⟩ : ∃ n, fuel = n + 1 := ⟨fuel - 1, by omega⟩
    cases parts with
    | nil =>
      rw [List.map_singleton, List.intercalate_singleton] at hfuel ⊢
      exact items_last head (by omega) hafter rest
    | cons b parts =>
      have tail := ih (by simp) (fun c hc => back c (List.mem_cons_of_mem a hc)) fuel
      rw [List.map_cons, List.intercalate_cons_of_ne_nil (by simp)] at hfuel ⊢
      simp only [List.length_append, List.length_cons] at hfuel
      obtain ⟨c, more, hc, space, _⟩ := (back b (by simp)).starts
      obtain ⟨joined, hjoined⟩ := intercalate_starts (',' :: between) t ⟨more, hc⟩ parts
      rw [List.append_assoc, List.append_assoc, List.cons_append,
        items_next head (by omega) hbetween, hjoined, List.cons_append, skip_of_head space,
        ← List.cons_append, ← hjoined, tail (by omega)]
      rfl

/-- The fields of a record are read one after the other, if no name occurs twice. -/
theorem fields_intercalate (t : α → List Char) (v : α → Value ρ) {parts : List (String × α)}
    (some : parts ≠ []) (back : ∀ part ∈ parts, ReadsBack depth (t part.2) (v part.2)) (fuel : Nat)
    (found : List (String × Value ρ))
    (distinct : (found.map (·.1) ++ parts.map (·.1)).Nodup)
    (hfuel : 2 * ((',' :: between).intercalate
      (parts.map fun part => printField (part.1, t part.2))).length < fuel) :
    fields depth fuel found ((',' :: between).intercalate
        (parts.map fun part => printField (part.1, t part.2)) ++ (after ++ '\x7d' :: rest)) =
      .ok (found ++ parts.map fun part => (part.1, v part.2), rest) := by
  induction parts generalizing fuel found with
  | nil => exact absurd rfl some
  | cons part parts ih =>
    obtain ⟨name, a⟩ := part
    have head : ReadsBack depth (t a) (v a) := back (name, a) List.mem_cons_self
    have new : name ∉ found.map (·.1) := fun h =>
      (List.nodup_append.1 distinct).2.2 name h name List.mem_cons_self rfl
    have hlength := length_printField name (t a)
    obtain ⟨fuel, rfl⟩ : ∃ n, fuel = n + 1 := ⟨fuel - 1, by omega⟩
    cases parts with
    | nil =>
      rw [List.map_singleton, List.intercalate_singleton] at hfuel ⊢
      dsimp only at hfuel
      rw [fields_last head (by omega) hafter, putField_of_new new]
      rfl
    | cons part parts =>
      have tail := ih (by simp) (fun c hc => back c (List.mem_cons_of_mem (name, a) hc))
        fuel (found ++ [(name, v a)]) (by simpa using distinct)
      rw [List.map_cons, List.intercalate_cons_of_ne_nil (by simp)] at hfuel ⊢
      simp only [List.length_append, List.length_cons] at hfuel
      obtain ⟨joined, hjoined⟩ := intercalate_starts (',' :: between)
        (fun part : String × α => printField (part.1, t part.2)) (c := '"') ⟨_, rfl⟩ parts
      rw [List.append_assoc, List.append_assoc, List.cons_append,
        fields_next head (by omega) hbetween, putField_of_new new, hjoined, List.cons_append,
        skip_of_head rfl, ← List.cons_append, ← hjoined, tail (by omega), List.append_assoc]
      rfl

end Lists

/-- No value is read without fuel, so that it suffices to look at some. -/
theorem readsBack_of {c : Char} {more : List Char} {v : Value ρ} (space : isSpace c = false)
    (first : c ≠ ']') (reads : ∀ fuel rest, 2 * more.length < fuel → EndsNumber rest →
      value depth (fuel + 1) (c :: more ++ rest) = .ok (v, rest)) : ReadsBack depth (c :: more) v := by
  refine ⟨⟨c, more, rfl, space, first⟩, fun fuel rest hfuel ends => ?_⟩
  rw [List.length_cons] at hfuel
  obtain ⟨fuel, rfl⟩ : ∃ n, fuel = n + 1 := ⟨fuel - 1, by omega⟩
  exact reads fuel rest (by omega) ends

/-! ## Scalars -/

theorem digits_eq_cons (n : Nat) :
    ∃ c more, Number.digits n = c :: more ∧ isDigit c = true := by
  obtain ⟨c, more, hdigits⟩ := List.exists_cons_of_ne_nil (Number.digits_ne_nil n)
  have all := Number.all_isDigit_digits n
  rw [hdigits, List.all_cons, Bool.and_eq_true] at all
  exact ⟨c, more, hdigits, all.1⟩

theorem ne_of_isDigit {c mark : Char} (digit : isDigit c = true) (h : isDigit mark = false) :
    c ≠ mark := by
  rintro rfl
  rw [digit] at h
  cases h

/-- A digit starts neither a text nor a list, a record or a word. -/
theorem value_digits (n fuel : Nat) (rest : List Char) :
    value (ρ := ρ) depth (fuel + 1) (Number.digits n ++ rest) = number (Number.digits n ++ rest) := by
  obtain ⟨c, more, hdigits, digit⟩ := digits_eq_cons n
  rw [hdigits, List.cons_append, value, word]
  all_goals
    rintro rest h
    obtain ⟨rfl, _⟩ := List.cons.inj h
    exact ne_of_isDigit digit rfl rfl

theorem value_negative (n fuel : Nat) (rest : List Char) :
    value (ρ := ρ) depth (fuel + 1) ('-' :: (Number.digits n ++ rest)) =
      number ('-' :: (Number.digits n ++ rest)) := by
  obtain ⟨c, more, hdigits, digit⟩ := digits_eq_cons n
  rw [hdigits, List.cons_append, value, word]
  all_goals
    rintro rest h
    first
    | exact absurd (List.cons.inj h).1 (by decide)
    | exact ne_of_isDigit digit rfl (List.cons.inj (List.cons.inj h).2).1

/-- A whole number is read, or refused where its digits are too many. -/
theorem value_integerChars (i : Int) (fuel : Nat) {rest : List Char} (ends : EndsNumber rest) :
    value (ρ := ρ) depth (fuel + 1) (Number.integerChars i ++ rest) =
      if digitLimit < (Number.digits i.natAbs).length
      then .error (.digitsTooMany (Number.digits i.natAbs).length) else .ok (.int i, rest) := by
  cases i with
  | ofNat n =>
    rw [Number.integerChars, value_digits, number_digits ends, wholeNumber, Number.ofDigits_digits]
    show Except.map _ (if digitLimit < (Number.digits n).length then _ else _) =
      if digitLimit < (Number.digits n).length then _ else _
    split <;> rfl
  | negSucc n =>
    rw [Number.integerChars, List.cons_append, value_negative, number_negative ends, wholeNumber,
      Number.ofDigits_digits]
    show Except.map _ (if digitLimit < (Number.digits (n + 1)).length then _ else _) =
      if digitLimit < (Number.digits (n + 1)).length then _ else _
    split <;> rfl

theorem integerChars_starts (i : Int) :
    ∃ c more, Number.integerChars i = c :: more ∧ isSpace c = false ∧ c ≠ ']' := by
  cases i with
  | ofNat n =>
    obtain ⟨c, more, hdigits, digit⟩ := digits_eq_cons n
    refine ⟨c, more, hdigits, ?_, ne_of_isDigit digit rfl⟩
    have other (mark : Char) (h : isDigit mark = false) : (c == mark) = false :=
      beq_eq_false_iff_ne.2 (ne_of_isDigit digit h)
    rw [isSpace, other ' ' rfl, other '\t' rfl, other '\n' rfl, other '\r' rfl]
    rfl
  | negSucc n => exact ⟨'-', _, rfl, rfl, by decide⟩

theorem readsBack_scalar {s : Scalar} (exact : s.IsExact) :
    ReadsBack (ρ := ρ) depth (printScalar s) (.scalar s) := by
  match s with
  | .null => exact readsBack_of rfl (by decide) fun _ _ _ _ => rfl
  | .bool true => exact readsBack_of rfl (by decide) fun _ _ _ _ => rfl
  | .bool false => exact readsBack_of rfl (by decide) fun _ _ _ _ => rfl
  | .text s =>
    refine readsBack_of rfl (by decide) fun fuel rest _ _ => ?_
    show value depth (fuel + 1) ('"' :: ((s.toList.flatMap escapedChar ++ ['"']) ++ rest)) = _
    rw [List.append_assoc, List.singleton_append, value, text_printText]
    show Except.ok (Value.text (String.ofList s.toList), rest) = _
    rw [String.ofList_toList]
  | .int i =>
    obtain ⟨c, more, hi, space, first⟩ := integerChars_starts i
    show ReadsBack depth (Number.integerChars i) _
    rw [hi]
    refine readsBack_of space first fun fuel rest _ ends => ?_
    rw [← hi, value_integerChars i fuel ends, if_neg (Nat.not_lt.2 exact)]

/-! ## Lists and records -/

theorem value_list {s : List Char} {c : Char} {more : List Char} (h : skip s = c :: more)
    (hc : c ≠ ']') (fuel : Nat) :
    value (ρ := ρ) (depth + 1) (fuel + 1) ('[' :: s) =
      (items depth fuel (c :: more)).map fun read => (.list read.1, read.2) := by
  rw [value.eq_def]
  simp only [h]
  split
  next impossible => cases impossible
  next h' => exact absurd (List.cons.inj h').1 hc
  next same _ =>
    obtain rfl := Nat.succ.inj same
    cases items depth fuel (c :: more) <;> rfl

theorem value_record {s : List Char} {c : Char} {more : List Char} (h : skip s = c :: more)
    (hc : c ≠ '\x7d') (fuel : Nat) :
    value (ρ := ρ) (depth + 1) (fuel + 1) ('\x7b' :: s) =
      (fields depth fuel [] (c :: more)).map fun read => (.record read.1, read.2) := by
  rw [value.eq_def]
  simp only [h]
  split
  next impossible => cases impossible
  next h' => exact absurd (List.cons.inj h').1 hc
  next same _ =>
    obtain rfl := Nat.succ.inj same
    cases fields depth fuel [] (c :: more) <;> rfl

section Enclosed

variable {α : Type} {layout : Layout} (blank : layout.IsBlank) (level : Nat) (t : α → List Char)
  (v : α → Value ρ)
include blank

theorem readsBack_list {parts : List α} (back : ∀ a ∈ parts, ReadsBack depth (t a) (v a)) :
    ReadsBack (depth + 1) (enclose layout level '[' ']' (parts.map t)) (.list (parts.map v)) := by
  cases parts with
  | nil => exact readsBack_of rfl (by decide) fun _ _ _ _ => rfl
  | cons a parts =>
    obtain ⟨before, between, after, hbefore, hbetween, hafter, henclose⟩ :=
      enclose_eq blank level '[' ']' (show (a :: parts).map t ≠ [] by simp)
    rw [henclose]
    refine readsBack_of rfl (by decide) fun fuel rest hfuel _ => ?_
    simp only [List.length_append] at hfuel
    have reads := items_intercalate hbetween hafter rest t v (by simp) back fuel (by omega)
    obtain ⟨c, more, hc, space, first⟩ := (back a List.mem_cons_self).starts
    obtain ⟨joined, hjoined⟩ := intercalate_starts (',' :: between) t ⟨more, hc⟩ parts
    rw [hjoined] at reads ⊢
    simp only [List.cons_append, List.append_assoc, List.nil_append] at reads ⊢
    rw [value_list ((skip_gap hbefore _).trans (skip_of_head space _)) first, reads]
    rfl

theorem readsBack_record {parts : List (String × α)} (distinct : (parts.map (·.1)).Nodup)
    (back : ∀ part ∈ parts, ReadsBack depth (t part.2) (v part.2)) :
    ReadsBack (depth + 1) (enclose layout level '\x7b' '\x7d'
        (parts.map fun part => printField (part.1, t part.2)))
      (.record (parts.map fun part => (part.1, v part.2))) := by
  cases parts with
  | nil => exact readsBack_of rfl (by decide) fun _ _ _ _ => rfl
  | cons part parts =>
    obtain ⟨before, between, after, hbefore, hbetween, hafter, henclose⟩ :=
      enclose_eq blank level '\x7b' '\x7d'
        (show (part :: parts).map (fun part => printField (part.1, t part.2)) ≠ [] by simp)
    rw [henclose]
    refine readsBack_of rfl (by decide) fun fuel rest hfuel _ => ?_
    simp only [List.length_append] at hfuel
    have reads := fields_intercalate hbetween hafter rest t v (by simp) back fuel [] distinct
      (by omega)
    obtain ⟨joined, hjoined⟩ := intercalate_starts (',' :: between)
      (fun part : String × α => printField (part.1, t part.2)) (c := '"') ⟨_, rfl⟩ parts
    rw [hjoined] at reads ⊢
    simp only [List.cons_append, List.append_assoc, List.nil_append] at reads ⊢
    rw [value_record ((skip_gap hbefore _).trans (skip_of_head rfl _)) (by decide), reads]
    rfl

end Enclosed

/-! ## Values -/

section Print

variable {layout : Layout}

theorem printList_eq_map (level : Nat) (items : List (Value ρ)) :
    printList layout level items = items.map (print layout level) := by
  induction items with
  | nil => rfl
  | cons v items ih => rw [printList, List.map_cons, ih]

theorem printFields_eq_map (level : Nat) (fields : List (String × Value ρ)) :
    printFields layout level fields =
      fields.map fun field => (field.1, print layout level field.2) := by
  induction fields with
  | nil => rfl
  | cons field fields ih =>
    obtain ⟨name, v⟩ := field
    rw [printFields, List.map_cons, ih]

theorem print_list (level : Nat) (items : List (Value ρ)) :
    print layout level (.list items) =
      enclose layout level '[' ']' (items.map (print layout (level + 1))) := by
  rw [print, printList_eq_map]

/-- The fields are printed in the order of their names. -/
theorem print_record (level : Nat) (fields : List (String × Value ρ)) :
    print layout level (.record fields) = enclose layout level '\x7b' '\x7d'
      ((sortFields fields).map fun field =>
        printField (field.1, print layout (level + 1) field.2)) := by
  rw [print, printFields_eq_map, ← map_sortFields, List.map_map]
  rfl

mutual

/-- What is printed of a value with exact text is read back as the sorted value, within a depth that
its nesting does not exceed. -/
theorem readsBack_print (blank : layout.IsBlank) (level depth : Nat) (v : Value ρ)
    (exact : v.IsExact) (within : v.nesting ≤ depth) :
    ReadsBack depth (print layout level v) v.sorted := by
  match v, depth with
  | .scalar s, depth => exact readsBack_scalar exact
  | .list items, depth + 1 =>
    rw [print_list, Value.sorted, Value.sortedList_eq_map]
    exact readsBack_list blank level _ _
      (readsBack_printAll blank (level + 1) depth items exact (Nat.le_of_succ_le_succ within))
  | .record fields, depth + 1 =>
    have back := readsBack_printFields blank (level + 1) depth fields exact.2
      (Nat.le_of_succ_le_succ within)
    rw [print_record, Value.sorted_record]
    refine readsBack_record blank level _ _ ?_ fun field hfield => back field ?_
    · exact (names_sortFields fields).nodup_iff.2 exact.1
    · exact (perm_sortFields fields).mem_iff.1 hfield
  | .made _ v, depth => exact readsBack_print blank level depth v exact within
  | .list _, 0 | .record _, 0 => exact absurd within (Nat.not_succ_le_zero _)
  | .ref _, _ | .renderer .., _ => exact exact.elim

theorem readsBack_printAll (blank : layout.IsBlank) (level depth : Nat) (items : List (Value ρ))
    (exact : Value.AllExact items) (within : Value.nestingOfAll items ≤ depth) :
    ∀ v ∈ items, ReadsBack depth (print layout level v) v.sorted := by
  match items with
  | [] => exact fun v hv => absurd hv List.not_mem_nil
  | v :: rest =>
    intro w hw
    obtain ⟨head, tail⟩ := Nat.max_le.1 within
    obtain hw | hw := List.mem_cons.1 hw
    · rw [hw]
      exact readsBack_print blank level depth v exact.1 head
    · exact readsBack_printAll blank level depth rest exact.2 tail w hw

theorem readsBack_printFields (blank : layout.IsBlank) (level depth : Nat)
    (fields : List (String × Value ρ)) (exact : Value.FieldsExact fields)
    (within : Value.nestingOfFields fields ≤ depth) :
    ∀ field ∈ fields, ReadsBack depth (print layout level field.2) field.2.sorted := by
  match fields with
  | [] => exact fun v hv => absurd hv List.not_mem_nil
  | (name, v) :: rest =>
    intro field hfield
    obtain ⟨head, tail⟩ := Nat.max_le.1 within
    obtain hfield | hfield := List.mem_cons.1 hfield
    · rw [hfield]
      exact readsBack_print blank level depth v exact.1 head
    · exact readsBack_printFields blank level depth rest exact.2 tail field hfield

end

/-! ## Characters in use -/

theorem IsGap.isAscii {gap : List Char} (blank : IsGap gap) : IsAscii gap := by
  intro c hc
  have space := blank c hc
  simp only [isSpace, Bool.or_eq_true, beq_iff_eq] at space
  obtain ((rfl | rfl) | rfl) | rfl := space <;> decide

theorem isAscii_intercalate {separator : List Char} (between : IsAscii separator)
    {parts : List (List Char)} (each : ∀ part ∈ parts, IsAscii part) :
    IsAscii (separator.intercalate parts) := by
  induction parts with
  | nil => exact isAscii_nil
  | cons part parts ih =>
    have head := each part List.mem_cons_self
    cases parts with
    | nil => rwa [List.intercalate_singleton]
    | cons other parts =>
      rw [List.intercalate_cons_cons]
      exact isAscii_append (isAscii_append head between)
        (ih fun part hpart => each part (List.mem_cons_of_mem _ hpart))

theorem isAscii_enclose (blank : layout.IsBlank) (level : Nat) {left right : Char}
    (hleft : left.toNat < 0x80) (hright : right.toNat < 0x80) {parts : List (List Char)}
    (each : ∀ part ∈ parts, IsAscii part) : IsAscii (enclose layout level left right parts) := by
  by_cases some : parts = []
  · subst some
    exact isAscii_cons hleft (isAscii_cons hright isAscii_nil)
  · obtain ⟨before, between, after, hbefore, hbetween, hafter, henclose⟩ :=
      enclose_eq blank level left right some
    rw [henclose]
    refine isAscii_cons hleft (isAscii_append hbefore.isAscii (isAscii_append ?_
      (isAscii_append hafter.isAscii (isAscii_cons hright isAscii_nil))))
    exact isAscii_intercalate (isAscii_cons (by decide) hbetween.isAscii) each

theorem isAscii_printField (name : String) {t : List Char} (h : IsAscii t) :
    IsAscii (printField (name, t)) :=
  isAscii_append (isAscii_printText _) (isAscii_cons (by decide) (isAscii_cons (by decide) h))

mutual

theorem isAscii_print (blank : layout.IsBlank) (level : Nat) (v : Value ρ) (exact : v.IsExact) :
    IsAscii (print layout level v) := by
  match v with
  | .null => exact (isAscii_of_all (by decide) : IsAscii (printScalar .null))
  | .bool true => exact (isAscii_of_all (by decide) : IsAscii (printScalar (.bool true)))
  | .bool false => exact (isAscii_of_all (by decide) : IsAscii (printScalar (.bool false)))
  | .int i => exact isAscii_integerChars i
  | .text s => exact isAscii_printText s.toList
  | .list items =>
    rw [print_list]
    refine isAscii_enclose blank level (by decide) (by decide) fun part hpart => ?_
    obtain ⟨v, hv, rfl⟩ := List.mem_map.1 hpart
    exact isAscii_printAll blank (level + 1) items exact v hv
  | .record fields =>
    rw [print_record]
    refine isAscii_enclose blank level (by decide) (by decide) fun part hpart => ?_
    obtain ⟨field, hfield, rfl⟩ := List.mem_map.1 hpart
    exact isAscii_printField _ (isAscii_printFields blank (level + 1) fields exact.2 field
      ((perm_sortFields fields).mem_iff.1 hfield))
  | .made _ v => exact isAscii_print blank level v exact
  | .float _ | .choice _ | .ref _ | .renderer .. => exact exact.elim

theorem isAscii_printAll (blank : layout.IsBlank) (level : Nat) (items : List (Value ρ))
    (exact : Value.AllExact items) : ∀ v ∈ items, IsAscii (print layout level v) := by
  match items with
  | [] => exact fun v hv => absurd hv List.not_mem_nil
  | v :: rest =>
    intro w hw
    obtain hw | hw := List.mem_cons.1 hw
    · rw [hw]
      exact isAscii_print blank level v exact.1
    · exact isAscii_printAll blank level rest exact.2 w hw

theorem isAscii_printFields (blank : layout.IsBlank) (level : Nat)
    (fields : List (String × Value ρ)) (exact : Value.FieldsExact fields) :
    ∀ field ∈ fields, IsAscii (print layout level field.2) := by
  match fields with
  | [] => exact fun v hv => absurd hv List.not_mem_nil
  | (name, v) :: rest =>
    intro field hfield
    obtain hfield | hfield := List.mem_cons.1 hfield
    · rw [hfield]
      exact isAscii_print blank level v exact.1
    · exact isAscii_printFields blank level rest exact.2 field hfield

end

/-! ## Whole texts -/

mutual

theorem fault?_eq_none (ofRef : ρ → String) (v : Value ρ) (exact : v.IsExact) :
    fault? ofRef v = none := by
  match v with
  | .null | .bool _ | .text _ => rfl
  | .int i =>
    show (if (Scalar.int i).isTooLong then some Fault.numberTooLong else none) = none
    rw [Scalar.isTooLong, decide_eq_false (Nat.not_lt.2 exact)]
    rfl
  | .list items => exact faultOfList?_eq_none ofRef items exact
  | .record fields =>
    rw [fault?, List.findSome?_eq_none_iff]
    exact fun part hpart => faultsOfFields_eq_none ofRef fields exact.2 part
      ((perm_sortFields _).mem_iff.1 hpart)
  | .made _ v => exact fault?_eq_none ofRef v exact
  | .float _ | .choice _ | .ref _ | .renderer .. => exact exact.elim

theorem faultOfList?_eq_none (ofRef : ρ → String) (items : List (Value ρ))
    (exact : Value.AllExact items) : faultOfList? ofRef items = none := by
  match items with
  | [] => rfl
  | v :: rest =>
    rw [faultOfList?, fault?_eq_none ofRef v exact.1, faultOfList?_eq_none ofRef rest exact.2]
    rfl

theorem faultsOfFields_eq_none (ofRef : ρ → String) (fields : List (String × Value ρ))
    (exact : Value.FieldsExact fields) : ∀ part ∈ faultsOfFields ofRef fields, part.2 = none := by
  match fields with
  | [] => exact fun part hpart => absurd hpart List.not_mem_nil
  | (name, v) :: rest =>
    intro part hpart
    obtain hpart | hpart := List.mem_cons.1 hpart
    · rw [hpart]
      exact fault?_eq_none ofRef v exact.1
    · exact faultsOfFields_eq_none ofRef rest exact.2 part hpart

end

theorem write_eq_ok (ofRef : ρ → String) (layout : Layout) {v : Value ρ} (exact : v.IsExact) :
    write ofRef layout v = .ok (String.ofList (print layout 0 v)) := by
  rw [write, fault?_eq_none ofRef v exact]

variable {limits : Limits}

/-- The text of a value with exact text stands for the sorted value. -/
theorem read_print (blank : layout.IsBlank) (v : Value ρ) (exact : v.IsExact)
    (within : v.nesting ≤ limits.depth) : read limits (print layout 0 v) = .ok v.sorted := by
  have back := readsBack_print blank 0 limits.depth v exact within
  have ascii := isAscii_print blank 0 v exact
  obtain ⟨c, more, hprint, space, _⟩ := back.starts
  have reads := back.reads (2 * (print layout 0 v).length + 2) [] (by omega) (fun _ _ h => nomatch h)
  rw [List.append_nil] at reads
  rw [hprint] at reads ascii ⊢
  rw [read, skip_of_head space, reads]
  · rfl
  · rintro rest h
    obtain ⟨rfl, _⟩ := List.cons.inj h
    exact absurd (ascii _ List.mem_cons_self) (by decide)

end Print

end Json

end Hypertext
