import Mathlib.Data.List.TakeWhile
import Hypertext.Proofs.Patterns

/-! Styles segment by segment. No declaration reaches over a semicolon, so that a style declares
what its segments between semicolons declare, each at most one thing. The main statements are
`declarations_append`, that a semicolon ends what comes before it, and `get?_by_segments`. -/
namespace Hypertext.Style
set_option autoImplicit false

variable {s rest : List Char} {d : Declaration}

/-! ## No declaration reaches over a semicolon -/

section
variable {p : Char → Bool}

theorem takeWhile_semicolon (stops : p ';' = false) (s t : List Char) :
    (s ++ ';' :: t).takeWhile p = s.takeWhile p := by
  induction s with
  | nil => simp [stops]
  | cons c s ih => cases h : p c <;> simp [h, ih]

theorem dropWhile_semicolon (stops : p ';' = false) (s t : List Char) :
    (s ++ ';' :: t).dropWhile p = s.dropWhile p ++ ';' :: t := by
  induction s with
  | nil => simp [stops]
  | cons c s ih => cases h : p c <;> simp [h, ih]

end

theorem name?_semicolon (s t : List Char) :
    name? (s ++ ';' :: t) = (name? s).map (Prod.map id (· ++ ';' :: t)) := by
  have take := takeWhile_semicolon (p := isNameChar) (by decide)
  have drop := dropWhile_semicolon (p := isNameChar) (by decide)
  have letter : isLetter ';' = false := by decide
  have hyphen : isLetter '-' = false := by decide
  cases s with
  | nil => rfl
  | cons c s =>
    by_cases hc : c = '-'
    · subst hc
      cases s with
      | nil => simp [name?, letter, hyphen]
      | cons d s => cases h : isLetter d <;> simp [name?, h, take, drop]
    · cases h : isLetter c <;> simp [name?, hc, h, take, drop]

theorem value?_semicolon (s t : List Char) :
    value? (s ++ ';' :: t) = (value? s).map (Prod.map id (· ++ ';' :: t)) := by
  have blanks : Text.isBlank ';' = false := by decide
  have closes : (';' != ';') = false := by decide
  have take := takeWhile_semicolon (p := (· != ';')) closes
  have drop := dropWhile_semicolon (p := (· != ';')) closes
  rw [value?, value?, takeWhile_semicolon blanks, dropWhile_semicolon blanks, take, drop]
  split
  next h => simp [Function.comp_def]
  next => rfl

theorem declaration?_semicolon (s t : List Char) :
    declaration? (s ++ ';' :: t) = (declaration? s).map (Prod.map id (· ++ ';' :: t)) := by
  rw [declaration?, declaration?, name?_semicolon]
  cases name? s with
  | none => rfl
  | some found =>
    obtain ⟨name, rest⟩ := found
    have blanks := dropWhile_semicolon (p := Text.isBlank) (by decide) rest t
    simp only [Option.map_some, Prod.map, Option.bind_eq_bind, Option.bind_some, id, blanks]
    cases hrest : rest.dropWhile Text.isBlank with
    | nil => rfl
    | cons c rest =>
      by_cases hc : c = ':'
      · subst hc
        simp only [List.cons_append, value?_semicolon]
        cases value? rest <;> rfl
      · simp [hc]

/-- A semicolon ends what comes before it. -/
theorem declarations_append (s t : List Char) :
    declarations (s ++ ';' :: t) = declarations s ++ declarations t := by
  fun_induction declarations s with
  | case1 s d rest h ih =>
    have first := declaration?_semicolon s t
    rw [h] at first
    rw [declarations]
    split
    next found left h' =>
      obtain ⟨rfl, rfl⟩ := Prod.mk.inj (Option.some.inj (first.symm.trans h'))
      rw [ih]
      rfl
    next h' => cases first.symm.trans h'
  | case2 h => exact declarations_semicolon t
  | case3 c rest h ih =>
    have first := declaration?_semicolon (c :: rest) t
    rw [h] at first
    rw [List.cons_append, declarations]
    split
    next found left h' => cases first.symm.trans h'
    next h' => exact ih

/-! ## What is taken -/

theorem name?_some {name : List Char} (h : name? s = some (name, rest)) :
    s = name ++ rest ∧ ∀ c ∈ name, isNameChar c = true := by
  have chars {c : Char} {t : List Char} (letter : isLetter c = true) :
      ∀ d ∈ c :: t.takeWhile isNameChar, isNameChar d = true :=
    List.forall_mem_cons.2 ⟨isNameChar_of_isLetter letter, fun _ => List.mem_takeWhile_imp⟩
  unfold name? at h
  split at h
  next c t =>
    split at h
    next letter =>
      obtain ⟨rfl, rfl⟩ := Prod.mk.inj (Option.some.inj h)
      refine ⟨by simp, List.forall_mem_cons.2 ⟨rfl, chars letter⟩⟩
    · cases h
  next c t _ =>
    split at h
    next letter =>
      obtain ⟨rfl, rfl⟩ := Prod.mk.inj (Option.some.inj h)
      exact ⟨by simp, chars letter⟩
    · cases h
  · cases h

/-- What is taken of a text for a value: it stands behind blanks and goes up to a semicolon or to
the end, and it is one blank or starts with no blank. -/
structure TakesValue (s value rest : List Char) : Prop where
  gap : ∃ gap, s = gap ++ (value ++ rest) ∧ ∀ c ∈ gap, Text.isBlank c = true
  ends : rest = [] ∨ ∃ t, rest = ';' :: t
  nonempty : value ≠ []
  closed : ';' ∉ value
  first : ∀ c, value.head? = some c → Text.isBlank c = true → value = [c]

theorem TakesValue.rest_eq_nil {value : List Char} (takes : TakesValue s value rest)
    (closed : ';' ∉ s) : rest = [] := by
  obtain ⟨gap, rfl, -⟩ := takes.gap
  obtain rfl | ⟨t, rfl⟩ := takes.ends
  · rfl
  · exact absurd (by simp) closed

theorem not_of_dropWhile {p : Char → Bool} {c : Char} {t : List Char}
    (h : s.dropWhile p = c :: t) : p c = false := by
  have head := List.head?_dropWhile_not p s
  rwa [h] at head

theorem dropWhile_semicolon_ends (s : List Char) :
    s.dropWhile (· != ';') = [] ∨ ∃ t, s.dropWhile (· != ';') = ';' :: t := by
  cases h : s.dropWhile (· != ';') with
  | nil => exact .inl rfl
  | cons c t =>
    obtain rfl : c = ';' := by simpa using not_of_dropWhile h
    exact .inr ⟨t, rfl⟩

theorem value?_some {value : List Char} (h : value? s = some (value, rest)) :
    TakesValue s value rest := by
  have whole := List.takeWhile_append_dropWhile (p := Text.isBlank) (l := s)
  have blanks : ∀ c ∈ s.takeWhile Text.isBlank, Text.isBlank c = true :=
    fun _ => List.mem_takeWhile_imp
  have solid : ∀ c t, s.dropWhile Text.isBlank = c :: t → Text.isBlank c = false :=
    fun c t => not_of_dropWhile
  rw [value?] at h
  generalize s.dropWhile Text.isBlank = behind at h whole solid
  have ends := dropWhile_semicolon_ends behind
  have parts := List.takeWhile_append_dropWhile (p := (· != ';')) (l := behind)
  split at h
  next none =>
    obtain ⟨c, last, hc⟩ := Option.map_eq_some_iff.1 h
    obtain ⟨rfl, rfl⟩ := Prod.mk.inj hc
    obtain ⟨gap, hgap⟩ := List.getLast?_eq_some_iff.1 last
    have blank : Text.isBlank c = true := blanks c (List.mem_of_getLast? last)
    rw [none, List.nil_append] at parts
    rw [parts] at ends
    refine ⟨⟨gap, ?_, fun d hd => blanks d (hgap ▸ List.mem_append_left _ hd)⟩, ends,
      List.cons_ne_nil c [], ?_, fun d hd _ => ?_⟩
    · rw [← whole, hgap, List.append_assoc]
    · rintro hmem
      rw [← List.mem_singleton.1 hmem] at blank
      exact absurd blank (by decide)
    · rw [Option.some.inj hd]
  next some =>
    obtain ⟨rfl, rfl⟩ := Prod.mk.inj (Option.some.inj h)
    refine ⟨⟨_, by rw [parts, whole], blanks⟩, ends, some, fun hmem => ?_, fun c hc blank => ?_⟩
    · simpa using List.mem_takeWhile_imp hmem
    · cases behind with
      | nil => cases hc
      | cons d t =>
        obtain rfl : d = c := by
          rw [List.takeWhile_cons] at hc
          split at hc
          · exact Option.some.inj hc
          · cases hc
        rw [solid d t rfl] at blank
        cases blank

/-- A declaration is a name, a colon between optional blanks, and a value. -/
theorem declaration?_eq_some_iff : declaration? s = some (d, rest) ↔
    ∃ after t, name? s = some (d.name.toList, after) ∧ after.dropWhile Text.isBlank = ':' :: t ∧
      value? t = some (d.value.toList, rest) := by
  constructor
  · intro h
    obtain ⟨⟨name, after⟩, hname, found⟩ := Option.bind_eq_some_iff.1 (declaration?.eq_def s ▸ h)
    dsimp only at found
    split at found
    next t colon =>
      obtain ⟨⟨value, last⟩, hvalue, found⟩ := Option.bind_eq_some_iff.1 found
      obtain ⟨rfl, rfl⟩ := Prod.mk.inj (Option.some.inj found)
      exact ⟨after, t, by rwa [String.toList_ofList], colon, by rwa [String.toList_ofList]⟩
    · cases found
  · rintro ⟨after, t, hname, colon, hvalue⟩
    rw [declaration?, hname]
    simp only [Option.bind_eq_bind, Option.bind_some, colon, hvalue]
    simp

/-- The value of a declaration and what follows it stand at the end of the text. -/
theorem takesValue_of_declaration? (h : declaration? s = some (d, rest)) :
    ∃ before t, s = before ++ t ∧ TakesValue t d.value.toList rest := by
  obtain ⟨after, t, hname, colon, hvalue⟩ := declaration?_eq_some_iff.1 h
  obtain ⟨rfl, -⟩ := name?_some hname
  refine ⟨d.name.toList ++ (after.takeWhile Text.isBlank ++ [':']), t, ?_, value?_some hvalue⟩
  have parts := List.takeWhile_append_dropWhile (p := Text.isBlank) (l := after)
  rw [colon] at parts
  simp [parts]

theorem rest_of_declaration? (h : declaration? s = some (d, rest)) (closed : ';' ∉ s) :
    rest = [] := by
  obtain ⟨before, t, rfl, takes⟩ := takesValue_of_declaration? h
  exact takes.rest_eq_nil fun h => closed (List.mem_append_right before h)

theorem takesValue_of_mem (h : d ∈ declarations s) :
    ∃ t rest, TakesValue t d.value.toList rest := by
  fun_induction declarations s with
  | case1 s first rest hfirst ih =>
    obtain rfl | h := List.mem_cons.1 h
    · obtain ⟨_, t, _, takes⟩ := takesValue_of_declaration? hfirst
      exact ⟨t, rest, takes⟩
    · exact ih h
  | case2 _ => cases h
  | case3 c rest _ ih => exact ih h

/-! ## Segments -/

/-- The parts of a text between semicolons. -/
def segments (s : String) : List String := (s.toList.splitOn ';').map String.ofList

/-- A segment declares one thing at most. -/
theorem length_declarations_le (closed : ';' ∉ s) : (declarations s).length ≤ 1 := by
  fun_induction declarations s with
  | case1 s d rest h ih =>
    obtain rfl := rest_of_declaration? h closed
    rw [declarations]
    exact Nat.le_refl 1
  | case2 _ => exact Nat.zero_le 1
  | case3 c rest _ ih => exact ih fun h => closed (List.mem_cons_of_mem c h)

theorem declarations_intercalate (ls : List (List Char)) :
    declarations ([';'].intercalate ls) = ls.flatMap declarations := by
  induction ls with
  | nil =>
    rw [declarations]
    rfl
  | cons l ls ih =>
    cases ls with
    | nil => simp
    | cons m ls =>
      rw [List.intercalate_cons_cons, List.append_assoc, List.singleton_append, declarations_append,
        ih]
      rfl

theorem declarations_splitOn (s : List Char) :
    declarations s = (s.splitOn ';').flatMap declarations := by
  rw [← declarations_intercalate, List.intercalate_splitOn]

theorem lookup?_segments (s name : String) :
    lookup? s name = (segments s).findSome? (lookup? · name) := by
  rw [lookup?, declarations_splitOn, List.find?_flatMap, segments, List.findSome?_map,
    List.map_findSome?]
  simp [lookup?, Function.comp_def]

theorem semicolon_not_mem_splitOn {l : List Char} (h : l ∈ s.splitOn ';') : ';' ∉ l := by
  induction s generalizing l with
  | nil =>
    rw [List.splitOn_nil, List.mem_singleton] at h
    rw [h]
    exact List.not_mem_nil
  | cons c s ih =>
    rw [List.splitOn_cons_eq_if_modifyHead] at h
    split at h
    · obtain rfl | h := List.mem_cons.1 h
      · exact List.not_mem_nil
      · exact ih h
    next other =>
      cases hsplit : s.splitOn ';' with
      | nil =>
        rw [hsplit] at h
        cases h
      | cons first rest =>
        rw [hsplit] at h ih
        obtain rfl | h := List.mem_cons.1 h
        · rw [List.mem_cons]
          rintro (rfl | h)
          · exact other rfl
          · exact ih List.mem_cons_self h
        · exact ih (List.mem_cons_of_mem first h)

theorem lookup?_semicolon (s t name : String) :
    lookup? (s ++ ";" ++ t) name = (lookup? s name).or (lookup? t name) := by
  have chars : (s ++ ";" ++ t).toList = s.toList ++ ';' :: t.toList := by
    simp [String.toList_append]
  rw [lookup?, chars, declarations_append, List.find?_append, Option.map_or]
  rfl

/-- A style that is closed by a semicolon is read first, and then what comes after it. -/
theorem lookup?_append {s : String} (closed : s = "" ∨ s.toList.getLast? = some ';')
    (t name : String) : lookup? (s ++ t) name = (lookup? s name).or (lookup? t name) := by
  have none : lookup? "" name = none := by
    rw [lookup?, String.toList_empty, declarations]
    rfl
  obtain rfl | last := closed
  · rw [String.empty_append, none, Option.none_or]
  · obtain ⟨before, hs⟩ := List.getLast?_eq_some_iff.1 last
    obtain rfl : s = String.ofList before ++ ";" := by
      rw [← String.toList_inj, hs]
      simp
    have alone := lookup?_semicolon (String.ofList before) "" name
    rw [String.append_empty, none, Option.or_none] at alone
    rw [lookup?_semicolon, alone]

theorem lookup?_some {s name v : String} (h : lookup? s name = some v) :
    v ≠ "" ∧ ';' ∉ v.toList ∧
      ∀ c, v.toList.head? = some c → Text.isBlank c = true → v.toList = [c] := by
  obtain ⟨d, hd, rfl⟩ := Option.map_eq_some_iff.1 h
  obtain ⟨t, rest, takes⟩ := takesValue_of_mem (List.mem_of_find?_eq_some hd)
  exact ⟨fun h => takes.nonempty (String.toList_eq_nil_iff.2 h), takes.closed, takes.first⟩

/-- Every style is searched to its end, in one way and with at most one try for each place, and a
name reads as the first value that the search finds for it. The same comes of the segments of the
style alone: the name reads as it does in the first of them that has it, and each of them has at
most one declaration. A value is not empty, has no semicolon, and starts with no blank unless it is
one. What is appended behind a semicolon is read where the style has nothing. -/
theorem get?_by_segments {c : Attributes} {s : String} (styled : c.get? key = some s) :
    (∃ ms tries, Finds s.toList ms tries ∧ tries ≤ s.length + 1 ∧
      (∀ others more, Finds s.toList others more → others = ms ∧ more = tries) ∧
      ∀ name, get? c name =
        ((ms.map Match.declaration).find? (·.name == name)).map (·.value)) ∧
    (∀ name, get? c name = (segments s).findSome? (lookup? · name)) ∧
    (∀ segment ∈ segments s, ∀ ms tries, Finds segment.toList ms tries → ms.length ≤ 1) ∧
    (∀ name v, get? c name = some v → v ≠ "" ∧ ';' ∉ v.toList ∧
      ∀ b, v.toList.head? = some b → Text.isBlank b = true → v.toList = [b]) ∧
    ∀ t name, s = "" ∨ s.toList.getLast? = some ';' →
      get? (c.write key (some (s ++ t))) name = (get? c name).or (lookup? t name) := by
  have reads (name : String) : get? c name = lookup? s name := by
    rw [get?, styled, Option.bind_some]
  refine ⟨?_, fun name => ?_, fun segment hsegment ms tries finds => ?_, fun name v hv => ?_,
    fun t name closed => ?_⟩
  · obtain ⟨ms, tries, finds, bound, same⟩ := exists_finds s.toList
    refine ⟨ms, tries, finds, by rwa [String.length_toList] at bound,
      fun others more h => finds.unique h, fun name => ?_⟩
    rw [reads, same, lookup?]
  · rw [reads, lookup?_segments]
  · obtain ⟨l, hl, rfl⟩ := List.mem_map.1 hsegment
    obtain ⟨found, _, finds', _, same⟩ := exists_finds l
    rw [String.toList_ofList] at finds
    rw [(finds.unique finds').1.symm, ← List.length_map, same]
    exact length_declarations_le (semicolon_not_mem_splitOn hl)
  · exact lookup?_some ((reads name).symm.trans hv)
  · rw [get?, Attributes.get?_write, if_pos rfl, Option.bind_some, lookup?_append closed, reads]

def ragged : String := "1a b:  ;;: x ;-c:d:e"

theorem get?_by_segments_of_ragged :
    (Attributes.mk [⟨key, ragged⟩]).get? key = some ragged ∧
    segments ragged = ["1a b:  ", "", ": x ", "-c:d:e"] ∧
    get? ⟨[⟨key, ragged⟩]⟩ "b" = some " " ∧ get? ⟨[⟨key, ragged⟩]⟩ "-c" = some "d:e" ∧
    get? ⟨[⟨key, ragged⟩]⟩ "x" = none := by
  have styled : (Attributes.mk [⟨key, ragged⟩]).get? key = some ragged := rfl
  obtain ⟨-, read, -, -, -⟩ := get?_by_segments styled
  refine ⟨styled, by decide +kernel, (read "b").trans ?_, (read "-c").trans ?_, (read "x").trans ?_⟩
  · decide +kernel
  · decide +kernel
  · decide +kernel

end Hypertext.Style
