import Mathlib.Data.List.TakeWhile
import Hypertext.Proofs.Declarations

/-! The pattern of a declaration, and the search for it. A pattern is a row of classes of
characters, each with how often it may be taken. A matcher takes as many characters as it can and
gives them back one by one where the rest of the pattern fails; a search tries each place of a text
from the left and goes on behind what it has found. The scan of a style never goes back. The main
statements are `first?_pattern`, that it takes what the matcher takes, and `exists_finds`, that it
finds what the search finds. -/
namespace Hypertext.Style
set_option autoImplicit false

/-! ## Patterns -/

inductive Quantifier where
  | once
  | atMostOnce
  | atLeastOnce
  | anyTimes

def Quantifier.admits : Quantifier → Nat → Bool
  | once, n => n == 1
  | atMostOnce, n => n ≤ 1
  | atLeastOnce, n => 1 ≤ n
  | anyTimes, _ => true

/-- What is kept of a text that matches. -/
inductive Group where
  | name
  | value

structure Piece where
  takes : Char → Bool
  times : Quantifier
  group : Option Group := none

structure Match where
  name : List Char := []
  value : List Char := []
  /-- What follows the text that matches. -/
  rest : List Char

/-- Characters that a piece has taken come before those that its group has from later pieces. -/
def Match.put (m : Match) (taken : List Char) : Option Group → Match
  | some .name => { m with name := taken ++ m.name }
  | some .value => { m with value := taken ++ m.value }
  | none => m

/-- The beginnings of a text that consist of a class of characters, each with what follows it, the
longest first. -/
def splits (takes : Char → Bool) : List Char → List (List Char × List Char)
  | [] => [([], [])]
  | c :: s =>
    if takes c then (splits takes s).map (Prod.map (c :: ·) id) ++ [([], c :: s)]
    else [([], c :: s)]

def Piece.ways (p : Piece) (s : List Char) : List (List Char × List Char) :=
  (splits p.takes s).filter (p.times.admits ·.1.length)

/-- The first way to match that is met, going back to the last piece that can take less wherever
the rest of the pattern fails. -/
def first? : List Piece → List Char → Option Match
  | [], s => some { rest := s }
  | p :: pattern, s =>
    (p.ways s).findSome? fun way => (first? pattern way.2).map (·.put way.1 p.group)

/-- A hyphen or none, letters, and then any characters of names. -/
def namePieces : List Piece :=
  [⟨(· == '-'), .atMostOnce, some .name⟩, ⟨isLetter, .atLeastOnce, some .name⟩,
    ⟨isNameChar, .anyTimes, some .name⟩]

def colonPieces : List Piece := [⟨Text.isBlank, .anyTimes, none⟩, ⟨(· == ':'), .once, none⟩]

/-- All up to the next semicolon, which is passed over. -/
def valuePieces : List Piece :=
  [⟨Text.isBlank, .anyTimes, none⟩, ⟨(· != ';'), .atLeastOnce, some .value⟩,
    ⟨(· == ';'), .atMostOnce, none⟩]

def pattern : List Piece := namePieces ++ (colonPieces ++ valuePieces)

/-! ## The ways of a piece -/

section
variable {takes : Char → Bool}

theorem splits_cons_of_neg {c : Char} (h : takes c = false) (s : List Char) :
    splits takes (c :: s) = [([], c :: s)] := by
  rw [splits, h, if_neg Bool.false_ne_true]

theorem splits_cons_of_pos {c : Char} (h : takes c = true) (s : List Char) :
    splits takes (c :: s) = (splits takes s).map (Prod.map (c :: ·) id) ++ [([], c :: s)] := by
  rw [splits, if_pos h]

/-- Taking nothing is always possible, in one way. -/
theorem filter_splits_zero (s : List Char) :
    (splits takes s).filter (fun way => way.1.length == 0) = [([], s)] := by
  cases s with
  | nil => rfl
  | cons c s =>
    cases h : takes c with
    | false =>
      rw [splits_cons_of_neg h]
      rfl
    | true =>
      rw [splits_cons_of_pos h, List.filter_append, List.filter_map]
      simp

/-- A piece that may be taken once takes one character or, if that is admitted, none. -/
theorem ways_cons_of_single {times : Quantifier}
    (single : ∀ n, times.admits (n + 1) = (n == 0)) (group : Option Group) (c : Char)
    (s : List Char) : Piece.ways ⟨takes, times, group⟩ (c :: s) =
      (if takes c then [([c], s)] else []) ++ if times.admits 0 then [([], c :: s)] else [] := by
  rw [Piece.ways]
  cases h : takes c with
  | false =>
    rw [splits_cons_of_neg h]
    cases none : times.admits 0 <;> simp [none]
  | true =>
    have one : ((fun way => times.admits way.1.length) ∘ Prod.map (c :: ·) id :
        List Char × List Char → Bool) = fun way => way.1.length == 0 := by
      funext way
      exact single way.1.length
    rw [splits_cons_of_pos h, List.filter_append, List.filter_map, one, filter_splits_zero]
    cases none : times.admits 0 <;> simp [none]

theorem ways_anyTimes (group : Option Group) (s : List Char) :
    Piece.ways ⟨takes, .anyTimes, group⟩ s = splits takes s :=
  List.filter_eq_self.2 fun _ _ => rfl

theorem ways_atLeastOnce (group : Option Group) (s : List Char) :
    Piece.ways ⟨takes, .atLeastOnce, group⟩ s =
      match s with
      | c :: rest => if takes c then (splits takes rest).map (Prod.map (c :: ·) id) else []
      | [] => [] := by
  cases s with
  | nil => rfl
  | cons c s =>
    rw [Piece.ways]
    cases h : takes c with
    | false =>
      rw [splits_cons_of_neg h]
      simp [Quantifier.admits, h]
    | true =>
      rw [splits_cons_of_pos h, List.filter_append, List.filter_eq_self.2]
      · simp [Quantifier.admits, h]
      · intro way hway
        obtain ⟨way, -, rfl⟩ := List.mem_map.1 hway
        simp [Quantifier.admits]

end

/-! ## Giving back -/

section
variable {takes : Char → Bool} {α : Type}

/-- Where nothing is gained by giving a character back, only the longest way counts. -/
theorem findSome?_splits (s : List Char) (next : List Char × List Char → Option α)
    (back : ∀ taken c rest, takes c = true → next (taken ++ [c], rest) = none →
      next (taken, c :: rest) = none) :
    (splits takes s).findSome? next = next (s.takeWhile takes, s.dropWhile takes) ∧
      (next (s.takeWhile takes, s.dropWhile takes) = none → next ([], s) = none) := by
  induction s generalizing next with
  | nil => simp [splits]
  | cons c s ih =>
    cases h : takes c with
    | false =>
      rw [splits_cons_of_neg h]
      simp [h]
    | true =>
      obtain ⟨longest, none⟩ := ih (next ∘ Prod.map (c :: ·) id) fun taken d rest hd =>
        back (c :: taken) d rest hd
      have none : next (c :: s.takeWhile takes, s.dropWhile takes) = .none →
          next ([], c :: s) = .none := fun hnone => back [] c s h (none hnone)
      rw [splits_cons_of_pos h, List.findSome?_append, List.findSome?_map, longest,
        List.takeWhile_cons_of_pos h, List.dropWhile_cons_of_pos h]
      refine ⟨?_, none⟩
      show (next (c :: s.takeWhile takes, s.dropWhile takes)).or _ = _
      cases hnext : next (c :: s.takeWhile takes, s.dropWhile takes) with
      | some a => rfl
      | none => simp [none hnext]

/-- Where a character given back is always enough, at most one is. -/
theorem findSome?_splits_back (s : List Char) (next : List Char × List Char → Option α)
    (back : ∀ taken c rest, takes c = true → (next (taken, c :: rest)).isSome = true) :
    (splits takes s).findSome? next = (next (s.takeWhile takes, s.dropWhile takes)).or
      ((s.takeWhile takes).getLast?.bind fun c =>
        next ((s.takeWhile takes).dropLast, c :: s.dropWhile takes)) := by
  induction s generalizing next with
  | nil => simp [splits]
  | cons c s ih =>
    cases h : takes c with
    | false =>
      rw [splits_cons_of_neg h]
      simp [h]
    | true =>
      rw [splits_cons_of_pos h, List.findSome?_append, List.findSome?_map,
        ih (next ∘ Prod.map (c :: ·) id) fun taken d rest hd => back (c :: taken) d rest hd,
        List.takeWhile_cons_of_pos h, List.dropWhile_cons_of_pos h]
      cases hlast : (s.takeWhile takes).getLast? with
      | none =>
        have short : s.takeWhile takes = [] := List.getLast?_eq_none_iff.1 hlast
        have whole : s.dropWhile takes = s := by
          rw [← List.nil_append (s.dropWhile takes), ← short, List.takeWhile_append_dropWhile]
        rw [short, whole]
        simp
      | some d =>
        obtain ⟨more, hmore⟩ := List.getLast?_eq_some_iff.1 hlast
        have hd : takes d = true :=
          List.mem_takeWhile_imp (hmore ▸ List.mem_append_right more List.mem_cons_self)
        obtain ⟨a, ha⟩ := Option.isSome_iff_exists.1 (back (c :: more) d (s.dropWhile takes) hd)
        have split : c :: (more ++ [d]) = (c :: more) ++ [d] := rfl
        rw [hmore, split, List.getLast?_concat, List.dropLast_concat, List.dropLast_concat]
        simp [ha]

end

/-! ## Matching piece by piece -/

section
variable {takes : Char → Bool} {pattern : List Piece}

theorem first?_once (group : Option Group) (s : List Char) :
    first? (⟨takes, .once, group⟩ :: pattern) s =
      match s with
      | c :: rest => if takes c then (first? pattern rest).map (·.put [c] group) else none
      | [] => none := by
  cases s with
  | nil => rfl
  | cons c s =>
    have single (n : Nat) : Quantifier.once.admits (n + 1) = (n == 0) := by
      rw [Bool.eq_iff_iff]
      simp [Quantifier.admits]
    rw [first?, ways_cons_of_single single]
    dsimp only
    cases takes c <;> simp [Quantifier.admits]

theorem first?_atMostOnce (group : Option Group) (s : List Char) :
    first? (⟨takes, .atMostOnce, group⟩ :: pattern) s =
      match s with
      | c :: rest =>
        (if takes c then (first? pattern rest).map (·.put [c] group) else none).or
          ((first? pattern (c :: rest)).map (·.put [] group))
      | [] => (first? pattern []).map (·.put [] group) := by
  cases s with
  | nil => simp [first?, Piece.ways, splits, Quantifier.admits]
  | cons c s =>
    have single (n : Nat) : Quantifier.atMostOnce.admits (n + 1) = (n == 0) := by
      rw [Bool.eq_iff_iff]
      simp [Quantifier.admits]
    rw [first?, ways_cons_of_single single, List.findSome?_append]
    dsimp only
    cases takes c <;> simp [Quantifier.admits]

/-- The rest of a pattern does not match again if characters of the class are given back to it. -/
def Insists (takes : Char → Bool) (pattern : List Piece) : Prop :=
  ∀ c rest, takes c = true → first? pattern rest = none → first? pattern (c :: rest) = none

theorem first?_anyTimes (group : Option Group) (insists : Insists takes pattern) (s : List Char) :
    first? (⟨takes, .anyTimes, group⟩ :: pattern) s =
      (first? pattern (s.dropWhile takes)).map (·.put (s.takeWhile takes) group) := by
  rw [first?, ways_anyTimes]
  refine (findSome?_splits s _ fun taken c rest hc hnone => ?_).1
  rw [Option.map_eq_none_iff] at hnone ⊢
  exact insists c rest hc hnone

theorem first?_atLeastOnce (group : Option Group) (insists : Insists takes pattern)
    (s : List Char) :
    first? (⟨takes, .atLeastOnce, group⟩ :: pattern) s =
      match s with
      | c :: rest =>
        if takes c then
          (first? pattern (rest.dropWhile takes)).map (·.put (c :: rest.takeWhile takes) group)
        else none
      | [] => none := by
  rw [first?, ways_atLeastOnce]
  cases s with
  | nil => rfl
  | cons c s =>
    dsimp only
    split
    next h =>
      rw [List.findSome?_map]
      refine (findSome?_splits s _ fun taken d rest hd hnone => ?_).1
      rw [Function.comp_apply, Option.map_eq_none_iff] at hnone ⊢
      exact insists d rest hd hnone
    next => rfl

end

/-! ## The pattern of a declaration -/

def skipSemicolon : List Char → List Char
  | ';' :: rest => rest
  | s => s

theorem first?_semicolon (s : List Char) :
    first? [⟨(· == ';'), .atMostOnce, none⟩] s = some { rest := skipSemicolon s } := by
  rw [first?_atMostOnce]
  split
  next c rest =>
    by_cases h : c = ';'
    · subst h
      rfl
    · have same : skipSemicolon (c :: rest) = c :: rest := by
        rw [skipSemicolon]
        exact fun _ h' => h (List.cons.inj h').1
      simp [h, first?, Match.put, same]
  next => rfl

theorem first?_valueEnd (s : List Char) :
    first? [⟨(· != ';'), .atLeastOnce, some .value⟩, ⟨(· == ';'), .atMostOnce, none⟩] s =
      match s.takeWhile (· != ';') with
      | [] => none
      | value => some { value := value, rest := skipSemicolon (s.dropWhile (· != ';')) } := by
  have insists : Insists (· != ';') [⟨(· == ';'), .atMostOnce, none⟩] := by
    intro c rest _ hnone
    rw [first?_semicolon] at hnone
    cases hnone
  rw [first?_atLeastOnce _ insists]
  cases s with
  | nil => rfl
  | cons c s =>
    cases h : c != ';' with
    | false => simp [h]
    | true => simp [h, first?_semicolon, Match.put]

/-- The value of a declaration is the one place where a matcher gives something back: the last blank
of a value of blanks alone. -/
theorem first?_value (s : List Char) : first? valuePieces s =
    (value? s).map fun found => { value := found.1, rest := skipSemicolon found.2 } := by
  have solid {c : Char} (h : Text.isBlank c = true) : (c != ';') = true := by
    rw [bne_iff_ne]
    rintro rfl
    exact absurd h (by decide)
  rw [valuePieces, first?, ways_anyTimes, findSome?_splits_back, value?]
  · dsimp only
    generalize s.dropWhile Text.isBlank = rest
    cases hvalue : rest.takeWhile (· != ';') with
    | cons c value => simp [first?_valueEnd, hvalue, Match.put]
    | nil =>
      cases hlast : (s.takeWhile Text.isBlank).getLast? with
      | none => simp [first?_valueEnd, hvalue]
      | some c =>
        have blank : Text.isBlank c = true :=
          List.mem_takeWhile_imp (List.mem_of_getLast? hlast)
        have whole : rest.dropWhile (· != ';') = rest := by
          rw [← List.nil_append (rest.dropWhile _), ← hvalue, List.takeWhile_append_dropWhile]
        simp [first?_valueEnd, hvalue, solid blank, whole, Match.put]
  · intro taken c rest hc
    simp [first?_valueEnd, solid hc]

theorem first?_colon (s : List Char) : first? (colonPieces ++ valuePieces) s =
    match s.dropWhile Text.isBlank with
    | ':' :: rest => first? valuePieces rest
    | _ => none := by
  have once (s : List Char) : first? (⟨(· == ':'), .once, none⟩ :: valuePieces) s =
      match s with
      | ':' :: rest => first? valuePieces rest
      | _ => none := by
    rw [first?_once]
    split
    next c rest =>
      by_cases h : c = ':'
      · subst h
        simp [Match.put]
      · simp [h]
    next => rfl
  have insists : Insists Text.isBlank (⟨(· == ':'), .once, none⟩ :: valuePieces) := by
    intro c rest hc _
    rw [once]
    split
    next h =>
      rw [(List.cons.inj h).1] at hc
      exact absurd hc (by decide)
    next => rfl
  have split : colonPieces ++ valuePieces =
      ⟨Text.isBlank, .anyTimes, none⟩ :: ⟨(· == ':'), .once, none⟩ :: valuePieces := rfl
  rw [split, first?_anyTimes _ insists, once]
  simp [Match.put]

theorem range_of_isNameChar {c : Char} (h : isNameChar c = true) :
    0x2D ≤ c.toNat ∧ c.toNat ≤ 0x7A := by
  have le (a b : Char) : a ≤ b ↔ a.toNat ≤ b.toNat := by
    rw [Char.le_def, UInt32.le_iff_toNat_le]
    rfl
  simp only [isNameChar, isLetter, Bool.or_eq_true, Bool.and_eq_true, decide_eq_true_eq, beq_iff_eq,
    le] at h
  obtain (((rfl | ⟨low, high⟩) | ⟨low, high⟩) | ⟨low, high⟩) | rfl := h
  · decide
  · exact ⟨Nat.le_trans (by decide) low, high⟩
  · exact ⟨Nat.le_trans (by decide) low, Nat.le_trans high (by decide)⟩
  · exact ⟨Nat.le_trans (by decide) low, Nat.le_trans high (by decide)⟩
  · decide

theorem not_isBlank_of_isNameChar {c : Char} (h : isNameChar c = true) :
    Text.isBlank c = false := by
  obtain ⟨low, high⟩ := range_of_isNameChar h
  simp [Text.isBlank, Text.blankRanges]
  omega

/-- A colon does not follow within a name. -/
theorem insists_colon : Insists isNameChar (colonPieces ++ valuePieces) := by
  intro c rest hc _
  have solid : ¬ Text.isBlank c = true := by
    rw [not_isBlank_of_isNameChar hc]
    exact Bool.false_ne_true
  rw [first?_colon, List.dropWhile_cons_of_neg solid]
  split
  next h =>
    rw [(List.cons.inj h).1] at hc
    exact absurd hc (by decide)
  next => rfl

theorem first?_chars (s : List Char) :
    first? (⟨isNameChar, .anyTimes, some .name⟩ :: (colonPieces ++ valuePieces)) s =
      (first? (colonPieces ++ valuePieces) (s.dropWhile isNameChar)).map
        (·.put (s.takeWhile isNameChar) (some .name)) :=
  first?_anyTimes _ insists_colon s

theorem span_letters (s : List Char) :
    s.takeWhile isLetter ++ (s.dropWhile isLetter).takeWhile isNameChar = s.takeWhile isNameChar ∧
      (s.dropWhile isLetter).dropWhile isNameChar = s.dropWhile isNameChar := by
  induction s with
  | nil => exact ⟨rfl, rfl⟩
  | cons c s ih =>
    cases h : isLetter c with
    | false => simp [h]
    | true => simp [h, isNameChar_of_isLetter h, ih]

/-- Letters that are given back are taken again as characters of names, which ends in the same
place. -/
theorem first?_letters (s : List Char) :
    first? (⟨isLetter, .atLeastOnce, some .name⟩ :: ⟨isNameChar, .anyTimes, some .name⟩ ::
        (colonPieces ++ valuePieces)) s =
      match s with
      | c :: rest =>
        if isLetter c then
          (first? (colonPieces ++ valuePieces) (rest.dropWhile isNameChar)).map
            (·.put (c :: rest.takeWhile isNameChar) (some .name))
        else none
      | [] => none := by
  have insists : Insists isLetter
      (⟨isNameChar, .anyTimes, some .name⟩ :: (colonPieces ++ valuePieces)) := by
    intro c rest hc hnone
    rw [first?_chars, Option.map_eq_none_iff] at hnone ⊢
    rwa [List.dropWhile_cons_of_pos (isNameChar_of_isLetter hc)]
  rw [first?_atLeastOnce _ insists]
  split
  next c rest =>
    rw [first?_chars, (span_letters rest).2, Option.map_map, ← (span_letters rest).1]
    split
    · congr 1
      funext m
      simp [Match.put]
    · rfl
  next => rfl

theorem first?_name (s : List Char) : first? pattern s = (name? s).bind fun found =>
    (first? (colonPieces ++ valuePieces) found.2).map (·.put found.1 (some .name)) := by
  have split : pattern =
      ⟨(· == '-'), .atMostOnce, some .name⟩ :: ⟨isLetter, .atLeastOnce, some .name⟩ ::
        ⟨isNameChar, .anyTimes, some .name⟩ :: (colonPieces ++ valuePieces) := rfl
  rw [split, first?_atMostOnce]
  cases s with
  | nil => rfl
  | cons c s =>
    by_cases h : c = '-'
    · subst h
      have no : isLetter '-' = false := by decide
      cases s with
      | nil => rfl
      | cons d s =>
        rw [name?]
        cases hd : isLetter d <;> simp [first?_letters, no, hd, Function.comp_def, Match.put]
    · rw [name?]
      · cases hc : isLetter c <;> simp [first?_letters, h, hc, Function.comp_def, Match.put]
      · exact fun _ _ h' _ => h h'

/-- What the scan of a declaration takes is what the pattern takes first. -/
theorem first?_pattern (s : List Char) : first? pattern s = (declaration? s).map fun found =>
    ⟨found.1.name.toList, found.1.value.toList, skipSemicolon found.2⟩ := by
  rw [first?_name, declaration?]
  cases name? s with
  | none => rfl
  | some found =>
    obtain ⟨name, rest⟩ := found
    simp only [Option.bind_eq_bind, Option.bind_some, first?_colon]
    cases hrest : rest.dropWhile Text.isBlank with
    | nil => rfl
    | cons c t =>
      by_cases hc : c = ':'
      · subst hc
        cases hvalue : value? t <;> simp [first?_value, hvalue, Match.put]
      · simp [hc]

/-! ## The search -/

/-- What is kept of a match. -/
def Match.declaration (m : Match) : Declaration := ⟨String.ofList m.name, String.ofList m.value⟩

/-- A search through a text finds some matches, and tries the pattern so many times. Where nothing
matches, it moves on by one character; the end of the text is tried too. -/
inductive Finds : List Char → List Match → Nat → Prop where
  | stop (none : first? pattern [] = none) : Finds [] [] 1
  | pass {c : Char} {rest : List Char} {ms : List Match} {tries : Nat}
      (none : first? pattern (c :: rest) = none) (more : Finds rest ms tries) :
      Finds (c :: rest) ms (tries + 1)
  | found {s : List Char} {m : Match} {ms : List Match} {tries : Nat}
      (first : first? pattern s = some m) (more : Finds m.rest ms tries) :
      Finds s (m :: ms) (tries + 1)

/-- A search has one result. -/
theorem Finds.unique {s : List Char} {ms ms' : List Match} {tries tries' : Nat}
    (h : Finds s ms tries) (h' : Finds s ms' tries') : ms' = ms ∧ tries' = tries := by
  induction h generalizing ms' tries' with
  | stop _ =>
    cases h' with
    | stop _ => exact ⟨rfl, rfl⟩
    | found first _ => cases first
  | pass none _ ih =>
    cases h' with
    | pass _ more =>
      obtain ⟨rfl, rfl⟩ := ih more
      exact ⟨rfl, rfl⟩
    | found first _ => cases none.symm.trans first
  | found first _ ih =>
    cases h' with
    | stop _ => cases first
    | pass none _ => cases none.symm.trans first
    | found first' more =>
      obtain rfl := Option.some.inj (first.symm.trans first')
      obtain ⟨rfl, rfl⟩ := ih more
      exact ⟨rfl, rfl⟩

/-- No match starts at a semicolon. -/
theorem Finds.skip {s : List Char} {ms : List Match} {tries : Nat} (h : Finds s ms tries) :
    ∃ fewer ≤ tries, Finds (skipSemicolon s) ms fewer := by
  unfold skipSemicolon
  split
  next rest =>
    cases h with
    | pass _ more => exact ⟨_, Nat.le_succ _, more⟩
    | found first _ => cases first
  next => exact ⟨tries, Nat.le_refl tries, h⟩

/-- Each text is searched to its end, and what is found are its declarations. -/
theorem exists_finds (s : List Char) : ∃ ms tries, Finds s ms tries ∧ tries ≤ s.length + 1 ∧
    ms.map Match.declaration = declarations s := by
  fun_induction declarations s with
  | case1 s d rest h ih =>
    have first := first?_pattern s
    rw [h] at first
    obtain ⟨ms, tries, finds, bound, same⟩ := ih
    obtain ⟨fewer, le, finds⟩ := finds.skip
    have shorter := length_of_declaration? h
    refine ⟨_, _, .found first finds, by omega, ?_⟩
    rw [List.map_cons, same]
    simp [Match.declaration]
  | case2 h => exact ⟨[], 1, .stop rfl, Nat.le_refl 1, rfl⟩
  | case3 c rest h ih =>
    have first := first?_pattern (c :: rest)
    rw [h] at first
    obtain ⟨ms, tries, finds, bound, same⟩ := ih
    exact ⟨ms, tries + 1, .pass first finds, Nat.succ_le_succ bound, same⟩

end Hypertext.Style
