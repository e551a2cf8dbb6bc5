import Mathlib.Data.List.DropRight
import Hypertext.Proofs.Segments

/-! What a write to a style does to the declarations that are there. It is appended as it is, so
that a style that does not end with a semicolon grows together with it: the declaration that is
still open takes the beginning of the new one for more of its value. The main statement is
`declared_survives_iff`, which says what a name reads as afterwards. -/
namespace Hypertext.Style
set_option autoImplicit false

variable {s more : List Char} {d : Declaration}

/-! ## Values with more text behind them -/

theorem takeWhile_closed {t : List Char} (closed : ';' ∉ t) : t.takeWhile (· != ';') = t := by
  refine List.takeWhile_eq_self_iff.2 fun c hc => bne_iff_ne.2 ?_
  rintro rfl
  exact closed hc

theorem exists_value? {c : Char} (h : c ≠ ';') (t : List Char) :
    ∃ found, value? (c :: t) = some found := by
  rw [value?]
  cases blank : Text.isBlank c with
  | true =>
    rw [List.takeWhile_cons_of_pos blank]
    split
    · simp [List.getLast?_cons]
    · exact ⟨_, rfl⟩
  | false =>
    have starts : (c != ';') = true := bne_iff_ne.2 h
    simp [blank, starts]

/-- Blanks before a value make no difference. -/
theorem value?_gap {gap : List Char} (blank : ∀ c ∈ gap, Text.isBlank c = true)
    {found : List Char × List Char} (h : value? s = some found) :
    value? (gap ++ s) = some found := by
  induction gap with
  | nil => exact h
  | cons c gap ih =>
    obtain ⟨first, others⟩ := List.forall_mem_cons.1 blank
    have same := ih others
    rw [value?] at same
    rw [List.cons_append, value?, List.takeWhile_cons_of_pos first,
      List.dropWhile_cons_of_pos first]
    split at same
    next none =>
      obtain ⟨b, last, rfl⟩ := Option.map_eq_some_iff.1 same
      simp [List.getLast?_cons, last]
    next => exact same

/-- What is taken for a value of a value with more text behind it. -/
def grown (value more : List Char) : List Char := ((value? (value ++ more)).map (·.1)).getD value

theorem grown_of_solid {c : Char} {tail : List Char} (solid : Text.isBlank c = false)
    (closed : ';' ∉ c :: tail ++ more) : grown (c :: tail) more = c :: tail ++ more := by
  have starts : ¬ Text.isBlank c = true := by
    rw [solid]
    exact Bool.false_ne_true
  rw [grown, value?, List.cons_append, List.takeWhile_cons_of_neg starts,
    List.dropWhile_cons_of_neg starts, ← List.cons_append, takeWhile_closed closed]
  rfl

theorem grown_of_blank {c : Char} (blank : Text.isBlank c = true) (closed : ';' ∉ more) :
    grown [c] more =
      match more.dropWhile Text.isBlank with
      | [] => [more.getLast?.getD c]
      | rest => rest := by
  have parts := List.takeWhile_append_dropWhile (p := Text.isBlank) (l := more)
  have behind : ';' ∉ more.dropWhile Text.isBlank :=
    fun h => closed (List.dropWhile_subset _ h)
  rw [grown, value?, List.singleton_append, List.takeWhile_cons_of_pos blank,
    List.dropWhile_cons_of_pos blank, takeWhile_closed behind]
  cases hrest : more.dropWhile Text.isBlank with
  | nil =>
    rw [hrest, List.append_nil] at parts
    simp [parts, List.getLast?_cons]
  | cons d rest => rfl

/-- A value keeps the text behind it, except that one blank is given up for what follows blanks. So
only blanks that end with the same one leave it as it is. -/
theorem grown_eq_iff {value rest : List Char} (takes : TakesValue s value rest)
    (closed : ';' ∉ more) : grown value more = value ↔
      more = [] ∨ ∃ b, value = [b] ∧ more.getLast? = some b ∧
        ∀ c ∈ more, Text.isBlank c = true := by
  obtain ⟨c, tail, rfl⟩ := List.exists_cons_of_ne_nil takes.nonempty
  cases blank : Text.isBlank c with
  | false =>
    have whole : ';' ∉ c :: tail ++ more := by
      rw [List.mem_append]
      exact fun h => h.elim takes.closed closed
    rw [grown_of_solid blank whole, List.append_right_eq_self]
    refine (or_iff_left ?_).symm
    rintro ⟨b, hb, last, blanks⟩
    obtain ⟨rfl, -⟩ := List.cons.inj hb
    rw [blanks c (List.mem_of_getLast? last)] at blank
    cases blank
  | true =>
    obtain ⟨-, rfl⟩ := List.cons.inj (takes.first c rfl blank)
    rw [grown_of_blank blank closed]
    cases behind : more.dropWhile Text.isBlank with
    | nil =>
      have blanks := List.dropWhile_eq_nil_iff.1 behind
      cases last : more.getLast? with
      | none => simp [List.getLast?_eq_none_iff.1 last]
      | some b =>
        have nonempty : more ≠ [] := by
          rintro rfl
          cases last
        constructor
        · intro h
          obtain rfl : b = c := (List.cons.inj h).1
          exact .inr ⟨b, rfl, rfl, blanks⟩
        · rintro (h | ⟨_, hc, hb, _⟩)
          · exact absurd h nonempty
          · rw [hc, hb]
            rfl
    | cons d rest =>
      have solid := not_of_dropWhile behind
      constructor
      · intro h
        rw [(List.cons.inj h).1, blank] at solid
        cases solid
      · rintro (rfl | ⟨_, _, _, blanks⟩)
        · cases behind
        · rw [List.dropWhile_eq_nil_iff.2 blanks] at behind
          cases behind

/-! ## Declarations with more text behind them -/

section
variable {p : Char → Bool}

theorem dropWhile_append_of_ne_nil (h : s.dropWhile p ≠ []) (more : List Char) :
    (s ++ more).dropWhile p = s.dropWhile p ++ more := by
  rw [List.dropWhile_append, if_neg]
  rwa [List.isEmpty_iff]

theorem takeWhile_append_of_ne_nil (h : s.dropWhile p ≠ []) (more : List Char) :
    (s ++ more).takeWhile p = s.takeWhile p := by
  rw [List.takeWhile_append, if_neg]
  have parts := congrArg List.length (List.takeWhile_append_dropWhile (p := p) (l := s))
  have some := List.length_pos_iff.2 h
  rw [List.length_append] at parts
  omega

end

theorem name?_append {name after : List Char} (h : name? s = some (name, after))
    (stops : after ≠ []) (more : List Char) : name? (s ++ more) = some (name, after ++ more) := by
  unfold name? at h
  split at h
  next c t =>
    split at h
    next letter =>
      obtain ⟨rfl, rfl⟩ := Prod.mk.inj (Option.some.inj h)
      simp [name?, letter, takeWhile_append_of_ne_nil stops, dropWhile_append_of_ne_nil stops]
    · cases h
  next c t other =>
    split at h
    next letter =>
      obtain ⟨rfl, rfl⟩ := Prod.mk.inj (Option.some.inj h)
      have first : c ≠ '-' := by
        rintro rfl
        exact absurd letter (by decide)
      simp [name?, first, letter, takeWhile_append_of_ne_nil stops,
        dropWhile_append_of_ne_nil stops]
    · cases h
  · cases h

/-- A declaration at the end of a text grows with it. -/
theorem declaration?_append (h : declaration? s = some (d, [])) (closed : ';' ∉ more) :
    declaration? (s ++ more) =
      some (⟨d.name, String.ofList (grown d.value.toList more)⟩, []) := by
  obtain ⟨after, t, hname, colon, hvalue⟩ := declaration?_eq_some_iff.1 h
  have takes := value?_some hvalue
  obtain ⟨gap, ht, blanks⟩ := takes.gap
  rw [List.append_nil] at ht
  have stops : after.dropWhile Text.isBlank ≠ [] := by
    rw [colon]
    exact List.cons_ne_nil ':' t
  have nonempty : after ≠ [] := by
    rintro rfl
    exact stops rfl
  obtain ⟨c, tail, hc⟩ := List.exists_cons_of_ne_nil takes.nonempty
  have first : c ≠ ';' := by
    rintro rfl
    exact takes.closed (hc ▸ List.mem_cons_self)
  obtain ⟨⟨value, rest⟩, hgrown⟩ := exists_value? first (tail ++ more)
  rw [← List.cons_append, ← hc] at hgrown
  obtain rfl : rest = [] := by
    refine (value?_some hgrown).rest_eq_nil fun h => ?_
    exact (List.mem_append.1 h).elim takes.closed closed
  have same : grown d.value.toList more = value := by
    rw [grown, hgrown]
    rfl
  refine declaration?_eq_some_iff.2
    ⟨after ++ more, t ++ more, name?_append hname nonempty more, ?_, ?_⟩
  · rw [dropWhile_append_of_ne_nil stops, colon]
    rfl
  · rw [ht, List.append_assoc, value?_gap blanks hgrown, same, String.toList_ofList]

/-! ## Texts that are still open -/

/-- Something follows the first colon of a text. -/
def PastColon (s : List Char) : Prop := ∃ c rest, s.dropWhile (· != ':') = ':' :: c :: rest

theorem pastColon_append {before : List Char} (other : ∀ c ∈ before, c ≠ ':') :
    PastColon (before ++ s) ↔ PastColon s := by
  rw [PastColon, List.dropWhile_append_of_pos fun c hc => bne_iff_ne.2 (other c hc)]
  rfl

theorem ne_colon_of_isNameChar {c : Char} (h : isNameChar c = true) : c ≠ ':' := by
  rintro rfl
  exact absurd h (by decide)

theorem ne_colon_of_isBlank {c : Char} (h : Text.isBlank c = true) : c ≠ ':' := by
  rintro rfl
  exact absurd h (by decide)

/-- A name and the blanks behind it end before the first colon. -/
theorem pastColon_name {name after : List Char} (h : name? s = some (name, after)) :
    PastColon s ↔ PastColon (after.dropWhile Text.isBlank) := by
  obtain ⟨rfl, chars⟩ := name?_some h
  have blanks : ∀ c ∈ after.takeWhile Text.isBlank, c ≠ ':' :=
    fun c hc => ne_colon_of_isBlank (List.mem_takeWhile_imp hc)
  have behind := pastColon_append (s := after.dropWhile Text.isBlank) blanks
  rw [List.takeWhile_append_dropWhile] at behind
  rw [pastColon_append fun c hc => ne_colon_of_isNameChar (chars c hc), behind]

theorem pastColon_colon {t : List Char} : PastColon (':' :: t) ↔ t ≠ [] := by
  rw [PastColon, List.dropWhile_cons_of_neg (by decide)]
  cases t with
  | nil => simp
  | cons c t => simp

theorem pastColon_of_declarations (h : declarations s ≠ []) : PastColon s := by
  fun_induction declarations s with
  | case1 s d rest hd _ =>
    obtain ⟨after, t, hname, colon, hvalue⟩ := declaration?_eq_some_iff.1 hd
    rw [pastColon_name hname, colon, pastColon_colon]
    rintro rfl
    cases hvalue
  | case2 _ => exact absurd rfl h
  | case3 c rest _ ih =>
    have past := ih h
    by_cases hc : c = ':'
    · subst hc
      rw [pastColon_colon]
      rintro rfl
      obtain ⟨_, _, hpast⟩ := past
      cases hpast
    · have same : PastColon ([c] ++ rest) ↔ PastColon rest :=
        pastColon_append (by simpa using hc)
      exact same.2 past

theorem not_pastColon_nil : ¬ PastColon [] := by
  rintro ⟨_, _, h⟩
  cases h

/-- Two characters decide whether a name starts. -/
theorem name?_append_none (h : name? s = none) (past : PastColon s) (more : List Char) :
    name? (s ++ more) = none := by
  cases s with
  | nil => exact absurd past not_pastColon_nil
  | cons c s =>
    by_cases hc : c = '-'
    · subst hc
      cases s with
      | nil =>
        obtain ⟨_, _, h⟩ := past
        cases h
      | cons d s =>
        cases letter : isLetter d with
        | false => simp [name?, letter]
        | true => simp [name?, letter] at h
    · cases letter : isLetter c with
      | false => simp [name?, hc, letter]
      | true => simp [name?, hc, letter] at h

/-- Where something follows a colon, a text that starts no declaration starts none with more text
behind it either: name and colon are within the text, and there is something for a value. -/
theorem declaration?_append_none (h : declaration? s = none) (past : PastColon s)
    (closed : ';' ∉ s) (more : List Char) : declaration? (s ++ more) = none := by
  cases hname : name? s with
  | none =>
    rw [declaration?, name?_append_none hname past]
    rfl
  | some found =>
    obtain ⟨name, after⟩ := found
    have behind := (pastColon_name hname).1 past
    have stops : after.dropWhile Text.isBlank ≠ [] := fun none =>
      not_pastColon_nil (none ▸ behind)
    have nonempty : after ≠ [] := by
      rintro rfl
      exact stops rfl
    rw [declaration?, hname] at h
    rw [declaration?, name?_append hname nonempty]
    simp only [Option.bind_eq_bind, Option.bind_some, dropWhile_append_of_ne_nil stops] at h ⊢
    cases hrest : after.dropWhile Text.isBlank with
    | nil => exact absurd hrest stops
    | cons c t =>
      rw [hrest] at h behind
      by_cases hc : c = ':'
      · subst hc
        -- something stands behind this colon, so that it has a value
        obtain ⟨d, u, rfl⟩ := List.exists_cons_of_ne_nil (pastColon_colon.1 behind)
        have first : d ≠ ';' := by
          rintro rfl
          obtain ⟨rfl, -⟩ := name?_some hname
          refine closed (List.mem_append_right name (List.dropWhile_subset Text.isBlank ?_))
          rw [hrest]
          exact List.mem_cons_of_mem ':' List.mem_cons_self
        obtain ⟨found, hvalue⟩ := exists_value? first u
        simp [hvalue] at h
      · simp [hc]

/-- A declaration that is still open grows, and nothing else is declared. -/
theorem declarations_append_open (closed : ';' ∉ s) (behind : ';' ∉ more)
    (h : declarations s = [d]) :
    declarations (s ++ more) = [⟨d.name, String.ofList (grown d.value.toList more)⟩] := by
  have past := pastColon_of_declarations (s := s) (by simp [h])
  fun_induction declarations s with
  | case1 s first rest hfirst _ =>
    obtain rfl := rest_of_declaration? hfirst closed
    obtain ⟨rfl, -⟩ := List.cons.inj h
    have next := declaration?_append hfirst behind
    rw [declarations]
    split
    next found left h' =>
      obtain ⟨rfl, rfl⟩ := Prod.mk.inj (Option.some.inj (next.symm.trans h'))
      rw [declarations]
      rfl
    next h' => cases next.symm.trans h'
  | case2 _ => cases h
  | case3 c rest hnone ih =>
    have next := declaration?_append_none hnone past closed more
    rw [List.cons_append, declarations]
    split
    next found left h' => cases next.symm.trans h'
    next h' =>
      exact ih (fun h => closed (List.mem_cons_of_mem c h)) h
        (pastColon_of_declarations (by simp [h]))

/-! ## Writes -/

/-- What a style has up to its last semicolon. -/
def closedPart (s : String) : String := String.ofList (s.toList.rdropWhile (· != ';'))

/-- What a style has behind its last semicolon. -/
def openPart (s : String) : String := String.ofList (s.toList.rtakeWhile (· != ';'))

/-- What a new declaration has before its first semicolon. -/
def joint (name value : String) : String :=
  String.ofList ((name ++ ":" ++ value).toList.takeWhile (· != ';'))

theorem closedPart_append_openPart (s : String) : closedPart s ++ openPart s = s := by
  rw [closedPart, openPart, ← String.ofList_append, List.rdropWhile_append_rtakeWhile,
    String.ofList_toList]

theorem closedPart_closed (s : String) :
    closedPart s = "" ∨ (closedPart s).toList.getLast? = some ';' := by
  rw [closedPart, String.toList_ofList]
  by_cases h : s.toList.rdropWhile (· != ';') = []
  · exact .inl (by rw [h])
  · right
    have last := List.rdropWhile_last_not _ _ h
    rw [bne_iff_ne, not_not] at last
    rw [List.getLast?_eq_some_getLast h, last]

theorem openPart_open (s : String) : ';' ∉ (openPart s).toList := by
  rw [openPart, String.toList_ofList]
  intro h
  simpa using List.mem_rtakeWhile_imp h

theorem joint_open (name value : String) : ';' ∉ (joint name value).toList := by
  rw [joint, String.toList_ofList]
  intro h
  simpa using List.mem_takeWhile_imp h

theorem exists_after_joint (name value : String) :
    ∃ later, name ++ ":" ++ value ++ ";" = joint name value ++ ";" ++ later := by
  have parts := List.takeWhile_append_dropWhile (p := (· != ';'))
    (l := (name ++ ":" ++ value).toList)
  have joined : name ++ ":" ++ value =
      joint name value ++ String.ofList ((name ++ ":" ++ value).toList.dropWhile (· != ';')) := by
    rw [joint, ← String.ofList_append, parts, String.ofList_toList]
  obtain none | ⟨t, some⟩ := dropWhile_semicolon_ends (name ++ ":" ++ value).toList
  · rw [none] at joined
    refine ⟨"", ?_⟩
    conv_lhs => rw [joined]
    simp
  · rw [some] at joined
    refine ⟨String.ofList t ++ ";", ?_⟩
    conv_lhs => rw [joined]
    simp [← String.toList_inj]

/-- The closed part of a style is read first; the open part grows together with what is written, up
to its first semicolon. -/
theorem lookup?_written (s name value : String) : ∃ later, ∀ n,
    lookup? (s ++ name ++ ":" ++ value ++ ";") n =
      (lookup? (closedPart s) n).or
        ((lookup? (openPart s ++ joint name value) n).or (lookup? later n)) := by
  obtain ⟨later, hlater⟩ := exists_after_joint name value
  refine ⟨later, fun n => ?_⟩
  have whole : s ++ name ++ ":" ++ value ++ ";" =
      closedPart s ++ (openPart s ++ joint name value ++ ";" ++ later) := by
    calc s ++ name ++ ":" ++ value ++ ";" = s ++ (name ++ ":" ++ value ++ ";") := by
          simp only [String.append_assoc]
      _ = closedPart s ++ openPart s ++ (joint name value ++ ";" ++ later) := by
          rw [hlater, closedPart_append_openPart]
      _ = closedPart s ++ (openPart s ++ joint name value ++ ";" ++ later) := by
          simp only [String.append_assoc]
  rw [whole, lookup?_append (closedPart_closed s), lookup?_semicolon]

theorem lookup?_append_open {s more n v : String} (closed : ';' ∉ s.toList)
    (behind : ';' ∉ more.toList) (h : lookup? s n = some v) :
    lookup? (s ++ more) n = some (String.ofList (grown v.toList more.toList)) := by
  obtain ⟨d, hd, rfl⟩ := Option.map_eq_some_iff.1 h
  have short := length_declarations_le closed
  obtain ⟨e, he⟩ : ∃ e, declarations s.toList = [e] := by
    cases hs : declarations s.toList with
    | nil =>
      rw [hs] at hd
      cases hd
    | cons e es =>
      rw [hs] at short
      obtain rfl := List.length_eq_zero_iff.1 (Nat.le_zero.1 (Nat.le_of_succ_le_succ short))
      exact ⟨e, rfl⟩
  rw [he] at hd
  obtain rfl := List.mem_singleton.1 (List.mem_of_find?_eq_some hd)
  have named : (d.name == n) = true := by simpa using List.find?_some hd
  rw [lookup?, String.toList_append, declarations_append_open closed behind he]
  simp [named]

variable {ρ : Type}

/-- What a name reads as after a write, if it read as something before: the same if that was
declared before the last semicolon, and otherwise all that the text behind it makes of the value.
So a value is lost exactly if its declaration is still open and the new one begins with something
other than a semicolon, unless blanks alone become of a blank. -/
theorem declared_survives_iff {c : Attributes} {value : Value ρ} {w : String}
    (written : Attribute.valueOf? value = some w) (name : String) {n v : String}
    (before : get? c n = some v) :
    get? (set c name value) n =
      some (if (lookup? (closedPart (text c)) n).isSome then v
        else String.ofList (grown v.toList (joint name w).toList)) ∧
    (get? (set c name value) n = some v ↔
      (lookup? (closedPart (text c)) n).isSome ∨ joint name w = "" ∨
        ∃ b, v.toList = [b] ∧ (joint name w).toList.getLast? = some b ∧
          ∀ d ∈ (joint name w).toList, Text.isBlank d = true) := by
  obtain ⟨s, styled, found⟩ := Option.bind_eq_some_iff.1 before
  have style : text c = s := by
    rw [text, styled]
    rfl
  obtain ⟨later, reads⟩ := lookup?_written s name w
  have after : get? (set c name value) n = lookup? (s ++ name ++ ":" ++ w ++ ";") n := by
    rw [set, written]
    dsimp only
    rw [get?, Attributes.get?_write, if_pos rfl, Option.bind_some, style]
  have parts := lookup?_append (closedPart_closed s) (openPart s) n
  rw [closedPart_append_openPart, found] at parts
  rw [after, reads, style]
  cases closed : lookup? (closedPart s) n with
  | some v' =>
    rw [closed] at parts
    obtain rfl : v = v' := Option.some.inj parts
    simp
  | none =>
    rw [closed, Option.none_or] at parts
    rw [lookup?_append_open (openPart_open s) (joint_open name w) parts.symm]
    obtain ⟨d, hd, rfl⟩ := Option.map_eq_some_iff.1 found
    obtain ⟨t, rest, takes⟩ := takesValue_of_mem (List.mem_of_find?_eq_some hd)
    have same := grown_eq_iff takes (joint_open name w)
    rw [String.toList_eq_nil_iff] at same
    refine ⟨by simp, ?_⟩
    rw [Option.none_or, Option.some_or, Option.some_inj, ← String.toList_inj,
      String.toList_ofList, same]
    simp

theorem declared_survives_iff_of_unclosed :
    get? ⟨[⟨key, "color:red"⟩]⟩ "color" = some "red" ∧
    get? (set ⟨[⟨key, "color:red"⟩]⟩ "margin" (.text "0" : Value Nat)) "color" =
      some "redmargin:0" ∧
    get? (set ⟨[⟨key, "color:red"⟩]⟩ "margin" (.text "0" : Value Nat)) "color" ≠ some "red" := by
  have before : get? ⟨[⟨key, "color:red"⟩]⟩ "color" = some "red" := by decide +kernel
  have written : Attribute.valueOf? (.text "0" : Value Nat) = some "0" := rfl
  obtain ⟨after, survives⟩ := declared_survives_iff written "margin" before
  have unclosed : closedPart (text ⟨[⟨key, "color:red"⟩]⟩) = "" := by decide +kernel
  refine ⟨before, after.trans (by rw [unclosed]; decide +kernel), fun h => ?_⟩
  rw [survives, unclosed] at h
  obtain h | h | ⟨b, h, -⟩ := h
  · exact absurd h (by decide +kernel)
  · exact absurd h (by decide +kernel)
  · cases h

end Hypertext.Style
