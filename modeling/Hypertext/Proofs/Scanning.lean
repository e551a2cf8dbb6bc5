import Mathlib.Data.List.TakeWhile
import Hypertext.Json.Parser

/-! What reading JSON text takes from the text. Every step leaves an end of its text unread, reads
values without references, refuses a whole number for its length only where so many digits stand in
the text, and a list or a record for its depth only where more of them are opened than may be nested.
The main statement is `scans_read`. -/
namespace Hypertext.Json
set_option autoImplicit false

open Number (Literal isDigit)

variable {α β ρ : Type} {s s' rest : List Char} {depth : Nat}

/-- So many digits stand in a row in the text. -/
def HasRun (count : Nat) (s : List Char) : Prop :=
  ∃ digits : List Char, digits.length = count ∧ (∀ c ∈ digits, isDigit c = true) ∧ digits <:+: s

theorem HasRun.mono {count : Nat} (h : HasRun count s) (inside : s <:+ s') : HasRun count s' := by
  obtain ⟨digits, length, all, infix'⟩ := h
  exact ⟨digits, length, all, infix'.trans inside.isInfix⟩

/-- How many lists and records a text opens, at the most. -/
def openings (s : List Char) : Nat := s.countP fun c => c == '[' || c == '\x7b'

theorem openings_le (inside : s <:+ s') : openings s ≤ openings s' := inside.sublist.countP_le

theorem openings_array (s : List Char) : openings ('[' :: s) = openings s + 1 :=
  List.countP_cons_of_pos rfl

theorem openings_object (s : List Char) : openings ('\x7b' :: s) = openings s + 1 :=
  List.countP_cons_of_pos rfl

/-- A step on this text, within a depth, reads what has the property and leaves an end of the
text. -/
def Scans (depth : Nat) (P : α → Prop) (s : List Char) : Except JsonFault (α × List Char) → Prop
  | .ok (a, rest) => P a ∧ rest <:+ s
  | .error (.digitsTooMany count) => digitLimit < count ∧ HasRun count s
  | .error (.nestedTooDeep _) => depth < openings s
  | .error _ => True

variable {P : α → Prop} {Q : β → Prop}

/-! ## Steps one after the other -/

theorem Scans.mono {x : Except JsonFault (α × List Char)} (h : Scans depth P s x)
    (inside : s <:+ s') : Scans depth P s' x := by
  match x with
  | .ok (a, rest) => exact ⟨h.1, h.2.trans inside⟩
  | .error fault =>
    cases fault with
    | digitsTooMany count => exact ⟨h.1, h.2.mono inside⟩
    | nestedTooDeep shape => exact Nat.lt_of_lt_of_le h (openings_le inside)
    | _ => trivial

/-- What is read behind an opening may be nested less deep by one. -/
theorem Scans.within {x : Except JsonFault (α × List Char)} (h : Scans depth P s x)
    (inside : s <:+ s') (opened : openings s < openings s') : Scans (depth + 1) P s' x := by
  match x with
  | .ok (a, rest) => exact ⟨h.1, h.2.trans inside⟩
  | .error fault =>
    cases fault with
    | digitsTooMany count => exact ⟨h.1, h.2.mono inside⟩
    | nestedTooDeep shape => exact Nat.lt_of_le_of_lt (Nat.succ_le_of_lt h) opened
    | _ => trivial

/-- A fault does not depend on what was to be read. -/
theorem Scans.error {fault : JsonFault} (h : Scans depth P s (.error fault)) :
    Scans depth Q s (.error fault) := by
  cases fault <;> exact h

theorem Scans.bind {x : Except JsonFault (α × List Char)}
    {next : α × List Char → Except JsonFault (β × List Char)} (h : Scans depth P s x)
    (step : ∀ a rest, P a → rest <:+ s → Scans depth Q s (next (a, rest))) :
    Scans depth Q s (x >>= next) := by
  match x with
  | .ok (a, rest) => exact step a rest h.1 h.2
  | .error fault => exact h.error

/-! ## Texts -/

theorem skip_suffix (s : List Char) : skip s <:+ s := List.dropWhile_suffix _

theorem lowHalf?_suffix {n : Nat} (h : lowHalf? s = .ok (some (n, rest))) : rest <:+ s := by
  unfold lowHalf? at h
  split at h
  next a b c d e after =>
    split at h
    · cases h
    · split at h
      · obtain ⟨-, rfl⟩ := Prod.mk.inj (Option.some.inj (Except.ok.inj h))
        exact List.suffix_append ['\\', 'u', a, b, c, d] (e :: after)
      · cases h
  · cases h

theorem scans_unicodeEscape (s : List Char) :
    Scans depth (fun _ => True) s (unicodeEscape s) := by
  unfold unicodeEscape
  split
  next a b c d e after =>
    have hafter : e :: after <:+ a :: b :: c :: d :: e :: after :=
      List.suffix_append [a, b, c, d] (e :: after)
    split
    · trivial
    · split
      · cases hlow : lowHalf? (e :: after) with
        | error fault =>
          unfold lowHalf? at hlow
          split at hlow
          · split at hlow
            · cases hlow
              trivial
            · cases hlow
          · cases hlow
        | ok low =>
          cases low with
          | none => exact ⟨trivial, hafter⟩
          | some found => exact ⟨trivial, (lowHalf?_suffix hlow).trans hafter⟩
      · exact ⟨trivial, hafter⟩
  · trivial

theorem scans_escape (s : List Char) : Scans depth (fun _ => True) s (escape s) := by
  unfold escape
  split
  · trivial
  next after => exact (scans_unicodeEscape after).mono (List.suffix_cons _ _)
  next c after _ =>
    split
    · exact ⟨trivial, List.suffix_cons _ _⟩
    · trivial

theorem scans_text (s : List Char) : Scans depth (fun _ => True) s (text s) := by
  fun_induction text s with
  | case1 => trivial
  | case2 after => exact ⟨trivial, List.suffix_cons _ _⟩
  | case3 after fault h =>
    have hescape : Scans depth (fun _ => True) after (escape after) := scans_escape after
    rw [h] at hescape
    exact (hescape.mono (List.suffix_cons _ _)).error
  | case4 after c left h ih =>
    have hescape : Scans depth (fun _ => True) after (escape after) := scans_escape after
    rw [h] at hescape
    have hleft : left <:+ '\\' :: after := hescape.2.trans (List.suffix_cons _ _)
    exact (ih.mono hleft).bind fun _ _ _ hrest => ⟨trivial, hrest⟩
  | case5 => trivial
  | case6 c after _ _ _ ih =>
    exact (ih.mono (List.suffix_cons _ _)).bind fun _ _ _ hrest => ⟨trivial, hrest⟩

/-! ## Numbers -/

theorem wholePart?_scans {whole : List Char} (h : wholePart? s = some (whole, rest)) :
    whole ++ rest = s ∧ ∀ c ∈ whole, isDigit c = true := by
  unfold wholePart? at h
  split at h
  · obtain ⟨rfl, rfl⟩ := Prod.mk.inj (Option.some.inj h)
    refine ⟨rfl, fun c hc => ?_⟩
    obtain rfl := List.mem_singleton.1 hc
    rfl
  next c after _ =>
    split at h
    next hdigit =>
      obtain ⟨rfl, rfl⟩ := Prod.mk.inj (Option.some.inj h)
      refine ⟨?_, fun d hd => ?_⟩
      · rw [List.cons_append, List.takeWhile_append_dropWhile]
      · obtain rfl | hd := List.mem_cons.1 hd
        · exact hdigit
        · exact List.mem_takeWhile_imp hd
    · cases h
  · cases h

theorem fractionPart_suffix (s : List Char) : (fractionPart s).2 <:+ s := by
  unfold fractionPart
  split
  next after =>
    split
    · exact List.suffix_rfl
    · exact (List.dropWhile_suffix _).trans (List.suffix_cons _ _)
  · exact List.suffix_rfl

theorem sign_suffix (s : List Char) : (Literal.sign s).2 <:+ s := by
  unfold Literal.sign
  split
  · exact List.suffix_cons _ _
  · exact List.suffix_cons _ _
  · exact List.suffix_rfl

theorem exponentPart_suffix (s : List Char) : (exponentPart s).2 <:+ s := by
  unfold exponentPart
  split
  next mark after =>
    split
    · have hsign := (sign_suffix after).trans (List.suffix_cons mark after)
      generalize Literal.sign after = sign at hsign
      obtain ⟨negative, left⟩ := sign
      simp only
      split
      · exact List.suffix_rfl
      · exact (List.dropWhile_suffix _).trans hsign
    · exact List.suffix_rfl
  · exact List.suffix_rfl

/-- A value that is read refers to nothing. -/
abbrev Plain (v : Value ρ) : Prop := v.refs = []

theorem scans_wholeNumber {whole : List Char} (negative : Bool)
    (digits : ∀ c ∈ whole, isDigit c = true) (inside : whole ++ rest <:+ s) (hrest : s' <:+ s) :
    Scans depth (Plain (ρ := ρ)) s ((wholeNumber negative whole).map fun n => (.int n, s')) := by
  unfold wholeNumber
  split
  next long =>
    exact ⟨long, whole, rfl, digits, (List.prefix_append whole rest).isInfix.trans inside.isInfix⟩
  · exact ⟨rfl, hrest⟩

theorem scans_number (s : List Char) : Scans depth (Plain (ρ := ρ)) s (number s) := by
  unfold number
  split
  next negative after hsign =>
    have hafter : after <:+ s := by
      split at hsign
      · obtain ⟨-, rfl⟩ := Prod.mk.inj hsign
        exact List.suffix_cons _ _
      · obtain ⟨-, rfl⟩ := Prod.mk.inj hsign
        exact List.suffix_rfl
    split
    · trivial
    next whole left hwhole =>
      obtain ⟨rfl, digits⟩ := wholePart?_scans hwhole
      have hleft : (exponentPart (fractionPart left).2).2 <:+ s := by
        refine (exponentPart_suffix _).trans ((fractionPart_suffix left).trans ?_)
        exact (List.suffix_append whole left).trans hafter
      simp only
      split
      · exact scans_wholeNumber negative digits hafter hleft
      · exact ⟨rfl, hleft⟩

theorem scans_word (s : List Char) : Scans depth (Plain (ρ := ρ)) s (word s) := by
  unfold word
  split
  next after => exact ⟨rfl, List.suffix_append ['n', 'u', 'l', 'l'] after⟩
  next after => exact ⟨rfl, List.suffix_append ['t', 'r', 'u', 'e'] after⟩
  next after => exact ⟨rfl, List.suffix_append ['f', 'a', 'l', 's', 'e'] after⟩
  next after => exact ⟨rfl, List.suffix_append ['N', 'a', 'N'] after⟩
  next after => exact ⟨rfl, List.suffix_append ['I', 'n', 'f', 'i', 'n', 'i', 't', 'y'] after⟩
  next after =>
    exact ⟨rfl, List.suffix_append ['-', 'I', 'n', 'f', 'i', 'n', 'i', 't', 'y'] after⟩
  · exact scans_number _

/-! ## Values -/

theorem refsFields_eq_nil_iff {fields : List (String × Value ρ)} :
    Value.refsFields fields = [] ↔ ∀ field ∈ fields, field.2.refs = [] := by
  induction fields with
  | nil => simp [Value.refsFields]
  | cons field fields ih =>
    obtain ⟨name, v⟩ := field
    rw [Value.refsFields, List.append_eq_nil_iff, ih]
    simp

theorem refsFields_putField {fields : List (String × Value ρ)} {name : String} {v : Value ρ}
    (hfields : Value.refsFields fields = []) (hv : v.refs = []) :
    Value.refsFields (putField fields name v) = [] := by
  rw [refsFields_eq_nil_iff] at hfields ⊢
  unfold putField
  split
  · intro field hfield
    obtain ⟨old, hold, rfl⟩ := List.mem_map.1 hfield
    split
    · exact hv
    · exact hfields old hold
  · intro field hfield
    obtain hfield | hfield := List.mem_append.1 hfield
    · exact hfields field hfield
    · obtain rfl := List.mem_singleton.1 hfield
      exact hv

/-- The steps on values, on the items of a list and on the fields of a record, by induction on the
fuel that they share. -/
theorem scans_step (fuel : Nat) : ∀ depth,
    (∀ s, Scans depth (Plain (ρ := ρ)) s (value depth fuel s)) ∧
    (∀ s, Scans depth (fun vs : List (Value ρ) => Value.refsList vs = []) s (items depth fuel s)) ∧
    (∀ s found, Value.refsFields (ρ := ρ) found = [] →
      Scans depth (fun fields => Value.refsFields fields = []) s (fields depth fuel found s)) := by
  induction fuel with
  | zero => exact fun _ => ⟨fun _ => trivial, fun _ => trivial, fun _ _ _ => trivial⟩
  | succ fuel ih =>
    intro depth
    obtain ⟨ihValue, ihItems, ihFields⟩ := ih depth
    refine ⟨fun s => ?_, fun s => ?_, fun s found hfound => ?_⟩
    · rw [value.eq_def]
      simp only
      split
      next after =>
        refine ((scans_text after).mono (List.suffix_cons _ _)).bind ?_
        exact fun _ _ _ hrest => ⟨rfl, hrest⟩
      next after =>
        have hskip : skip after <:+ '[' :: after :=
          (skip_suffix after).trans (List.suffix_cons _ _)
        have opened : openings (skip after) < openings ('[' :: after) := by
          rw [openings_array]
          exact Nat.lt_succ_of_le (openings_le (skip_suffix after))
        split
        · exact Nat.lt_of_le_of_lt (Nat.zero_le _) opened
        next left hleft =>
          rw [hleft] at hskip
          exact ⟨rfl, (List.suffix_cons _ _).trans hskip⟩
        next inner _ =>
          exact (((ih inner).2.1 _).within hskip opened).bind fun vs rest hvs hrest => ⟨hvs, hrest⟩
      next after =>
        have hskip : skip after <:+ '\x7b' :: after :=
          (skip_suffix after).trans (List.suffix_cons _ _)
        have opened : openings (skip after) < openings ('\x7b' :: after) := by
          rw [openings_object]
          exact Nat.lt_succ_of_le (openings_le (skip_suffix after))
        split
        · exact Nat.lt_of_le_of_lt (Nat.zero_le _) opened
        next left hleft =>
          rw [hleft] at hskip
          exact ⟨rfl, (List.suffix_cons _ _).trans hskip⟩
        next inner _ =>
          exact (((ih inner).2.2 _ [] rfl).within hskip opened).bind
            fun vs rest hvs hrest => ⟨hvs, hrest⟩
      · exact scans_word _
    · rw [items]
      refine (ihValue s).bind fun v rest hv hrest => ?_
      have hskip := (skip_suffix rest).trans hrest
      simp only
      split
      next left hleft =>
        rw [hleft] at hskip
        exact ⟨List.append_eq_nil_iff.2 ⟨hv, rfl⟩, (List.suffix_cons _ _).trans hskip⟩
      next left hleft =>
        rw [hleft] at hskip
        have hmore : skip left <:+ s :=
          ((skip_suffix left).trans (List.suffix_cons _ _)).trans hskip
        refine ((ihItems _).mono hmore).bind fun vs rest hvs hrest => ?_
        exact ⟨List.append_eq_nil_iff.2 ⟨hv, hvs⟩, hrest⟩
      · trivial
    · rw [fields.eq_def]
      simp only
      split
      next after =>
        refine ((scans_text after).mono (List.suffix_cons _ _)).bind fun name rest _ hrest => ?_
        have hskip := (skip_suffix rest).trans hrest
        simp only
        split
        next left hleft =>
          rw [hleft] at hskip
          have hmore : skip left <:+ '"' :: after :=
            ((skip_suffix left).trans (List.suffix_cons _ _)).trans hskip
          refine ((ihValue _).mono hmore).bind fun v rest hv hrest => ?_
          have hput : Value.refsFields (putField found (String.ofList name) v) = [] :=
            refsFields_putField hfound hv
          have hskip := (skip_suffix rest).trans hrest
          simp only
          split
          next last hlast =>
            rw [hlast] at hskip
            exact ⟨hput, (List.suffix_cons _ _).trans hskip⟩
          next last hlast =>
            rw [hlast] at hskip
            have hmore : skip last <:+ '"' :: after :=
              ((skip_suffix last).trans (List.suffix_cons _ _)).trans hskip
            exact (ihFields _ _ hput).mono hmore
          · trivial
        · trivial
      · trivial

variable {limits : Limits}

/-- A whole text is read as a value without references, refused for the length of a number only if
as many digits stand in it, and for its depth only if it opens more lists and records than may be
nested. -/
theorem scans_read (limits : Limits) (s : List Char) :
    Scans limits.depth (Plain (ρ := ρ)) s ((read limits s).map fun v => (v, [])) := by
  have hvalue := ((scans_step (ρ := ρ) (2 * s.length + 2) limits.depth).1 (skip s)).mono
    (skip_suffix s)
  rw [read.eq_def]
  split
  · trivial
  · cases h : value (ρ := ρ) limits.depth (2 * s.length + 2) (skip s) with
    | error fault =>
      rw [h] at hvalue
      exact hvalue.error
    | ok found =>
      obtain ⟨v, rest⟩ := found
      rw [h] at hvalue
      show Scans limits.depth Plain s (Except.map _ (if skip rest = [] then .ok v else .error .extraData))
      split
      · exact ⟨hvalue.1, List.nil_suffix⟩
      · trivial

theorem plain_of_read {v : Value ρ} (h : read limits s = .ok v) : v.refs = [] := by
  have hread := scans_read (ρ := ρ) limits s
  rw [h] at hread
  exact hread.1

theorem hasRun_of_read {count : Nat}
    (h : read (ρ := ρ) limits s = .error (.digitsTooMany count)) :
    digitLimit < count ∧ HasRun count s := by
  have hread := scans_read (ρ := ρ) limits s
  rw [h] at hread
  exact hread

theorem openings_of_read {shape : String}
    (h : read (ρ := ρ) limits s = .error (.nestedTooDeep shape)) : limits.depth < openings s := by
  have hread := scans_read (ρ := ρ) limits s
  rw [h] at hread
  exact hread

end Hypertext.Json
