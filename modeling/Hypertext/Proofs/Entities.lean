import Mathlib.Data.Set.Operations
import Hypertext.Text.Escape

/-! Escaping as a code. Each character is written on its own, reading back is unambiguous even where
a text held entities before, and what is written can be told by its form: no angle bracket and no
quote, and ampersands only where an entity begins. The main statement is `escape_exact_code`. -/
namespace Hypertext.Text
set_option autoImplicit false

/-! ## The form of escaped texts -/

def entities : List (List Char) :=
  [['&', 'l', 't', ';'], ['&', 'g', 't', ';'], ['&', 'a', 'm', 'p', ';'],
    ['&', 'q', 'u', 'o', 't', ';']]

/-- What follows an ampersand is the rest of an entity. -/
structure IsEscaped (t : List Char) : Prop where
  plain : ∀ c ∈ t, c ≠ '<' ∧ c ≠ '>' ∧ c ≠ '"'
  ampersand : ∀ rest, '&' :: rest <:+ t → ∃ x ∈ entities, x <+: '&' :: rest

theorem isEscaped_nil : IsEscaped [] where
  plain := fun _ hc => absurd hc List.not_mem_nil
  ampersand := fun _ suffix => absurd (List.suffix_nil.1 suffix) (List.cons_ne_nil _ _)

theorem IsEscaped.of_suffix {s t : List Char} (h : IsEscaped t) (suffix : s <:+ t) :
    IsEscaped s where
  plain := fun c hc => h.plain c (suffix.mem hc)
  ampersand := fun rest begins => h.ampersand rest (begins.trans suffix)

theorem isEscaped_cons_iff {c : Char} {t : List Char} : IsEscaped (c :: t) ↔
    (c ≠ '<' ∧ c ≠ '>' ∧ c ≠ '"') ∧ (c = '&' → ∃ x ∈ entities, x <+: c :: t) ∧ IsEscaped t := by
  constructor
  · intro h
    refine ⟨h.plain c List.mem_cons_self, ?_, h.of_suffix (List.suffix_cons c t)⟩
    rintro rfl
    exact h.ampersand t List.suffix_rfl
  · rintro ⟨first, begins, plain, ampersand⟩
    refine ⟨List.forall_mem_cons.2 ⟨first, plain⟩, fun rest suffix => ?_⟩
    obtain whole | suffix := List.suffix_cons_iff.1 suffix
    · obtain ⟨rfl, rfl⟩ := List.cons.inj whole
      exact begins rfl
    · exact ampersand rest suffix

/-- The form can be tested from the end to the start. -/
instance decidableIsEscaped : DecidablePred IsEscaped
  | [] => .isTrue isEscaped_nil
  | _ :: t =>
    have := decidableIsEscaped t
    decidable_of_iff' _ isEscaped_cons_iff

/-! ## What is written has this form -/

/-- Characters that are not reserved can stand anywhere. -/
theorem isEscaped_append {s t : List Char}
    (plain : ∀ c ∈ s, c ≠ '<' ∧ c ≠ '>' ∧ c ≠ '"' ∧ c ≠ '&') (h : IsEscaped t) :
    IsEscaped (s ++ t) := by
  induction s with
  | nil => exact h
  | cons c s ih =>
    obtain ⟨⟨lt, gt, quote, ampersand⟩, rest⟩ := List.forall_mem_cons.1 plain
    exact isEscaped_cons_iff.2 ⟨⟨lt, gt, quote⟩, fun same => absurd same ampersand, ih rest⟩

theorem isEscaped_entity_append (c : Char) {t : List Char} (h : IsEscaped t) :
    IsEscaped (entity c ++ t) := by
  have begun {name : List Char} (member : '&' :: name ∈ entities)
      (plain : ∀ d ∈ name, d ≠ '<' ∧ d ≠ '>' ∧ d ≠ '"' ∧ d ≠ '&') :
      IsEscaped ('&' :: name ++ t) :=
    isEscaped_cons_iff.2 ⟨by decide, fun _ => ⟨_, member, List.prefix_append ..⟩,
      isEscaped_append plain h⟩
  unfold entity
  split
  · exact begun (by decide) (by simp)
  split
  · exact begun (by decide) (by simp)
  split
  · exact begun (by decide) (by simp)
  split
  · exact begun (by decide) (by simp)
  next lt gt ampersand quote =>
    exact isEscaped_append (List.forall_mem_singleton.2 ⟨lt, gt, quote, ampersand⟩) h

theorem isEscaped_escapeChars (s : List Char) : IsEscaped (escapeChars s) := by
  induction s with
  | nil => exact isEscaped_nil
  | cons c s ih =>
    rw [escapeChars_cons]
    exact isEscaped_entity_append c ih

/-! ## What has this form can be written -/

theorem escapeChars_unescapeChars {t : List Char} (h : IsEscaped t) :
    escapeChars (unescapeChars t) = t := by
  have written (c : Char) {rest : List Char}
      (ih : IsEscaped rest → escapeChars (unescapeChars rest) = rest)
      (h : IsEscaped (entity c ++ rest)) :
      escapeChars (c :: unescapeChars rest) = entity c ++ rest := by
    rw [escapeChars_cons, ih (h.of_suffix (List.suffix_append ..))]
  -- the cases are those of reading: the end, four entities, and a character that stands for itself
  fun_induction unescapeChars t with
  | case1 => rfl
  | case2 rest ih => exact written '<' ih h
  | case3 rest ih => exact written '>' ih h
  | case4 rest ih => exact written '&' ih h
  | case5 rest ih => exact written '"' ih h
  | case6 c rest notLt notGt notAmp notQuot ih =>
    obtain ⟨⟨lt, gt, quote⟩, begins, escaped⟩ := isEscaped_cons_iff.1 h
    have ampersand : c ≠ '&' := by
      rintro rfl
      obtain ⟨x, member, more, begun⟩ := begins rfl
      simp only [entities, List.mem_cons, List.not_mem_nil, or_false] at member
      obtain rfl | rfl | rfl | rfl := member
      · exact notLt more rfl (List.cons.inj begun).2.symm
      · exact notGt more rfl (List.cons.inj begun).2.symm
      · exact notAmp more rfl (List.cons.inj begun).2.symm
      · exact notQuot more rfl (List.cons.inj begun).2.symm
    have own : entity c = [c] := by simp [entity, lt, gt, ampersand, quote]
    rw [escapeChars_cons, own, ih escaped, List.singleton_append]

/-! ## Texts -/

theorem toList_escape (s : String) : (escape s).toList = escapeChars s.toList :=
  String.toList_ofList

theorem escape_append (s t : String) : escape (s ++ t) = escape s ++ escape t := by
  rw [escape, String.toList_append, escapeChars_append, String.ofList_append]
  rfl

theorem unescape_escape (s : String) : unescape (escape s) = s := by
  rw [unescape, toList_escape, unescapeChars_escapeChars, String.ofList_toList]

theorem escape_unescape {t : String} (h : IsEscaped t.toList) : escape (unescape t) = t := by
  rw [escape, unescape, String.toList_ofList, escapeChars_unescapeChars h, String.ofList_toList]

/-- Escaping is a code for texts, character by character. One pass from left to right reads it back,
so that no two texts are written alike, and it writes just the texts of its form: these are the ones
that come back when what the pass reads from them is escaped again. -/
theorem escape_exact_code :
    (∀ s t : String, escape (s ++ t) = escape s ++ escape t) ∧
    (∀ s, unescape (escape s) = s) ∧ Function.Injective escape ∧
    ∀ t, (t ∈ Set.range escape ↔ IsEscaped t.toList) ∧
      (IsEscaped t.toList ↔ escape (unescape t) = t) := by
  refine ⟨escape_append, unescape_escape, Function.LeftInverse.injective unescape_escape,
    fun t => ⟨⟨?_, fun h => ⟨unescape t, escape_unescape h⟩⟩, escape_unescape, fun written => ?_⟩⟩
  · rintro ⟨s, rfl⟩
    rw [toList_escape]
    exact isEscaped_escapeChars s.toList
  · rw [← written, toList_escape]
    exact isEscaped_escapeChars _

/-- What held entities before is told apart from what did not. -/
example : escape "&lt;<" = "&amp;lt;&lt;" ∧ IsEscaped "&amp;lt;&lt;".toList ∧
    unescape "&amp;lt;&lt;" = "&lt;<" ∧ ¬ IsEscaped "&amp;lt&;".toList := by decide

end Hypertext.Text
