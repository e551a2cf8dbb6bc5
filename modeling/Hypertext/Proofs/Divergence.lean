import Mathlib.Data.List.DropRight
import Hypertext.Text.Blank
import Hypertext.Text.Escape

/-! Outputs that part. One goes on with a text and the other with the same text escaped, and then each
goes on in its own way: the first with a tag, a line break or nothing. If the two are the same, apart
from blanks at their ends, then nothing in the text needed to be escaped. The main statement is
`escapeChars_of_trimEndChars`. -/
namespace Hypertext.Text
set_option autoImplicit false

/-- What stands behind a text in an output: a tag, a line break or nothing. -/
def IsTail (cs : List Char) : Prop := ∀ c ∈ cs.head?, c = '<' ∨ c = '\n'

/-! ## The first difference -/

/-- A text that an entity has moved back comes by the characters of this entity again and again. -/
theorem exists_head_of_moved {xs ys : List Char} : ∀ {cs : List Char},
    cs ++ xs = 'a' :: 'm' :: 'p' :: ';' :: (escapeChars cs ++ ys) →
      ∃ c ∈ xs.head?, c ∈ ['a', 'm', 'p', ';']
  | [], h => by
    obtain rfl : xs = _ := h
    exact ⟨'a', rfl, by decide⟩
  | [_], h => by
    obtain ⟨rfl, h⟩ := List.cons.inj h
    obtain rfl : xs = _ := h
    exact ⟨'m', rfl, by decide⟩
  | [_, _], h => by
    obtain ⟨rfl, h⟩ := List.cons.inj h
    obtain ⟨rfl, h⟩ := List.cons.inj h
    obtain rfl : xs = _ := h
    exact ⟨'p', rfl, by decide⟩
  | [_, _, _], h => by
    obtain ⟨rfl, h⟩ := List.cons.inj h
    obtain ⟨rfl, h⟩ := List.cons.inj h
    obtain ⟨rfl, h⟩ := List.cons.inj h
    obtain rfl : xs = _ := h
    exact ⟨';', rfl, by decide⟩
  | _ :: _ :: _ :: _ :: cs, h => by
    obtain ⟨rfl, h⟩ := List.cons.inj h
    obtain ⟨rfl, h⟩ := List.cons.inj h
    obtain ⟨rfl, h⟩ := List.cons.inj h
    obtain ⟨rfl, h⟩ := List.cons.inj h
    exact exists_head_of_moved h

/-- Entities begin with an ampersand, which only one of the characters that they stand for is. -/
theorem entity_cases (c : Char) :
    entity c = [c] ∨ entity c = [c, 'a', 'm', 'p', ';'] ∨
      c ≠ '&' ∧ ∃ rest, entity c = '&' :: rest := by
  unfold entity
  split
  · subst_vars; exact .inr (.inr ⟨by decide, _, rfl⟩)
  split
  · subst_vars; exact .inr (.inr ⟨by decide, _, rfl⟩)
  split
  · subst_vars; exact .inr (.inl rfl)
  split
  · subst_vars; exact .inr (.inr ⟨by decide, _, rfl⟩)
  · exact .inl rfl

/-- The first character that is escaped is the first difference, unless it is an ampersand; then the
text is moved back by the rest of its entity. -/
theorem escapeChars_of_append {cs xs ys : List Char} (tail : IsTail xs)
    (h : cs ++ xs = escapeChars cs ++ ys) : escapeChars cs = cs := by
  induction cs with
  | nil => rfl
  | cons c cs ih =>
    rw [escapeChars_cons] at h ⊢
    obtain plain | moved | ⟨other, rest, shown⟩ := entity_cases c
    · rw [plain] at h ⊢
      exact congrArg (c :: ·) (ih (List.cons.inj h).2)
    · rw [moved] at h
      obtain ⟨c', first, known⟩ := exists_head_of_moved (List.cons.inj h).2
      obtain rfl | rfl := tail c' first
      · exact absurd known (by decide)
      · exact absurd known (by decide)
    · rw [shown] at h
      exact absurd (List.cons.inj h).1 other

/-! ## Characters that are not blank -/

def weight (cs : List Char) : Nat := cs.countP fun c => !isBlank c

theorem weight_append (cs ds : List Char) : weight (cs ++ ds) = weight cs + weight ds :=
  List.countP_append

theorem trimEndChars_append_blanks (cs : List Char) :
    trimEndChars cs ++ cs.rtakeWhile isBlank = cs := List.rdropWhile_append_rtakeWhile

theorem weight_trimEndChars (cs : List Char) : weight (trimEndChars cs) = weight cs := by
  have blank : weight (cs.rtakeWhile isBlank) = 0 := by
    refine List.countP_eq_zero.2 fun c hc => ?_
    rw [List.mem_rtakeWhile_imp hc]
    exact Bool.false_ne_true
  calc weight (trimEndChars cs)
      = weight (trimEndChars cs ++ cs.rtakeWhile isBlank) := by
        rw [weight_append, blank, Nat.add_zero]
    _ = weight cs := by rw [trimEndChars_append_blanks]

/-- An entity has several characters for the one that it stands for. -/
theorem entity_or_weight (c : Char) : entity c = [c] ∨ weight [c] < weight (entity c) := by
  unfold entity
  split
  · subst_vars; exact .inr (by decide)
  split
  · subst_vars; exact .inr (by decide)
  split
  · subst_vars; exact .inr (by decide)
  split
  · subst_vars; exact .inr (by decide)
  · exact .inl rfl

theorem escapeChars_or_weight (cs : List Char) :
    escapeChars cs = cs ∨ weight cs < weight (escapeChars cs) := by
  induction cs with
  | nil => exact .inl rfl
  | cons c cs ih =>
    rw [escapeChars_cons, weight_append, ← List.singleton_append, weight_append]
    obtain head | head := entity_or_weight c
    · obtain tail | tail := ih
      · exact .inl (by rw [head, tail])
      · exact .inr (by rw [head]; omega)
    · obtain tail | tail := ih
      · exact .inr (by rw [tail]; omega)
      · exact .inr (by omega)

/-! ## Ends -/

theorem trimEndChars_append (cs xs : List Char) :
    trimEndChars (cs ++ xs) = if trimEndChars xs = [] then trimEndChars cs else
      cs ++ trimEndChars xs := by
  simp only [trimEndChars, List.reverse_append, List.dropWhile_append, List.reverse_eq_nil_iff,
    List.isEmpty_iff]
  split
  · rfl
  · rw [List.reverse_append, List.reverse_reverse]

/-- If more than blanks stand behind the text, the first difference is not at the end. Else the
escaped text would have to be no longer than the text, not counting blanks. -/
theorem escapeChars_of_trimEndChars {before cs xs ys : List Char} (tail : IsTail xs)
    (h : trimEndChars (before ++ (cs ++ xs)) = trimEndChars (before ++ (escapeChars cs ++ ys))) :
    escapeChars cs = cs := by
  by_cases blank : trimEndChars xs = []
  · have weights := congrArg weight h
    have none : weight xs = 0 := by
      rw [← weight_trimEndChars, blank]
      rfl
    simp only [weight_trimEndChars, weight_append, none] at weights
    obtain same | more := escapeChars_or_weight cs
    · exact same
    · omega
  · rw [← List.append_assoc, trimEndChars_append, if_neg blank] at h
    have whole := trimEndChars_append_blanks (before ++ (escapeChars cs ++ ys))
    rw [← h, List.append_assoc, List.append_assoc, List.append_cancel_left_eq] at whole
    refine escapeChars_of_append (fun c hc => tail c ?_) whole
    obtain ⟨rest, hrest⟩ : trimEndChars xs <+: xs := List.rdropWhile_prefix isBlank xs
    obtain ⟨d, ds, hds⟩ := List.exists_cons_of_ne_nil blank
    rw [← hrest, hds]
    rwa [hds] at hc

end Hypertext.Text
