/-! The code that keeps text from being read as markup. Four characters have a reserved
meaning in markup and are written as entities; every other character stands for itself.
`unescape` puts the entities back in one pass from left to right, so it inverts `escape`
also on text that already holds entities. -/
namespace Hypertext.Text
set_option autoImplicit false

/-! ## Writing -/

/-- The written form of one character. The single quote is not reserved. -/
def entity (c : Char) : List Char :=
  if c = '<' then ['&', 'l', 't', ';']
  else if c = '>' then ['&', 'g', 't', ';']
  else if c = '&' then ['&', 'a', 'm', 'p', ';']
  else if c = '"' then ['&', 'q', 'u', 'o', 't', ';']
  else [c]

/-- Each character is written on its own, so nothing is escaped twice. -/
def escapeChars (s : List Char) : List Char := s.flatMap entity

def escape (s : String) : String := String.ofList (escapeChars s.toList)

/-! ## Reading back -/

/-- An ampersand that begins no entity stands for itself. -/
def unescapeChars : List Char → List Char
  | [] => []
  | '&' :: 'l' :: 't' :: ';' :: rest => '<' :: unescapeChars rest
  | '&' :: 'g' :: 't' :: ';' :: rest => '>' :: unescapeChars rest
  | '&' :: 'a' :: 'm' :: 'p' :: ';' :: rest => '&' :: unescapeChars rest
  | '&' :: 'q' :: 'u' :: 'o' :: 't' :: ';' :: rest => '"' :: unescapeChars rest
  | c :: rest => c :: unescapeChars rest

def unescape (s : String) : String := String.ofList (unescapeChars s.toList)

/-! ## Laws -/

@[simp] theorem escapeChars_nil : escapeChars [] = [] := rfl

theorem escapeChars_cons (c : Char) (s : List Char) :
    escapeChars (c :: s) = entity c ++ escapeChars s := by
  simp [escapeChars]

theorem escapeChars_append (s t : List Char) :
    escapeChars (s ++ t) = escapeChars s ++ escapeChars t := by
  simp [escapeChars]

theorem unescapeChars_entity_append (c : Char) (rest : List Char) :
    unescapeChars (entity c ++ rest) = c :: unescapeChars rest := by
  unfold entity
  split
  · subst_vars; rfl
  split
  · subst_vars; rfl
  split
  · subst_vars; rfl
  split
  · subst_vars; rfl
  next _ _ hamp _ =>
    rw [List.singleton_append, unescapeChars]
    all_goals grind

theorem unescapeChars_escapeChars (s : List Char) : unescapeChars (escapeChars s) = s := by
  induction s with
  | nil => rfl
  | cons c s ih => rw [escapeChars_cons, unescapeChars_entity_append, ih]

end Hypertext.Text
