import Mathlib.Data.List.TakeWhile
import Hypertext.Attributes
import Hypertext.Text.Escape

/-! Markup read from left to right as tokens in angle brackets, each with the text that follows it.
The main statement is `pieces?_flatMap_chars`: where neither tokens nor texts have brackets of
their own, reading gives back the pieces that were written. -/
namespace Hypertext
set_option autoImplicit false

namespace Text

def isBracket (c : Char) : Bool := c == '<' || c == '>'

/-- Whether a text has no angle bracket. -/
def IsBare (s : List Char) : Prop := ∀ c ∈ s, isBracket c = false

instance (s : List Char) : Decidable (IsBare s) :=
  List.decidableBAll (isBracket · = false) s

theorem isBare_append {s t : List Char} (hs : IsBare s) (ht : IsBare t) : IsBare (s ++ t) := by
  intro c hc
  obtain hc | hc := List.mem_append.1 hc
  · exact hs c hc
  · exact ht c hc

theorem isBare_cons {c : Char} {s : List Char} (hc : isBracket c = false) (hs : IsBare s) :
    IsBare (c :: s) := isBare_append (s := [c]) (by simpa [IsBare] using hc) hs

/-! ## Texts without brackets -/

theorem isBare_entity (c : Char) : IsBare (entity c) := by
  unfold entity
  split
  · decide
  split
  · decide
  split
  · decide
  split
  · decide
  next hlt hgt _ _ =>
    intro d hd
    rw [List.mem_singleton.1 hd]
    simp [isBracket, hlt, hgt]

theorem isBare_escapeChars (s : List Char) : IsBare (escapeChars s) := by
  intro c hc
  obtain ⟨d, _, hd⟩ := List.mem_flatMap.1 hc
  exact isBare_entity d c hd

theorem isBare_digits (n : Nat) : IsBare (Number.digits n) := by
  intro c hc
  have hdigit := List.all_eq_true.1 (Number.all_isDigit_digits n) c hc
  rw [isBracket, Bool.or_eq_false_iff, beq_eq_false_iff_ne, beq_eq_false_iff_ne]
  constructor
  · rintro rfl
    cases hdigit
  · rintro rfl
    cases hdigit

theorem isBare_integer (i : Int) : IsBare (Number.integer i).toList := by
  rw [Number.integer, String.toList_ofList]
  cases i with
  | ofNat n => exact isBare_digits n
  | negSucc n => exact isBare_cons rfl (isBare_digits (n + 1))

theorem isBare_intercalate {sep : String} (hsep : IsBare sep.toList) (ss : List String)
    (h : ∀ s ∈ ss, IsBare s.toList) : IsBare (sep.intercalate ss).toList := by
  rw [String.toList_intercalate]
  induction ss with
  | nil =>
    rw [List.map_nil, List.intercalate_nil]
    exact fun c hc => absurd hc List.not_mem_nil
  | cons s ss ih =>
    have hs := h s (by simp)
    have hss := ih fun t ht => h t (by simp [ht])
    cases ss with
    | nil => simpa using hs
    | cons t ss =>
      rw [List.map_cons, List.map_cons, List.intercalate_cons_cons]
      exact isBare_append (isBare_append hs hsep) hss

end Text

namespace Attributes

theorem isBare_render (c : Attributes)
    (h : ∀ a ∈ c.toList, Text.IsBare a.key.toList ∧ Text.IsBare a.value.toList) :
    Text.IsBare c.render.toList := by
  refine Text.isBare_intercalate (by decide) _ fun s hs => ?_
  obtain ⟨a, ha, rfl⟩ := List.mem_map.1 hs
  simp only [Attribute.render, String.toList_append]
  exact Text.isBare_append (Text.isBare_append (Text.isBare_append (h a ha).1 (by decide))
    (h a ha).2) (by decide)

end Attributes

namespace Markup

/-- A token in angle brackets, and the text from there to the next one. -/
structure Piece where
  token : List Char
  segment : List Char
  deriving DecidableEq

def Piece.chars (p : Piece) : List Char := '<' :: p.token ++ '>' :: p.segment

/-- Whether a piece has only the two brackets around its token. -/
def Piece.IsPlain (p : Piece) : Prop := Text.IsBare p.token ∧ Text.IsBare p.segment

/-- Reads pieces from left to right. There is nothing else to read, and no bracket inside a token
or a text. -/
def pieces? : List Char → Option (List Piece)
  | [] => some []
  | '<' :: rest =>
    match _after : rest.dropWhile (!Text.isBracket ·) with
    | '>' :: after =>
      (pieces? (after.dropWhile (!Text.isBracket ·))).map
        (⟨rest.takeWhile (!Text.isBracket ·), after.takeWhile (!Text.isBracket ·)⟩ :: ·)
    | _ => none
  | _ => none
termination_by cs => cs.length
decreasing_by
  have h1 := (List.dropWhile_sublist (!Text.isBracket ·) (l := after)).length_le
  have h2 := (List.dropWhile_sublist (!Text.isBracket ·) (l := rest)).length_le
  rw [_after] at h2
  simp only [List.length_cons] at h2 ⊢
  omega

/-- One piece is read if another one or nothing follows. -/
theorem pieces?_append {p : Piece} (plain : p.IsPlain) {next : List Char}
    (hnext : next.head?.all Text.isBracket = true) :
    pieces? (p.chars ++ next) = (pieces? next).map (p :: ·) := by
  obtain ⟨token, segment⟩ := p
  have htoken : ∀ c ∈ token, (!Text.isBracket c) = true := fun c hc => by simp [plain.1 c hc]
  have hsegment : ∀ c ∈ segment, (!Text.isBracket c) = true := fun c hc => by simp [plain.2 c hc]
  have hdrop : next.dropWhile (!Text.isBracket ·) = next := by
    cases next with
    | nil => rfl
    | cons c next =>
      have hc : Text.isBracket c = true := hnext
      rw [List.dropWhile_cons, hc]
      rfl
  have htake : next.takeWhile (!Text.isBracket ·) = [] := by
    cases next with
    | nil => rfl
    | cons c next =>
      have hc : Text.isBracket c = true := hnext
      rw [List.takeWhile_cons, hc]
      rfl
  have hafter : (token ++ '>' :: (segment ++ next)).dropWhile (!Text.isBracket ·) =
      '>' :: (segment ++ next) := by
    rw [List.dropWhile_append_of_pos htoken]
    rfl
  have htokens : (token ++ '>' :: (segment ++ next)).takeWhile (!Text.isBracket ·) = token := by
    rw [List.takeWhile_append_of_pos htoken]
    exact List.append_nil token
  rw [show Piece.chars ⟨token, segment⟩ ++ next = '<' :: (token ++ '>' :: (segment ++ next)) by
    simp [Piece.chars], pieces?]
  split
  next after h =>
    rw [hafter] at h
    obtain rfl := (List.cons.inj h).2
    rw [htokens, List.dropWhile_append_of_pos hsegment, List.takeWhile_append_of_pos hsegment,
      hdrop, htake, List.append_nil]
  next h => exact absurd hafter (h _)

theorem pieces?_flatMap_chars (ps : List Piece) (plain : ∀ p ∈ ps, p.IsPlain) :
    pieces? (ps.flatMap Piece.chars) = some ps := by
  induction ps with
  | nil => rw [List.flatMap_nil, pieces?]
  | cons p ps ih =>
    have hnext : (ps.flatMap Piece.chars).head?.all Text.isBracket = true := by
      cases ps with
      | nil => rfl
      | cons q qs => rfl
    rw [List.flatMap_cons, pieces?_append (plain p (by simp)) hnext,
      ih fun q hq => plain q (by simp [hq])]
    rfl

end Markup

end Hypertext
