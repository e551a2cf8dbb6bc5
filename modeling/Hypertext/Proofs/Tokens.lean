import Hypertext.Proofs.Digits
import Hypertext.Proofs.Erasure
import Hypertext.Proofs.Pieces
import Hypertext.Proofs.PrettyPrinting

/-! Text forges no markup. Where tags and attributes have no angle brackets and texts are escaped,
compact output reads back as the tokens of the elements in their order, each with the text of its
element. There is no output only where a whole number has too many digits to be written. The main
statements are `render_pieces`, `render_tooLong` and `AlikeAll.tokens_eq`. -/
namespace Hypertext
set_option autoImplicit false

open Markup (Piece)

/-! ## The pieces of a tree -/

namespace Element

def tagText (e : Element) : String :=
  match e.tag with
  | .text s => s
  | _ => ""

def openingToken (e : Element) : List Char :=
  if e.attributes.render = "" then e.tagText.toList
  else e.tagText.toList ++ ' ' :: e.attributes.render.toList

def closingToken (e : Element) : List Char := '/' :: e.tagText.toList

/-- What the text slot writes: a text is escaped, truth values and integers are spelled, and null
and an element write nothing here. -/
def segment (e : Element) : List Char :=
  if e.hasText then
    match e.content.erased with
    | .text s => Text.escapeChars s.toList
    | .bool b => (Scalar.bool b).plain.toList
    | .int i => (Scalar.int i).plain.toList
    | _ => []
  else []

def openingPiece (e : Element) : Piece := ⟨e.openingToken, e.segment⟩

def closingPieces (e : Element) : List Piece :=
  if Tag.isVoid e.tag then [] else [⟨e.closingToken, []⟩]

theorem isBare_segment (e : Element) : Text.IsBare e.segment := by
  rw [segment]
  split
  · split
    · exact Text.isBare_escapeChars _
    next b _ => cases b <;> decide
    next i _ => exact Text.isBare_integer i
    · decide
  · decide

/-- Replacing the entities in what a text was written as gives the text back. -/
theorem unescape_segment {e : Element} {s : String} (slot : e.hasText = true)
    (hs : e.content.erased = .text s) : String.ofList (Text.unescapeChars e.segment) = s := by
  rw [segment, if_pos slot, hs, Text.unescapeChars_escapeChars, String.ofList_toList]

end Element

namespace Tree

mutual

/-- The pieces of a tree in the order of the walk. -/
def pieces : Tree → List Piece
  | .node x inside children =>
    x.element.openingPiece :: (piecesInside x inside ++ piecesAll children
      ++ x.element.closingPieces)
  | .bare _ _ => []

def piecesInside (x : Face) : Option Tree → List Piece
  | none => []
  | some t => if x.hasText then pieces t else []

def piecesAll : List Tree → List Piece
  | [] => []
  | t :: rest => pieces t ++ piecesAll rest

end

end Tree

/-! ## Faces that are read as they are -/

/-- An element whose tag and attributes have no angle brackets and whose text is null, a truth
value, an integer, another element, or a text that is written escaped. -/
structure Forest.IsSafe (f : Forest) (id : ElementId) (e : Element) : Prop where
  tag : ∃ s, e.tag = .text s ∧ Text.IsBare s.toList
  attributes : ∀ a ∈ e.attributes.toList, Text.IsBare a.key.toList ∧ Text.IsBare a.value.toList
  content : e.hasText = true → e.content.erased = .null ∨ (∃ b, e.content.erased = .bool b) ∨
    (∃ i, e.content.erased = .int i) ∨ (∃ held, e.content = .ref (.element held)) ∨
    ∃ s, e.content.erased = .text s ∧ (f.isVerbatim id).result = .ok false

/-- An element whose text is no whole number of too many digits. -/
def Element.IsShort (e : Element) : Prop :=
  e.hasText = true → ∀ i, e.content.erased = .int i → (Scalar.int i).isTooLong = false

/-- A face that reads as the pieces of its element. Beside another element there is no text. -/
structure Face.IsSafe (x : Face) (inside : Option Tree) : Prop where
  tag : x.tag.result = .ok x.element.tagText
  content : x.content.result = .ok (String.ofList x.element.segment)
  opening : x.element.openingPiece.IsPlain
  closing : Text.IsBare x.element.closingToken
  alone : inside.isSome = true → x.element.segment = []

namespace Forest

variable {f : Forest}

theorem IsSafe.tag_result {id : ElementId} {e : Element} (safe : f.IsSafe id e) :
    (f.face id e).tag.result = .ok e.tagText := by
  obtain ⟨s, hs, _⟩ := safe.tag
  rw [Element.tagText, hs]
  show (f.writtenTag f.textOfRef e.tag).result = .ok s
  rw [hs]
  rfl

theorem IsSafe.content_result {id : ElementId} {e : Element} (safe : f.IsSafe id e)
    (short : e.IsShort) : (f.face id e).content.result = .ok (String.ofList e.segment) := by
  show (if e.hasText then f.written id f.textOfRef e.content else pure "").result = _
  rw [Element.segment]
  cases slot : e.hasText with
  | false => rfl
  | true =>
    rw [if_pos rfl, if_pos rfl]
    obtain hnull | ⟨b, hb⟩ | ⟨i, hi⟩ | ⟨held, hheld⟩ | ⟨s, hs, escaped⟩ := safe.content slot
    · rw [written_erased hnull, hnull]
      rfl
    · rw [written_erased hb, hb]
      exact congrArg Except.ok String.ofList_toList.symm
    · rw [written_erased hi, hi]
      show (if (Scalar.int i).isTooLong then _ else _) = _
      rw [short slot i hi]
      exact congrArg Except.ok String.ofList_toList.symm
    · rw [hheld]
      rfl
    · rw [written_erased hs, hs]
      by_cases hempty : s = ""
      · subst hempty
        rfl
      · rw [written, Account.result_bind, escaped]
        · rfl
        · exact fun h => hempty (by simpa using h)

theorem IsSafe.isBare_tagText {id : ElementId} {e : Element} (safe : f.IsSafe id e) :
    Text.IsBare e.tagText.toList := by
  obtain ⟨s, hs, hbare⟩ := safe.tag
  rwa [Element.tagText, hs]

theorem IsSafe.isBare_openingToken {id : ElementId} {e : Element} (safe : f.IsSafe id e) :
    Text.IsBare e.openingToken := by
  rw [Element.openingToken]
  split
  · exact safe.isBare_tagText
  · exact Text.isBare_append safe.isBare_tagText
      (Text.isBare_cons rfl (Attributes.isBare_render _ safe.attributes))

theorem FaceOf.isSafe {x : Face} {inside : Option Tree}
    (h : f.FaceOf (fun id e => f.IsSafe id e ∧ e.IsShort) x inside) : x.IsSafe inside := by
  obtain ⟨id, e, _, ⟨safe, short⟩, rfl, text⟩ := h
  refine ⟨safe.tag_result, safe.content_result short, ⟨safe.isBare_openingToken, e.isBare_segment⟩,
    Text.isBare_cons rfl safe.isBare_tagText, fun some => ?_⟩
  cases text with
  | element slot content held =>
    show e.segment = []
    rw [Element.segment, if_pos slot, content]
    rfl
  | other empty => cases some

end Forest

/-! ## Compact output as pieces -/

namespace Face.IsSafe

variable {x : Face} {inside : Option Tree} (safe : x.IsSafe inside)
include safe

theorem isAnswered : x.IsAnswered := ⟨⟨_, safe.tag⟩, _, safe.content⟩

theorem opening_text (unit : String) : ((Fragment.opening x).text unit).toList =
    '<' :: x.element.openingToken ++ ['>'] := by
  have htag : x.tag.text = x.element.tagText := by rw [Account.text, safe.tag]
  show (Markup.openingTag x.tag.text x.element.attributes.render).toList = _
  rw [htag, Markup.openingTag, Element.openingToken]
  split
  · simp [String.toList_append]
  · simp [String.toList_append]

theorem content_text (unit : String) :
    ((Fragment.content x).text unit).toList = x.element.segment := by
  show x.content.text.toList = _
  rw [Account.text, safe.content, String.toList_ofList]

theorem closing_text (unit : String) :
    ((if x.isVoid then [] else [Fragment.closing x]).flatMap fun y => (y.text unit).toList) =
      x.element.closingPieces.flatMap Piece.chars := by
  have htag : x.tag.text = x.element.tagText := by rw [Account.text, safe.tag]
  rw [Element.closingPieces, Face.isVoid]
  split
  · rfl
  · rw [List.flatMap_singleton, List.flatMap_singleton]
    show (Markup.closingTag x.tag.text).toList = _
    rw [htag, Markup.closingTag]
    simp [Piece.chars, Element.closingToken, String.toList_append]

end Face.IsSafe

namespace Tree

def chars (unit : String) (xs : List Fragment) : List Char :=
  xs.flatMap fun x => (x.text unit).toList

theorem chars_append (unit : String) (xs ys : List Fragment) :
    chars unit (xs ++ ys) = chars unit xs ++ chars unit ys := List.flatMap_append

mutual

theorem chars_words (unit : String) (t : Tree) (safe : t.All Face.IsSafe) :
    chars unit t.words = t.pieces.flatMap Piece.chars := by
  match t with
  | .bare _ _ => exact safe.elim
  | .node x inside children =>
    obtain ⟨hx, hinside, hchildren⟩ := safe
    have hopening : chars unit (.opening x :: wordsText x inside) =
        x.element.openingPiece.chars ++ (piecesInside x inside).flatMap Piece.chars := by
      have htext := chars_wordsText unit x inside hx hinside
      rw [← List.singleton_append, chars_append, htext, chars, List.flatMap_singleton,
        hx.opening_text]
      simp [Piece.chars, Element.openingPiece]
    rw [words, pieces, ← List.cons_append, ← List.cons_append, chars_append, chars_append, hopening,
      chars_wordsAll unit children hchildren, List.flatMap_cons, List.flatMap_append,
      List.flatMap_append, ← hx.closing_text unit]
    simp only [List.append_assoc, chars]

/-- The text of an element comes first, whether an element stands there or not. -/
theorem chars_wordsText (unit : String) (x : Face) (inside : Option Tree)
    (hx : x.IsSafe inside) (safe : AllInside Face.IsSafe inside) :
    chars unit (wordsText x inside) =
      x.element.segment ++ (piecesInside x inside).flatMap Piece.chars := by
  match inside with
  | none =>
    rw [wordsText, piecesInside, List.flatMap_nil, List.append_nil]
    split
    · rw [chars, List.flatMap_singleton, hx.content_text]
    next slot =>
      rw [Element.segment, if_neg (show ¬x.element.hasText = true from slot)]
      rfl
  | some t =>
    rw [wordsText, piecesInside, hx.alone rfl, List.nil_append]
    split
    · exact chars_words unit t safe
    · rfl

theorem chars_wordsAll (unit : String) (ts : List Tree) (safe : AllFrom Face.IsSafe ts) :
    chars unit (wordsAll ts) = (piecesAll ts).flatMap Piece.chars := by
  match ts with
  | [] => rfl
  | t :: rest =>
    rw [wordsAll, piecesAll, chars_append, chars_words unit t safe.1,
      chars_wordsAll unit rest safe.2, List.flatMap_append]

end

mutual

theorem isPlain_pieces (t : Tree) (safe : t.All Face.IsSafe) : ∀ p ∈ t.pieces, p.IsPlain := by
  match t with
  | .bare _ _ => exact safe.elim
  | .node x inside children =>
    obtain ⟨hx, hinside, hchildren⟩ := safe
    intro p hp
    rw [pieces, List.mem_cons, List.mem_append, List.mem_append] at hp
    obtain rfl | (hp | hp) | hp := hp
    · exact hx.opening
    · exact isPlain_piecesInside x inside hinside p hp
    · exact isPlain_piecesAll children hchildren p hp
    · rw [Element.closingPieces] at hp
      split at hp
      · cases hp
      · rw [List.mem_singleton.1 hp]
        exact ⟨hx.closing, fun c hc => absurd hc List.not_mem_nil⟩

theorem isPlain_piecesInside (x : Face) (inside : Option Tree)
    (safe : AllInside Face.IsSafe inside) : ∀ p ∈ piecesInside x inside, p.IsPlain := by
  match inside with
  | none => exact fun p hp => absurd hp List.not_mem_nil
  | some t =>
    intro p hp
    rw [piecesInside] at hp
    split at hp
    · exact isPlain_pieces t safe p hp
    · cases hp

theorem isPlain_piecesAll (ts : List Tree) (safe : AllFrom Face.IsSafe ts) :
    ∀ p ∈ piecesAll ts, p.IsPlain := by
  match ts with
  | [] => exact fun p hp => absurd hp List.not_mem_nil
  | t :: rest =>
    intro p hp
    obtain hp | hp := List.mem_append.1 hp
    · exact isPlain_pieces t safe.1 p hp
    · exact isPlain_piecesAll rest safe.2 p hp

end

end Tree

/-! ## Texts do not change the tokens -/

namespace Forest

mutual

/-- Two elements, possibly of two forests, whose trees differ at most in texts. -/
inductive Alike (f g : Forest) : ElementId → ElementId → Prop where
  | intro {id id' : ElementId} {e e' : Element} (there : f.get? id = some e)
      (there' : g.get? id' = some e') (kind : e.kind = e'.kind) (tag : e.tag = e'.tag)
      (attributes : e.attributes = e'.attributes) (text : AlikeText f g e e')
      (children : AlikeAll f g e.children e'.children) : Alike f g id id'

/-- Text slots with two texts, with two elements that are alike, or with one scalar. -/
inductive AlikeText (f g : Forest) : Element → Element → Prop where
  | hidden {e e' : Element} (slot : e.hasText = false) (slot' : e'.hasText = false) :
      AlikeText f g e e'
  | texts {e e' : Element} {s s' : String} (content : e.content.erased = .text s)
      (content' : e'.content.erased = .text s') : AlikeText f g e e'
  | elements {e e' : Element} {held held' : ElementId} (content : e.content = .ref (.element held))
      (content' : e'.content = .ref (.element held')) (alike : Alike f g held held') :
      AlikeText f g e e'
  | same {e e' : Element} {s : Scalar} (content : e.content.erased = .scalar s)
      (content' : e'.content.erased = .scalar s) : AlikeText f g e e'

inductive AlikeAll (f g : Forest) : List Datum → List Datum → Prop where
  | nil : AlikeAll f g [] []
  | cons {id id' : ElementId} {vs vs' : List Datum} (head : Alike f g id id')
      (tail : AlikeAll f g vs vs') :
      AlikeAll f g (.ref (.element id) :: vs) (.ref (.element id') :: vs')

end

variable {f g : Forest}

theorem UnfoldsText.eq_none {e : Element} {inside : Option Tree} (h : f.UnfoldsText e inside)
    (plain : ∀ id, e.content ≠ .ref (.element id)) : inside = none := by
  cases h with
  | element slot content held => exact absurd content (plain _)
  | other empty => rfl

theorem UnfoldsText.eq_none_of_hidden {e : Element} {inside : Option Tree}
    (h : f.UnfoldsText e inside) (slot : e.hasText = false) : inside = none := by
  cases h with
  | element slot' content held =>
    rw [slot] at slot'
    cases slot'
  | other empty => rfl

theorem UnfoldsText.exists_some {e : Element} {inside : Option Tree} {held : ElementId}
    (h : f.UnfoldsText e inside) (slot : e.hasText = true)
    (content : e.content = .ref (.element held)) (there : f.get? held ≠ none) :
    ∃ t, inside = some t ∧ f.Unfolds (.ref (.element held)) t := by
  cases h with
  | element slot' content' unfolds =>
    obtain rfl : _ = held := by simpa using content'.symm.trans content
    exact ⟨_, rfl, unfolds⟩
  | other empty => exact absurd (empty held slot content) there

theorem Alike.there {id id' : ElementId} (alike : f.Alike g id id') :
    f.get? id ≠ none ∧ g.get? id' ≠ none := by
  cases alike with
  | intro there there' _ _ _ _ _ => exact ⟨by simp [there], by simp [there']⟩

mutual

/-- By induction on what is alike: it has the same tokens, whatever the texts are. -/
theorem Alike.tokens_eq {id id' : ElementId} {t u : Tree} (alike : f.Alike g id id')
    (ht : f.Unfolds (.ref (.element id)) t) (hu : g.Unfolds (.ref (.element id')) u) :
    t.pieces.map Piece.token = u.pieces.map Piece.token := by
  match alike with
  | @Alike.intro _ _ _ _ e e' there there' kind tag attributes text children =>
    cases ht with
    | value plain => exact absurd rfl (plain _)
    | element hthere htext hchildren =>
      cases hu with
      | value plain => exact absurd rfl (plain _)
      | element hthere' htext' hchildren' =>
        obtain rfl := Option.some.inj (there.symm.trans hthere)
        obtain rfl := Option.some.inj (there'.symm.trans hthere')
        have htag : e.tagText = e'.tagText := by rw [Element.tagText, Element.tagText, tag]
        have hopening : e.openingToken = e'.openingToken := by
          rw [Element.openingToken, Element.openingToken, htag, attributes]
        have hclosing : e.closingPieces = e'.closingPieces := by
          rw [Element.closingPieces, Element.closingPieces, tag, Element.closingToken,
            Element.closingToken, htag]
        have hinside := AlikeText.tokens_eq text htext htext' (f.face id e) (g.face id' e')
          rfl rfl (congrArg Kind.hasText kind)
        have hall := AlikeAll.tokens_eq children hchildren hchildren'
        rw [Tree.pieces, Tree.pieces, List.map_cons, List.map_cons, List.map_append,
          List.map_append, List.map_append, List.map_append, hinside, hall]
        show e.openingToken :: (_ ++ _ ++ e.closingPieces.map Piece.token) =
          e'.openingToken :: (_ ++ _ ++ e'.closingPieces.map Piece.token)
        rw [hopening, hclosing]

theorem AlikeText.tokens_eq {e e' : Element} {inside inside' : Option Tree}
    (alike : f.AlikeText g e e') (ht : f.UnfoldsText e inside) (hu : g.UnfoldsText e' inside')
    (x x' : Face) (hx : x.element = e) (hx' : x'.element = e') (slots : e.hasText = e'.hasText) :
    (Tree.piecesInside x inside).map Piece.token =
      (Tree.piecesInside x' inside').map Piece.token := by
  match alike with
  | .hidden slot slot' =>
    obtain rfl := ht.eq_none_of_hidden slot
    obtain rfl := hu.eq_none_of_hidden slot'
    rw [Tree.piecesInside, Tree.piecesInside]
  | .texts content content' | .same content content' =>
    obtain rfl := ht.eq_none fun _ => ne_of_erased_scalar content _
    obtain rfl := hu.eq_none fun _ => ne_of_erased_scalar content' _
    rw [Tree.piecesInside, Tree.piecesInside]
  | .elements content content' held =>
    cases slot : e.hasText with
    | false =>
      obtain rfl := ht.eq_none_of_hidden slot
      obtain rfl := hu.eq_none_of_hidden (slots.symm.trans slot)
      rw [Tree.piecesInside, Tree.piecesInside]
    | true =>
      obtain ⟨t, rfl, htree⟩ := ht.exists_some slot content held.there.1
      obtain ⟨u, rfl, hutree⟩ := hu.exists_some (slots.symm.trans slot) content' held.there.2
      have hslot : x.hasText = true := by rw [Face.hasText, hx, slot]
      have hslot' : x'.hasText = true := by rw [Face.hasText, hx', ← slots, slot]
      rw [Tree.piecesInside, Tree.piecesInside, if_pos hslot, if_pos hslot']
      exact Alike.tokens_eq held htree hutree

theorem AlikeAll.tokens_eq {vs vs' : List Datum} {ts us : List Tree} (alike : f.AlikeAll g vs vs')
    (ht : f.UnfoldsAll vs ts) (hu : g.UnfoldsAll vs' us) :
    (Tree.piecesAll ts).map Piece.token = (Tree.piecesAll us).map Piece.token := by
  match alike with
  | .nil =>
    cases ht
    cases hu
    rfl
  | .cons head tail =>
    cases ht with
    | gone gone _ => exact absurd gone head.there.1
    | cons htree hrest =>
      cases hu with
      | gone gone _ => exact absurd gone head.there.2
      | cons hutree hurest =>
        rw [Tree.piecesAll, Tree.piecesAll, List.map_append, List.map_append,
          Alike.tokens_eq head htree hutree, AlikeAll.tokens_eq tail hrest hurest]

end

/-! ## Renderers -/

theorem result_render_compact (f : Forest) (roots : List Datum) (unit : String) :
    (Renderer.render f ⟨roots, .bool false, .text unit⟩).result =
      Fragment.joined unit (Tree.wordsAll (f.trees roots)) := by
  rw [Renderer.result_render, Tree.render_eq_drawAll, Tree.fragments_drawAll]
  exact congrArg (Fragment.joined unit) (List.nil_append _)

/-- The pieces of the unfolding are what the compact text reads as. -/
theorem render_pieces {roots : List Datum} (acyclic : ∀ v ∈ roots, f.AcyclicBelow v)
    (safe : f.Throughout f.IsSafe roots) (short : f.Throughout (fun _ => Element.IsShort) roots)
    (unit : String) :
    ∃ s, (Renderer.render f ⟨roots, .bool false, .text unit⟩).result = .ok s ∧
      Markup.pieces? s.toList = some (Tree.piecesAll (f.trees roots)) := by
  have unfolds := unfoldsAll_trees roots acyclic
  have hall : Tree.AllFrom Face.IsSafe (f.trees roots) :=
    (unfolds.all (safe.and short)).imp fun _ _ h => h.isSafe
  refine ⟨String.join ((Tree.wordsAll (f.trees roots)).map (Fragment.text unit)), ?_, ?_⟩
  · rw [result_render_compact]
    have answered := hall.imp (q := fun x _ => x.IsAnswered) fun _ _ safe => safe.isAnswered
    exact Fragment.joined_eq_text unit _ (Tree.isAnswered_wordsAll answered)
  · rw [String.toList_join, List.flatMap_map]
    have hchars := Tree.chars_wordsAll unit _ hall
    rw [Tree.chars] at hchars
    rw [hchars]
    exact Markup.pieces?_flatMap_chars _ (Tree.isPlain_piecesAll _ hall)

/-! ## Whole numbers of too many digits -/

theorem IsSafe.content_spelling {id : ElementId} {e : Element} (safe : f.IsSafe id e)
    (unit : String) : (Fragment.content (f.face id e)).IsAnswered ∨
      (Fragment.content (f.face id e)).spelling unit = .error .numberTooLong := by
  by_cases short : e.IsShort
  · exact .inl ⟨_, safe.content_result short⟩
  · rw [Element.IsShort] at short
    simp only [Classical.not_forall, Bool.not_eq_false] at short
    obtain ⟨slot, i, hi, long⟩ := short
    refine .inr ?_
    show (if e.hasText then f.written id f.textOfRef e.content else pure "").result = _
    rw [if_pos slot, written_erased hi]
    show (if (Scalar.int i).isTooLong then _ else _) = _
    rw [if_pos long]

/-- Nothing that is written for safe elements fails in another way. -/
theorem spelling_wordsAll {ts : List Tree} (safe : Tree.AllFrom (f.FaceOf f.IsSafe) ts)
    (unit : String) : ∀ y ∈ Tree.wordsAll ts,
      y.IsAnswered ∨ y.spelling unit = .error .numberTooLong := by
  refine Tree.forall_wordsAll ts (safe.imp fun x inside h => ?_)
  obtain ⟨id, e, _, safe, rfl, text⟩ := h
  exact ⟨.inl ⟨_, safe.tag_result⟩, .inl ⟨_, safe.tag_result⟩,
    fun _ _ => safe.content_spelling unit⟩

/-- Where everything that is written can be read, no whole number has too many digits. -/
theorem isShort_of_words {roots : List Datum} {ts : List Tree} (unfolds : f.UnfoldsAll roots ts)
    (safe : f.Throughout f.IsSafe roots) (answered : ∀ y ∈ Tree.wordsAll ts, y.IsAnswered) :
    f.Throughout (fun _ => Element.IsShort) roots := by
  have shown : Tree.AllFrom (fun x inside => inside ≠ none → x.hasText = true) ts := by
    refine (unfolds.all safe).imp fun x inside h some => ?_
    obtain ⟨id, e, _, _, rfl, text⟩ := h
    cases text with
    | element slot content held => exact slot
    | other empty => exact absurd rfl some
  refine unfolds.throughout_of_all ((Tree.showsOnly_of_wordsAll shown answered).imp ?_)
  rintro _ inside here id e there rfl text slot i hi
  obtain ⟨s, hs⟩ := here (text.eq_none fun _ => ne_of_erased_scalar hi _) slot
  have written : (f.written id f.textOfRef e.content).result = .ok s := by
    rw [← hs]
    show _ = (if e.hasText then f.written id f.textOfRef e.content else pure "").result
    rw [if_pos slot]
  rw [written_erased hi] at written
  cases long : (Scalar.int i).isTooLong with
  | false => rfl
  | true =>
    have failed : (if (Scalar.int i).isTooLong then Except.error Fault.numberTooLong
      else .ok (Scalar.int i).plain) = .ok s := written
    rw [long] at failed
    cases failed

theorem render_tooLong {roots : List Datum} (acyclic : ∀ v ∈ roots, f.AcyclicBelow v)
    (safe : f.Throughout f.IsSafe roots)
    (long : ¬ f.Throughout (fun _ => Element.IsShort) roots) (unit : String) :
    (Renderer.render f ⟨roots, .bool false, .text unit⟩).result = .error .numberTooLong := by
  have unfolds := unfoldsAll_trees roots acyclic
  rw [result_render_compact]
  exact Fragment.joined_eq_error (spelling_wordsAll (unfolds.all safe) unit)
    fun answered => long (isShort_of_words unfolds safe answered)

/-! ## Texts and tokens -/

/-- The compact text of safe elements reads as the pieces of their unfolding: each occurrence of an
element is one opening token, with its own text behind it and nothing else anywhere, and one
closing token if it is not void. Texts come back from what they were escaped as, and other texts
leave the tokens as they are. Only a whole number with too many digits keeps the text from being
written at all. -/
theorem text_forges_no_markup (f : Forest) (roots : List Datum)
    (acyclic : ∀ v ∈ roots, f.AcyclicBelow v) (safe : f.Throughout f.IsSafe roots)
    (unit : String) :
    ∃ ts, f.UnfoldsAll roots ts ∧
      (f.Throughout (fun _ => Element.IsShort) roots →
        ∃ s, (Renderer.render f ⟨roots, .bool false, .text unit⟩).result = .ok s ∧
          Markup.pieces? s.toList = some (Tree.piecesAll ts)) ∧
      (¬ f.Throughout (fun _ => Element.IsShort) roots →
        (Renderer.render f ⟨roots, .bool false, .text unit⟩).result = .error .numberTooLong) ∧
      (∀ id e text, f.get? id = some e → e.hasText = true → e.content.erased = .text text →
        e.segment = (Text.escape text).toList ∧
          Text.unescape (String.ofList e.segment) = text) ∧
      ∀ (g : Forest) (others : List Datum), (∀ v ∈ others, g.AcyclicBelow v) →
        g.Throughout g.IsSafe others → g.Throughout (fun _ => Element.IsShort) others →
        f.AlikeAll g roots others →
        ∃ s' pieces, (Renderer.render g ⟨others, .bool false, .text unit⟩).result = .ok s' ∧
          Markup.pieces? s'.toList = some pieces ∧
          pieces.map Piece.token = (Tree.piecesAll ts).map Piece.token := by
  have unfolds := unfoldsAll_trees roots acyclic
  refine ⟨f.trees roots, unfolds, fun short => render_pieces acyclic safe short unit,
    fun long => render_tooLong acyclic safe long unit, ?_, ?_⟩
  · intro id e text _ slot content
    have hsegment : e.segment = Text.escapeChars text.toList := by
      rw [Element.segment, if_pos slot, content]
    refine ⟨by rw [hsegment, Text.escape, String.toList_ofList], ?_⟩
    rw [Text.unescape, String.toList_ofList]
    exact Element.unescape_segment slot content
  · intro g others acyclic' safe' short' alike
    obtain ⟨s', result', reads'⟩ := render_pieces acyclic' safe' short' unit
    exact ⟨s', _, result', reads',
      (alike.tokens_eq unfolds (unfoldsAll_trees others acyclic')).symm⟩

theorem diamond_safe : diamond.Throughout diamond.IsSafe [.ref (.element ⟨0⟩)] := by
  refine throughout_of_forall [⟨0⟩] fun id e there => ?_
  match id with
  | ⟨0⟩ =>
    obtain rfl := Option.some.inj there
    exact ⟨⟨⟨"ul", rfl, by decide⟩, by decide, fun slot => (by cases slot)⟩, by simp⟩
  | ⟨1⟩ =>
    obtain rfl := Option.some.inj there
    exact ⟨⟨⟨"p", rfl, by decide⟩, by decide,
      fun _ => .inr (.inr (.inr (.inl ⟨⟨2⟩, rfl⟩)))⟩, by simp⟩
  | ⟨2⟩ =>
    obtain rfl := Option.some.inj there
    exact ⟨⟨⟨"b", rfl, by decide⟩, by decide,
      fun _ => .inr (.inr (.inr (.inr ⟨"<", rfl, by decide⟩)))⟩, by simp⟩
  | ⟨n + 3⟩ => simp [get?, diamond] at there

theorem diamond_alike : diamond.AlikeAll diamond [.ref (.element ⟨0⟩)] [.ref (.element ⟨0⟩)] := by
  have b : diamond.Alike diamond ⟨2⟩ ⟨2⟩ :=
    .intro rfl rfl rfl rfl rfl (.texts (s := "<") rfl rfl) .nil
  have p : diamond.Alike diamond ⟨1⟩ ⟨1⟩ :=
    .intro rfl rfl rfl rfl rfl (.elements rfl rfl b) .nil
  exact .cons (.intro rfl rfl rfl rfl rfl (.hidden rfl rfl) (.cons p (.cons p .nil))) .nil

theorem diamond_short : diamond.Throughout (fun _ => Element.IsShort) [.ref (.element ⟨0⟩)] := by
  refine throughout_of_forall [⟨0⟩] fun id e there => ?_
  match id with
  | ⟨0⟩ | ⟨1⟩ | ⟨2⟩ =>
    obtain rfl := Option.some.inj there
    exact ⟨fun _ i hi => (by cases hi), by simp⟩
  | ⟨n + 3⟩ => simp [get?, diamond] at there

theorem paragraph_below (i : Int) :
    ∀ v ∈ [Value.ref (.element ⟨0⟩)], (paragraph (.int i)).AcyclicBelow v :=
  fun _ _ _ _ => (paragraph_acyclic _).acyclicFrom _

theorem paragraph_safe (i : Int) :
    (paragraph (.int i)).Throughout (paragraph (.int i)).IsSafe [.ref (.element ⟨0⟩)] := by
  refine throughout_of_forall [⟨0⟩] fun id e there => ?_
  match id with
  | ⟨0⟩ =>
    obtain rfl := Option.some.inj there
    exact ⟨⟨⟨"p", rfl, by decide⟩, fun a ha => absurd ha List.not_mem_nil,
      fun _ => .inr (.inr (.inl ⟨i, rfl⟩))⟩, by simp⟩
  | ⟨n + 1⟩ => simp [get?, paragraph] at there

theorem paragraph_long {i : Int} (long : (Scalar.int i).isTooLong = true) :
    ¬ (paragraph (.int i)).Throughout (fun _ => Element.IsShort) [.ref (.element ⟨0⟩)] := by
  intro short
  obtain ⟨root, same, below⟩ := short _ List.mem_cons_self
  obtain rfl : ⟨0⟩ = root := by simpa using same
  have here := (below ⟨0⟩ _ .refl rfl).1 rfl i rfl
  rw [long] at here
  cases here

/-- A paragraph with a whole number of too many digits is as safe as others, and has no compact text. -/
theorem text_forges_no_markup_of_diamond :
    (∃ ts s, diamond.UnfoldsAll [.ref (.element ⟨0⟩)] ts ∧
      (Renderer.render diamond ⟨[.ref (.element ⟨0⟩)], .bool false, .text ""⟩).result = .ok s ∧
      Markup.pieces? s.toList = some (Tree.piecesAll ts) ∧
      ∃ s' pieces,
        (Renderer.render diamond ⟨[.ref (.element ⟨0⟩)], .bool false, .text ""⟩).result = .ok s' ∧
        Markup.pieces? s'.toList = some pieces ∧
        pieces.map Piece.token = (Tree.piecesAll ts).map Piece.token) ∧
    (paragraph (.int (10 ^ 4300))).Throughout (paragraph (.int (10 ^ 4300))).IsSafe
      [.ref (.element ⟨0⟩)] ∧
    (Renderer.render (paragraph (.int (10 ^ 4300)))
      ⟨[.ref (.element ⟨0⟩)], .bool false, .text ""⟩).result = .error .numberTooLong := by
  have acyclic : ∀ v ∈ [Value.ref (.element ⟨0⟩)], diamond.AcyclicBelow v :=
    fun _ _ _ _ => diamond_acyclic.acyclicFrom _
  obtain ⟨ts, unfolds, written, _, _, others⟩ :=
    text_forges_no_markup diamond [.ref (.element ⟨0⟩)] acyclic diamond_safe ""
  obtain ⟨s, result, reads⟩ := written diamond_short
  obtain ⟨_, _, _, unwritten, _⟩ :=
    text_forges_no_markup _ _ (paragraph_below (10 ^ 4300)) (paragraph_safe (10 ^ 4300)) ""
  exact ⟨⟨ts, s, unfolds, result, reads,
    others diamond [.ref (.element ⟨0⟩)] acyclic diamond_safe diamond_short diamond_alike⟩,
    paragraph_safe _, unwritten (paragraph_long (Scalar.isTooLong_pow (by decide)))⟩

end Forest

end Hypertext
