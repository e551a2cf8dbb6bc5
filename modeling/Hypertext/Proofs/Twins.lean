import Mathlib.Data.List.Chain
import Mathlib.Data.List.Forall2
import Hypertext.Proofs.Divergence
import Hypertext.Proofs.Entities
import Hypertext.Proofs.Faces

/-! Two renderings in step. Where two trees differ only in what their text slots write, and only by
writing a text as it is or escaped, the two outputs are the same, apart from blanks at their ends,
just where all texts are written alike. The main statement is `Tree.TwinsAll.trimmed_eq_iff`. -/
namespace Hypertext
set_option autoImplicit false

/-- Two results are the same, or one is a text and the other the text escaped. -/
inductive Rewritten : Except Fault String → Except Fault String → Prop where
  | same (result : Except Fault String) : Rewritten result result
  | escaped (s : String) : Rewritten (.ok s) (.ok (Text.escape s))
  | plain (s : String) : Rewritten (.ok (Text.escape s)) (.ok s)

/-- The same apart from what the text slot writes. -/
structure Face.Twin (x y : Face) : Prop where
  kind : y.element.kind = x.element.kind
  tag : y.element.tag = x.element.tag
  attributes : y.element.attributes = x.element.attributes
  read : y.tag.result = x.tag.result

namespace Face.Twin

variable {x y : Face}

theorem hasText (twin : x.Twin y) : y.hasText = x.hasText := congrArg Kind.hasText twin.kind

theorem isInline (twin : x.Twin y) : y.isInline = x.isInline := congrArg Tag.isInline twin.tag

theorem isVoid (twin : x.Twin y) : y.isVoid = x.isVoid := congrArg Tag.isVoid twin.tag

end Face.Twin

theorem Text.escape_eq {s : String} (h : escapeChars s.toList = s.toList) : escape s = s := by
  rw [escape, h, String.ofList_toList]

/-! ## Fragments -/

namespace Fragment

/-- The same but for a text. -/
inductive Twins : Fragment → Fragment → Prop where
  | opening {x y : Face} (twin : x.Twin y) : Twins (.opening x) (.opening y)
  | closing {x y : Face} (twin : x.Twin y) : Twins (.closing x) (.closing y)
  | content {x y : Face} (text : Rewritten x.content.result y.content.result) :
      Twins (.content x) (.content y)
  | newline : Twins .newline .newline
  | indentation (level : Nat) : Twins (.indentation level) (.indentation level)

/-- Faces whose text slots write the same. -/
abbrev SameContents (xs ys : List Face) : Prop :=
  List.Forall₂ (fun x y => y.content.result = x.content.result) xs ys

theorem sameContents_append_iff {xs ys xs' ys' : List Face} (length : xs.length = xs'.length) :
    SameContents (xs ++ ys) (xs' ++ ys') ↔ SameContents xs xs' ∧ SameContents ys ys' := by
  refine ⟨fun same => ⟨?_, ?_⟩, fun ⟨first, second⟩ => List.rel_append first second⟩
  · simpa only [← length, List.take_left] using List.forall₂_take_append _ xs' ys' same
  · simpa only [← length, List.drop_left] using List.forall₂_drop_append _ xs' ys' same

/-- What can stand behind a text. -/
def isEdge : Fragment → Bool
  | opening _ | closing _ | newline => true
  | content _ | indentation _ | refusal _ => false

/-- Behind a text stands a tag or a line break. -/
abbrev Spaced (xs : List Fragment) : Prop := xs.IsChain fun x y => x.face?.isSome → y.isEdge = true

variable {unit : String} {x y : Fragment} {xs ys : List Fragment}

/-- Only texts are spelled in different ways. -/
theorem Twins.rewritten (twins : Twins x y) : Rewritten (x.spelling unit) (y.spelling unit) := by
  cases twins with
  | opening twin =>
    simp only [spelling, Face.attributes, twin.read, twin.attributes]
    exact .same _
  | closing twin =>
    simp only [spelling, twin.read]
    exact .same _
  | content text => exact text
  | newline | indentation _ => exact .same _

theorem Twins.spelling_eq (twins : Twins x y) (plain : x.face? = none) :
    y.spelling unit = x.spelling unit := by
  cases twins with
  | opening twin => simp only [spelling, Face.attributes, twin.read, twin.attributes]
  | closing twin => simp only [spelling, twin.read]
  | content text => cases plain
  | newline | indentation _ => rfl

theorem Twins.isEdge_eq (twins : Twins x y) : y.isEdge = x.isEdge := by cases twins <;> rfl

theorem Twins.face?_eq_none (twins : Twins x y) (plain : x.face? = none) : y.face? = none := by
  cases twins with
  | content text => cases plain
  | _ => rfl

/-! ## What comes of them -/

/-- What fails is the same in both. -/
theorem joined_eq_error_of_twins (twins : List.Forall₂ Twins xs ys) {fault : Fault}
    (h : joined unit xs = .error fault) : joined unit ys = .error fault := by
  have behind : ∀ (s : String) (rest : Except Fault String),
      (do return s ++ (← rest)) = .error fault ↔ rest = .error fault := by
    intro s rest
    cases rest <;> simp [bind, Except.bind, pure, Except.pure]
  induction twins with
  | nil => cases h
  | @cons x y xs ys head _ ih =>
    have spelled : Rewritten (x.spelling unit) (y.spelling unit) := head.rewritten
    rw [joined] at h ⊢
    generalize x.spelling unit = r at h spelled
    generalize y.spelling unit = r' at spelled
    cases spelled with
    | same =>
      cases r with
      | error other => exact h
      | ok s => exact (behind s _).2 (ih ((behind s _).1 h))
    | escaped s => exact (behind _ _).2 (ih ((behind _ _).1 h))
    | plain s => exact (behind _ _).2 (ih ((behind _ _).1 h))

/-- What can be read can be read in both. -/
theorem isAnswered_of_twins (twins : List.Forall₂ Twins xs ys) (h : ∀ x ∈ xs, x.IsAnswered) :
    ∀ y ∈ ys, y.IsAnswered := by
  induction twins with
  | nil => exact h
  | @cons x y xs ys head _ ih =>
    obtain ⟨here, rest⟩ := List.forall_mem_cons.1 h
    refine List.forall_mem_cons.2 ⟨?_, ih rest⟩
    cases head with
    | opening twin | closing twin =>
      obtain ⟨s, read⟩ := here
      exact ⟨s, twin.read.trans read⟩
    | @content x y text =>
      obtain ⟨s, read⟩ := here
      rw [read] at text
      generalize written : y.content.result = result at text
      cases text with
      | same | escaped | plain => exact ⟨_, written⟩
    | newline | indentation _ => trivial

theorem joined_eq_of_sameContents (twins : List.Forall₂ Twins xs ys)
    (same : SameContents (xs.filterMap face?) (ys.filterMap face?)) :
    joined unit ys = joined unit xs := by
  induction twins with
  | nil => rfl
  | @cons x y xs ys head _ ih =>
    rw [joined, joined]
    cases plain : x.face? with
    | none =>
      rw [List.filterMap_cons_none plain, List.filterMap_cons_none (head.face?_eq_none plain)] at same
      rw [head.spelling_eq plain, ih same]
    | some face =>
      cases head with
      | content text =>
        obtain ⟨own, rest⟩ := List.forall₂_cons.1 same
        rw [spelling, spelling, own, ih rest]
      | _ => cases plain

/-- What is written behind a text begins with a tag or a line break, if there is anything. -/
theorem isTail_joined (edges : ∀ y ∈ xs.head?, y.isEdge = true) {s : String}
    (h : joined unit xs = .ok s) : Text.IsTail s.toList := by
  cases xs with
  | nil =>
    obtain rfl := Except.ok.inj h
    exact fun c hc => (by cases hc)
  | cons x xs =>
    obtain ⟨t, u, spelled, -, rfl⟩ := joined_cons_eq_ok.1 h
    rw [spelling_eq_text (isAnswered_of_spelling spelled)] at spelled
    obtain rfl := Except.ok.inj spelled
    have edge := edges x rfl
    cases x with
    | opening face =>
      rw [text, Markup.openingTag]
      split
      · simp [Text.IsTail]
      · simp [Text.IsTail]
    | closing face => simp [Text.IsTail, text, Markup.closingTag]
    | newline => simp [Text.IsTail, text]
    | content _ | indentation _ | refusal _ => cases edge

theorem head_isEdge (twins : List.Forall₂ Twins xs ys) (edges : ∀ x ∈ xs.head?, x.isEdge = true) :
    ∀ y ∈ ys.head?, y.isEdge = true := by
  cases twins with
  | nil => exact edges
  | cons head _ =>
    intro y hy
    obtain rfl := Option.some.inj hy
    rw [head.isEdge_eq]
    exact edges _ rfl

/-- The first text that is written in two ways shows in the output, whatever comes behind it. -/
theorem sameContents_of_trimmed (twins : List.Forall₂ Twins xs ys) (spaced : Spaced xs)
    (before : List Char) {s t : String} (hs : joined unit xs = .ok s) (ht : joined unit ys = .ok t)
    (same : Text.trimEndChars (before ++ s.toList) = Text.trimEndChars (before ++ t.toList)) :
    SameContents (xs.filterMap face?) (ys.filterMap face?) := by
  induction twins generalizing before s t with
  | nil => exact .nil
  | @cons x y xs ys head rest ih =>
    obtain ⟨a, u, ha, hu, rfl⟩ := joined_cons_eq_ok.1 hs
    obtain ⟨b, v, hb, hv, rfl⟩ := joined_cons_eq_ok.1 ht
    have later : a = b → SameContents (xs.filterMap face?) (ys.filterMap face?) := by
      rintro rfl
      refine ih (List.IsChain.tail spaced) (before ++ a.toList) hu hv ?_
      simpa only [String.toList_append, List.append_assoc] using same
    cases plain : x.face? with
    | none =>
      rw [List.filterMap_cons_none plain, List.filterMap_cons_none (head.face?_eq_none plain)]
      rw [head.spelling_eq plain] at hb
      exact later (Except.ok.inj (ha.symm.trans hb))
    | some face =>
      have edges : ∀ z ∈ xs.head?, z.isEdge = true := by
        cases xs with
        | nil => exact fun z hz => (by cases hz)
        | cons z xs =>
          rintro _ ⟨⟩
          exact (List.isChain_cons_cons.1 spaced).1 (by rw [plain]; rfl)
      have tail : Text.IsTail u.toList := isTail_joined edges hu
      have tail' : Text.IsTail v.toList := isTail_joined (head_isEdge rest edges) hv
      have written : a = b := by
        have text : Rewritten (.ok a) (.ok b) := ha ▸ hb ▸ head.rewritten
        cases text with
        | same => rfl
        | escaped =>
          rw [String.toList_append, String.toList_append, Text.toList_escape] at same
          exact (Text.escape_eq (Text.escapeChars_of_trimEndChars tail same)).symm
        | plain =>
          rw [String.toList_append, String.toList_append, Text.toList_escape] at same
          exact Text.escape_eq (Text.escapeChars_of_trimEndChars tail' same.symm)
      cases head with
      | content text =>
        refine .cons ?_ (later written)
        exact hb.trans (written ▸ ha.symm)
      | _ => cases plain

end Fragment

/-! ## Canvases -/

namespace Canvas

/-- Nothing stands at the end to which only a tag or a line break can be added. -/
def Closed (c : Canvas) : Prop := ∀ x ∈ c.fragments.toList.getLast?, x.face? = none

/-- Two canvases at the same point of the layout, with the same fragments but for texts. Behind a text
the line has begun. -/
structure Twins (c d : Canvas) : Prop where
  level : d.level = c.level
  lineStart : d.lineStart = c.lineStart
  fragments : List.Forall₂ Fragment.Twins c.fragments.toList d.fragments.toList
  spaced : Fragment.Spaced c.fragments.toList
  begun : c.lineStart = true → c.Closed

variable {c d : Canvas} {x y : Face} {a b : Fragment}

theorem twins_empty : Twins .empty .empty :=
  ⟨rfl, rfl, .nil, .nil, fun _ x hx => (by cases hx)⟩

theorem toList_put (c : Canvas) (a : Fragment) :
    (c.put a).fragments.toList = c.fragments.toList ++ [a] := Array.toList_push

theorem closed_put (c : Canvas) (plain : a.face? = none) : (c.put a).Closed := by
  intro x hx
  rw [toList_put, List.getLast?_concat] at hx
  rwa [← Option.some.inj hx]

theorem Twins.write (h : Twins c d) (more : Fragment.Twins a b) (fits : a.isEdge = true ∨ c.Closed)
    (lineStart : Bool) (begun : lineStart = true → a.face? = none) :
    Twins { c.put a with lineStart } { d.put b with lineStart } := by
  refine ⟨h.level, rfl, ?_, ?_, fun start => closed_put c (begun start)⟩
  · show List.Forall₂ _ (c.put a).fragments.toList (d.put b).fragments.toList
    rw [toList_put, toList_put]
    exact List.rel_append h.fragments (.cons more .nil)
  · show Fragment.Spaced (c.put a).fragments.toList
    rw [toList_put]
    refine List.isChain_append.2 ⟨h.spaced, .singleton a, fun z hz w hw shown => ?_⟩
    obtain rfl := Option.some.inj hw
    obtain edge | closed := fits
    · exact edge
    · rw [closed z hz] at shown
      cases shown

/-- What is no text keeps the line as it is. -/
theorem Twins.put (h : Twins c d) (more : Fragment.Twins a b) (fits : a.isEdge = true ∨ c.Closed)
    (plain : a.face? = none) : Twins (c.put a) (d.put b) := by
  have written := h.write more fits c.lineStart fun _ => plain
  exact ⟨h.level, h.lineStart, written.fragments, written.spaced, fun _ => closed_put c plain⟩

theorem Twins.atLevel (h : Twins c d) (level : Nat) : Twins { c with level } { d with level } :=
  ⟨rfl, h.lineStart, h.fragments, h.spaced, h.begun⟩

theorem Twins.endText (h : Twins c d) : Twins c.endText d.endText :=
  ⟨h.level, rfl, h.fragments, h.spaced, fun start => (by cases start)⟩

theorem Twins.indent (h : Twins c d) (pretty : Bool) : Twins (c.indent pretty) (d.indent pretty) := by
  cases pretty with
  | false => exact h
  | true =>
    have broken : Twins (if c.lineStart then c else c.put .newline)
        (if d.lineStart then d else d.put .newline) := by
      rw [h.lineStart]
      split
      · exact h
      · exact h.put .newline (.inl rfl) rfl
    have closed : (if c.lineStart then c else c.put .newline).Closed := by
      split
      next start => exact h.begun start
      next => exact closed_put c rfl
    have level := broken.level
    rw [Canvas.indent, Canvas.indent, if_pos rfl, if_pos rfl]
    simp only [level]
    exact broken.write (.indentation _) (.inr closed) false fun _ => rfl

theorem Twins.openElement (h : Twins c d) (twin : x.Twin y) (pretty : Bool) :
    Twins (c.openElement pretty x) (d.openElement pretty y) ∧ (c.openElement pretty x).Closed := by
  have broken : Twins (if pretty && !x.isInline then c.indent pretty else c)
      (if pretty && !y.isInline then d.indent pretty else d) := by
    rw [twin.isInline]
    split
    · exact h.indent pretty
    · exact h
  have level := broken.level
  rw [Canvas.openElement, Canvas.openElement]
  simp only [level]
  exact ⟨(broken.atLevel _).put (.opening twin) (.inl rfl) rfl, closed_put _ rfl⟩

theorem Twins.writeText (h : Twins c d) (closed : c.Closed)
    (text : Rewritten x.content.result y.content.result) :
    Twins (c.writeText x) (d.writeText y) :=
  h.write (.content text) (.inr closed) false (nomatch ·)

theorem Twins.closeElement (h : Twins c d) (twin : x.Twin y) (pretty : Bool) :
    Twins (c.closeElement pretty x) (d.closeElement pretty y) := by
  have left : Twins { c with level := c.level - 1 } { d with level := d.level - 1 } := by
    rw [h.level]
    exact h.atLevel _
  have indented {c d : Canvas} (h : Twins c d) :
      Twins (if c.lineStart then c.indent pretty else c)
        (if d.lineStart then d.indent pretty else d) := by
    rw [h.lineStart]
    split
    · exact h.indent pretty
    · exact h
  have closed {c d : Canvas} (h : Twins c d) :
      Twins (if x.isVoid then c else c.put (.closing x))
        (if y.isVoid then d else d.put (.closing y)) := by
    rw [twin.isVoid]
    split
    · exact h
    · exact h.put (.closing twin) (.inl rfl) rfl
  have ended {c d : Canvas} (h : Twins c d) :
      Twins
        (if !x.isInline && pretty && !c.lineStart then
          { c.put .newline with lineStart := true } else c)
        (if !y.isInline && pretty && !d.lineStart then
          { d.put .newline with lineStart := true } else d) := by
    rw [twin.isInline, h.lineStart]
    split
    · exact h.write .newline (.inl rfl) true fun _ => rfl
    · exact h
  exact ended (closed (indented left))

/-- Layout has no text. -/
theorem contents_eq (c : Canvas) : c.contents = c.fragments.toList.filterMap Fragment.face? := by
  rw [contents, words, List.filterMap_filter]
  refine List.filterMap_congr fun x _ => ?_
  cases x <;> rfl

/-- Outputs that are the same apart from blanks at their ends have the same texts, and the other way
round. Where one of them fails the other one fails in the same way. -/
theorem Twins.trimmed_eq_iff (h : Twins c d) (unit : String) :
    (Fragment.joined unit d.fragments.toList).map Text.trimEnd =
        (Fragment.joined unit c.fragments.toList).map Text.trimEnd ↔
      ∀ s, Fragment.joined unit c.fragments.toList = .ok s →
        Fragment.SameContents c.contents d.contents := by
  rw [contents_eq, contents_eq]
  cases hc : Fragment.joined unit c.fragments.toList with
  | error fault => simp [Fragment.joined_eq_error_of_twins h.fragments hc]
  | ok s =>
    refine ⟨fun same _ _ => ?_, fun same => ?_⟩
    · cases hd : Fragment.joined unit d.fragments.toList with
      | error fault =>
        rw [hd] at same
        cases same
      | ok t =>
        rw [hd] at same
        refine Fragment.sameContents_of_trimmed h.fragments h.spaced [] hc hd ?_
        have trimmed := congrArg String.toList (Except.ok.inj same)
        rw [Text.trimEnd, Text.trimEnd, String.toList_ofList, String.toList_ofList] at trimmed
        exact trimmed.symm
    · rw [Fragment.joined_eq_of_sameContents h.fragments (same s rfl), hc]

end Canvas

/-! ## Trees -/

namespace Tree

mutual

/-- Trees that are the same apart from what text slots write, where one text can be the other one
escaped. -/
inductive Twins : Tree → Tree → Prop where
  | node {x y : Face} {inside inside' : Option Tree} {ts us : List Tree} (twin : x.Twin y)
      (text : TwinsText x y inside inside') (held : TwinsAll ts us) :
      Twins (.node x inside ts) (.node y inside' us)

inductive TwinsText : Face → Face → Option Tree → Option Tree → Prop where
  | hidden {x y : Face} (slot : x.hasText = false) : TwinsText x y none none
  | content {x y : Face} (slot : x.hasText = true)
      (text : Rewritten x.content.result y.content.result) : TwinsText x y none none
  | element {x y : Face} {t u : Tree} (slot : x.hasText = true) (held : Twins t u) :
      TwinsText x y (some t) (some u)

inductive TwinsAll : List Tree → List Tree → Prop where
  | nil : TwinsAll [] []
  | cons {t u : Tree} {ts us : List Tree} (head : Twins t u) (tail : TwinsAll ts us) :
      TwinsAll (t :: ts) (u :: us)

end

mutual

theorem Twins.draw {t u : Tree} (h : t.Twins u) (pretty : Bool) {c d : Canvas}
    (before : c.Twins d) : (t.draw pretty c).Twins (u.draw pretty d) := by
  match h with
  | .node twin text held =>
    rw [Tree.draw, Tree.draw]
    obtain ⟨opened, closed⟩ := before.openElement twin pretty
    have written := TwinsText.draw text twin pretty opened closed
    exact (TwinsAll.draw held pretty written).closeElement twin pretty

/-- A text is only written behind an opening tag. -/
theorem TwinsText.draw {x y : Face} {inside inside' : Option Tree}
    (h : TwinsText x y inside inside') (twin : x.Twin y) (pretty : Bool) {c d : Canvas}
    (before : c.Twins d) (closed : c.Closed) :
    (drawText pretty x inside c).Twins (drawText pretty y inside' d) := by
  match h with
  | .hidden slot =>
    rw [drawText, drawText, twin.hasText, slot]
    exact before
  | .content slot text =>
    rw [drawText, drawText, twin.hasText, slot]
    exact before.writeText closed text
  | .element slot held =>
    rw [drawText, drawText, twin.hasText, slot]
    exact (Twins.draw held pretty before).endText

theorem TwinsAll.draw {ts us : List Tree} (h : TwinsAll ts us) (pretty : Bool) {c d : Canvas}
    (before : c.Twins d) : (drawAll pretty ts c).Twins (drawAll pretty us d) := by
  match h with
  | .nil => exact before
  | .cons head tail =>
    rw [drawAll, drawAll]
    exact TwinsAll.draw tail pretty (Twins.draw head pretty before)

end

mutual

theorem Twins.length_texts {t u : Tree} (h : t.Twins u) : t.texts.length = u.texts.length := by
  match h with
  | .node twin text held =>
    rw [texts, texts, List.length_append, List.length_append, TwinsText.length_texts text twin,
      TwinsAll.length_texts held]

theorem TwinsText.length_texts {x y : Face} {inside inside' : Option Tree}
    (h : TwinsText x y inside inside') (twin : x.Twin y) :
    (textsInside x inside).length = (textsInside y inside').length := by
  match h with
  | .hidden _ | .content _ _ =>
    rw [textsInside, textsInside, twin.hasText]
    split <;> rfl
  | .element slot held =>
    rw [textsInside, textsInside, twin.hasText, if_pos slot, if_pos slot]
    exact Twins.length_texts held

theorem TwinsAll.length_texts {ts us : List Tree} (h : TwinsAll ts us) :
    (textsAll ts).length = (textsAll us).length := by
  match h with
  | .nil => rfl
  | .cons head tail =>
    rw [textsAll, textsAll, List.length_append, List.length_append, Twins.length_texts head,
      TwinsAll.length_texts tail]

end

/-- What trees come to for a unit of indentation. -/
def drawn (pretty : Bool) (unit : String) (ts : List Tree) : Except Fault String :=
  Fragment.joined unit (drawAll pretty ts .empty).fragments.toList

theorem contents_drawn (pretty : Bool) (ts : List Tree) :
    (drawAll pretty ts .empty).contents = textsAll ts := contents_drawAll pretty ts .empty

theorem TwinsAll.exists_drawn {ts us : List Tree} (h : TwinsAll ts us) {pretty : Bool}
    {unit s : String} (there : drawn pretty unit ts = .ok s) : ∃ t, drawn pretty unit us = .ok t :=
  ⟨_, Fragment.joined_eq_text unit _ (Fragment.isAnswered_of_twins
    (h.draw pretty Canvas.twins_empty).fragments (Fragment.isAnswered_of_joined there))⟩

/-- The outputs of such trees are the same apart from blanks at their ends just where all their texts
are written alike, or where the first has no output. -/
theorem TwinsAll.trimmed_eq_iff {ts us : List Tree} (h : TwinsAll ts us) (pretty : Bool)
    (unit : String) :
    (drawn pretty unit us).map Text.trimEnd = (drawn pretty unit ts).map Text.trimEnd ↔
      ∀ s, drawn pretty unit ts = .ok s → Fragment.SameContents (textsAll ts) (textsAll us) := by
  rw [← contents_drawn pretty ts, ← contents_drawn pretty us]
  exact (h.draw pretty Canvas.twins_empty).trimmed_eq_iff unit

end Tree

end Hypertext
