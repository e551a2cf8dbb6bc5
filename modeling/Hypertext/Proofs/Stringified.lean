import Hypertext.Proofs.RoundTrip
import Hypertext.Proofs.Twins

/-! Copies of documents whose texts may be any values, and whose elements may be linked anywhere. A text
that is no plain scalar is written as it is spelled and stored by its spelling; the copy has this
spelling for a text, and escapes it, unless it is marked. And a text is written as it is below marks
that the links lead to, while in the copy only those count that are above it in the document. The main
statement is `Forest.Copyable.exists_copy`. -/
namespace Hypertext
set_option autoImplicit false

open Relation

/-- An element where it is written out, with those that hold it there, the innermost first. -/
structure Occurrence where
  holders : List ElementId
  element : ElementId

namespace Forest

variable {f : Forest}

/-! ## Texts that survive -/

/-- From an element to one that it holds as a child or as its text. -/
def Leads (f : Forest) (o next : Occurrence) : Prop :=
  f.Holds o.element next.element ∧ next.holders = o.element :: o.holders

/-- Where elements are written out in a document. -/
def Occurs (f : Forest) (d : DocumentId) (o : Occurrence) : Prop :=
  ∃ root, .ref (.element root) ∈ f.rootsOf d ∧ ReflTransGen f.Leads ⟨[], root⟩ o

/-- The text that a payload stores for an element: its own text, or what else it has for a text as it
is spelled. -/
def Tells (f : Forest) (id : ElementId) (e : Element) (s : String) : Prop :=
  e.hasText = true ∧ (e.content.erased = .text s ∨
    (f.face id e).isSpelled = true ∧ (f.written id f.textOfRef e.content).result = .ok s)

/-- Whether a text is written as it is: what is spelled always is, and any text is in an element that
is marked or has links up to one that is. -/
def IsRaw (f : Forest) (id : ElementId) (e : Element) : Prop :=
  (f.face id e).isSpelled = true ∨ (f.isVerbatim id).result = .ok true

/-- The same of the copy, where the links lead up to the holders. -/
def IsRawCopy (f : Forest) (o : Occurrence) : Prop :=
  (o.element :: o.holders.take ancestorLimit).any f.isMarked = true

/-- A text is the same in the copy if both are written in the same way, or nothing in it needs to be
escaped. -/
def SurvivesAt (f : Forest) (o : Occurrence) : Prop :=
  ∀ e s, f.get? o.element = some e → f.Tells o.element e s →
    Text.escape s = s ∨ (f.IsRaw o.element e ↔ f.IsRawCopy o)

/-- The same of all that is held there at any depth. -/
def SurvivesBelow (f : Forest) (o : Occurrence) : Prop :=
  ∀ p, ReflTransGen f.Leads o p → f.SurvivesAt p

theorem SurvivesBelow.step {o p : Occurrence} (survives : f.SurvivesBelow o) (leads : f.Leads o p) :
    f.SurvivesBelow p := fun q path => survives q (.head leads path)

/-- What survives below an element survives there, in its text and below its children. -/
theorem survivesBelow_iff {id : ElementId} {e : Element} (there : f.get? id = some e)
    (above : List ElementId) : f.SurvivesBelow ⟨above, id⟩ ↔
      (f.SurvivesAt ⟨above, id⟩ ∧ ∀ held, e.hasText = true → e.content = .ref (.element held) →
        f.SurvivesBelow ⟨id :: above, held⟩) ∧
      ∀ child, .ref (.element child) ∈ e.children → f.SurvivesBelow ⟨id :: above, child⟩ := by
  constructor
  · intro survives
    refine ⟨⟨survives _ .refl, fun held slot content => ?_⟩, fun child hchild => ?_⟩
    · exact survives.step ⟨⟨e, there, .inr ⟨slot, content⟩⟩, rfl⟩
    · exact survives.step ⟨⟨e, there, .inl hchild⟩, rfl⟩
  · rintro ⟨⟨here, text⟩, children⟩ p path
    obtain rfl | ⟨⟨holders, next⟩, ⟨⟨e', there', holds⟩, rfl⟩, rest⟩ := path.cases_head
    · exact here
    · obtain rfl := Option.some.inj (there.symm.trans there')
      obtain child | ⟨slot, content⟩ := holds
      · exact children next child p rest
      · exact text next slot content p rest

theorem survivesBelow_of_gone {id : ElementId} (gone : f.get? id = none) (above : List ElementId) :
    f.SurvivesBelow ⟨above, id⟩ := by
  intro p path
  obtain rfl | ⟨_, ⟨⟨e, there, -⟩, -⟩, -⟩ := path.cases_head
  · intro e s there
    rw [gone] at there
    cases there
  · rw [gone] at there
    cases there

/-! ## Written texts -/

/-- Nobody has a choice for a parent. -/
def Unchosen (f : Forest) : Prop := ∀ id e c, f.get? id = some e → e.parent ≠ .choice c

theorem Unchosen.link_ne (unchosen : f.Unchosen) (id : ElementId) (c : Choice) :
    f.link id ≠ .choice c := by
  rw [link]
  cases there : f.get? id with
  | none =>
    intro h
    cases h
  | some e =>
    intro h
    split at h
    · split at h
      · cases h
      · cases h
    · exact unchosen id e c there h

/-- Without choices the walk up the links never fails. -/
theorem Unchosen.exists_isVerbatim (unchosen : f.Unchosen) (id : ElementId) :
    ∃ verbatim, (f.isVerbatim id).result = .ok verbatim := by
  have beyond : (f.beyond id (f.ancestors id)).result = .ok () := by
    rw [Forest.beyond]
    split
    · rfl
    · rfl
    next chosen => exact (unchosen.link_ne _ _ chosen).elim
  rw [isVerbatim, Account.result_bind, inheritsMark]
  split
  · exact ⟨_, rfl⟩
  · rw [Account.result_bind, beyond]
    exact ⟨_, rfl⟩

theorem exists_plain_of_not_spelled {id : ElementId} {e : Element}
    (h : (f.face id e).isSpelled = false) :
    ∃ s : Scalar, e.content.erased = .scalar s ∧ s.IsPlain := by
  have herased : (f.face id e).element.content.erased = e.content.erased := rfl
  rw [Face.isSpelled, herased] at h
  cases content : e.content.erased with
  | scalar s =>
    refine ⟨s, rfl, ?_⟩
    cases s with
    | choice c =>
      rw [content] at h
      cases h
    | null | bool _ | int _ | float _ | text _ => trivial
  | list _ | record _ | ref _ | renderer _ _ _ | made _ _ =>
    rw [content] at h
    cases h

theorem ne_text_of_spelled {id : ElementId} {e : Element} (h : (f.face id e).isSpelled = true)
    (s : String) : e.content.erased ≠ .text s := by
  intro content
  have hface : (f.face id e).element.content.erased = .text s := content
  rw [Face.isSpelled, hface] at h
  cases h

theorem content_of_slot {id : ElementId} {e : Element} (slot : e.hasText = true) :
    (f.face id e).content = f.written id f.textOfRef e.content := if_pos slot

/-- Nothing of an empty text needs to be escaped. -/
theorem result_written_text {id : ElementId} {verbatim : Bool}
    (h : (f.isVerbatim id).result = .ok verbatim) (s : String) :
    (f.written id f.textOfRef (.text s)).result =
      .ok (if verbatim then s else Text.escape s) := by
  by_cases hs : s = ""
  · subst hs
    cases verbatim <;> rfl
  · rw [written]
    · rw [Account.result_bind, h]
      rfl
    · exact hs

end Forest

/-- The label of an element, apart from the text. -/
structure ElementLabel.IsOf (label : ElementLabel) (e : Element) : Prop where
  kind : e.kind = label.kind
  tag : e.tag = .text label.tag
  attributes : e.attributes = label.attributes
  mark : e.hasText = true → e.mark = .bool label.mark

theorem ElementLabel.IsOf.hasText {label : ElementLabel} {e : Element} (own : label.IsOf e) :
    label.kind.hasText = e.hasText := (congrArg Kind.hasText own.kind).symm

theorem Element.IsKnown.exists_isOf {e : Element} (known : e.IsKnown) {s : Scalar}
    (plain : s.IsPlain) : ∃ label : ElementLabel, label.IsOf e ∧ label.text = s := by
  obtain ⟨label, kind, tag, attributes, text, mark⟩ := known.exists_label plain
  exact ⟨label, ⟨kind, tag, attributes, mark⟩, text⟩

theorem ElementLabel.result_written_text {label : ElementLabel} {s : String}
    (text : label.text = .text s) (above : List Bool) :
    (label.written above).result = .ok
      (if (above.take ancestorLimit).any (fun mark => mark) || label.mark then s
        else Text.escape s) := by
  have verbatim : (verbatimOf (.text label.tag) above label.mark).result =
      .ok ((above.take ancestorLimit).any (fun mark => mark) || label.mark) := by
    rw [verbatimOf]
    cases (above.take ancestorLimit).any (fun mark => mark) with
    | true => rfl
    | false =>
      simp only [Bool.false_eq_true, if_false, Bool.false_or]
      split <;> rfl
  rw [ElementLabel.written, text]
  split
  next h => cases h
  next h =>
    obtain rfl : s = "" := Scalar.text.inj h
    split <;> rfl
  next other _ h =>
    obtain rfl := Scalar.text.inj h
    rw [Account.result_bind, verbatim]
    rfl
  next h => exact absurd rfl (h s)

/-- A text in one element and in another is the same if both write it in the same way. -/
theorem Text.written_eq_iff {raw raw' : Bool} {s : String} :
    (if raw' then s else escape s) = (if raw then s else escape s) ↔
      escape s = s ∨ (raw = true ↔ raw' = true) := by
  cases raw <;> cases raw' <;> simp [eq_comm]

theorem rewritten_text (raw raw' : Bool) (s : String) :
    Rewritten (.ok (if raw then s else Text.escape s)) (.ok (if raw' then s else Text.escape s)) := by
  cases raw <;> cases raw'
  · exact .same _
  · exact .plain s
  · exact .escaped s
  · exact .same _

/-! ## Trees of copies -/

theorem ElementLabel.IsOf.twin {label : ElementLabel} {x : Face} (own : label.IsOf x.element)
    (read : x.tag = pure label.tag) {above : List Bool} {p : Option Plan} :
    x.Twin (label.face above p) where
  kind := own.kind.symm
  tag := own.tag.symm
  attributes := own.attributes.symm
  read := (congrArg Account.result read).symm

namespace Tree

/-- A tree with the payload of a plan whose tree is the same but for the way to write texts. -/
structure Copies (above : List Bool) (p : Plan) (t : Tree) : Prop where
  payload : t.payload.erased = p.payload
  proper : p.Proper
  twins : t.Twins (p.portrait above)

structure AllCopy (above : List Bool) (ps : List Plan) (ts : List Tree) : Prop where
  payload : (payloads ts).map Value.erased = Plan.payloads ps
  proper : Plan.ProperAll ps
  twins : TwinsAll ts (Plan.portraits above ps)

/-- The part of a node that is its text slot. -/
structure TextCopies (above : List Bool) (label : ElementLabel) (p : Option Plan) (x : Face)
    (inside : Option Tree) : Prop where
  payload : x.hasText = true → (textPayload x inside).erased = Plan.textPayload label p
  hidden : x.hasText = false → p = none
  proper : Plan.ProperInside p
  twins : TwinsText x (label.face above p) inside (Plan.portraitInside (label.marks :: above) p)

theorem copies_node {above : List Bool} {label : ElementLabel} {p : Option Plan} {ps : List Plan}
    {x : Face} {inside : Option Tree} {ts : List Tree}
    (own : label.IsOf x.element) (read : x.tag = pure label.tag)
    (text : TextCopies above label p x inside) (held : AllCopy (label.marks :: above) ps ts) :
    Copies above (.node label p ps) (.node x inside ts) where
  payload := erased_payload_node own.kind own.tag own.attributes text.payload own.mark held.payload
  proper := ⟨fun hidden => text.hidden (own.hasText.symm.trans hidden), text.proper, held.proper⟩
  twins := .node (own.twin read) text.twins held.twins

/-- Where a node has a payload, so has what it holds. -/
theorem result_spellings_node {x : Face} {inside : Option Tree} {ts : List Tree} :
    (spellings (.node x inside ts)).result = .ok () ↔ (spellingsAll ts).result = .ok () ∧
      (x.hasText = true → (spellingInside x inside).result = .ok ()) := by
  rw [spellings, Account.result_bind]
  cases (spellingsAll ts).result with
  | error fault => simp [bind, Except.bind]
  | ok _ =>
    show (if x.hasText then spellingInside x inside else pure ()).result = _ ↔ _
    split
    next slot => simp [slot]
    next hidden => exact ⟨fun _ => ⟨rfl, fun slot => absurd slot hidden⟩, fun _ => rfl⟩

theorem result_spellingsAll_cons {t : Tree} {ts : List Tree} :
    (spellingsAll (t :: ts)).result = .ok () ↔
      t.spellings.result = .ok () ∧ (spellingsAll ts).result = .ok () := by
  rw [spellingsAll, Account.result_bind]
  cases t.spellings.result with
  | error fault => simp [bind, Except.bind]
  | ok _ => simp [bind, Except.bind]

end Tree

namespace Forest

variable {f : Forest} {id : ElementId} {e : Element} {label : ElementLabel}
  {above : List ElementId}

/-! ## Text slots -/

theorem tag_face (tag : e.tag = .text label.tag) : (f.face id e).tag = pure label.tag := by
  show f.writtenTag f.textOfRef e.tag = _
  rw [tag]
  rfl

/-- The copy of a text that is written as it is or escaped, for a label of its element. -/
theorem result_slot (there : f.get? id = some e) (own : label.IsOf e) (slot : e.hasText = true)
    {s : String} (text : label.text = .text s) :
    (label.slot (above.map f.isMarked) none).result = .ok
      (if (id :: above.take ancestorLimit).any f.isMarked then s else Text.escape s) := by
  have hslot : label.kind.hasText = true := own.hasText.trans slot
  have mark : label.mark = f.isMarked id := by
    rw [isMarked_of_label there own.kind own.mark, ElementLabel.marks, hslot, Bool.true_and]
  have holders : ((above.map f.isMarked).take ancestorLimit).any (fun mark => mark) =
      (above.take ancestorLimit).any f.isMarked := by
    rw [← List.map_take, List.any_map]
    rfl
  rw [ElementLabel.slot, hslot, Option.isNone_none, Bool.and_true, if_pos rfl,
    ElementLabel.result_written_text text, holders, mark, List.any_cons, Bool.or_comm]

/-- What any other scalar is written as, marks do not matter. -/
theorem result_slot_scalar (own : label.IsOf e) (slot : e.hasText = true)
    (content : e.content.erased = .scalar label.text) (other : ∀ s, label.text ≠ .text s)
    (above : List Bool) :
    (label.slot above none).result = (f.written id f.textOfRef e.content).result := by
  rw [ElementLabel.slot, own.hasText.trans slot, Option.isNone_none, Bool.and_true, if_pos rfl,
    written_erased content, ElementLabel.written]
  cases scalar : label.text with
  | text s => exact absurd scalar (other s)
  | null | bool _ | int _ | float _ | choice _ => rfl

theorem textsInside_none {x : Face} (slot : x.hasText = true) : Tree.textsInside x none = [x] := by
  rw [Tree.textsInside, if_pos slot]

/-- A text slot tells one text at most. -/
theorem Tells.unique {s t : String} (tells : f.Tells id e s) (tells' : f.Tells id e t) : s = t := by
  obtain ⟨-, own | ⟨spelled, result⟩⟩ := tells
  · obtain ⟨-, own' | ⟨spelled', -⟩⟩ := tells'
    · exact Scalar.text.inj (Value.scalar.inj (own.symm.trans own'))
    · exact absurd own (ne_text_of_spelled spelled' s)
  · obtain ⟨-, own' | ⟨-, result'⟩⟩ := tells'
    · exact absurd own' (ne_text_of_spelled spelled t)
    · exact Except.ok.inj (result.symm.trans result')

theorem survivesAt_iff (there : f.get? id = some e) {s : String} (tells : f.Tells id e s) :
    f.SurvivesAt ⟨above, id⟩ ↔
      Text.escape s = s ∨ (f.IsRaw id e ↔ f.IsRawCopy ⟨above, id⟩) := by
  refine ⟨fun survives => survives e s there tells, fun survives e' t there' tells' => ?_⟩
  obtain rfl := Option.some.inj (there.symm.trans there')
  obtain rfl := tells.unique tells'
  exact survives

theorem survivesAt_of_silent (there : f.get? id = some e) (silent : ∀ s, ¬ f.Tells id e s) :
    f.SurvivesAt ⟨above, id⟩ := by
  intro e' s there' tells
  obtain rfl := Option.some.inj (there.symm.trans there')
  exact absurd tells (silent s)

/-- A text slot whose copy looks the same just where its text survives. -/
def CopiesText (f : Forest) (above : List ElementId) (id : ElementId) (e : Element)
    (label : ElementLabel) : Prop :=
  Tree.TextCopies (above.map f.isMarked) label none (f.face id e) none ∧
    (Fragment.SameContents (Tree.textsInside (f.face id e) none)
        (Tree.textsInside (label.face (above.map f.isMarked) none) none) ↔
      f.SurvivesAt ⟨above, id⟩)

/-- Without a text slot nothing is written, and nothing is stored. -/
theorem copiesText_hidden (there : f.get? id = some e) (own : label.IsOf e)
    (hidden : e.hasText = false) (above : List ElementId) : f.CopiesText above id e label := by
  have here : (f.face id e).hasText = false := hidden
  have copy : (label.face (above.map f.isMarked) none).hasText = false := own.hasText.trans hidden
  refine ⟨⟨fun slot => ?_, fun _ => rfl, trivial, .hidden here⟩, ?_⟩
  · rw [here] at slot
    cases slot
  · rw [Tree.textsInside, Tree.textsInside, here, copy, if_neg Bool.false_ne_true,
      if_neg Bool.false_ne_true]
    refine ⟨fun _ => survivesAt_of_silent there fun s tells => ?_, fun _ => .nil⟩
    have slot := tells.1
    rw [hidden] at slot
    cases slot

section Slots

variable (there : f.get? id = some e) (slot : e.hasText = true)
include there slot

/-- A text slot with one text here, and the same text in the copy, each written in its own way. -/
theorem copiesText_of_tells (own : label.IsOf e) {s : String} (text : label.text = .text s)
    (tells : f.Tells id e s) {raw : Bool} (israw : raw = true ↔ f.IsRaw id e)
    (result : (f.written id f.textOfRef e.content).result =
      .ok (if raw then s else Text.escape s))
    (payload : (f.face id e).contentPayload.erased = .text s) (above : List ElementId) :
    f.CopiesText above id e label := by
  have shown : (f.face id e).hasText = true := slot
  have shown' : (label.face (above.map f.isMarked) none).hasText = true := own.hasText.trans slot
  have here : (f.face id e).content.result = .ok (if raw then s else Text.escape s) := by
    rw [content_of_slot slot, result]
  have copy : (label.face (above.map f.isMarked) none).content.result = .ok
      (if (id :: above.take ancestorLimit).any f.isMarked then s else Text.escape s) :=
    result_slot there own slot text
  refine ⟨⟨fun _ => ?_, fun _ => rfl, trivial, .content shown ?_⟩, ?_⟩
  · rw [Tree.textPayload, payload, Plan.textPayload, text]
  · rw [here, copy]
    exact rewritten_text ..
  · rw [textsInside_none shown, textsInside_none shown', Fragment.SameContents, List.forall₂_cons,
      here, copy, survivesAt_iff there tells, ← israw]
    simp only [Except.ok.injEq, Text.written_eq_iff, List.Forall₂.nil, and_true]
    rfl

/-- A scalar that is no text is stored as it is, and written alike everywhere. -/
theorem copiesText_scalar (own : label.IsOf e) (content : e.content.erased = .scalar label.text)
    (silent : ∀ s, label.text ≠ .text s) (above : List ElementId) :
    f.CopiesText above id e label := by
  have plain : (f.face id e).isSpelled = false := isSpelled_eq_false content
  have shown : (f.face id e).hasText = true := slot
  have shown' : (label.face (above.map f.isMarked) none).hasText = true := own.hasText.trans slot
  have same : (label.face (above.map f.isMarked) none).content.result =
      (f.face id e).content.result := by
    rw [content_of_slot slot]
    exact result_slot_scalar own slot content silent _
  refine ⟨⟨fun _ => ?_, fun _ => rfl, trivial, .content shown ?_⟩, ?_⟩
  · rw [Tree.textPayload, Face.contentPayload, plain]
    exact content
  · rw [same]
    exact .same _
  · rw [textsInside_none shown, textsInside_none shown']
    refine ⟨fun _ => survivesAt_of_silent there fun s tells => ?_, fun _ => .cons same .nil⟩
    obtain ⟨-, text | ⟨spelled, -⟩⟩ := tells
    · exact silent s (Value.scalar.inj (content.symm.trans text))
    · rw [plain] at spelled
      cases spelled

/-- A value that is stored by its spelling is written by it as well. -/
theorem exists_copiesText_of_spelled (known : e.IsKnown)
    (isSpelled : (f.face id e).isSpelled = true)
    (spelled : (Tree.spellingInside (f.face id e) none).result = .ok ())
    (above : List ElementId) : ∃ label : ElementLabel, label.IsOf e ∧ f.CopiesText above id e label := by
  rw [Tree.spellingInside, isSpelled, if_pos rfl, Account.result_map, content_of_slot slot]
    at spelled
  cases result : (f.written id f.textOfRef e.content).result with
  | error fault =>
    rw [result] at spelled
    cases spelled
  | ok s =>
    obtain ⟨label, own, text⟩ := known.exists_isOf (show Scalar.IsPlain (.text s) from trivial)
    refine ⟨label, own, copiesText_of_tells there slot own text ⟨slot, .inr ⟨isSpelled, result⟩⟩
      (iff_of_true rfl (.inl isSpelled)) result ?_ above⟩
    rw [Face.contentPayload, isSpelled, if_pos rfl, Account.text, content_of_slot slot, result]
    rfl

/-- A scalar is stored as it is; if it is a text, marks decide here and in the copy how it is
written. -/
theorem exists_copiesText_of_scalar (unchosen : f.Unchosen) (known : e.IsKnown)
    (isSpelled : (f.face id e).isSpelled = false) (above : List ElementId) :
    ∃ label : ElementLabel, label.IsOf e ∧ f.CopiesText above id e label := by
  obtain ⟨scalar, content, plain⟩ := exists_plain_of_not_spelled isSpelled
  obtain ⟨label, own, rfl⟩ := known.exists_isOf plain
  refine ⟨label, own, ?_⟩
  by_cases text : ∃ s, label.text = .text s
  · obtain ⟨s, text⟩ := text
    obtain ⟨raw, verbatim⟩ := unchosen.exists_isVerbatim id
    have stored : e.content.erased = .text s := content.trans (congrArg Value.scalar text)
    have israw : raw = true ↔ f.IsRaw id e := by
      rw [IsRaw, isSpelled, verbatim]
      simp
    refine copiesText_of_tells there slot own text ⟨slot, .inl stored⟩ israw ?_ ?_ above
    · rw [written_erased stored]
      exact result_written_text verbatim s
    · rw [Face.contentPayload, isSpelled]
      exact stored
  · exact copiesText_scalar there slot own content (fun s h => text ⟨s, h⟩) above

end Slots

/-- A slot that holds no element, for some label of its element. -/
theorem exists_copiesText (unchosen : f.Unchosen) (known : e.IsKnown) (there : f.get? id = some e)
    (spelled : e.hasText = true → (Tree.spellingInside (f.face id e) none).result = .ok ())
    (above : List ElementId) :
    ∃ label : ElementLabel, label.IsOf e ∧ f.CopiesText above id e label := by
  cases slot : e.hasText with
  | false =>
    obtain ⟨label, own, -⟩ := known.exists_isOf (show Scalar.IsPlain .null from trivial)
    exact ⟨label, own, copiesText_hidden there own slot above⟩
  | true =>
    cases isSpelled : (f.face id e).isSpelled with
    | true => exact exists_copiesText_of_spelled there slot known isSpelled (spelled slot) above
    | false => exact exists_copiesText_of_scalar there slot unchosen known isSpelled above

/-! ## Elements and documents -/

mutual

/-- By induction on the unfolding: an element in its place has the payload of a plan, if it has one, and
the tree of this plan writes the same texts just where all that is held there survives. -/
theorem Unfolds.copies (unchosen : f.Unchosen) {v : Datum} {t : Tree} (unfolds : f.Unfolds v t)
    {id : ElementId} (hv : v = .ref (.element id)) (below : f.Below (fun _ e => e.IsKnown) id)
    (spelled : t.spellings.result = .ok ()) (above : List ElementId) :
    ∃ p, t.Copies (above.map f.isMarked) p ∧
      (Fragment.SameContents t.texts (p.portrait (above.map f.isMarked)).texts ↔
        f.SurvivesBelow ⟨above, id⟩) := by
  match unfolds with
  | .element there text held =>
    obtain rfl : id = _ := by simpa using hv.symm
    obtain ⟨spelledHeld, spelledText⟩ := Tree.result_spellings_node.1 spelled
    obtain ⟨label, inside, own, textCopies, textSame⟩ :=
      UnfoldsText.copies unchosen text there below spelledText above
    obtain ⟨ps, allCopy, allSame⟩ := UnfoldsAll.copies unchosen held (below.throughout there)
      spelledHeld (id :: above)
    rw [List.map_cons, isMarked_of_label there own.kind own.mark] at allCopy allSame
    have read : (f.face id _).tag = pure label.tag := tag_face own.tag
    refine ⟨.node label inside ps, Tree.copies_node own read textCopies allCopy, ?_⟩
    rw [Plan.portrait, Tree.texts, Tree.texts, Fragment.sameContents_append_iff, textSame, allSame,
      survivesBelow_iff there]
    exact textCopies.twins.length_texts (own.twin read)
  | .document held => cases hv
  | .value plain => exact absurd hv (plain _)

theorem UnfoldsText.copies (unchosen : f.Unchosen) {e : Element} {inside : Option Tree}
    (unfolds : f.UnfoldsText e inside) {id : ElementId} (there : f.get? id = some e)
    (below : f.Below (fun _ e => e.IsKnown) id)
    (spelled : e.hasText = true → (Tree.spellingInside (f.face id e) inside).result = .ok ())
    (above : List ElementId) :
    ∃ (label : ElementLabel) (p : Option Plan), label.IsOf e ∧
      Tree.TextCopies (above.map f.isMarked) label p (f.face id e) inside ∧
      (Fragment.SameContents (Tree.textsInside (f.face id e) inside)
          (Tree.textsInside (label.face (above.map f.isMarked) p)
            (Plan.portraitInside (label.marks :: above.map f.isMarked) p)) ↔
        f.SurvivesAt ⟨above, id⟩ ∧ ∀ held, e.hasText = true → e.content = .ref (.element held) →
          f.SurvivesBelow ⟨id :: above, held⟩) := by
  have known := (below id e .refl there).1
  match unfolds with
  | .other empty =>
    obtain ⟨label, own, copies, same⟩ := exists_copiesText unchosen known there spelled above
    refine ⟨label, none, own, copies, ?_⟩
    rw [Plan.portraitInside, same, iff_self_and]
    exact fun _ held slot content => survivesBelow_of_gone (empty held slot content) _
  | .element slot content unfoldsHeld =>
    obtain ⟨label, own, -⟩ := known.exists_isOf (show Scalar.IsPlain .null from trivial)
    obtain ⟨p, copies, same⟩ := Unfolds.copies unchosen unfoldsHeld rfl
      (below.step ⟨e, there, .inr ⟨slot, content⟩⟩) (spelled slot) (id :: above)
    rw [List.map_cons, isMarked_of_label there own.kind own.mark] at copies same
    have shown : (f.face id e).hasText = true := slot
    have shown' : (label.face (above.map f.isMarked) (some p)).hasText = true :=
      own.hasText.trans slot
    refine ⟨label, some p, own,
      ⟨fun _ => copies.payload, fun hidden => ?_, copies.proper, .element shown copies.twins⟩, ?_⟩
    · rw [shown] at hidden
      cases hidden
    rw [Plan.portraitInside, Tree.textsInside, Tree.textsInside, if_pos shown, if_pos shown', same]
    refine ⟨fun below => ⟨?_, fun held _ content' => ?_⟩, fun kept => kept.2 _ slot content⟩
    · -- nothing is written for an element beside the element itself
      refine (survivesAt_iff there (s := "") ⟨slot, .inr ⟨?_, ?_⟩⟩).2 (.inl rfl)
      · show (f.face id e).isSpelled = true
        simp [Face.isSpelled, face, faceOf, content, Value.erased, Value.subst]
      · rw [content]
        rfl
    · obtain rfl : _ = held := by simpa using content.symm.trans content'
      exact below

theorem UnfoldsAll.copies (unchosen : f.Unchosen) {vs : List Datum} {ts : List Tree}
    (unfolds : f.UnfoldsAll vs ts) (throughout : f.Throughout (fun _ e => e.IsKnown) vs)
    (spelled : (Tree.spellingsAll ts).result = .ok ()) (above : List ElementId) :
    ∃ ps, Tree.AllCopy (above.map f.isMarked) ps ts ∧
      (Fragment.SameContents (Tree.textsAll ts)
          (Tree.textsAll (Plan.portraits (above.map f.isMarked) ps)) ↔
        ∀ child, .ref (.element child) ∈ vs → f.SurvivesBelow ⟨above, child⟩) := by
  match unfolds with
  | .nil =>
    exact ⟨[], ⟨rfl, trivial, .nil⟩, fun _ _ mem => absurd mem List.not_mem_nil, fun _ => .nil⟩
  | .cons head tail =>
    obtain ⟨⟨root, rfl, below⟩, rest⟩ := throughout_cons.1 throughout
    obtain ⟨spelledHead, spelledTail⟩ := Tree.result_spellingsAll_cons.1 spelled
    obtain ⟨p, copies, same⟩ := Unfolds.copies unchosen head rfl below spelledHead above
    obtain ⟨ps, allCopy, allSame⟩ := UnfoldsAll.copies unchosen tail rest spelledTail above
    refine ⟨p :: ps, ⟨?_, ⟨copies.proper, allCopy.proper⟩, .cons copies.twins allCopy.twins⟩, ?_⟩
    · rw [Tree.payloads, Plan.payloads, List.map_cons, copies.payload, allCopy.payload]
    · rw [Plan.portraits, Tree.textsAll, Tree.textsAll,
        Fragment.sameContents_append_iff copies.twins.length_texts, same, allSame]
      simp
  | .gone gone tail =>
    obtain ⟨-, rest⟩ := throughout_cons.1 throughout
    obtain ⟨ps, allCopy, allSame⟩ := UnfoldsAll.copies unchosen tail rest spelled above
    refine ⟨ps, allCopy, ?_⟩
    rw [allSame]
    simp [survivesBelow_of_gone gone]

end

end Forest

/-! ## Payloads and markup -/

namespace Tree

mutual

/-- Where all texts are written, those that are stored by their spelling are spelled. -/
theorem spellings_of_texts {t : Tree} (elements : t.All fun _ _ => True)
    (written : ∀ x ∈ t.texts, ∃ s, x.content.result = .ok s) : t.spellings.result = .ok () := by
  match t with
  | .bare _ _ => exact elements.elim
  | .node x inside ts =>
    obtain ⟨-, inner, children⟩ := elements
    obtain ⟨own, others⟩ := List.forall_mem_append.1 written
    exact result_spellings_node.2 ⟨spellingsAll_of_texts children others,
      fun slot => spellingInside_of_texts slot inner own⟩

theorem spellingInside_of_texts {x : Face} {inside : Option Tree} (slot : x.hasText = true)
    (elements : AllInside (fun _ _ => True) inside)
    (written : ∀ y ∈ textsInside x inside, ∃ s, y.content.result = .ok s) :
    (spellingInside x inside).result = .ok () := by
  match inside with
  | none =>
    rw [textsInside, if_pos slot, List.forall_mem_singleton] at written
    obtain ⟨s, content⟩ := written
    rw [spellingInside]
    split
    · rw [Account.result_map, content]
      rfl
    · rfl
  | some t =>
    rw [textsInside, if_pos slot] at written
    exact spellings_of_texts (t := t) elements written

theorem spellingsAll_of_texts {ts : List Tree} (elements : AllFrom (fun _ _ => True) ts)
    (written : ∀ x ∈ textsAll ts, ∃ s, x.content.result = .ok s) :
    (spellingsAll ts).result = .ok () := by
  match ts with
  | [] => rfl
  | t :: rest =>
    obtain ⟨head, tail⟩ := List.forall_mem_append.1 written
    exact result_spellingsAll_cons.2
      ⟨spellings_of_texts elements.1 head, spellingsAll_of_texts elements.2 tail⟩

end

/-- What is drawn has its texts written. -/
theorem written_of_drawn {pretty : Bool} {unit s : String} {ts : List Tree}
    (h : drawn pretty unit ts = .ok s) : ∀ x ∈ textsAll ts, ∃ s, x.content.result = .ok s := by
  intro x hx
  rw [← contents_drawn pretty ts, Canvas.contents_eq] at hx
  obtain ⟨y, hy, shown⟩ := List.mem_filterMap.1 hx
  have answered := Fragment.isAnswered_of_joined h y hy
  cases y with
  | content z =>
    obtain rfl := Option.some.inj shown
    exact answered
  | _ => cases shown

theorem drawn_bared (pretty : Bool) (unit : String) (ts : List Tree) :
    drawn pretty unit (baredAll ts) = drawn pretty unit ts := by
  rw [drawn, drawn, ← Canvas.result_compose, ← Canvas.result_compose,
    ← Canvas.compose_bared (drawAll pretty ts .empty), bared_drawAll, Canvas.bared_empty]

/-- What is drawn of elements in one layout is drawn in any other. -/
theorem exists_drawn {p : Face → Option Tree → Prop} {ts : List Tree} (elements : AllFrom p ts)
    {pretty : Bool} {unit s : String} (h : drawn pretty unit ts = .ok s) (pretty' : Bool)
    (unit' : String) : ∃ s', drawn pretty' unit' ts = .ok s' := by
  have words : ∀ x ∈ (drawAll pretty ts .empty).words, x.IsAnswered := fun x hx =>
    Fragment.isAnswered_of_joined h x (List.mem_of_mem_filter hx)
  rw [words_drawAll pretty ts elements, ← words_drawAll pretty' ts elements] at words
  exact ⟨_, Fragment.joined_eq_text unit' _ fun x hx =>
    Canvas.isAnswered_of_words words x (Array.mem_toList_iff.1 hx)⟩

end Tree

namespace Forest

variable {f : Forest} {d : DocumentId}

mutual

/-- By induction on the unfolding: what is written whole is of elements only, since other values are
refused. -/
theorem Unfolds.below_of_answered {v : Datum} {t : Tree} (unfolds : f.Unfolds v t) {pretty : Bool}
    {c : Canvas} (h : ∀ y ∈ (t.draw pretty c).words, y.IsAnswered) :
    (∀ y ∈ c.words, y.IsAnswered) ∧
      ∃ root, v = .ref (.element root) ∧ f.Below (fun _ _ => True) root := by
  match unfolds with
  | .element there text held =>
    rw [Tree.draw, Canvas.words_closeElement] at h
    obtain ⟨below, children⟩ := UnfoldsAll.throughout_of_answered held
      (List.forall_mem_append.1 h).1
    obtain ⟨before, inside⟩ := UnfoldsText.below_of_answered text rfl below
    rw [Canvas.words_openElement] at before
    exact ⟨(List.forall_mem_append.1 before).1, _, rfl,
      (below_iff there).2 ⟨⟨trivial, inside⟩, children⟩⟩
  | .document held | .value plain =>
    rw [Tree.draw, Canvas.refuse, Canvas.words_put _ _ rfl] at h
    exact (h _ (List.mem_append_right _ (List.mem_singleton_self _))).elim

theorem UnfoldsText.below_of_answered {e : Element} {inside : Option Tree}
    (unfolds : f.UnfoldsText e inside) {x : Face} (slot : x.hasText = e.hasText) {pretty : Bool}
    {c : Canvas} (h : ∀ y ∈ (Tree.drawText pretty x inside c).words, y.IsAnswered) :
    (∀ y ∈ c.words, y.IsAnswered) ∧ ∀ held, e.hasText = true →
      e.content = .ref (.element held) → f.Below (fun _ _ => True) held := by
  match unfolds with
  | .element shown content held =>
    rw [Tree.drawText, slot, if_pos shown, Canvas.words_endText] at h
    obtain ⟨before, root, same, below⟩ := Unfolds.below_of_answered held h
    refine ⟨before, fun other _ content' => ?_⟩
    rw [← content, content'] at same
    obtain rfl : other = root := by simpa using same
    exact below
  | .other empty =>
    refine ⟨?_, fun held shown content => below_of_gone (empty held shown content)⟩
    rw [Tree.drawText] at h
    split at h
    · rw [Canvas.words_writeText] at h
      exact (List.forall_mem_append.1 h).1
    · exact h

theorem UnfoldsAll.throughout_of_answered {vs : List Datum} {ts : List Tree}
    (unfolds : f.UnfoldsAll vs ts) {pretty : Bool} {c : Canvas}
    (h : ∀ y ∈ (Tree.drawAll pretty ts c).words, y.IsAnswered) :
    (∀ y ∈ c.words, y.IsAnswered) ∧ f.Throughout (fun _ _ => True) vs := by
  match unfolds with
  | .nil => exact ⟨h, fun v hv => absurd hv List.not_mem_nil⟩
  | .cons head tail =>
    rw [Tree.drawAll] at h
    obtain ⟨after, rest⟩ := UnfoldsAll.throughout_of_answered tail h
    obtain ⟨before, first⟩ := Unfolds.below_of_answered head after
    exact ⟨before, throughout_cons.2 ⟨first, rest⟩⟩
  | .gone gone tail =>
    obtain ⟨before, rest⟩ := UnfoldsAll.throughout_of_answered tail h
    exact ⟨before, throughout_cons.2 ⟨⟨_, rfl, below_of_gone gone⟩, rest⟩⟩

end

/-- A document of elements that payloads know. Nothing in it holds itself, and nobody has a choice for
a parent. -/
structure Copyable (f : Forest) (d : DocumentId) : Prop where
  acyclic : f.AcyclicFrom [.document d]
  known : f.Throughout (fun _ e => e.IsKnown) (f.rootsOf d)
  unchosen : f.Unchosen

theorem unfoldsAll_document (acyclic : f.AcyclicFrom [.document d]) :
    f.UnfoldsAll (f.rootsOf d) (f.trees (f.rootsOf d)) := unfoldsAll_trees _ acyclic.root

theorem result_payload_document (acyclic : f.AcyclicFrom [.document d])
    (spelled : (Tree.spellingsAll (f.trees (f.rootsOf d))).result = .ok ()) :
    (f.payload (.document d)).result =
      .ok (Tree.payload (.bare .document (f.trees (f.rootsOf d)))) := by
  have htrees : f.trees [.ref (.document d)] = [.bare .document (f.trees (f.rootsOf d))] := by
    rw [trees_cons, tree?_document d acyclic]
    rfl
  have one : (Tree.spellingsAll [.bare .document (f.trees (f.rootsOf d))]).result = .ok () :=
    Tree.result_spellingsAll_cons.2 ⟨by rw [Tree.spellings, spelled], rfl⟩
  rw [Forest.payload, Account.result_bind, htrees, one]
  rfl

theorem result_markup_document (d : DocumentId) (pretty : Bool) (unit : String) :
    (f.markup pretty unit (.document d)).result =
      (Tree.drawn pretty unit (f.trees (f.rootsOf d))).map Text.trimEnd := by
  rw [Tree.drawn, ← Tree.render_eq_drawAll]
  exact result_renderDocument rfl d pretty

theorem exists_drawn_of_markup {pretty : Bool} {unit text : String}
    (h : (f.markup pretty unit (.document d)).result = .ok text) :
    ∃ s, Tree.drawn pretty unit (f.trees (f.rootsOf d)) = .ok s := by
  rw [result_markup_document] at h
  cases drawn : Tree.drawn pretty unit (f.trees (f.rootsOf d)) with
  | error fault =>
    rw [drawn] at h
    cases h
  | ok s => exact ⟨s, rfl⟩

/-- A document that can be rendered holds elements only, at any depth. -/
theorem throughout_of_markup (acyclic : f.AcyclicFrom [.document d]) {pretty : Bool}
    {unit text : String} (h : (f.markup pretty unit (.document d)).result = .ok text) :
    f.Throughout (fun _ _ => True) (f.rootsOf d) := by
  obtain ⟨s, drawn⟩ := exists_drawn_of_markup h
  exact ((unfoldsAll_document acyclic).throughout_of_answered (c := .empty) fun x hx =>
    Fragment.isAnswered_of_joined drawn x (List.mem_of_mem_filter hx)).2

/-- A document of known elements that can be rendered has a payload, and this can be read wherever
there is a store. The copy can be rendered as well, and comes to the same in every layout just
where every text in the document survives. -/
theorem Copyable.exists_copy (copyable : f.Copyable d) {pretty : Bool} {unit text : String}
    (rendered : (f.markup pretty unit (.document d)).result = .ok text) :
    ∃ v, (f.payload (.document d)).result = .ok v ∧ ∀ s : Store, ∃ s' d',
      Action.Runs (Payload.node v) s (.document d') s' ∧ s.forest.Keeps s'.forest ∧
      ∀ (pretty : Bool) (unit : String), ∃ text text',
        (f.markup pretty unit (.document d)).result = .ok text ∧
        (s'.forest.markup pretty unit (.document d')).result = .ok text' ∧
        (text' = text ↔ ∀ o, f.Occurs d o → f.SurvivesAt o) := by
  obtain ⟨out, there⟩ := exists_drawn_of_markup rendered
  have unfolds := unfoldsAll_document copyable.acyclic
  have elements := (unfolds.all copyable.known).imp (q := fun _ _ => True) fun _ _ _ => trivial
  have spelled := Tree.spellingsAll_of_texts elements (Tree.written_of_drawn there)
  obtain ⟨ps, copies, same⟩ := unfolds.copies copyable.unchosen copyable.known spelled []
  rw [List.map_nil] at copies same
  refine ⟨_, result_payload_document copyable.acyclic spelled, fun s => ?_⟩
  obtain ⟨s', r', runs, keeps, -, has⟩ := exists_has_of_proper
    (show Sketch.Proper (.document ps) from copies.proper)
    (Value.sorted_of_erased (Tree.erased_documentPayload copies.payload)) s
  cases r' with
  | element id => exact has.elim
  | document d' =>
    obtain ⟨-, top, ids, stores, -⟩ := has
    have look : Tree.baredAll (s'.forest.trees (s'.forest.rootsOf d')) = Plan.portraits [] ps :=
      (stores.trees_follow top).look
    have occurs : (∀ child, .ref (.element child) ∈ f.rootsOf d → f.SurvivesBelow ⟨[], child⟩) ↔
        ∀ o, f.Occurs d o → f.SurvivesAt o :=
      ⟨fun survives o ⟨root, hroot, path⟩ => survives root hroot o path,
        fun survives root hroot o path => survives o ⟨root, hroot, path⟩⟩
    refine ⟨s', d', runs, keeps, fun pretty unit => ?_⟩
    obtain ⟨out, there⟩ := Tree.exists_drawn elements there pretty unit
    obtain ⟨out', there'⟩ := copies.twins.exists_drawn there
    have trimmed := copies.twins.trimmed_eq_iff pretty unit
    rw [there, there', same, occurs] at trimmed
    refine ⟨Text.trimEnd out, Text.trimEnd out', ?_, ?_, ?_⟩
    · rw [result_markup_document, there]
      rfl
    · rw [result_markup_document, ← Tree.drawn_bared, look, there']
      rfl
    · simpa [Except.map] using trimmed

end Forest

end Hypertext
