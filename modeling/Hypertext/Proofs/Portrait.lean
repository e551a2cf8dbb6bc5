import Hypertext.Payload.Write
import Hypertext.Proofs.Erasure
import Hypertext.Proofs.Looks
import Hypertext.Proofs.PrettyPrinting
import Hypertext.Proofs.Restoring
import Hypertext.Proofs.Verbatim

/-! What is held as planned, unfolded. The plan alone, with the marks above it, says how the tree
looks and what its payload is. The main statement is `Stores.follows`. -/
namespace Hypertext
set_option autoImplicit false

open Relation

/-! ## The tree of a plan -/

/-- What a scalar is spelled as, which a whole number of too many digits is not. -/
def Scalar.spelling (s : Scalar) : Except Fault String :=
  if s.isTooLong then .error .numberTooLong else .ok s.plain

namespace ElementLabel

/-- What a text slot writes that holds no element. -/
def written (label : ElementLabel) (above : List Bool) : Reading String :=
  match label.text with
  | .null | .text "" => pure ""
  | .text s => return if ← verbatimOf (.text label.tag) above label.mark then s else Text.escape s
  | v => .ofExcept v.spelling

/-- What is read of a text slot, which is empty beside an element. -/
def slot (label : ElementLabel) (above : List Bool) (inside : Option Plan) : Reading String :=
  if label.kind.hasText && inside.isNone then label.written above else pure ""

def face (label : ElementLabel) (above : List Bool) (inside : Option Plan) : Face where
  element := { kind := label.kind, tag := .text label.tag, attributes := label.attributes }
  tag := pure label.tag
  content := label.slot above inside

theorem isAnswered_written (label : ElementLabel) (short : label.text.isTooLong = false)
    (above : List Bool) : ∃ s, (label.written above).result = .ok s := by
  obtain ⟨b, hb⟩ := exists_verbatimOf (.text label.tag) above label.mark
  rw [written]
  split
  · exact ⟨_, rfl⟩
  · exact ⟨_, rfl⟩
  · rw [Account.result_bind, hb]
    exact ⟨_, rfl⟩
  · rw [Scalar.spelling, short]
    exact ⟨_, rfl⟩

/-- Whether what stands in the text slot can be spelled. Beside an element nothing stands there. -/
def IsSpelled (label : ElementLabel) (inside : Option Plan) : Prop :=
  label.kind.hasText = true → inside = none → label.text.isTooLong = false

theorem isAnswered_slot {label : ElementLabel} {inside : Option Plan}
    (spelled : label.IsSpelled inside) (above : List Bool) :
    ∃ s, (label.slot above inside).result = .ok s := by
  rw [slot]
  split
  next shown =>
    rw [Bool.and_eq_true, Option.isNone_iff_eq_none] at shown
    exact label.isAnswered_written (spelled shown.1 shown.2) above
  next => exact ⟨_, rfl⟩

/-- Whether the element marks what it holds. -/
def marks (label : ElementLabel) : Bool := label.kind.hasText && label.mark

end ElementLabel

namespace Plan

mutual

/-- Whether no whole number that is written has too many digits. -/
def IsSpelled : Plan → Prop
  | .node label inside children =>
    label.IsSpelled inside ∧ IsSpelledInside inside ∧ IsSpelledAll children

def IsSpelledInside : Option Plan → Prop
  | none => True
  | some p => IsSpelled p

def IsSpelledAll : List Plan → Prop
  | [] => True
  | p :: rest => IsSpelled p ∧ IsSpelledAll rest

end

mutual

def portrait (above : List Bool) : Plan → Tree
  | .node label inside children =>
    .node (label.face above inside) (portraitInside (label.marks :: above) inside)
      (portraits (label.marks :: above) children)

def portraitInside (above : List Bool) : Option Plan → Option Tree
  | none => none
  | some p => some (portrait above p)

def portraits (above : List Bool) : List Plan → List Tree
  | [] => []
  | p :: rest => portrait above p :: portraits above rest

end

end Plan

namespace Tree

/-- A tree that looks as planned below marks and has the payload of the plan. -/
structure Follows (above : List Bool) (p : Plan) (t : Tree) : Prop where
  look : t.bared = p.portrait above
  payload : t.payload.erased = p.payload
  spellings : t.spellings = pure ()
  answered : p.IsSpelled → t.All fun x _ => x.IsAnswered

structure AllFollow (above : List Bool) (ps : List Plan) (ts : List Tree) : Prop where
  look : baredAll ts = Plan.portraits above ps
  payload : (payloads ts).map Value.erased = Plan.payloads ps
  spellings : spellingsAll ts = pure ()
  answered : Plan.IsSpelledAll ps → AllFrom (fun x _ => x.IsAnswered) ts

/-- The part of a node that is its text slot, below the marks above it and its own one. -/
structure TextFollows (above : List Bool) (label : ElementLabel) (p : Option Plan) (x : Face)
    (inside : Option Tree) : Prop where
  content : x.content = label.slot above p
  look : baredInside inside = Plan.portraitInside (label.marks :: above) p
  payload : x.hasText = true → (textPayload x inside).erased = Plan.textPayload label p
  mark : x.hasText = true → x.element.mark = .bool label.mark
  spellings : x.hasText = true → spellingInside x inside = pure ()
  answered : Plan.IsSpelledInside p → AllInside (fun x _ => x.IsAnswered) inside

section Payloads

variable {label : ElementLabel} {p : Option Plan} {ps : List Plan} {x : Face} {inside : Option Tree}
  {ts : List Tree}

/-- The payload of a node has the parts of the plan: what its element stands for, what is in its
text slot, if it has one, and its children. -/
theorem erased_payload_node (kind : x.element.kind = label.kind)
    (tag : x.element.tag = .text label.tag) (attributes : x.element.attributes = label.attributes)
    (text : x.hasText = true → (textPayload x inside).erased = Plan.textPayload label p)
    (mark : x.hasText = true → x.element.mark = .bool label.mark)
    (held : (payloads ts).map Value.erased = Plan.payloads ps) :
    (payload (.node x inside ts)).erased = (Plan.node label p ps).payload := by
  have hslot : x.hasText = label.kind.hasText := congrArg Kind.hasText kind
  have hattributes : x.attributesPayload.erased = .list (Plan.attributesPayload label) := by
    rw [Face.attributesPayload, attributes, Value.erased, Value.subst, Value.substList_eq_map,
      List.map_map]
    rfl
  have hchildren : Value.substList .ref (payloads ts) = Plan.payloads ps := by
    rw [Value.substList_eq_map, ← held]
    rfl
  have hfields : Value.substFields .ref (if x.hasText then
      [("text", textPayload x inside), ("unsafe", x.element.mark)] else []) =
      if label.kind.hasText then
        [("text", Plan.textPayload label p), ("unsafe", .bool label.mark)] else [] := by
    rw [hslot]
    split
    next slot =>
      have slot' := hslot.trans slot
      rw [Value.substFields, Value.substFields, ← text slot', mark slot']
      rfl
    next => rfl
  rw [payload, Plan.payload, Plan.fieldsOf, Value.erased, Value.subst]
  rw [Value.erased] at hattributes
  simp only [List.cons_append, List.nil_append, Value.substFields, Value.subst, hfields, kind,
    tag, hattributes, hchildren]

theorem spellings_node (text : x.hasText = true → spellingInside x inside = pure ())
    (held : spellingsAll ts = pure ()) : spellings (.node x inside ts) = pure () := by
  rw [spellings, held, Account.pure_bind]
  split
  next slot => exact text slot
  next => rfl

theorem erased_documentPayload (held : (payloads ts).map Value.erased = Plan.payloads ps) :
    (payload (.bare .document ts)).erased = Plan.documentPayload ps := by
  rw [payload, Plan.documentPayload, ← held]
  simp [Value.erased, Value.subst, Value.substFields, Value.substList_eq_map]

end Payloads

theorem follows_node {above : List Bool} {label : ElementLabel} {p : Option Plan} {ps : List Plan}
    {x : Face} {inside : Option Tree} {ts : List Tree} (kind : x.element.kind = label.kind)
    (tag : x.element.tag = .text label.tag) (attributes : x.element.attributes = label.attributes)
    (read : x.tag = pure label.tag) (text : TextFollows above label p x inside)
    (held : AllFollow (label.marks :: above) ps ts) :
    Follows above (.node label p ps) (.node x inside ts) := by
  refine ⟨?_, erased_payload_node kind tag attributes text.payload text.mark held.payload,
    spellings_node text.spellings held.spellings, fun ⟨here, inner, others⟩ =>
      ⟨⟨⟨_, congrArg (·.result) read⟩, ?_⟩, text.answered inner, held.answered others⟩⟩
  · have hface : x.bared = label.face above p := by
      rw [Face.bared, ElementLabel.face, kind, tag, attributes, read, text.content]
    rw [bared, Plan.portrait, hface, text.look, held.look]
  · rw [text.content]
    exact ElementLabel.isAnswered_slot here above

end Tree

namespace Forest

variable {f : Forest}

/-! ## Nothing that is held as planned holds itself -/

theorem acyclicFrom_of_acc {r : Ref} (h : Acc (fun s r => f.Shows r s) r) : f.AcyclicFrom [r] := by
  intro r' hr' s hs
  obtain rfl := List.mem_singleton.1 hr'
  have below : Acc (fun s r => f.Shows r s) s := by
    induction hs with
    | refl => exact h
    | tail _ step ih => exact ih.inv step
  induction below with
  | intro s _ ih =>
    intro circle
    obtain ⟨t, hst, hts⟩ := TransGen.head'_iff.1 circle
    exact ih t hst (hs.tail hst) (TransGen.tail' hts hst)

theorem ref?_of_erased {v : Datum} {s : Scalar} (h : v.erased = .scalar s) : v.ref? = none := by
  match v with
  | .made o w => exact ref?_of_erased (v := w) h
  | .scalar _ => rfl
  | .list _ | .record _ | .ref _ | .renderer .. => cases h

mutual

theorem Stores.acc {p : Plan} {id : ElementId} {ids : List ElementId} (h : f.Stores p id ids) :
    Acc (fun s r => f.Shows r s) (.element id) := by
  match h with
  | .node there _ tag _ text held _ =>
    refine .intro _ fun r hr => ?_
    rw [Shows, shown, there] at hr
    show Acc _ r
    rw [Option.map_some, Option.getD_some, Element.shown, tag, List.mem_append] at hr
    obtain hr | hr := hr
    · have hr' : r ∈ if _ then _ else _ := hr
      split at hr'
      next slot => exact StoresText.acc text slot r (by simpa using hr')
      next => exact absurd hr' List.not_mem_nil
    · obtain ⟨v, hv, hvr⟩ := List.mem_filterMap.1 hr
      exact StoresAll.acc held v hv r hvr

theorem StoresText.acc {id : ElementId} {e : Element} {label : ElementLabel} {inside : Option Plan}
    {ids : List ElementId} (h : f.StoresText id e label inside ids) (slot : e.hasText = true)
    (r : Ref) (hr : e.content.ref? = some r) : Acc (fun s r => f.Shows r s) r := by
  match h with
  | .hidden hidden => rw [hidden] at slot; cases slot
  | .scalar _ content _ => rw [ref?_of_erased content] at hr; cases hr
  | .element _ content _ inside _ =>
    rw [content] at hr
    obtain rfl := Option.some.inj hr
    exact Stores.acc inside

theorem StoresAll.acc {ps : List Plan} {vs : List Datum} {ids : List ElementId}
    (h : f.StoresAll ps vs ids) (v : Datum) (hv : v ∈ vs) (r : Ref) (hr : v.ref? = some r) :
    Acc (fun s r => f.Shows r s) r := by
  match h with
  | .nil => exact absurd hv List.not_mem_nil
  | .cons head tail =>
    obtain rfl | hv := List.mem_cons.1 hv
    · obtain rfl := Option.some.inj hr
      exact Stores.acc head
    · exact StoresAll.acc tail v hv r hr

end

/-! ## Trees as planned -/

theorem isMarked_of_label {id : ElementId} {e : Element} {label : ElementLabel}
    (there : f.get? id = some e) (kind : e.kind = label.kind)
    (mark : e.hasText = true → e.mark = .bool label.mark) : f.isMarked id = label.marks := by
  have hslot : e.hasText = label.kind.hasText := congrArg Kind.hasText kind
  rw [isMarked, there, Option.any_some, ElementLabel.marks, ← hslot]
  cases slot : e.hasText with
  | false => rfl
  | true =>
    rw [mark slot]
    rfl

theorem isMarked_eq {id : ElementId} {e : Element} {label : ElementLabel} {p : Option Plan}
    {ids : List ElementId} (there : f.get? id = some e) (kind : e.kind = label.kind)
    (text : f.StoresText id e label p ids) : f.isMarked id = label.marks := by
  refine isMarked_of_label there kind fun slot => ?_
  cases text with
  | hidden hidden =>
    rw [hidden] at slot
    cases slot
  | scalar _ _ mark | element _ _ mark _ _ => exact mark

theorem written_eq {id : ElementId} {e : Element} {label : ElementLabel} {above : List ElementId}
    {content : Datum} (lineage : f.Lineage id above) (there : f.get? id = some e)
    (tag : e.tag = .text label.tag) (marked : f.isMarked id = label.mark)
    (scalar : content.erased = .scalar label.text) :
    f.written id f.textOfRef content = label.written (above.map f.isMarked) := by
  have htag : f.tagOf id = .text label.tag := by
    rw [tagOf, there]
    exact tag
  rw [written_erased scalar, ElementLabel.written]
  cases label.text with
  | null | bool _ | int _ | float _ | choice _ => rfl
  | text s =>
    by_cases hs : s = ""
    · subst hs
      rfl
    · rw [written, isVerbatim_eq lineage, htag, marked]
      · split
        next h => cases h
        next h => exact absurd (Scalar.text.inj h) hs
        next other _ h =>
          obtain rfl := Scalar.text.inj h
          rfl
        next h => exact absurd rfl (h s)
      · exact hs

theorem isSpelled_eq_false {id : ElementId} {e : Element} {label : ElementLabel}
    (content : e.content.erased = .scalar label.text) : (f.face id e).isSpelled = false := by
  have hcontent : (f.face id e).element.content.erased = .scalar label.text := content
  rw [Face.isSpelled, hcontent]
  have hplain := label.plain
  generalize label.text = v at hplain
  cases v with
  | choice c => exact False.elim hplain
  | null | bool _ | int _ | float _ | text _ => rfl

mutual

/-- By induction on what is held: an element below its ancestors unfolds to a tree that follows
the plan below their marks. -/
theorem Stores.follows {p : Plan} {id : ElementId} {ids : List ElementId} (h : f.Stores p id ids)
    {above : List ElementId} (lineage : f.Lineage id above) :
    ∃ t, f.Unfolds (.ref (.element id)) t ∧ t.Follows (above.map f.isMarked) p := by
  match h with
  | .node there kind tag attributes text held linked =>
    have marked := isMarked_eq there kind text
    obtain ⟨inside, unfolds, follows⟩ := StoresText.follows text lineage there kind tag
    obtain ⟨ts, unfoldsAll, allFollow⟩ := StoresAll.follows held
      fun child hchild => show f.Lineage child (id :: above) from ⟨linked child hchild, lineage⟩
    rw [List.map_cons, marked] at allFollow
    refine ⟨_, .element there unfolds unfoldsAll, Tree.follows_node kind tag attributes ?_ follows
      allFollow⟩
    show f.writtenTag f.textOfRef _ = _
    rw [tag]
    rfl

theorem StoresText.follows {id : ElementId} {e : Element} {label : ElementLabel} {p : Option Plan}
    {ids : List ElementId} (h : f.StoresText id e label p ids) {above : List ElementId}
    (lineage : f.Lineage id above) (there : f.get? id = some e) (kind : e.kind = label.kind)
    (tag : e.tag = .text label.tag) :
    ∃ inside, f.UnfoldsText e inside ∧
      Tree.TextFollows (above.map f.isMarked) label p (f.face id e) inside := by
  have hslot : e.hasText = label.kind.hasText := congrArg Kind.hasText kind
  match h with
  | .hidden slot =>
    refine ⟨none, .other fun _ slot' => absurd slot' (by rw [slot]; exact Bool.false_ne_true), ?_,
      rfl, fun slot' => ?_, fun slot' => ?_, fun slot' => ?_, fun _ => trivial⟩
    · show (if e.hasText then f.written id f.textOfRef e.content else pure "") = _
      rw [ElementLabel.slot, ← hslot, slot]
      rfl
    all_goals
      rw [show (f.face id e).hasText = false from slot] at slot'
      cases slot'
  | .scalar slot content mark =>
    have marked : f.isMarked id = label.mark := by
      rw [isMarked_eq there kind (.scalar slot content mark), ElementLabel.marks, ← hslot, slot,
        Bool.true_and]
    have plain : (f.face id e).isSpelled = false := isSpelled_eq_false content
    refine ⟨none, .other fun _ _ h => absurd h (ne_of_erased_scalar content _), ?_,
      rfl, fun _ => ?_, fun _ => mark, fun _ => ?_, fun _ => trivial⟩
    · show (if e.hasText then f.written id f.textOfRef e.content else pure "") = _
      rw [if_pos slot, written_eq lineage there tag marked content, ElementLabel.slot, ← hslot,
        slot]
      rfl
    · rw [Tree.textPayload, Face.contentPayload, plain]
      exact content
    · rw [Tree.spellingInside, plain]
      rfl
  | .element slot content mark inside linked =>
    have marked := isMarked_eq there kind (.element slot content mark inside linked)
    obtain ⟨t, unfolds, follows⟩ := Stores.follows inside
      (show f.Lineage _ (id :: above) from ⟨linked, lineage⟩)
    rw [List.map_cons, marked] at follows
    refine ⟨some t, .element slot content unfolds, ?_, ?_, fun _ => follows.payload,
      fun _ => mark, fun _ => follows.spellings, follows.answered⟩
    · show (if e.hasText then f.written id f.textOfRef e.content else pure "") = _
      rw [if_pos slot, content, ElementLabel.slot, Option.isNone_some, Bool.and_false]
      rfl
    · rw [Tree.baredInside, Plan.portraitInside, follows.look]

theorem StoresAll.follows {ps : List Plan} {vs : List Datum} {ids : List ElementId}
    (h : f.StoresAll ps vs ids) {above : List ElementId}
    (lineage : ∀ child, .ref (.element child) ∈ vs → f.Lineage child above) :
    ∃ ts, f.UnfoldsAll vs ts ∧ Tree.AllFollow (above.map f.isMarked) ps ts := by
  match h with
  | .nil => exact ⟨[], .nil, rfl, rfl, rfl, fun _ => trivial⟩
  | .cons head tail =>
    obtain ⟨t, unfolds, follows⟩ := Stores.follows head (lineage _ List.mem_cons_self)
    obtain ⟨ts, unfoldsAll, allFollow⟩ := StoresAll.follows tail fun child hchild =>
      lineage child (List.mem_cons_of_mem _ hchild)
    refine ⟨t :: ts, .cons unfolds unfoldsAll, ?_, ?_, ?_, fun spelled =>
      ⟨follows.answered spelled.1, allFollow.answered spelled.2⟩⟩
    · rw [Tree.baredAll, Plan.portraits, follows.look, allFollow.look]
    · rw [Tree.payloads, Plan.payloads, List.map_cons, follows.payload, allFollow.payload]
    · rw [Tree.spellingsAll, follows.spellings, Account.pure_bind, allFollow.spellings]

end

end Forest

end Hypertext
