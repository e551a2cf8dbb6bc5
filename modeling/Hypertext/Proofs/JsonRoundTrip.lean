import Hypertext.Proofs.JsonDepth
import Hypertext.Proofs.Rendering
import Hypertext.Proofs.RoundTrip
import Hypertext.Proofs.Throughout

/-! Elements and documents written as JSON text and read again. Nothing is asked of links, and an
element may be held in several places: each of them is written, and read as an element of its own.
The main statement is `Forest.json_reads_back`. -/
namespace Hypertext
set_option autoImplicit false

open Json (IsGap)

namespace Value

variable {ρ : Type}

theorem isExact_of_erased {v : Value ρ} {s : Scalar} (h : v.erased = .scalar s)
    (exact : s.IsExact) : v.IsExact := by
  match v with
  | .made o w => exact isExact_of_erased (v := w) h exact
  | .scalar t =>
    obtain rfl : t = s := by simpa [erased, subst] using h
    exact exact
  | .list _ | .record _ | .ref _ | .renderer .. => cases h

end Value

theorem Scalar.IsExact.isPlain {s : Scalar} (exact : s.IsExact) : s.IsPlain := by
  cases s with
  | choice c => exact exact
  | null | bool _ | int _ | float _ | text _ => trivial

/-- Where the parts that have a fault all have the same, the order does not matter. -/
theorem Json.findSome?_sortFields {parts : List (String × Option Fault)} {fault : Fault}
    (each : ∀ part ∈ parts, part.2 = none ∨ part.2 = some fault)
    (one : ∃ part ∈ parts, part.2 = some fault) :
    (sortFields parts).findSome? (·.2) = some fault := by
  have perm := perm_sortFields parts
  cases h : (sortFields parts).findSome? (·.2) with
  | none =>
    obtain ⟨part, hpart, hfault⟩ := one
    rw [List.findSome?_eq_none_iff] at h
    rw [h part (perm.mem_iff.2 hpart)] at hfault
    cases hfault
  | some other =>
    obtain ⟨part, hpart, hother⟩ := List.exists_of_findSome?_eq_some h
    obtain none | same := each part (perm.mem_iff.1 hpart)
    · rw [none] at hother
      cases hother
    · exact hother.symm.trans same

/-! ## Elements with exact text -/

namespace Forest

/-- Whether an element comes back from JSON text as it was: payloads know its kind and its tag, its
attributes have distinct keys, its text is a scalar with exact text or an element, and its mark
is a truth value. -/
structure IsWritable (f : Forest) (e : Element) : Prop where
  tag : ∃ tag, e.tag = .text tag ∧ e.kind.Fits tag
  distinct : e.attributes.Distinct
  text : e.hasText = true → (∃ held, e.content = .ref (.element held) ∧ f.isAlive held = true) ∨
    ∃ s, e.content.erased = .scalar s ∧ s.IsExact
  mark : e.hasText = true → ∃ b, e.mark = .bool b

theorem IsWritable.isKnown {f : Forest} {e : Element} (writable : f.IsWritable e) : e.IsKnown :=
  ⟨writable.tag, writable.distinct, writable.mark⟩

/-- Whether something is there, and all elements below it come back from JSON text. -/
def Writable (f : Forest) : Ref → Prop
  | .element id => f.isAlive id = true ∧ f.Below (fun _ => f.IsWritable) id
  | .document d => f.isThere (.document d) = true ∧
      f.Throughout (fun _ => f.IsWritable) (f.rootsOf d)

end Forest

namespace Tree

open Forest (IsWritable FaceOf)

/-- A tree with the payload of a plan, which has exact text. -/
structure Writes (p : Plan) (t : Tree) : Prop where
  payload : t.payload.erased = p.payload
  spellings : t.spellings = pure ()
  exact : t.payload.IsExact
  proper : p.Proper

structure AllWrite (ps : List Plan) (ts : List Tree) : Prop where
  payload : (payloads ts).map Value.erased = Plan.payloads ps
  spellings : spellingsAll ts = pure ()
  exact : Value.AllExact (payloads ts)
  proper : Plan.ProperAll ps

/-- The part of a node that is its text slot. -/
structure TextWrites (label : ElementLabel) (p : Option Plan) (x : Face) (inside : Option Tree) :
    Prop where
  payload : x.hasText = true → (textPayload x inside).erased = Plan.textPayload label p
  mark : x.hasText = true → x.element.mark = .bool label.mark
  spellings : x.hasText = true → spellingInside x inside = pure ()
  exact : x.hasText = true → (textPayload x inside).IsExact
  hidden : x.hasText = false → p = none
  proper : Plan.ProperInside p

theorem exact_attributes (as : List Attribute) :
    Value.AllExact (as.map fun a => (.list [.text a.key, .text a.value] : Datum)) := by
  induction as with
  | nil => trivial
  | cons a as ih => exact ⟨⟨trivial, trivial, trivial⟩, ih⟩

theorem writes_node {label : ElementLabel} {p : Option Plan} {ps : List Plan} {x : Face}
    {inside : Option Tree} {ts : List Tree} (kind : x.element.kind = label.kind)
    (tag : x.element.tag = .text label.tag) (attributes : x.element.attributes = label.attributes)
    (text : TextWrites label p x inside) (held : AllWrite ps ts) :
    Writes (.node label p ps) (.node x inside ts) := by
  have hslot : x.hasText = label.kind.hasText := congrArg Kind.hasText kind
  refine ⟨erased_payload_node kind tag attributes text.payload text.mark held.payload,
    spellings_node text.spellings held.spellings, ?_, ⟨fun slot => text.hidden (hslot.trans slot),
      text.proper, held.proper⟩⟩
  rw [payload, tag]
  split
  next slot =>
    have distinct : ["_type", "tag_name", "attributes", "children", "text", "unsafe"].Nodup := by
      decide
    rw [text.mark slot]
    exact ⟨distinct, trivial, trivial, exact_attributes _, held.exact, text.exact slot, trivial,
      trivial⟩
  next =>
    have distinct : ["_type", "tag_name", "attributes", "children"].Nodup := by decide
    exact ⟨distinct, trivial, trivial, exact_attributes _, held.exact, trivial⟩

section Labels

variable {f : Forest} {id : ElementId} {e : Element}

/-- What is written for a slot without an element in it is its scalar. -/
theorem textWrites_scalar {label : ElementLabel}
    (content : e.hasText = true → e.content.erased = .scalar label.text ∧ label.text.IsExact)
    (mark : e.hasText = true → e.mark = .bool label.mark) :
    TextWrites label none (f.face id e) none := by
  have plain (slot : e.hasText = true) : (f.face id e).isSpelled = false :=
    Forest.isSpelled_eq_false (content slot).1
  refine ⟨fun slot => ?_, mark, fun slot => ?_, fun slot => ?_, fun _ => rfl, trivial⟩
  · rw [textPayload, Face.contentPayload, plain slot]
    exact (content slot).1
  · rw [spellingInside, plain slot]
    rfl
  · rw [textPayload, Face.contentPayload, plain slot]
    exact Value.isExact_of_erased (content slot).1 (content slot).2

theorem exists_writes_scalar (writable : f.IsWritable e)
    (empty : ∀ held, e.hasText = true → e.content = .ref (.element held) → f.get? held = none)
    {ps : List Plan} {ts : List Tree} (held : AllWrite ps ts) :
    ∃ p, Writes p (.node (f.face id e) none ts) := by
  obtain ⟨s, exact, content⟩ :
      ∃ s : Scalar, s.IsExact ∧ (e.hasText = true → e.content.erased = .scalar s) := by
    cases slot : e.hasText with
    | false => exact ⟨.null, trivial, (nomatch ·)⟩
    | true =>
      obtain ⟨other, content, alive⟩ | ⟨s, content, exact⟩ := writable.text slot
      · rw [Forest.isAlive, empty other slot content] at alive
        cases alive
      · exact ⟨s, exact, fun _ => content⟩
  obtain ⟨label, kind, tag, attributes, rfl, mark⟩ := writable.isKnown.exists_label exact.isPlain
  exact ⟨_, writes_node kind tag attributes
    (textWrites_scalar (fun slot => ⟨content slot, exact⟩) mark) held⟩

theorem exists_writes_element (writable : f.IsWritable e) (slot : e.hasText = true) {p : Plan}
    {t : Tree} (inside : Writes p t) {ps : List Plan} {ts : List Tree} (held : AllWrite ps ts) :
    ∃ p, Writes p (.node (f.face id e) (some t) ts) := by
  obtain ⟨label, kind, tag, attributes, _, mark⟩ :=
    writable.isKnown.exists_label (show Scalar.IsPlain .null from trivial)
  have text : TextWrites label (some p) (f.face id e) (some t) := by
    refine ⟨fun _ => inside.payload, mark, fun _ => inside.spellings, fun _ => inside.exact,
      fun hidden => ?_, inside.proper⟩
    rw [show (f.face id e).hasText = true from slot] at hidden
    cases hidden
  exact ⟨_, writes_node kind tag attributes text held⟩

end Labels

mutual

/-- By induction on the tree: where all elements come back from JSON text, the payload of the tree
is that of a plan. -/
theorem exists_writes {f : Forest} {t : Tree} (h : t.All (f.FaceOf fun _ => f.IsWritable)) :
    ∃ p, t.Writes p := by
  match t with
  | .node x none children =>
    obtain ⟨⟨id, e, _, writable, rfl, unfolds⟩, _, hchildren⟩ := h
    obtain ⟨ps, held⟩ := exists_allWrite hchildren
    cases unfolds with
    | other empty => exact exists_writes_scalar writable empty held
  | .node x (some t) children =>
    obtain ⟨⟨id, e, _, writable, rfl, unfolds⟩, hinside, hchildren⟩ := h
    obtain ⟨ps, held⟩ := exists_allWrite hchildren
    obtain ⟨p, inside⟩ := exists_writes (t := t) hinside
    cases unfolds with
    | element slot _ _ => exact exists_writes_element writable slot inside held
  | .bare _ _ => exact h.elim

theorem exists_allWrite {f : Forest} {ts : List Tree}
    (h : AllFrom (f.FaceOf fun _ => f.IsWritable) ts) : ∃ ps, AllWrite ps ts := by
  match ts with
  | [] => exact ⟨[], rfl, rfl, trivial, trivial⟩
  | t :: rest =>
    obtain ⟨p, writes⟩ := exists_writes h.1
    obtain ⟨ps, allWrite⟩ := exists_allWrite h.2
    refine ⟨p :: ps, ?_, ?_, ⟨writes.exact, allWrite.exact⟩, writes.proper, allWrite.proper⟩
    · rw [payloads, Plan.payloads, List.map_cons, writes.payload, allWrite.payload]
    · rw [spellingsAll, writes.spellings, Account.pure_bind, allWrite.spellings]

end

end Tree

namespace Forest

variable {f : Forest}

/-- What comes back from JSON text unfolds to one tree with the payload of a sketch. -/
theorem exists_sketch {r : Ref} (acyclic : f.AcyclicFrom [r]) (writable : f.Writable r) :
    ∃ (v : Datum) (what : Sketch), f.payload r = pure v ∧ v.IsExact ∧
      v.erased = what.payload ∧ what.Proper := by
  cases r with
  | element id =>
    have unfolds := unfoldsAll_trees [.ref (.element id)] fun v hv r hr => by
      obtain rfl := List.mem_singleton.1 hv
      obtain rfl := Option.some.inj hr
      exact acyclic
    have all := UnfoldsAll.all unfolds fun v hv => ⟨id, List.mem_singleton.1 hv, writable.2⟩
    generalize htrees : f.trees [.ref (.element id)] = ts at unfolds all
    cases unfolds with
    | cons head tail =>
      cases tail
      obtain ⟨p, writes⟩ := Tree.exists_writes all.1
      exact ⟨_, .element p, payload_of_tree htrees writes.spellings, writes.exact, writes.payload,
        writes.proper⟩
    | gone gone _ =>
      have alive := writable.1
      rw [isAlive, gone] at alive
      cases alive
  | document d =>
    have unfolds := unfoldsAll_trees (f.rootsOf d) acyclic.root
    have htrees : f.trees [.ref (.document d)] = [.bare .document (f.trees (f.rootsOf d))] := by
      rw [trees_cons, tree?_document d acyclic]
      rfl
    obtain ⟨ps, writes⟩ := Tree.exists_allWrite (UnfoldsAll.all unfolds writable.2)
    have distinct : ["_type", "children"].Nodup := by decide
    exact ⟨_, .document ps, payload_of_tree htrees writes.spellings,
      ⟨distinct, trivial, writes.exact, trivial⟩, Tree.erased_documentPayload writes.payload,
      writes.proper⟩

/-! ## The layout -/

/-- No indentation, or as many spaces as can be counted and held. -/
def IsIndent (limits : Limits) (indent : Datum) : Prop :=
  indent = .null ∨ ∃ width : Int, indent = .int width ∧ isIndex width = true ∧
    width ≤ limits.capacity

variable {limits : Limits}

theorem repeated_space {width : Int} (index : isIndex width = true)
    (held : width ≤ limits.capacity) :
    ∃ unit, Text.repeated limits " " width = .ok unit ∧ IsGap unit.toList := by
  have hlength : " ".length = 1 := rfl
  have few : ¬ greatestIndex < " ".length * width.toNat := by
    rw [isIndex, Bool.and_eq_true, decide_eq_true_eq, decide_eq_true_eq] at index
    rw [hlength]
    omega
  have fits : ¬ limits.capacity < " ".length * width.toNat := by
    rw [hlength]
    omega
  refine ⟨String.join (List.replicate width.toNat " "), ?_, fun c hc => ?_⟩
  · rw [Text.repeated, index]
    simp only [Bool.not_true, Bool.false_eq_true, if_false, if_neg few, if_neg fits]
    rfl
  · rw [String.toList_join] at hc
    obtain ⟨part, hpart, hc⟩ := List.mem_flatMap.1 hc
    rw [List.eq_of_mem_replicate hpart] at hc
    rw [List.mem_singleton.1 hc]
    rfl

theorem layoutFor_blank {indent : Datum} (h : IsIndent limits indent) :
    ∃ layout, f.layoutFor limits indent = .ok layout ∧ layout.IsBlank := by
  obtain rfl | ⟨width, rfl, index, held⟩ := h
  · exact ⟨.compact, rfl, trivial⟩
  · obtain ⟨unit, hunit, blank⟩ := repeated_space index held
    exact ⟨.lines unit, congrArg (Except.map Json.Layout.lines) hunit, blank⟩

/-! ## The round trip -/

theorem diamond_writable : diamond.Writable (.element ⟨0⟩) := by
  refine ⟨rfl, fun id e _ there => ?_⟩
  match id with
  | ⟨0⟩ =>
    obtain rfl := Option.some.inj there
    exact ⟨⟨⟨"ul", rfl, rfl⟩, List.nodup_nil, (nomatch ·), (nomatch ·)⟩, by simp⟩
  | ⟨1⟩ =>
    obtain rfl := Option.some.inj there
    exact ⟨⟨⟨"p", rfl, rfl⟩, List.nodup_nil, fun _ => .inl ⟨⟨2⟩, rfl, rfl⟩,
      fun _ => ⟨false, rfl⟩⟩, by simp⟩
  | ⟨2⟩ =>
    obtain rfl := Option.some.inj there
    exact ⟨⟨⟨"b", rfl, rfl⟩, List.nodup_nil, fun _ => .inr ⟨.text "<", rfl, trivial⟩,
      fun _ => ⟨false, rfl⟩⟩, by simp⟩
  | ⟨n + 3⟩ => simp [get?, diamond] at there

section Paragraph

theorem paragraph_writable {text : Scalar} (exact : text.IsExact) :
    (paragraph text).Writable (.element ⟨0⟩) := by
  refine ⟨rfl, fun id e _ there => ?_⟩
  match id with
  | ⟨0⟩ =>
    obtain rfl := Option.some.inj there
    exact ⟨⟨⟨"p", rfl, rfl⟩, List.nodup_nil, fun _ => .inr ⟨text, rfl, exact⟩,
      fun _ => ⟨false, rfl⟩⟩, fun w hw => absurd hw List.not_mem_nil⟩
  | ⟨n + 1⟩ => simp [get?, paragraph] at there

def paragraphFields (i : Int) : Payload.Fields :=
  [("_type", .text "P"), ("tag_name", .text "p"), ("attributes", .list []),
    ("children", .list []), ("text", .int i), ("unsafe", .bool false)]

theorem paragraph_payload (i : Int) :
    (paragraph (.int i)).payload (.element ⟨0⟩) = pure (.record (paragraphFields i)) := by
  obtain ⟨e, there⟩ : ∃ e, (paragraph (.int i)).get? ⟨0⟩ = some e := ⟨_, rfl⟩
  have htree : (paragraph (.int i)).trees [.ref (.element ⟨0⟩)] =
      [.node ((paragraph (.int i)).face ⟨0⟩ e) none []] := by
    rw [trees_cons, tree?_element there ((paragraph_acyclic _).acyclicFrom _)]
    obtain rfl := Option.some.inj there
    rfl
  obtain rfl := Option.some.inj there
  exact payload_of_tree htree rfl

/-- A whole number with too many digits has no JSON text, whatever the layout. -/
theorem json_paragraph_tooLong {i : Int} (long : (Scalar.int i).isTooLong = true)
    {indent : Datum} (held : IsIndent limits indent) :
    (paragraph (.int i)).json limits (.element ⟨0⟩) indent = .fail .numberTooLong := by
  obtain ⟨layout, hlayout, _⟩ := layoutFor_blank (f := paragraph (.int i)) held
  have faults : Json.faultsOfFields (paragraph (.int i)).typeOfRef (paragraphFields i) =
      [("_type", none), ("tag_name", none), ("attributes", none), ("children", none),
        ("text", if (Scalar.int i).isTooLong then some .numberTooLong else none),
        ("unsafe", none)] := rfl
  have fault : Json.fault? (paragraph (.int i)).typeOfRef (.record (paragraphFields i)) =
      some .numberTooLong := by
    rw [Json.fault?, faults, long, if_pos rfl]
    refine Json.findSome?_sortFields (by decide) ⟨("text", some .numberTooLong), ?_, rfl⟩
    decide
  rw [json, paragraph_payload, Account.pure_bind, hlayout]
  show Account.ofExcept (Json.write _ layout _) = _
  rw [Json.write, fault]
  rfl

theorem json_of_layout_error {f : Forest} {r : Ref} {v indent : Datum} {fault : Fault}
    (hpayload : f.payload r = pure v) (h : f.layoutFor limits indent = .error fault) :
    f.json limits r indent = .fail fault := by
  rw [json, hpayload, Account.pure_bind, h]
  rfl

end Paragraph

end Forest

end Hypertext
