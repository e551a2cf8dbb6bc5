import Hypertext.Proofs.Paths

/-! What reading a payload builds. Each node becomes one new element, by induction on the size of the
payload: first an element with its text, then its children one after the other. The main statement is
`Payload.whole_of_runs`. -/
namespace Hypertext.Payload
set_option autoImplicit false

open Hypertext.Action (Runs runs_bind_iff)
open Forest (linkTo)

variable {f g : Forest} {v : Datum} {holder : Ref} {made : Path → Ref} {below : Turn → Ref}
  {low high : Nat} {id x : ElementId} {e : Element}

/-! ## Elements up to their children -/

variable {s s' : Store} {type : String} {fields : Fields} {kind : Kind}

theorem size_setContent (f : Forest) (id : ElementId) (content : Datum) :
    (f.setContent id content).elements.size = f.elements.size := by
  rw [Forest.setContent]
  split
  · dsimp only
    split
    · rw [Forest.size_setParent, Forest.remove, Forest.size_setChildren, Forest.size_update]
    · exact Forest.size_update ..
  · exact Forest.size_update ..

theorem size_of_construct {v : Datum}
    (runs : Runs (Action.construct kind { tag := v }) s id s') :
    s'.forest.elements.size = s.forest.elements.size + 1 := by
  rw [Action.construct, runs_forest_bind_iff] at runs
  obtain ⟨tag, s1, first, runs⟩ := runs_bind_iff.1 runs
  obtain rfl : s = s1 := by
    cases h : kind.tagFor s.forest v with
    | error fault =>
      rw [h] at first
      cases first
    | ok other =>
      rw [h] at first
      exact ((Action.runs_pure other s).unique first).2
  obtain ⟨id1, s2, second, runs⟩ := runs_bind_iff.1 runs
  obtain ⟨rfl, rfl⟩ := (Action.runs_insert _ s).unique second
  obtain ⟨_, s3, third, runs⟩ := runs_bind_iff.1 runs
  obtain ⟨-, rfl⟩ := (Action.runs_change _ _).unique third
  obtain ⟨_, s4, fourth, last⟩ := runs_bind_iff.1 runs
  obtain ⟨-, rfl⟩ := (Action.runs_pure () _).unique fourth
  obtain ⟨-, rfl⟩ := (Action.runs_pure _ _).unique last
  have inserted : (s.forest.insert { kind, tag }).2.elements.size =
      s.forest.elements.size + 1 := Array.size_push ..
  show (if kind.hasText then _ else _ : Forest).elements.size = _
  split
  · rw [size_setContent, inserted]
  · exact inserted

theorem newElement_inv (runs : Runs (newElement type fields) s id s') :
    ∃ kind tag, Kind.ofPayloadName? type = some kind ∧ s'.forest.get? id = some { kind, tag } ∧
      s.forest.Grows s'.forest ∧ id.index = s.forest.elements.size ∧
      s'.forest.elements.size = s.forest.elements.size + 1 := by
  rw [newElement] at runs
  cases known : Kind.ofPayloadName? type with
  | none => rw [known] at runs; exact absurd runs (Action.not_runs_throw _ _ _ _)
  | some kind =>
    rw [known] at runs
    simp only [runs_forest_bind_iff] at runs
    split at runs
    · obtain ⟨_, _, h, _⟩ := runs_bind_iff.1 runs
      exact absurd h (Action.not_runs_throw _ _ _ _)
    · obtain ⟨tag, htag⟩ := construct_runs_iff.1 ⟨id, s', runs⟩
      obtain ⟨s1, id1, runs1, grows, new, there⟩ := construct_runs kind s htag
      obtain ⟨rfl, rfl⟩ := runs.unique runs1
      have size := size_of_construct runs
      have bound := Forest.index_lt there
      exact ⟨kind, tag, rfl, there, grows, by omega, size⟩

theorem readAttributes_inv {pairs : List Datum} (there : s.forest.get? id = some e)
    (runs : Runs (readAttributes type id pairs) s () s') :
    (∃ attributes, s.forest.GrowsBut s'.forest id { e with attributes }) ∧
      s'.forest.elements.size = s.forest.elements.size := by
  constructor
  · obtain ⟨as, has⟩ := exists_attributes (isPair_of_readAttributes runs)
    obtain ⟨s1, runs1, but⟩ := readAttributes_runs type id as pairs s e has there
    obtain ⟨-, rfl⟩ := runs.unique runs1
    exact ⟨_, but⟩
  · induction pairs generalizing s e with
    | nil =>
      obtain ⟨-, rfl⟩ := (Action.runs_pure () s).unique runs
      rfl
    | cons pair pairs ih =>
      rw [readAttributes, runs_forest_bind_iff] at runs
      obtain ⟨a, s1, first, runs⟩ := runs_bind_iff.1 runs
      obtain ⟨-, rfl⟩ := runs_liftM_iff.1 first
      obtain ⟨_, s2, second, rest⟩ := runs_bind_iff.1 runs
      obtain ⟨-, rfl⟩ := (Action.runs_change _ _).unique second
      exact (ih (Forest.growsBut_update there _).here rest).trans (Forest.size_update ..)

/-- An element up to its text, and what was done then: nothing where there is no slot, and otherwise
the text, after which the mark was set. -/
theorem elementHead_inv (runs : Runs (elementHead type fields) s id s') :
    ∃ kind tag attributes s1, Kind.ofPayloadName? type = some kind ∧
      s.forest.Grows s1.forest ∧ s1.forest.get? id = some { kind, tag, attributes } ∧
      id.index = s.forest.elements.size ∧
      s1.forest.elements.size = s.forest.elements.size + 1 ∧
      (kind.hasText = false → s1 = s') ∧
      (kind.hasText = true → ∃ s2, Runs (textSlot id fields) s1 () s2 ∧
        s'.forest = s2.forest.setMark id (.bool (markOf s2.forest fields))) := by
  rw [elementHead] at runs
  obtain ⟨_, s1, told, runs⟩ := runs_bind_iff.1 runs
  obtain ⟨s1', told', same⟩ := ignoredEvents_runs type fields s
  obtain ⟨-, rfl⟩ := told.unique told'
  obtain ⟨id1, s2, made, runs⟩ := runs_bind_iff.1 runs
  obtain ⟨kind, tag, known, there, grows, index, size⟩ := newElement_inv made
  rw [same] at grows index size
  rw [runs_forest_bind_iff] at runs
  obtain ⟨pairs, s3, listed, runs⟩ := runs_bind_iff.1 runs
  obtain ⟨-, rfl⟩ := runs_liftM_iff.1 listed
  obtain ⟨_, s4, read, runs⟩ := runs_bind_iff.1 runs
  obtain ⟨⟨attributes, but⟩, size'⟩ := readAttributes_inv there read
  have grows' := ((grows.but there).trans but).grows (Nat.le_of_eq index.symm)
  have hslot : s4.forest.hasText id1 = kind.hasText := by
    rw [Forest.hasText, but.here]
    rfl
  rw [runs_forest_bind_iff, hslot] at runs
  cases slot : kind.hasText with
  | false =>
    rw [slot, if_neg Bool.false_ne_true] at runs
    obtain ⟨rfl, rfl⟩ := (Action.runs_pure id1 s4).unique runs
    exact ⟨kind, tag, attributes, s4, known, grows', but.here, index, size'.trans size,
      fun _ => rfl, fun h => absurd (slot.symm.trans h) Bool.false_ne_true⟩
  | true =>
    rw [slot, if_pos rfl] at runs
    obtain ⟨_, s5, filled, runs⟩ := runs_bind_iff.1 runs
    obtain ⟨_, s6, marked, last⟩ := runs_bind_iff.1 runs
    obtain ⟨-, rfl⟩ := (Action.runs_change _ s5).unique marked
    obtain ⟨rfl, rfl⟩ := (Action.runs_pure id1 _).unique last
    exact ⟨kind, tag, attributes, s4, known, grows', but.here, index, size'.trans size,
      fun h => absurd (h.symm.trans slot) Bool.false_ne_true, fun _ => ⟨s5, filled, rfl⟩⟩

/-! ## Texts -/

/-- Reading the data as an element always builds a tree of new elements. -/
def Builds (v : Datum) : Prop :=
  ∀ s s' x, Runs (node v) s (.element x) s' → ∃ made, Sprouted s.forest s'.forest v x made

/-- The nodes of a node's text and of its first children. -/
def upTo (v : Datum) (count : Nat) : Turn → Option Datum
  | .text => below? v .text
  | .child i => if i < count then below? v (.child i) else none

theorem setContent_of_plain {content : Datum} (slot : f.hasText id = true)
    (plain : ∀ x, content ≠ .ref (.element x)) :
    f.setContent id content = f.update id (·.filled content) := by
  rw [Forest.setContent, if_pos slot]
  split
  · exact absurd rfl (plain _)
  · rfl

theorem ne_ref_of_erased {v w : Datum} (same : w.erased = v.erased) (plain : v.refs = [])
    (r : Ref) : w ≠ .ref r := by
  rintro rfl
  match v with
  | .ref r' => cases plain
  | .made _ v => exact ne_ref_of_erased (v := v) same plain r rfl
  | .scalar _ | .list _ | .record _ | .renderer .. => cases same

/-- A text that is no record is held as it is, or with an origin. -/
theorem textSlot_inv (runs : Runs (textSlot id fields) s () s')
    (plain : Value.refsFields fields = []) :
    (∃ w held s1, fields.lookup "text" = some w ∧ w.isRecord = true ∧
      Runs (node w) s (.element held) s1 ∧
      s'.forest = s1.forest.setContent id (.ref (.element held))) ∨
    ((fields.lookup "text").filter Value.isRecord = none ∧ ∃ content : Datum,
      (∀ x, content ≠ .ref (.element x)) ∧ s'.forest = s.forest.setContent id content) := by
  rw [textSlot_eq] at runs
  cases hw : fields.lookup "text" with
  | none =>
    rw [hw] at runs
    obtain ⟨-, rfl⟩ := (Action.runs_change _ s).unique runs
    exact .inr ⟨rfl, .text "", fun x h => (nomatch h), rfl⟩
  | some w =>
    simp only [hw] at runs
    cases record : w.isRecord with
    | true =>
      rw [record, if_pos rfl] at runs
      obtain ⟨held, s1, first, rest⟩ := reads_of_runs runs
      obtain ⟨-, rfl⟩ := (Action.runs_change _ s1).unique rest
      exact .inl ⟨w, held, s1, rfl, record, first, rfl⟩
    | false =>
      rw [record, if_neg Bool.false_ne_true] at runs
      obtain ⟨content, s1, first, herased, hforest⟩ := Action.runs_identified w s
      obtain ⟨content', s2, second, rest⟩ := runs_bind_iff.1 runs
      obtain ⟨rfl, rfl⟩ := first.unique second
      obtain ⟨-, rfl⟩ := (Action.runs_change _ s1).unique rest
      refine .inr ⟨by simp [record], content, fun x => ?_, by rw [← hforest]⟩
      exact ne_ref_of_erased herased (Value.refs_of_lookup plain hw) _

theorem grown_of_textSlot (grown : Grown f s.forest low (.element id) (fun _ => none) made)
    (there : s.forest.get? id = some e) (slot : e.hasText = true) (empty : e.children = [])
    (text : ∀ x, e.content ≠ .ref (.element x)) (plain : Value.refsFields fields = [])
    (hasText : hasText (.record fields) = true)
    (builds : ∀ w, fields.lookup "text" = some w → w.isRecord = true → Builds w)
    (runs : Runs (textSlot id fields) s () s') :
    ∃ made' e', Grown f s'.forest low (.element id) (upTo (.record fields) 0) made' ∧
      made' [] = made [] ∧ s'.forest.get? id = some e' ∧ e'.kind = e.kind ∧
      e'.parent = e.parent ∧ e'.children = [] := by
  have below : below? (.record fields) .text = (fields.lookup "text").filter Value.isRecord :=
    if_pos hasText
  obtain ⟨w, held, s1, hw, record, first, hs'⟩ | ⟨none, content, hcontent, hs'⟩ :=
    textSlot_inv runs plain
  · obtain ⟨made', sprouted⟩ := builds w hw record s s1 held first
    obtain ⟨new, -⟩ := sprouted.new
    have hne : held ≠ id := by
      rintro rfl
      have old := Forest.index_lt there
      omega
    have there1 := (sprouted.grows.same id (Forest.index_lt there)).trans there
    obtain ⟨eheld, hheld, -⟩ := sprouted.unlinked
    have all := grown.hang sprouted (hung_setContent there1 slot empty hheld hne) rfl
    have nodes : placed (fun _ => none) .text w = upTo (.record fields) 0 := by
      funext turn
      cases turn with
      | text => simp [placed, upTo, below, hw, Option.filter, record]
      | child i => simp [placed, upTo]
    rw [nodes, ← hs'] at all
    refine ⟨_, { e.filled (.ref (.element held)) with children := [] }, all, rfl, ?_, rfl, rfl, rfl⟩
    rw [hs']
    exact get?_setContent_held there1 slot empty hne
  · have nodes : (fun _ => Option.none) = upTo (.record fields) 0 := by
      funext turn
      cases turn with
      | text => exact (below.trans none).symm
      | child i => simp [upTo]
    have hslot : s.forest.hasText id = true := by
      rw [Forest.hasText, there]
      exact slot
    rw [setContent_of_plain hslot hcontent] at hs'
    have but := Forest.growsBut_update there (·.filled content)
    rw [← hs'] at but
    have all := grown.retouch there but (by rw [hs', Forest.size_update]) rfl rfl fun x =>
      ⟨fun h => absurd h (hcontent x), fun h => absurd h (text x)⟩
    exact ⟨made, _, nodes ▸ all, rfl, but.here, rfl, rfl, empty⟩

/-! ## Children -/

theorem placed_upTo {i : Nat} {w : Datum} (hw : below? v (.child i) = some w) :
    placed (upTo v i) (.child i) w = upTo v (i + 1) := by
  funext turn
  cases turn with
  | text => simp [placed, upTo]
  | child j =>
    simp only [placed, upTo, Turn.child.injEq]
    by_cases hj : j = i
    · subst hj
      simp [hw]
    · have bound : j < i + 1 ↔ j < i := by omega
      simp [hj, bound]

theorem upTo_all {count : Nat} (rest : (childrenOf v).drop count = []) : upTo v count = below? v := by
  have bound : (childrenOf v).length ≤ count := List.drop_eq_nil_iff.1 rest
  funext turn
  cases turn with
  | text => rfl
  | child i =>
    rw [upTo]
    split
    next => rfl
    next h =>
      exact (List.getElem?_eq_none (Nat.le_trans bound (Nat.le_of_not_lt h))).symm

theorem attach_element (there : g.get? id = some e) (hne : id ≠ x) :
    (g.attach (.element id) (.ref (.element x))).get? id =
      some { e with children := e.children ++ [.ref (.element x)] } := by
  have here : (g.setParent x (.element id)).get? id = some e := by
    rw [Forest.get?_setParent, if_neg hne, there]
  rw [Forest.attach, Forest.add, Forest.get?_setChildren_element, if_pos rfl, here,
    childrenOf_of_get? here]
  rfl

theorem childrenOf_attach (there : g.isThere holder = true) (hne : holder ≠ .element x) :
    (g.attach holder (.ref (.element x))).childrenOf holder =
      g.childrenOf holder ++ [.ref (.element x)] := by
  cases holder with
  | document d => exact Forest.childrenOf_setChildren there _
  | element id =>
    obtain ⟨e, he⟩ := Option.isSome_iff_exists.1 there
    rw [childrenOf_of_get? (attach_element he fun h => hne (h ▸ rfl)), childrenOf_of_get? he]

/-- Attaching the rest of the children, one after the other. -/
theorem grown_of_attachAll {items : List Datum} {count : Nat}
    (grown : Grown f s.forest low holder (upTo v count) made)
    (rest : (childrenOf v).drop count = items)
    (length : (s.forest.childrenOf holder).length = count) (builds : ∀ w ∈ items, Builds w)
    (runs : Runs (attachAll holder items) s () s') :
    ∃ made', Grown f s'.forest low holder (below? v) made' ∧ made' [] = made [] ∧
      ∀ id e, holder = .element id → s.forest.get? id = some e →
        ∃ children, s'.forest.get? id = some { e with children } := by
  induction items generalizing s made count with
  | nil =>
    rw [attachAll] at runs
    obtain ⟨-, rfl⟩ := (Action.runs_pure () s).unique runs
    exact ⟨made, upTo_all rest ▸ grown, rfl, fun id e _ there => ⟨e.children, there⟩⟩
  | cons w items ih =>
    rw [attachAll] at runs
    obtain ⟨x, s1, first, runs⟩ := reads_of_runs runs
    obtain ⟨_, s2, attached, more⟩ := runs_bind_iff.1 runs
    obtain ⟨-, rfl⟩ := (Action.runs_change _ s1).unique attached
    obtain ⟨made', sprouted⟩ := builds w List.mem_cons_self s s1 x first
    obtain ⟨new, -⟩ := sprouted.new
    obtain ⟨ex, hx, unlinked⟩ := sprouted.unlinked
    have hne : holder ≠ .element x := by
      intro h
      have older := grown.older x h
      have hle := grown.low_le
      omega
    have there := sprouted.grows.isThere grown.holds.there
    have same := sprouted.grows.childrenOf grown.holds.there
    have hung := hung_attach there hx unlinked hne
    rw [same, length] at hung
    have hw : below? v (.child count) = some w := by
      have head : ((childrenOf v).drop count)[0]? = (childrenOf v)[count]? := List.getElem?_drop
      rw [rest] at head
      exact head.symm
    have free : upTo v count (.child count) = none := if_neg (Nat.lt_irrefl count)
    have step := grown.hang sprouted hung free
    rw [placed_upTo hw] at step
    obtain ⟨made'', all, root, kept⟩ := ih step (by rw [← List.drop_drop, rest]; rfl)
      (by rw [childrenOf_attach there hne, same, List.length_append, length]; rfl)
      (fun w hw => builds w (List.mem_cons_of_mem _ hw)) more
    refine ⟨made'', all, root, fun id e hid he => ?_⟩
    subst hid
    have he1 := (sprouted.grows.same id (Forest.index_lt he)).trans he
    obtain ⟨children, hchildren⟩ := kept id _ rfl (attach_element he1 fun h => hne (h ▸ rfl))
    exact ⟨children, hchildren⟩

theorem grown_of_children (grown : Grown f s.forest low holder (upTo (.record fields) 0) made)
    (empty : s.forest.childrenOf holder = [])
    (builds : ∀ w ∈ childrenOf (.record fields), Builds w)
    (runs : Runs (children type holder fields) s () s') :
    ∃ made', Grown f s'.forest low holder (below? (.record fields)) made' ∧ made' [] = made [] ∧
      ∀ id e, holder = .element id → s.forest.get? id = some e →
        ∃ children, s'.forest.get? id = some { e with children } := by
  rw [children_eq, runs_forest_bind_iff] at runs
  split at runs
  next items hitems =>
    have listed : childrenOf (.record fields) = items := by
      show (listed? fields "children").getD [] = items
      rw [listField_eq_ok_iff.1 hitems]
      rfl
    rw [listed] at builds
    exact grown_of_attachAll grown listed (by rw [empty]; rfl) builds runs
  next => exact absurd runs (Action.not_runs_throw _ _ _ _)

/-! ## Nodes -/

theorem markOf_eq_isMarked (f : Forest) (plain : Value.refsFields fields = [])
    (slot : hasText (.record fields) = true) : markOf f fields = isMarked (.record fields) := by
  rw [isMarked, slot, Bool.true_and, markOf]
  show _ = ((fields.lookup "unsafe").map _).getD false
  cases h : fields.lookup "unsafe" with
  | none => rfl
  | some w => exact Value.truth_of_refs_nil (Value.refs_of_lookup plain h) _ _

/-- An element with its text, as its node describes it. It has no children yet. -/
theorem grown_of_elementHead (plain : Value.refsFields fields = [])
    (named : type? fields = some type)
    (builds : ∀ w, fields.lookup "text" = some w → w.isRecord = true → Builds w)
    (runs : Runs (elementHead type fields) s id s') :
    ∃ made e, Grown s.forest s'.forest (s.forest.elements.size + 1) (.element id)
        (upTo (.record fields) 0) made ∧
      made [] = .element id ∧ id.index = s.forest.elements.size ∧ s'.forest.get? id = some e ∧
      e.parent = .absent ∧ e.children = [] ∧ kind? (.record fields) = some e.kind ∧
      (e.hasText = true → e.mark = .bool (isMarked (.record fields))) := by
  obtain ⟨kind, tag, attributes, s1, known, grows, there, index, size, without, within⟩ :=
    elementHead_inv runs
  have hkind : kind? (.record fields) = some kind := by
    show (type? fields).bind _ = _
    rw [named]
    exact known
  have start : Grown s.forest s1.forest (s.forest.elements.size + 1) (.element id) (fun _ => none)
      fun _ => .element id := by
    rw [← size]
    refine grown_nothing ⟨grows.size, fun y hy _ => grows.same y hy, fun d _ => grows.roots d⟩ ?_ ?_
      (fun x h => ?_) (fun id' h => ?_) _
    · rw [Forest.isThere, Forest.isAlive, there]
      rfl
    · exact childrenOf_of_get? there
    · cases ((has_text_iff there).1 h).2
    · obtain rfl := Ref.element.inj h
      exact Forest.index_lt there
  have hslot : hasText (.record fields) = kind.hasText := by
    rw [hasText, hkind]
    rfl
  cases slot : kind.hasText with
  | false =>
    obtain rfl := without slot
    have nodes : (fun _ => none) = upTo (.record fields) 0 := by
      funext turn
      cases turn with
      | text => exact (if_neg (by rw [hslot, slot]; exact Bool.false_ne_true)).symm
      | child i => simp [upTo]
    exact ⟨_, _, nodes ▸ start, rfl, index, there, rfl, rfl, hkind,
      fun h => absurd (slot.symm.trans h) Bool.false_ne_true⟩
  | true =>
    obtain ⟨s2, filled, hs'⟩ := within slot
    have textless (x : ElementId) : (.text "" : Datum) ≠ .ref (.element x) := by simp
    obtain ⟨made, e, grown, root, here, ekind, parent, childless⟩ :=
      grown_of_textSlot start there slot rfl textless plain (hslot.trans slot) builds filled
    have but := Forest.growsBut_update here
      ({ · with mark := .bool (markOf s2.forest fields) })
    have marked : s'.forest = s2.forest.update id
      ({ · with mark := .bool (markOf s2.forest fields) }) := hs'
    rw [← marked] at but
    have all := grown.retouch here but (by rw [marked, Forest.size_update]) rfl rfl fun _ => Iff.rfl
    refine ⟨made, _, all, root, index, but.here, parent, childless, ?_, fun _ => ?_⟩
    · rw [hkind]
      exact congrArg some ekind.symm
    · exact congrArg Value.bool (markOf_eq_isMarked _ plain (hslot.trans slot))

theorem Grown.rooted (grown : Grown f g (id.index + 1) (.element id) (below? v) made)
    (root : made [] = .element id) (there : g.get? id = some e) (kind : kind? v = some e.kind)
    (mark : e.hasText = true → e.mark = .bool (isMarked v)) :
    Reflects id.index g.elements.size g (at? v) made := by
  have bound := Forest.index_lt there
  have below {turn : Turn} {rest : Path} (h : (at? v (turn :: rest)).isSome = true) {x : ElementId}
      (hx : made (turn :: rest) = .element x) : id.index + 1 ≤ x.index :=
    ((grown.trees.numbers x).2 ⟨turn :: rest, h, hx⟩).1
  refine ⟨fun p turn w hw => ?_, fun p w hw => ?_, fun p hp => ?_, fun x => ⟨fun h => ?_, ?_⟩,
    fun p q hp hq same => ?_⟩
  · rw [at?_append, hw]
    rfl
  · cases p with
    | cons turn rest => exact grown.trees.node (turn :: rest) w hw
    | nil =>
      obtain rfl := Option.some.inj hw
      rw [root]
      refine ⟨grown.holds, fun id' h => ?_, fun d h => nomatch h⟩
      obtain rfl := Ref.element.inj h
      exact ⟨e, there, kind, mark⟩
  · cases p with
    | nil => exact ⟨id, root⟩
    | cons turn rest => exact grown.trees.element (turn :: rest) hp
  · by_cases hx : x = id
    · exact ⟨[], rfl, hx ▸ root⟩
    · have hne : id.index ≠ x.index := fun h => hx (by cases x; cases id; simp_all)
      obtain ⟨p, hp, hmade⟩ := (grown.trees.numbers x).1 ⟨by omega, h.2⟩
      cases p with
      | nil => cases hp
      | cons turn rest => exact ⟨turn :: rest, hp, hmade⟩
  · rintro ⟨p, hp, hx⟩
    cases p with
    | nil =>
      obtain rfl := Ref.element.inj (root.symm.trans hx)
      exact ⟨Nat.le_refl _, bound⟩
    | cons turn rest =>
      have range := (grown.trees.numbers x).2 ⟨turn :: rest, hp, hx⟩
      exact ⟨Nat.le_of_succ_le range.1, range.2⟩
  · cases p with
    | nil =>
      cases q with
      | nil => rfl
      | cons turn rest =>
        have range := below hq (same.symm.trans root)
        omega
    | cons turn rest =>
      cases q with
      | nil =>
        have range := below hp (same.trans root)
        omega
      | cons turn' rest' => exact grown.trees.distinct _ _ hp hq same

theorem runs_node_element (runs : Runs (node (.record fields)) s (.element x) s') :
    ∃ type s1, type? fields = some type ∧ Runs (elementHead type fields) s x s1 ∧
      Runs (children type (.element x) fields) s1 () s' := by
  rw [node, runs_forest_bind_iff] at runs
  obtain ⟨type, s1, first, runs⟩ := runs_bind_iff.1 runs
  obtain ⟨named, rfl⟩ := runs_liftM_iff.1 first
  split at runs
  · obtain ⟨_, _, _, runs⟩ := runs_bind_iff.1 runs
    obtain ⟨_, s3, _, last⟩ := runs_bind_iff.1 runs
    cases ((Action.runs_pure _ s3).unique last).1
  · obtain ⟨id, s2, head, runs⟩ := runs_bind_iff.1 runs
    obtain ⟨_, s3, held, last⟩ := runs_bind_iff.1 runs
    obtain ⟨same, rfl⟩ := (Action.runs_pure _ s3).unique last
    obtain rfl := Ref.element.inj same
    exact ⟨type, s2, typeOf_eq_ok_iff.1 named, head, held⟩

theorem runs_node_document {d : DocumentId}
    (runs : Runs (node (.record fields)) s (.document d) s') :
    type? fields = some documentType ∧ d = s.forest.insertDocument.1 ∧
      Runs (children documentType (.document d) fields)
        { s with forest := s.forest.insertDocument.2 } () s' := by
  rw [node, runs_forest_bind_iff] at runs
  obtain ⟨type, s1, first, runs⟩ := runs_bind_iff.1 runs
  obtain ⟨named, rfl⟩ := runs_liftM_iff.1 first
  split at runs
  next h =>
    obtain ⟨id, s2, inserted, runs⟩ := runs_bind_iff.1 runs
    obtain ⟨rfl, rfl⟩ := (Action.runs_insertDocument s).unique inserted
    obtain ⟨_, s3, held, last⟩ := runs_bind_iff.1 runs
    obtain ⟨same, rfl⟩ := (Action.runs_pure _ s3).unique last
    obtain rfl := Ref.document.inj same
    exact ⟨h ▸ typeOf_eq_ok_iff.1 named, rfl, h ▸ held⟩
  · obtain ⟨_, _, _, runs⟩ := runs_bind_iff.1 runs
    obtain ⟨_, s3, _, last⟩ := runs_bind_iff.1 runs
    cases ((Action.runs_pure _ s3).unique last).1

theorem builds_record (plain : Value.refsFields fields = [])
    (text : ∀ w, fields.lookup "text" = some w → w.isRecord = true → Builds w)
    (held : ∀ w ∈ childrenOf (.record fields), Builds w) : Builds (.record fields) := by
  intro s s' x runs
  obtain ⟨type, s1, named, head, more⟩ := runs_node_element runs
  obtain ⟨made, e, grown, root, index, there, parent, childless, kind, mark⟩ :=
    grown_of_elementHead plain named text head
  have empty : s1.forest.childrenOf (.element x) = [] := by rw [childrenOf_of_get? there, childless]
  obtain ⟨made', all, root', kept⟩ := grown_of_children grown empty held more
  obtain ⟨children, here⟩ := kept x e rfl there
  rw [← index] at all
  have trees := all.rooted (root'.trans root) here kind mark
  have apart {id : ElementId} (hid : id.index < s.forest.elements.size) :
      (.element x : Ref) ≠ .element id := by
    rintro ⟨⟩
    omega
  exact ⟨made', ⟨all.grows.size, fun id hid => all.grows.same id hid (apart hid),
    fun d => all.grows.roots d (nomatch ·)⟩, index ▸ trees, root'.trans root, _, here, parent⟩

/-! ## Origins -/

theorem below?_made (o : Origin) (v : Datum) : below? (.made o v) = below? v := by
  funext turn
  cases turn <;> rfl

theorem Mirrors.withOrigin {o : Origin} (h : Mirrors g v holder below) :
    Mirrors g (.made o v) holder below :=
  ⟨⟨h.there, h.only, below?_made o v ▸ h.has, below?_made o v ▸ h.linked⟩, h.label, h.document⟩

theorem at?_made_isSome (o : Origin) (v : Datum) (p : Path) :
    (at? (.made o v) p).isSome = (at? v p).isSome := by
  cases p with
  | nil => rfl
  | cons turn rest => rw [at?, at?, below?_made]

theorem node_made_mirrors {o : Origin}
    (node : ∀ p n, at? v p = some n → Mirrors g n (made p) fun turn => made (p ++ [turn])) :
    ∀ p n, at? (.made o v) p = some n → Mirrors g n (made p) fun turn => made (p ++ [turn]) := by
  intro p n hn
  cases p with
  | nil =>
    obtain rfl := Option.some.inj hn
    exact (node [] v rfl).withOrigin
  | cons turn rest =>
    rw [at?, below?_made] at hn
    exact node (turn :: rest) n hn

theorem Reflects.withOrigin {o : Origin} (h : Reflects low high g (at? v) made) :
    Reflects low high g (at? (.made o v)) made := by
  refine ⟨fun p turn w hw => ?_, node_made_mirrors h.node, fun p hp => ?_, fun x => ?_,
    fun p q hp hq => ?_⟩
  · rw [at?_append, hw]
    rfl
  · rw [at?_made_isSome] at hp
    exact h.element p hp
  · simp only [at?_made_isSome]
    exact h.numbers x
  · rw [at?_made_isSome] at hp hq
    exact h.distinct p q hp hq

theorem exists_listed {w : Datum} (hw : w ∈ childrenOf (.record fields)) :
    ∃ items, listed? fields "children" = some items ∧ w ∈ items := by
  rw [childrenOf] at hw
  cases h : listed? (fieldsOf (.record fields)) "children" with
  | none => rw [h] at hw; cases hw
  | some items =>
    rw [h] at hw
    exact ⟨items, h, hw⟩

/-- Data without references, by induction on their size. -/
theorem builds_of_plain (v : Datum) (plain : v.refs = []) : Builds v := by
  match v with
  | .made o v =>
    intro s s' x runs
    rw [node_made] at runs
    obtain ⟨made, sprouted⟩ := builds_of_plain v plain s s' x runs
    exact ⟨made, sprouted.grows, sprouted.trees.withOrigin, sprouted.root, sprouted.unlinked⟩
  | .record fields =>
    refine builds_record plain (fun w hw _ => ?_) fun w hw => ?_
    · exact builds_of_plain w (Value.refs_of_lookup plain hw)
    · obtain ⟨items, hitems, hmem⟩ := exists_listed hw
      exact builds_of_plain w (refs_of_listed? plain hitems hmem)
  | .scalar _ | .list _ | .ref _ | .renderer .. =>
    exact fun s s' x runs => absurd runs (not_runs_node rfl s s' _)
termination_by sizeOf v
decreasing_by
  · rw [Value.made.sizeOf_spec]
    omega
  · have hlt := Value.sizeOf_lookup_lt hw
    rw [Value.record.sizeOf_spec]
    omega
  · obtain ⟨items, hitems, hmem⟩ := exists_listed hw
    exact sizeOf_lt_of_listed? hitems hmem

/-! ## Whole payloads -/

/-- All nodes of a payload have become what is new in a forest. -/
structure Whole (f g : Forest) (v : Datum) (made : Path → Ref) : Prop where
  grows : GrowsAt f g (made [])
  fresh : f.isThere (made []) = false
  node : ∀ p n, at? v p = some n → Mirrors g n (made p) fun turn => made (p ++ [turn])
  numbers : ∀ x : ElementId, f.elements.size ≤ x.index ∧ x.index < g.elements.size ↔
    ∃ p, (at? v p).isSome = true ∧ made p = .element x
  distinct : ∀ p q, (at? v p).isSome = true → (at? v q).isSome = true → made p = made q → p = q
  unlinked : ∀ x, made [] = .element x → ∃ e, g.get? x = some e ∧ e.parent = .absent

theorem isAlive_of_new (hx : f.elements.size ≤ x.index) : f.isAlive x = false := by
  rw [Forest.isAlive, Forest.get?, Array.getElem?_eq_none hx]
  rfl

theorem Sprouted.whole (sprouted : Sprouted f g v x made) : Whole f g v made where
  grows := ⟨sprouted.grows.size, fun id hid _ => sprouted.grows.same id hid,
    fun d _ => sprouted.grows.roots d⟩
  fresh := by
    rw [sprouted.root]
    exact isAlive_of_new sprouted.new.1
  node := sprouted.trees.node
  numbers := sprouted.trees.numbers
  distinct := sprouted.trees.distinct
  unlinked y hy := Ref.element.inj (sprouted.root.symm.trans hy) ▸ sprouted.unlinked

theorem Whole.withOrigin {o : Origin} (h : Whole f g v made) : Whole f g (.made o v) made where
  grows := h.grows
  fresh := h.fresh
  node := node_made_mirrors h.node
  numbers := by
    simp only [at?_made_isSome]
    exact h.numbers
  distinct := by
    simp only [at?_made_isSome]
    exact h.distinct
  unlinked := h.unlinked

theorem Grown.whole {d : DocumentId}
    (grown : Grown f g f.elements.size (.document d) (below? v) made) (root : made [] = .document d)
    (fresh : f.isThere (.document d) = false) (kind : kind? v = none) : Whole f g v made where
  grows := root ▸ grown.grows
  fresh := root ▸ fresh
  node p n hn := by
    cases p with
    | cons turn rest => exact grown.trees.node (turn :: rest) n hn
    | nil =>
      obtain rfl := Option.some.inj hn
      rw [root]
      exact ⟨grown.holds, fun _ h => (nomatch h), fun _ _ => kind⟩
  numbers x := by
    rw [grown.trees.numbers]
    constructor
    · rintro ⟨p, hp, hx⟩
      cases p with
      | nil => cases hp
      | cons turn rest => exact ⟨turn :: rest, hp, hx⟩
    · rintro ⟨p, hp, hx⟩
      cases p with
      | nil => cases root.symm.trans hx
      | cons turn rest => exact ⟨turn :: rest, hp, hx⟩
  distinct p q hp hq same := by
    have element {turn : Turn} {rest : Path} (h : (at? v (turn :: rest)).isSome = true) :
        made (turn :: rest) ≠ .document d := by
      obtain ⟨x, hx⟩ := grown.trees.element (turn :: rest) h
      rw [hx]
      exact nofun
    cases p with
    | nil =>
      cases q with
      | nil => rfl
      | cons turn rest => exact absurd (same.symm.trans root) (element hq)
    | cons turn rest =>
      cases q with
      | nil => exact absurd (same.trans root) (element hp)
      | cons turn' rest' => exact grown.trees.distinct _ _ hp hq same
  unlinked x hx := nomatch root.symm.trans hx

theorem whole_of_document {d : DocumentId} (plain : Value.refsFields fields = [])
    (runs : Runs (node (.record fields)) s (.document d) s') :
    ∃ made, made [] = .document d ∧ Whole s.forest s'.forest (.record fields) made := by
  obtain ⟨named, hd, more⟩ := runs_node_document runs
  have roots (other : DocumentId) : s.forest.insertDocument.2.roots? other =
      if other = d then some [] else s.forest.roots? other := by
    rw [Forest.roots?_insertDocument, hd]
  have fresh : s.forest.isThere (.document d) = false := by
    rw [hd, Forest.isThere, Forest.roots?]
    simp [Forest.insertDocument]
  have empty : s.forest.insertDocument.2.childrenOf (.document d) = [] := by
    rw [Forest.childrenOf, Forest.rootsOf, roots, if_pos rfl]
    rfl
  have grows : GrowsAt s.forest s.forest.insertDocument.2 (.document d) := by
    refine ⟨Nat.le_refl _, fun _ _ _ => rfl, fun other hne => ?_⟩
    rw [roots, if_neg fun h : other = d => hne (by rw [h])]
  have start : Grown s.forest s.forest.insertDocument.2 s.forest.elements.size (.document d)
      (fun _ => none) fun _ => .document d := by
    refine grown_nothing grows ?_ empty (fun x h => ?_) (fun _ h => ?_) _
    · rw [Forest.isThere, roots, if_pos rfl]
      rfl
    · obtain ⟨place, hplace, -⟩ := h
      cases hplace
    · cases h
  have kind : kind? (.record fields) = none := by
    show (type? fields).bind _ = _
    rw [named]
    rfl
  have nodes : (fun _ => none) = upTo (.record fields) 0 := by
    funext turn
    cases turn with
    | text =>
      have textless : hasText (.record fields) = false := by
        rw [hasText, kind]
        rfl
      exact (if_neg (by rw [textless]; exact Bool.false_ne_true)).symm
    | child i => simp [upTo]
  have held : ∀ w ∈ childrenOf (.record fields), Builds w := by
    intro w hw
    obtain ⟨items, hitems, hmem⟩ := exists_listed hw
    exact builds_of_plain w (refs_of_listed? plain hitems hmem)
  obtain ⟨made, grown, root, -⟩ := grown_of_children (nodes ▸ start) empty held more
  exact ⟨made, root, grown.whole root fresh kind⟩

theorem whole_of_runs {v : Datum} (plain : v.refs = []) {r : Ref} (runs : Runs (node v) s r s') :
    ∃ made, made [] = r ∧ Whole s.forest s'.forest v made := by
  cases r with
  | element x =>
    obtain ⟨made, sprouted⟩ := builds_of_plain v plain s s' x runs
    exact ⟨made, sprouted.root, sprouted.whole⟩
  | document d =>
    match v with
    | .made o v =>
      rw [node_made] at runs
      obtain ⟨made, root, whole⟩ := whole_of_runs (v := v) plain runs
      exact ⟨made, root, whole.withOrigin⟩
    | .record fields => exact whole_of_document plain runs
    | .scalar _ | .list _ | .ref _ | .renderer .. => exact absurd runs (not_runs_node rfl s s' _)

end Hypertext.Payload
