import Hypertext.Proofs.Grammar
import Hypertext.Proofs.Ownership

/-! Paths in payloads, and forests that reflect them: where the payload has a node, the forest has an
element, which its holder holds at the same place. Such a forest grows tree by tree; the main statement
is `Payload.Grown.hang`. -/
namespace Hypertext.Payload
set_option autoImplicit false

open Forest (linkTo)

/-! ## Paths -/

/-- The way down from a node: into its text or to one of its children. -/
inductive Turn where
  | text
  | child (index : Nat)
  deriving DecidableEq, Repr

abbrev Path := List Turn

/-- The fields of a record, whatever its origin. -/
def fieldsOf : Datum → Fields
  | .record fields => fields
  | .made _ v => fieldsOf v
  | _ => []

def kind? (v : Datum) : Option Kind := (type? (fieldsOf v)).bind Kind.ofPayloadName?

def hasText (v : Datum) : Bool := (kind? v).any Kind.hasText

/-- Whether a node with a text says that text is written as it is. -/
def isMarked (v : Datum) : Bool :=
  hasText v && (((fieldsOf v).lookup "unsafe").map (·.truth fun _ => true)).getD false

def childrenOf (v : Datum) : List Datum := (listed? (fieldsOf v) "children").getD []

/-- The nodes of what a node holds: its children, and a record for its text. Without a text slot the
text is not looked at. -/
def below? (v : Datum) : Turn → Option Datum
  | .text => if hasText v then ((fieldsOf v).lookup "text").filter Value.isRecord else none
  | .child i => (childrenOf v)[i]?

def at? (v : Datum) : Path → Option Datum
  | [] => some v
  | turn :: rest => (below? v turn).bind (at? · rest)

/-- The node at a path below a root that holds these nodes. -/
def under? (lower : Turn → Option Datum) : Path → Option Datum
  | [] => none
  | turn :: rest => (lower turn).bind (at? · rest)

theorem at?_append (v : Datum) (p : Path) (turn : Turn) :
    at? v (p ++ [turn]) = (at? v p).bind (below? · turn) := by
  induction p generalizing v with
  | nil => simp [at?]
  | cons first p ih =>
    rw [List.cons_append, at?, at?]
    cases below? v first with
    | none => rfl
    | some w => exact ih w

/-! ## What is held -/

/-- Where a holder has what a turn leads to. A document has no text. -/
def Turn.place? : Ref → Turn → Option Forest.Place
  | holder, .child i => some (.child holder i)
  | .element id, .text => some (.text id)
  | .document _, .text => none

/-- A holder has an element where a turn leads to. -/
def Has (g : Forest) (holder : Ref) (turn : Turn) (x : ElementId) : Prop :=
  ∃ place, turn.place? holder = some place ∧ g.Stands x place

/-- A holder holds elements for these nodes, at the places that the turns lead to, and they are linked
to it. It holds no other elements, and its children are elements. -/
structure Holds (g : Forest) (holder : Ref) (lower : Turn → Option Datum) (below : Turn → Ref) :
    Prop where
  there : g.isThere holder = true
  only : ∀ w ∈ g.childrenOf holder, ∃ x, w = .ref (.element x)
  has : ∀ turn x, Has g holder turn x ↔ (lower turn).isSome = true ∧ below turn = .element x
  linked : ∀ turn, (lower turn).isSome = true → ∃ x e, below turn = .element x ∧
    g.get? x = some e ∧ e.parent = linkTo holder

/-- A holder as a node describes it. -/
structure Mirrors (g : Forest) (v : Datum) (holder : Ref) (below : Turn → Ref) : Prop extends
    Holds g holder (below? v) below where
  label : ∀ id, holder = .element id → ∃ e, g.get? id = some e ∧ kind? v = some e.kind ∧
    (e.hasText = true → e.mark = .bool (isMarked v))
  document : ∀ d, holder = .document d → kind? v = none

/-- The nodes at some paths have become elements, each its own, and these are all the elements in a
range. -/
structure Reflects (low high : Nat) (g : Forest) (here : Path → Option Datum) (made : Path → Ref) :
    Prop where
  down : ∀ p turn v, here p = some v → here (p ++ [turn]) = below? v turn
  node : ∀ p v, here p = some v → Mirrors g v (made p) fun turn => made (p ++ [turn])
  element : ∀ p, (here p).isSome = true → ∃ x, made p = .element x
  numbers : ∀ x : ElementId, low ≤ x.index ∧ x.index < high ↔
    ∃ p, (here p).isSome = true ∧ made p = .element x
  distinct : ∀ p q, (here p).isSome = true → (here q).isSome = true → made p = made q → p = q

variable {f g g' : Forest} {v : Datum} {holder : Ref} {lower : Turn → Option Datum}
  {below : Turn → Ref} {made made' : Path → Ref} {here : Path → Option Datum} {low mid high : Nat}
  {id x : ElementId} {e : Element}

/-! ## Other forests -/

theorem has_child_iff {i : Nat} : Has g holder (.child i) x ↔
    (g.childrenOf holder)[i]? = some (.ref (.element x)) := by
  simp [Has, Turn.place?, Forest.Stands]

theorem has_text_iff (there : g.get? id = some e) : Has g (.element id) .text x ↔
    e.hasText = true ∧ e.content = .ref (.element x) := by
  simp [Has, Turn.place?, Forest.Stands, there]

theorem childrenOf_of_get? (there : g.get? id = some e) : g.childrenOf (.element id) = e.children := by
  rw [Forest.childrenOf, there]
  rfl

/-- What an element has depends on its children and its text. -/
theorem has_congr {e' : Element} (there : g.get? id = some e) (there' : g'.get? id = some e')
    (children : e'.children = e.children) (slot : e'.hasText = e.hasText)
    (content : ∀ x, e'.content = .ref (.element x) ↔ e.content = .ref (.element x)) (turn : Turn)
    (x : ElementId) : Has g' (.element id) turn x ↔ Has g (.element id) turn x := by
  cases turn with
  | text => rw [has_text_iff there, has_text_iff there', slot, content]
  | child i =>
    rw [has_child_iff, has_child_iff, childrenOf_of_get? there, childrenOf_of_get? there', children]

theorem Holds.congr {e' : Element} (h : Holds g (.element id) lower below)
    (there : g.get? id = some e) (there' : g'.get? id = some e')
    (children : e'.children = e.children) (slot : e'.hasText = e.hasText)
    (content : ∀ x, e'.content = .ref (.element x) ↔ e.content = .ref (.element x))
    (kept : ∀ turn x, (lower turn).isSome = true → below turn = .element x →
      g'.get? x = g.get? x) : Holds g' (.element id) lower below := by
  refine ⟨?_, ?_, fun turn x => ?_, fun turn some => ?_⟩
  · rw [Forest.isThere, Forest.isAlive, there']
    rfl
  · have only := h.only
    rw [childrenOf_of_get? there] at only
    rw [childrenOf_of_get? there', children]
    exact only
  · rw [← h.has turn x]
    exact has_congr there there' children slot content turn x
  · obtain ⟨x, ex, hx, there, parent⟩ := h.linked turn some
    exact ⟨x, ex, hx, (kept turn x some hx).trans there, parent⟩

/-- How an element mirrors a node does not depend on its own link. -/
theorem Mirrors.congr (h : Mirrors g v (.element id) below)
    (same : ∃ e parent, g.get? id = some e ∧ g'.get? id = some { e with parent })
    (kept : ∀ turn x, (below? v turn).isSome = true → below turn = .element x →
      g'.get? x = g.get? x) : Mirrors g' v (.element id) below := by
  obtain ⟨e, parent, he, he'⟩ := same
  refine ⟨h.toHolds.congr he he' rfl rfl (fun _ => Iff.rfl) kept, fun id' hid => ?_,
    fun d h => nomatch h⟩
  obtain rfl := Ref.element.inj hid
  obtain ⟨e1, he1, kind, mark⟩ := h.label id rfl
  obtain rfl : e = e1 := Option.some.inj (he.symm.trans he1)
  exact ⟨_, he', kind, mark⟩

theorem isSome_of_eq {p : Path} {w : Datum} (hp : here p = some w) : (here p).isSome = true := by
  rw [hp]
  rfl

theorem Reflects.congr (h : Reflects low high g here made)
    (same : ∀ x : ElementId, low ≤ x.index → x.index < high → g'.get? x = g.get? x) :
    Reflects low high g' here made := by
  refine ⟨h.down, fun p v hv => ?_, h.element, h.numbers, h.distinct⟩
  have kept {p : Path} {x : ElementId} (some : (here p).isSome = true) (hx : made p = .element x) :
      g'.get? x = g.get? x := by
    obtain ⟨low, high⟩ := (h.numbers x).2 ⟨p, some, hx⟩
    exact same x low high
  have some := isSome_of_eq hv
  obtain ⟨id, hid⟩ := h.element p some
  have mirrors := h.node p v hv
  rw [hid] at mirrors ⊢
  obtain ⟨e, he, -⟩ := mirrors.label id rfl
  refine mirrors.congr ⟨e, e.parent, he, (kept some hid).trans he⟩ fun turn x more hx => ?_
  exact kept (by rw [h.down p turn v hv, more]) hx

/-- Another link of the root makes no difference to what stands below it. -/
theorem Reflects.relink (h : Reflects low high g (at? v) made) (root : made [] = .element x)
    (hx : g.get? x = some e) (parent : ParentLink) (hx' : g'.get? x = some { e with parent })
    (same : ∀ y : ElementId, y ≠ x → low ≤ y.index → y.index < high → g'.get? y = g.get? y) :
    Reflects low high g' (at? v) made := by
  refine ⟨h.down, fun p n hn => ?_, h.element, h.numbers, h.distinct⟩
  have kept {p : Path} {y : ElementId} (hp : p ≠ []) (there : (at? v p).isSome = true)
      (hy : made p = .element y) : g'.get? y = g.get? y := by
    obtain ⟨low, high⟩ := (h.numbers y).2 ⟨p, there, hy⟩
    refine same y ?_ low high
    rintro rfl
    exact hp (h.distinct p [] there rfl (hy.trans root.symm))
  obtain ⟨id, hid⟩ := h.element p (isSome_of_eq hn)
  have mirrors := h.node p n hn
  rw [hid] at mirrors ⊢
  obtain ⟨e', he', -⟩ := mirrors.label id rfl
  refine mirrors.congr ?_ fun turn y more hy => ?_
  · by_cases hp : p = []
    · subst hp
      obtain rfl := Ref.element.inj (hid.symm.trans root)
      exact ⟨e, parent, hx, hx'⟩
    · exact ⟨e', e'.parent, he', (kept hp (isSome_of_eq hn) hid).trans he'⟩
  · exact kept (by simp) (by rw [h.down p turn n hn, more]) hy

/-! ## One more tree -/

/-- The nodes below a holder with one more. -/
def placed (lower : Turn → Option Datum) (turn : Turn) (v : Datum) : Turn → Option Datum :=
  fun other => if other = turn then some v else lower other

/-- What the nodes become, with one more tree. -/
def grafted (made : Path → Ref) (turn : Turn) (made' : Path → Ref) : Path → Ref
  | [] => made []
  | other :: rest => if other = turn then made' rest else made (other :: rest)

section
variable {turn other : Turn} {rest p : Path} {w : Datum}

theorem under?_placed_self : under? (placed lower turn v) (turn :: rest) = at? v rest := by
  simp [under?, placed]

theorem under?_placed_of_ne (hne : other ≠ turn) :
    under? (placed lower turn v) (other :: rest) = under? lower (other :: rest) := by
  simp [under?, placed, hne]

theorem grafted_self : grafted made turn made' (turn :: rest) = made' rest := by simp [grafted]

theorem grafted_of_ne (hne : other ≠ turn) :
    grafted made turn made' (other :: rest) = made (other :: rest) := by simp [grafted, hne]

/-- A path leads into the new tree or past it. -/
theorem under?_placed_eq_some (h : under? (placed lower turn v) p = some w) :
    (∃ rest, p = turn :: rest ∧ at? v rest = some w) ∨
      ∃ other rest, p = other :: rest ∧ other ≠ turn ∧ under? lower (other :: rest) = some w := by
  cases p with
  | nil => cases h
  | cons other rest =>
    by_cases hne : other = turn
    · subst hne
      exact .inl ⟨rest, rfl, under?_placed_self.symm.trans h⟩
    · exact .inr ⟨other, rest, rfl, hne, (under?_placed_of_ne hne).symm.trans h⟩

end

theorem reflects_none (low : Nat) (g : Forest) (made : Path → Ref) :
    Reflects low low g (under? fun _ => none) made := by
  have none (p : Path) : under? (fun _ => none) p = none := by cases p <;> rfl
  refine ⟨fun p turn v hv => ?_, fun p v hv => ?_, fun p hp => ?_, fun x => ⟨fun h => ?_, ?_⟩,
    fun p q hp => ?_⟩
  · rw [none] at hv
    cases hv
  · rw [none] at hv
    cases hv
  · rw [none] at hp
    cases hp
  · omega
  · rintro ⟨p, hp, -⟩
    rw [none] at hp
    cases hp
  · rw [none] at hp
    cases hp

section
variable {turn : Turn} (first : Reflects low mid g (under? lower) made)
  (second : Reflects mid high g (at? v) made')
include first second

/-- The elements of the two parts have other numbers. -/
theorem Reflects.apart {p q : Path} (hp : (under? lower p).isSome = true)
    (hq : (at? v q).isSome = true) : made p ≠ made' q := by
  intro same
  obtain ⟨x, hx⟩ := second.element q hq
  have hfirst := (first.numbers x).2 ⟨p, hp, same.trans hx⟩
  have hsecond := (second.numbers x).2 ⟨q, hq, hx⟩
  omega

theorem Reflects.numbers_add (free : lower turn = none) (hlow : low ≤ mid) (hhigh : mid ≤ high)
    (x : ElementId) : low ≤ x.index ∧ x.index < high ↔
      ∃ p, (under? (placed lower turn v) p).isSome = true ∧ grafted made turn made' p = .element x := by
  constructor
  · rintro ⟨above, under⟩
    by_cases hmid : x.index < mid
    · obtain ⟨p, hp, hx⟩ := (first.numbers x).1 ⟨above, hmid⟩
      cases p with
      | nil => cases hp
      | cons other rest =>
        have hne : other ≠ turn := by
          rintro rfl
          rw [under?, free] at hp
          cases hp
        exact ⟨other :: rest, by rwa [under?_placed_of_ne hne], by rwa [grafted_of_ne hne]⟩
    · obtain ⟨q, hq, hx⟩ := (second.numbers x).1 ⟨Nat.le_of_not_lt hmid, under⟩
      exact ⟨turn :: q, by rwa [under?_placed_self], by rwa [grafted_self]⟩
  · rintro ⟨p, hp, hx⟩
    obtain ⟨w, hw⟩ := Option.isSome_iff_exists.1 hp
    obtain ⟨rest, rfl, new⟩ | ⟨other, rest, rfl, hne, old⟩ := under?_placed_eq_some hw
    · rw [grafted_self] at hx
      have hrange := (second.numbers x).2 ⟨rest, isSome_of_eq new, hx⟩
      omega
    · rw [grafted_of_ne hne] at hx
      have hrange := (first.numbers x).2 ⟨_, isSome_of_eq old, hx⟩
      omega

theorem Reflects.distinct_add {p q : Path} (hp : (under? (placed lower turn v) p).isSome = true)
    (hq : (under? (placed lower turn v) q).isSome = true)
    (same : grafted made turn made' p = grafted made turn made' q) : p = q := by
  obtain ⟨w, hw⟩ := Option.isSome_iff_exists.1 hp
  obtain ⟨w', hw'⟩ := Option.isSome_iff_exists.1 hq
  obtain ⟨rest, rfl, new⟩ | ⟨other, rest, rfl, hne, old⟩ := under?_placed_eq_some hw <;>
    obtain ⟨rest', rfl, new'⟩ | ⟨other', rest', rfl, hne', old'⟩ := under?_placed_eq_some hw'
  · rw [grafted_self, grafted_self] at same
    rw [second.distinct rest rest' (isSome_of_eq new) (isSome_of_eq new') same]
  · rw [grafted_self, grafted_of_ne hne'] at same
    exact absurd same.symm (first.apart second (isSome_of_eq old') (isSome_of_eq new))
  · rw [grafted_of_ne hne, grafted_self] at same
    exact absurd same (first.apart second (isSome_of_eq old) (isSome_of_eq new'))
  · rw [grafted_of_ne hne, grafted_of_ne hne'] at same
    exact first.distinct _ _ (isSome_of_eq old) (isSome_of_eq old') same

theorem Reflects.add (free : lower turn = none) (hlow : low ≤ mid) (hhigh : mid ≤ high) :
    Reflects low high g (under? (placed lower turn v)) (grafted made turn made') := by
  refine ⟨fun p next w hw => ?_, fun p w hw => ?_, fun p hp => ?_,
    first.numbers_add second free hlow hhigh, fun p q => first.distinct_add second⟩
  · obtain ⟨rest, rfl, new⟩ | ⟨other, rest, rfl, hne, old⟩ := under?_placed_eq_some hw
    · exact under?_placed_self.trans (second.down rest next w new)
    · exact (under?_placed_of_ne hne).trans (first.down _ next w old)
  · obtain ⟨rest, rfl, new⟩ | ⟨other, rest, rfl, hne, old⟩ := under?_placed_eq_some hw
    · simpa only [List.cons_append, grafted_self] using second.node rest w new
    · simpa only [List.cons_append, grafted_of_ne hne] using first.node _ w old
  · obtain ⟨w, hw⟩ := Option.isSome_iff_exists.1 hp
    obtain ⟨rest, rfl, new⟩ | ⟨other, rest, rfl, hne, old⟩ := under?_placed_eq_some hw
    · rw [grafted_self]
      exact second.element rest (isSome_of_eq new)
    · rw [grafted_of_ne hne]
      exact first.element _ (isSome_of_eq old)

end

/-! ## Holders that grow -/

/-- Nothing that the first forest has room for is another in the second, apart from a holder. -/
structure GrowsAt (f g : Forest) (holder : Ref) : Prop where
  size : f.elements.size ≤ g.elements.size
  same : ∀ id : ElementId, id.index < f.elements.size → holder ≠ .element id → g.get? id = f.get? id
  roots : ∀ d, holder ≠ .document d → g.roots? d = f.roots? d

/-- A holder with what it holds so far. The elements below it are all that are new from a number on. -/
structure Grown (f g : Forest) (low : Nat) (holder : Ref) (lower : Turn → Option Datum)
    (made : Path → Ref) : Prop where
  grows : GrowsAt f g holder
  holds : Holds g holder lower fun turn => made [turn]
  trees : Reflects low g.elements.size g (under? lower) made
  low_le : low ≤ g.elements.size
  older : ∀ id, holder = .element id → id.index < low

/-- An element is put below a holder, where nothing was. -/
structure Hung (g g' : Forest) (holder : Ref) (turn : Turn) (x : ElementId) : Prop where
  size : g'.elements.size = g.elements.size
  there : g'.isThere holder = true
  moved : ∃ e, g.get? x = some e ∧ g'.get? x = some { e with parent := linkTo holder }
  same : ∀ y, holder ≠ .element y → y ≠ x → g'.get? y = g.get? y
  roots : ∀ d, holder ≠ .document d → g'.roots? d = g.roots? d
  only : ∀ w ∈ g'.childrenOf holder, w = .ref (.element x) ∨ w ∈ g.childrenOf holder
  has : ∀ other y, Has g' holder other y ↔ if other = turn then y = x else Has g holder other y

/-- A tree of new elements below an element without a parent. -/
structure Sprouted (f g : Forest) (v : Datum) (x : ElementId) (made : Path → Ref) : Prop where
  grows : f.Grows g
  trees : Reflects f.elements.size g.elements.size g (at? v) made
  root : made [] = .element x
  unlinked : ∃ e, g.get? x = some e ∧ e.parent = .absent

theorem has_grows (grows : g.Grows g') (there : g.isThere holder = true) (turn : Turn)
    (x : ElementId) : Has g' holder turn x ↔ Has g holder turn x := by
  cases turn with
  | child i => rw [has_child_iff, has_child_iff, grows.childrenOf there]
  | text =>
    cases holder with
    | element id =>
      obtain ⟨e, he⟩ := Option.isSome_iff_exists.1 there
      have he' := (grows.same id (Forest.index_lt he)).trans he
      rw [has_text_iff he, has_text_iff he']
    | document d => simp [Has, Turn.place?]

theorem Sprouted.new (sprouted : Sprouted f g v x made) :
    f.elements.size ≤ x.index ∧ x.index < g.elements.size :=
  (sprouted.trees.numbers x).2 ⟨[], rfl, sprouted.root⟩

theorem Grown.new (grown : Grown f g low holder lower made) {turn : Turn} {y : ElementId}
    (some : (lower turn).isSome = true) (hy : made [turn] = .element y) :
    low ≤ y.index ∧ y.index < g.elements.size ∧ holder ≠ .element y := by
  have there : (under? lower [turn]).isSome = true := by
    obtain ⟨w, hw⟩ := Option.isSome_iff_exists.1 some
    rw [under?, hw]
    rfl
  obtain ⟨hlow, hhigh⟩ := (grown.trees.numbers y).2 ⟨[turn], there, hy⟩
  refine ⟨hlow, hhigh, fun h => ?_⟩
  have holder := grown.older y h
  omega

theorem Grown.hang (grown : Grown f g low holder lower made) {g1 g2 : Forest}
    (sprouted : Sprouted g g1 v x made') {turn : Turn} (hung : Hung g1 g2 holder turn x)
    (free : lower turn = none) :
    Grown f g2 low holder (placed lower turn v) (grafted made turn made') := by
  obtain ⟨new, bound⟩ := sprouted.new
  have size : g.elements.size ≤ g2.elements.size := hung.size ▸ sprouted.grows.size
  have kept {y : ElementId} (old : y.index < g.elements.size) (hne : holder ≠ .element y) :
      g2.get? y = g.get? y := by
    refine (hung.same y hne ?_).trans (sprouted.grows.same y old)
    rintro rfl
    omega
  have first : Reflects low g.elements.size g2 (under? lower) made := by
    refine grown.trees.congr fun y hlow hhigh => kept hhigh fun h => ?_
    have holder := grown.older y h
    omega
  have second : Reflects g.elements.size g2.elements.size g2 (at? v) made' := by
    obtain ⟨e, he, he'⟩ := hung.moved
    rw [hung.size]
    refine sprouted.trees.relink sprouted.root he _ he' fun y hne hlow hhigh => ?_
    refine hung.same y (fun h => ?_) hne
    have holder := grown.older y h
    have hle := grown.low_le
    omega
  refine ⟨⟨Nat.le_trans grown.grows.size size, fun y hy hne => ?_, fun d hd => ?_⟩,
    ⟨hung.there, fun w hw => ?_, fun other y => ?_, fun other some => ?_⟩,
    first.add second free grown.low_le size, Nat.le_trans grown.low_le size, grown.older⟩
  · exact (kept (Nat.lt_of_lt_of_le hy grown.grows.size) hne).trans (grown.grows.same y hy hne)
  · exact ((hung.roots d hd).trans (sprouted.grows.roots d)).trans (grown.grows.roots d hd)
  · obtain rfl | old := hung.only w hw
    · exact ⟨x, rfl⟩
    · rw [sprouted.grows.childrenOf grown.holds.there] at old
      exact grown.holds.only w old
  · rw [hung.has, has_grows sprouted.grows grown.holds.there, grown.holds.has]
    by_cases hne : other = turn
    · simp [hne, placed, grafted, sprouted.root, eq_comm]
    · simp [hne, placed, grafted]
  · by_cases hne : other = turn
    · obtain ⟨e, he, he'⟩ := hung.moved
      exact ⟨x, _, by simp [hne, grafted, sprouted.root], he', rfl⟩
    · rw [placed, if_neg hne] at some
      obtain ⟨y, e, hy, he, parent⟩ := grown.holds.linked other some
      obtain ⟨-, old, other⟩ := grown.new some hy
      exact ⟨y, e, by simp [hne, grafted, hy], (kept old other).trans he, parent⟩

/-! ## Attaching and filling -/

theorem getElem?_concat_eq_some_iff {α : Type} {l : List α} {a b : α} {i : Nat} :
    (l ++ [a])[i]? = some b ↔ if i = l.length then b = a else l[i]? = some b := by
  split
  next h =>
    subst h
    rw [List.getElem?_concat_length, Option.some.injEq, eq_comm]
  next h =>
    obtain hlt | hgt := Nat.lt_or_gt_of_ne h
    · rw [List.getElem?_append_left hlt]
    · have hlength : (l ++ [a]).length ≤ i := by
        rw [List.length_append]
        exact hgt
      rw [List.getElem?_eq_none hlength, List.getElem?_eq_none (Nat.le_of_lt hgt)]

/-- An element that is linked already comes last among the children. -/
theorem hung_append (there : g.isThere holder = true) (hx : g.get? x = some e)
    (hne : holder ≠ .element x) {l : Forest} (size : l.elements.size = g.elements.size)
    (moved : l.get? x = some { e with parent := linkTo holder })
    (same : ∀ y, y ≠ x → l.get? y = g.get? y) (roots : ∀ d, l.roots? d = g.roots? d) :
    Hung g (l.setChildren holder (g.childrenOf holder ++ [.ref (.element x)])) holder
      (.child (g.childrenOf holder).length) x := by
  have there' : l.isThere holder = true := by
    cases holder with
    | element id =>
      rw [Forest.isThere, Forest.isAlive, same id fun h => hne (h ▸ rfl)]
      exact there
    | document d =>
      rw [Forest.isThere, roots]
      exact there
  have children := Forest.childrenOf_setChildren there' (g.childrenOf holder ++ [.ref (.element x)])
  refine ⟨(Forest.size_setChildren ..).trans size, Forest.isThere_setChildren there' _,
    ⟨e, hx, ?_⟩, fun y hy hne' => ?_, fun d hd => ?_, fun w hw => ?_, fun turn y => ?_⟩
  · rw [Forest.get?_setChildren_of_ne hne, moved]
  · rw [Forest.get?_setChildren_of_ne hy, same y hne']
  · cases holder with
    | element id => exact roots d
    | document d' =>
      rw [Forest.roots?_setChildren, if_neg fun h : d = d' => hd (by rw [h]), roots]
  · rw [children] at hw
    obtain old | new := List.mem_append.1 hw
    · exact .inr old
    · exact .inl (List.mem_singleton.1 new)
  · cases turn with
    | child i =>
      rw [has_child_iff, has_child_iff, children, getElem?_concat_eq_some_iff]
      simp
    | text =>
      cases holder with
      | document d => simp [Has, Turn.place?]
      | element id =>
        obtain ⟨e, he⟩ := Option.isSome_iff_exists.1 there
        have he' : (l.setChildren (.element id) (g.childrenOf (.element id) ++ [.ref (.element x)])).get?
            id = some { e with children := g.childrenOf (.element id) ++ [.ref (.element x)] } := by
          rw [Forest.get?_setChildren_element, if_pos rfl, same id fun h => hne (h ▸ rfl), he]
          rfl
        rw [has_text_iff he', has_text_iff he, if_neg (by simp)]
        rfl

theorem hung_attach (there : g.isThere holder = true) (hx : g.get? x = some e)
    (unlinked : e.parent = .absent) (hne : holder ≠ .element x) :
    Hung g (g.attach holder (.ref (.element x))) holder (.child (g.childrenOf holder).length) x := by
  cases holder with
  | element id =>
    have same (y : ElementId) (hy : y ≠ x) : (g.setParent x (.element id)).get? y = g.get? y := by
      rw [Forest.get?_setParent, if_neg hy]
    have children : (g.setParent x (.element id)).childrenOf (.element id) =
        g.childrenOf (.element id) := by
      rw [Forest.childrenOf, Forest.childrenOf, same id fun h => hne (h ▸ rfl)]
    rw [Forest.attach, Forest.add, children]
    refine hung_append there hx hne (Forest.size_setParent ..) ?_ same fun _ => rfl
    rw [Forest.get?_setParent, if_pos rfl, hx]
    rfl
  | document d =>
    refine hung_append there hx hne rfl ?_ (fun _ _ => rfl) fun _ => rfl
    rw [hx, linkTo, ← unlinked]

theorem get?_setContent_held (there : g.get? id = some e) (slot : e.hasText = true)
    (empty : e.children = []) (hne : x ≠ id) :
    (g.setContent id (.ref (.element x))).get? id =
      some { e.filled (.ref (.element x)) with children := [] } := by
  have filled := Forest.growsBut_update there (·.filled (.ref (.element x)))
  rw [Forest.setContent_of_childless there slot empty, Forest.get?_setParent, if_neg hne.symm]
  exact (Forest.growsBut_update filled.here ({ · with children := [] })).here

/-- Filling the text slot of an element without children. -/
theorem hung_setContent (there : g.get? id = some e) (slot : e.hasText = true)
    (empty : e.children = []) {ex : Element} (hx : g.get? x = some ex) (hne : x ≠ id) :
    Hung g (g.setContent id (.ref (.element x))) (.element id) .text x := by
  have size : (g.setContent id (.ref (.element x))).elements.size = g.elements.size := by
    rw [Forest.setContent_of_childless there slot empty, Forest.size_setParent,
      Forest.size_update, Forest.size_update]
  have same (y : ElementId) (hy : y ≠ x) (hy' : y ≠ id) :
      (g.setContent id (.ref (.element x))).get? y = g.get? y := by
    rw [Forest.setContent_of_childless there slot empty, Forest.get?_setParent, if_neg hy,
      Forest.get?_update, if_neg hy', Forest.get?_update, if_neg hy']
  have here := get?_setContent_held there slot empty hne
  have moved : (g.setContent id (.ref (.element x))).get? x =
      some { ex with parent := .element id } := by
    rw [Forest.setContent_of_childless there slot empty, Forest.get?_setParent, if_pos rfl,
      Forest.get?_update, if_neg hne, Forest.get?_update, if_neg hne, hx]
    rfl
  refine ⟨size, ?_, ⟨ex, hx, moved⟩, fun y hy hy' => same y hy' fun h => hy (h ▸ rfl), fun d _ => ?_,
    fun w hw => ?_, fun turn y => ?_⟩
  · rw [Forest.isThere, Forest.isAlive, here]
    rfl
  · rw [Forest.setContent_of_childless there slot empty]
    rfl
  · rw [childrenOf_of_get? here] at hw
    cases hw
  · cases turn with
    | child i =>
      rw [has_child_iff, has_child_iff, childrenOf_of_get? here, childrenOf_of_get? there, empty,
        if_neg (by simp)]
    | text =>
      rw [has_text_iff here, if_pos rfl]
      show e.hasText = true ∧ Value.ref (Ref.element x) = .ref (.element y) ↔ y = x
      simp [slot, eq_comm]

/-- A holder without anything, which is new itself if it is an element. -/
theorem grown_nothing (grows : GrowsAt f g holder) (there : g.isThere holder = true)
    (childless : g.childrenOf holder = []) (textless : ∀ x, ¬ Has g holder .text x)
    (older : ∀ id, holder = .element id → id.index < g.elements.size) (made : Path → Ref) :
    Grown f g g.elements.size holder (fun _ => none) made where
  grows := grows
  holds := by
    refine ⟨there, fun w hw => ?_, fun turn x => ⟨fun h => ?_, fun h => nomatch h.1⟩,
      fun _ h => nomatch h⟩
    · rw [childless] at hw
      cases hw
    · cases turn with
      | text => exact absurd h (textless x)
      | child i =>
        rw [has_child_iff, childless] at h
        cases h
  trees := reflects_none _ g made
  low_le := Nat.le_refl _
  older := older

/-- A holder that changes otherwise. -/
theorem Grown.retouch {g' : Forest} {e' : Element}
    (grown : Grown f g low (.element id) lower made) (there : g.get? id = some e)
    (but : g.GrowsBut g' id e') (size : g'.elements.size = g.elements.size)
    (children : e'.children = e.children) (slot : e'.hasText = e.hasText)
    (content : ∀ x, e'.content = .ref (.element x) ↔ e.content = .ref (.element x)) :
    Grown f g' low (.element id) lower made := by
  have kept {y : ElementId} (hy : y.index < g.elements.size) (hne : (.element id : Ref) ≠ .element y) :
      g'.get? y = g.get? y := but.same y hy fun h => hne (h ▸ rfl)
  refine ⟨⟨size ▸ grown.grows.size, fun y hy hne => ?_, fun d hd => ?_⟩,
    grown.holds.congr there but.here children slot content fun turn y some hy => ?_, ?_,
    size ▸ grown.low_le, grown.older⟩
  · exact (kept (Nat.lt_of_lt_of_le hy grown.grows.size) hne).trans (grown.grows.same y hy hne)
  · exact (but.roots d).trans (grown.grows.roots d hd)
  · obtain ⟨-, bound, other⟩ := grown.new some hy
    exact kept bound other
  · rw [size]
    refine grown.trees.congr fun y hlow hhigh => kept hhigh fun h => ?_
    have older := grown.older y h
    omega

end Hypertext.Payload
