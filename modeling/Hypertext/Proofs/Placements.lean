import Hypertext.Proofs.Linking
import Hypertext.Proofs.Upkeep

/-! Elements that become the text of another one. An element can stand more than once among the
children of another: attaching it appends it however often it is there, and one occurrence alone is
taken out, by hand or on the way into the text slot. So what was a child once is no child of the
element whose text it is, and what was a child more often still is one. The main statement is
`text_leaves_other_placements`. -/
namespace Hypertext
set_option autoImplicit false

/-- How often `x` stands among the children of `id` after a change, if it stood there `n` times. -/
def Operation.placements (f : Forest) (id x : ElementId) (n : Nat) : Operation → Nat
  | create kind tag => if (f.insert { kind, tag }).1 = id then 0 else n
  | add holder child | attach holder child =>
    if holder = .element id ∧ child = .ref (.element x) then n + 1 else n
  | remove holder child => if holder = .element id ∧ child = .ref (.element x) then n - 1 else n
  | setText target content =>
    if f.hasText id ∧ target = id ∧ content = .ref (.element x) then n - 1 else n
  | createDocument | setMark .. | setProperty .. | setParent .. | rewrite .. | askStyle _ => n

namespace Forest

variable {f g : Forest} {log : LinkLog} {id x : ElementId} {n : Nat}

/-- A forest that changes have led to, with how often `x` was placed among the children of `id`. -/
inductive Placed (id x : ElementId) : Nat → Forest → Prop where
  | start : Placed id x 0 {}
  | step {n : Nat} {f : Forest} (op : Operation) (before : Placed id x n f) :
    Placed id x (op.placements f id x n) (op.apply f)
  | pruned {n : Nat} {f g : Forest} {roots : List Ref} (before : Placed id x n f)
    (pruned : f.Pruned g roots) : Placed id x n g

/-- Every history places an element somehow often. -/
theorem Reached.exists_placed (reached : Reached log f) (id x : ElementId) :
    ∃ n, Placed id x n f := by
  induction reached with
  | start => exact ⟨0, .start⟩
  | step op _ ih =>
    obtain ⟨n, placed⟩ := ih
    exact ⟨_, placed.step op⟩
  | pruned _ pruned ih =>
    obtain ⟨n, placed⟩ := ih
    exact ⟨n, placed.pruned pruned⟩

/-! ## Children after a change -/

/-- Without a text slot, or with another value, the children stay. -/
theorem childrenOf_setContent {target : ElementId} {content : Datum}
    (other : f.hasText target = true → ∀ y, content ≠ .ref (.element y)) (h : Ref) :
    (f.setContent target content).childrenOf h = f.childrenOf h := by
  rw [setContent]
  split
  next slot =>
    have same := childrenOf_update f target ({ · with content, mark := .bool false })
      (fun _ => rfl) h
    cases content with
    | ref r =>
      cases r with
      | element y => exact absurd rfl (other slot y)
      | document _ => exact same
    | scalar _ | list _ | record _ | renderer _ _ _ | made _ _ => exact same
  next => exact childrenOf_update f target ({ · with content }) (fun _ => rfl) h

/-! ## Counting -/

/-- How often `x` stands among the children of `id`, if that is there. -/
def Counts (f : Forest) (id x : ElementId) (n : Nat) : Prop :=
  f.isThere (.element id) = true →
    (f.childrenOf (.element id)).count (.ref (.element x)) = n

theorem count_appended (children : List Datum) (v child : Datum) :
    (children ++ [child]).count v =
      if child = v then children.count v + 1 else children.count v := by
  rw [List.count_append, List.count_singleton]
  split
  next same => simp [beq_iff_eq.1 same]
  next other => simp [beq_iff_eq.not.1 other]

theorem count_erased (children : List Datum) (v child : Datum) :
    (children.erase child).count v =
      if child = v then children.count v - 1 else children.count v := by
  split
  next same => rw [same, List.count_erase_self]
  next other => exact List.count_erase_of_ne (Ne.symm other)

theorem isAlive_setChildren (f : Forest) (holder : Ref) (children : List Datum) (y : ElementId) :
    (f.setChildren holder children).isAlive y = f.isAlive y := by
  cases holder with
  | element target => exact isAlive_update f target y _
  | document d => rfl

theorem isAlive_attach (f : Forest) (holder : Ref) (child : Datum) (y : ElementId) :
    (f.attach holder child).isAlive y = f.isAlive y := by
  match holder, child with
  | .element id, .ref (.element held) =>
    exact (isAlive_setChildren _ _ _ y).trans (isAlive_update f held y _)
  | .element _, .ref (.document _) | .element _, .scalar _ | .element _, .list _
  | .element _, .record _ | .element _, .renderer .. | .element _, .made .. | .document _, _ =>
    exact isAlive_setChildren f _ _ y

theorem isAlive_setContent (f : Forest) (target : ElementId) (content : Datum) (y : ElementId) :
    (f.setContent target content).isAlive y = f.isAlive y := by
  rw [setContent]
  split
  next =>
    have filled := isAlive_update f target y ({ · with content, mark := .bool false })
    cases content with
    | ref r =>
      cases r with
      | element held =>
        exact (isAlive_update _ held y _).trans ((isAlive_setChildren _ _ _ y).trans filled)
      | document _ => exact filled
    | scalar _ | list _ | record _ | renderer _ _ _ | made _ _ => exact filled
  next => exact isAlive_update f target y _

theorem Counts.same (counts : f.Counts id x n) (alive : g.isAlive id = f.isAlive id)
    (children : g.childrenOf (.element id) = f.childrenOf (.element id)) : g.Counts id x n := by
  intro there
  rw [children]
  exact counts (alive.symm.trans there)

/-- A text slot takes out one occurrence of the element that goes into it. -/
theorem Counts.setContent (counts : f.Counts id x n) (target : ElementId) (content : Datum) :
    (f.setContent target content).Counts id x
      ((Operation.setText target content).placements f id x n) := by
  have alive := isAlive_setContent f target content id
  rw [Operation.placements]
  by_cases moves : f.hasText target = true ∧ ∃ y, content = .ref (.element y)
  · obtain ⟨slot, y, rfl⟩ := moves
    intro there
    have count := counts (alive.symm.trans there)
    rw [childrenOf_move slot]
    by_cases here : target = id
    · subst here
      rw [if_pos rfl, count_erased, count]
      simp only [slot, true_and]
    · rw [if_neg fun same => here (Ref.element.inj same).symm, if_neg fun same => here same.2.1]
      exact count
  · rw [if_neg]
    · refine counts.same alive (childrenOf_setContent (fun slot y same => ?_) _)
      exact moves ⟨slot, y, same⟩
    · rintro ⟨slot, rfl, rfl⟩
      exact moves ⟨slot, x, rfl⟩

/-- A change counts what it does to the children. A new element has none; no other change makes an
element that was not there. -/
theorem Counts.apply (counts : f.Counts id x n) (op : Operation) :
    (op.apply f).Counts id x (op.placements f id x n) := by
  intro there
  have holds : f.isAlive id = true → ∀ {holder : Ref}, holder = .element id →
      f.isThere holder = true := by
    rintro alive _ rfl
    exact alive
  cases op with
  | create kind tag =>
    rw [Operation.placements]
    split
    next new =>
      have made : (f.insert { kind, tag }).2.get? id = some { kind, tag } := by
        rw [get?_insert, if_pos new.symm]
      rw [Operation.apply, childrenOf, made]
      rfl
    next old =>
      have same : (f.insert { kind, tag }).2.get? id = f.get? id := by
        rw [get?_insert, if_neg (Ne.symm old)]
      rw [Operation.apply, isThere, isAlive, same] at there
      rw [Operation.apply, childrenOf, same]
      exact counts there
  | createDocument => exact counts there
  | add holder child =>
    have old := (isAlive_setChildren f _ _ id).symm.trans there
    have children := childrenOf_edited holder (.element id) (holds old) (· ++ [child])
    rw [Operation.placements, ite_and, ← counts old, ← count_appended, ← apply_ite (List.count _)]
    exact congrArg _ children
  | attach holder child =>
    have old := (isAlive_attach f holder child id).symm.trans there
    have children := childrenOf_attach holder (.element id) (holds old) child
    rw [Operation.placements, ite_and, ← counts old, ← count_appended, ← apply_ite (List.count _)]
    exact congrArg _ children
  | remove holder child =>
    have old := (isAlive_setChildren f _ _ id).symm.trans there
    have children := childrenOf_edited holder (.element id) (holds old) (·.erase child)
    rw [Operation.placements, ite_and, ← counts old, ← count_erased, ← apply_ite (List.count _)]
    exact congrArg _ children
  | setText target content => exact counts.setContent target content there
  | setMark target mark =>
    have children := (f.sameShape_setMark target mark).childrenOf (.element id)
    exact counts.same (isAlive_update f target id _) children there
  | setProperty target p value =>
    have shape := f.sameShape_setProperty target p value
    exact counts.same (shape.changed.isThere (.element id)) (shape.childrenOf _) there
  | setParent target link =>
    have children := childrenOf_setParent f target link (.element id)
    exact counts.same (isAlive_update f target id _) children there
  | rewrite target change =>
    have children := childrenOf_update f target
      ({ · with attributes := change (f.attributesOf target) }) (fun _ => rfl) (.element id)
    exact counts.same (isAlive_update f target id _) children there
  | askStyle target =>
    have children := childrenOf_update f target ({ · with styled := true }) (fun _ => rfl)
      (.element id)
    exact counts.same (isAlive_update f target id _) children there

theorem Placed.counts (placed : Placed id x n f) : f.Counts id x n := by
  induction placed with
  | start =>
    intro there
    cases there
  | step op _ ih => exact ih.apply op
  | pruned _ pruned ih =>
    intro there
    rw [pruned.childrenOf there]
    exact ih (pruned.there there)

/-! ## Becoming a text -/

/-- The element `y` after `x` became the text of `id`. -/
def afterMove (id x y : ElementId) (e : Element) : Element :=
  { e with
    content := if y = id then .ref (.element x) else e.content
    mark := if y = id then .bool false else e.mark
    children := if y = id then e.children.erase (.ref (.element x)) else e.children
    parent := if y = x then .element id else e.parent }

theorem get?_update_eq_map (f : Forest) (id y : ElementId) (change : Element → Element) :
    (f.update id change).get? y = (f.get? y).map fun e => if y = id then change e else e := by
  rw [get?_update]
  split
  next same =>
    subst same
    rfl
  next => exact Option.map_id.symm ▸ rfl

/-- Filling the slot, taking out and linking, seen at one element. -/
theorem get?_move (slot : f.hasText id = true) (y : ElementId) :
    (f.setContent id (.ref (.element x))).get? y = (f.get? y).map (afterMove id x y) := by
  -- the children that are edited are those of the filled element, and filling keeps them
  have children := childrenOf_update f id
    ({ · with content := .ref (.element x), mark := .bool false }) (fun _ => rfl) (.element id)
  rw [setContent_of_element slot, remove, children, setParent, setChildren, get?_update_eq_map,
    get?_update_eq_map, get?_update_eq_map, Option.map_map, Option.map_map]
  refine Option.map_congr fun e there => ?_
  by_cases here : y = id
  · have own : f.childrenOf (.element id) = e.children := by
      rw [childrenOf, ← here, there]
      rfl
    by_cases same : y = x
    · simp only [Function.comp_apply, afterMove, if_pos here, if_pos same, own]
    · simp only [Function.comp_apply, afterMove, if_pos here, if_neg same, own]
  · by_cases same : y = x
    · simp only [Function.comp_apply, afterMove, if_neg here, if_pos same]
    · simp only [Function.comp_apply, afterMove, if_neg here, if_neg same]

/-- The forest `g` after `x`, which stood `n` times among the children of `id`, became its text. -/
structure BecameText (f g : Forest) (id x : ElementId) (n : Nat) : Prop where
  placed : (f.childrenOf (.element id)).count (.ref (.element x)) = n
  text : Query.text.answer (.ref (.element id)) g = pure (.ref (.element x))
  mark : Query.mark.answer (.ref (.element id)) g = pure (.bool false)
  parent : Query.parent.answer (.ref (.element x)) g = pure (.ref (.element id))
  children : Query.children.answer (.ref (.element id)) g =
    pure (.list ((f.childrenOf (.element id)).erase (.ref (.element x))))
  /-- The other children keep their order. -/
  others : (g.childrenOf (.element id)).filter (· ≠ .ref (.element x)) =
    (f.childrenOf (.element id)).filter (· ≠ .ref (.element x))
  left : (g.childrenOf (.element id)).count (.ref (.element x)) = n - 1
  /-- It is a child as well exactly if it was placed more than once. -/
  child_iff : .ref (.element x) ∈ g.childrenOf (.element id) ↔ 2 ≤ n
  elsewhere : ∀ y, y ≠ id → y ≠ x → g.get? y = f.get? y

/-- After any history, an element that becomes the text of another is no child of it any more if it
was placed there once at most. One occurrence goes, and each further one stays. -/
theorem text_leaves_other_placements (reached : Reached log f) (slot : f.hasText id = true)
    (alive : f.isAlive x = true) : (∃ n, Placed id x n f) ∧ ∀ n, Placed id x n f →
      f.BecameText (f.setContent id (.ref (.element x))) id x n := by
  refine ⟨reached.exists_placed id x, fun n placed => ?_⟩
  obtain ⟨e, there⟩ := exists_get?_of_hasText slot
  obtain ⟨held, hheld⟩ := Option.isSome_iff_exists.1 alive
  have count := placed.counts (isThere_element.2 ⟨e, there⟩)
  have own := get?_move (x := x) slot id
  rw [there] at own
  have linked := get?_move (x := x) slot x
  rw [hheld] at linked
  have children := childrenOf_move (x := x) slot (.element id)
  rw [if_pos rfl] at children
  have left : ((f.setContent id (.ref (.element x))).childrenOf (.element id)).count
      (.ref (.element x)) = n - 1 := by
    rw [children, List.count_erase_self, count]
  exact {
    placed := count
    text := by
      rw [Query.answer, Query.subject?, own]
      exact congrArg pure (if_pos rfl)
    mark := by
      rw [Query.answer, Query.subject?, own]
      exact congrArg pure (if_pos rfl)
    parent := by
      have holder : (f.setContent id (.ref (.element x))).isAlive id = true := by
        rw [isAlive, own]
        rfl
      have link : (f.setContent id (.ref (.element x))).link x = .element id := by
        rw [link_eq_surviving linked, afterMove, if_pos rfl, surviving, if_pos holder]
      rw [Query.answer, Query.subject?, linked]
      exact congrArg (fun link => pure (Query.linkValue link)) link
    children := by
      have same : (f.setContent id (.ref (.element x))).childrenOf (.element id) =
        (afterMove id x id e).children := by
        rw [childrenOf, own]
        rfl
      rw [Query.answer, Query.subject?, own, ← children, same]
      rfl
    others := by
      have gone : .ref (.element x) ∉
          (f.childrenOf (.element id)).filter (· ≠ .ref (.element x)) := by
        simp
      rw [children, ← List.erase_filter, List.erase_of_not_mem gone]
    left
    child_iff := by
      rw [← List.count_pos_iff, left]
      omega
    elsewhere := fun y hy hx => by
      have same : ∀ e, afterMove id x y e = e := fun e => by
        simp only [afterMove, if_neg hy, if_neg hx]
      rw [get?_move slot]
      cases f.get? y with
      | none => rfl
      | some e => exact congrArg some (same e) }

/-- An element is attached to a paragraph twice. -/
def twice : List Operation :=
  [.create (.catalog .p) (.text "p"), .create (.catalog .b) (.text "b"),
    .attach (.element ⟨0⟩) (.ref (.element ⟨1⟩)), .attach (.element ⟨0⟩) (.ref (.element ⟨1⟩))]

def doubled : Forest := (change ([], {}) twice).2

/-- As the text of the paragraph it is still a child, and the paragraph shows it twice. -/
theorem text_leaves_other_placements_of_doubled :
    doubled.hasText ⟨0⟩ = true ∧ doubled.isAlive ⟨1⟩ = true ∧ Placed ⟨0⟩ ⟨1⟩ 2 doubled ∧
    doubled.BecameText (doubled.setContent ⟨0⟩ (.ref (.element ⟨1⟩))) ⟨0⟩ ⟨1⟩ 2 ∧
    (doubled.setContent ⟨0⟩ (.ref (.element ⟨1⟩))).childrenOf (.element ⟨0⟩) =
      [.ref (.element ⟨1⟩)] ∧
    ((doubled.setContent ⟨0⟩ (.ref (.element ⟨1⟩))).html ⟨0⟩).result =
      .ok "<p><b></b><b></b></p>" := by
  have placed : Placed ⟨0⟩ ⟨1⟩ 2 doubled :=
    (((Placed.start.step (.create (.catalog .p) (.text "p"))).step
      (.create (.catalog .b) (.text "b"))).step
        (.attach (.element ⟨0⟩) (.ref (.element ⟨1⟩)))).step
          (.attach (.element ⟨0⟩) (.ref (.element ⟨1⟩)))
  have became := (text_leaves_other_placements (Reached.start.change twice) rfl rfl).2 2 placed
  exact ⟨rfl, rfl, placed, became, rfl, by decide +kernel⟩

end Forest

end Hypertext
