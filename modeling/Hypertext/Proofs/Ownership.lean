import Mathlib.Data.List.Nodup
import Hypertext.Proofs.Acyclicity
import Hypertext.Proofs.Growth
import Hypertext.Proofs.Pruning

/-! Who owns whom while a tree is built. Elements are attached to older holders, each once, and some
are moved on into the text slot of their holder. What is there of a forest agrees with the list of
these deeds: an element that is held has one place, is linked to its holder and is younger than
that. -/
namespace Hypertext
set_option autoImplicit false

/-- What a step of a program does to the shape of a tree. -/
inductive Deed where
  /-- An element was attached to a holder, at the end of its scope. -/
  | attached (holder : Ref) (child : ElementId)
  /-- An element was put into the text slot of another. -/
  | moved (id child : ElementId)
  deriving DecidableEq, Repr

namespace Deed

/-- Holders and what was attached to them, in this order. -/
def attachments (deeds : List Deed) : List (Ref × ElementId) :=
  deeds.filterMap fun
    | attached holder child => some (holder, child)
    | moved _ _ => none

def movedOnes (deeds : List Deed) : List ElementId :=
  deeds.filterMap fun
    | attached _ _ => none
    | moved _ child => some child

/-- What was attached to a holder, in this order, without what was moved. -/
def built (deeds : List Deed) (holder : Ref) : List ElementId :=
  (((attachments deeds).filter (·.1 = holder)).map (·.2)).filter (· ∉ movedOnes deeds)

variable {deeds : List Deed} {holder : Ref} {x : ElementId}

theorem mem_attachments : (holder, x) ∈ attachments deeds ↔ attached holder x ∈ deeds := by
  refine List.mem_filterMap.trans ⟨?_, fun h => ⟨_, h, rfl⟩⟩
  rintro ⟨⟨h, c⟩ | _, hd, heq⟩
  · cases heq
    exact hd
  · cases heq

theorem mem_movedOnes : x ∈ movedOnes deeds ↔ ∃ id, moved id x ∈ deeds := by
  refine List.mem_filterMap.trans ⟨?_, fun ⟨id, h⟩ => ⟨_, h, rfl⟩⟩
  rintro ⟨_ | ⟨id, c⟩, hd, heq⟩
  · cases heq
  · cases heq
    exact ⟨id, hd⟩

theorem mem_built : x ∈ built deeds holder ↔
    attached holder x ∈ deeds ∧ ∀ id, moved id x ∉ deeds := by
  rw [built, List.mem_filter, decide_eq_true_iff, mem_movedOnes, not_exists, List.mem_map]
  refine and_congr_left fun _ => ⟨?_, fun h => ?_⟩
  · rintro ⟨⟨h, c⟩, hmem, rfl⟩
    obtain ⟨hmem, heq⟩ := List.mem_filter.1 hmem
    rw [← of_decide_eq_true heq]
    exact mem_attachments.1 hmem
  · exact ⟨(holder, x), List.mem_filter.2 ⟨mem_attachments.2 h, decide_eq_true rfl⟩, rfl⟩

theorem built_attached (unmoved : ∀ id, moved id x ∉ deeds) (holder other : Ref) :
    built (deeds ++ [attached holder x]) other =
      built deeds other ++ if holder = other then [x] else [] := by
  have same : movedOnes (deeds ++ [attached holder x]) = movedOnes deeds := by
    simp [movedOnes]
  have new : x ∉ movedOnes deeds := fun h => by
    obtain ⟨id, h⟩ := mem_movedOnes.1 h
    exact unmoved id h
  rw [built, built, same, attachments, List.filterMap_append, List.filter_append, List.map_append,
    List.filter_append, attachments]
  by_cases h : holder = other <;> simp [h, new]

theorem built_moved (id : ElementId) (holder : Ref) :
    built (deeds ++ [moved id x]) holder = (built deeds holder).filter (· ≠ x) := by
  have same : attachments (deeds ++ [moved id x]) = attachments deeds := by
    simp [attachments]
  have more : movedOnes (deeds ++ [moved id x]) = movedOnes deeds ++ [x] := by
    simp [movedOnes]
  rw [built, built, same, more, List.filter_filter]
  refine List.filter_congr fun y _ => ?_
  simp [and_comm]

end Deed

namespace Forest

open Deed

variable {f g : Forest} {deeds : List Deed} {pending : List ElementId}

/-! ## Agreement -/

/-- There is, or was, such an element or document. -/
def HasRoom (f : Forest) : Ref → Prop
  | .element id => id.index < f.elements.size
  | .document d => d.index < f.documents.size

/-- Each element is attached once, to an older holder, before it is moved there. -/
structure Logged (f : Forest) (deeds : List Deed) : Prop where
  once : ((attachments deeds).map (·.2)).Nodup
  older : ∀ id x, attached (.element id) x ∈ deeds → id.index < x.index
  moved : ∀ id x, Deed.moved id x ∈ deeds → attached (.element id) x ∈ deeds
  holder : ∀ h x, attached h x ∈ deeds → f.HasRoom h
  child : ∀ h x, attached h x ∈ deeds → x.index < f.elements.size

/-- A forest agrees with what was done to build it, while some elements are not attached yet. -/
structure Orderly (f : Forest) (deeds : List Deed) (pending : List ElementId) : Prop where
  logged : f.Logged deeds
  children : ∀ h, f.isThere h = true →
    f.childrenOf h = (built deeds h).map (.ref <| .element ·)
  linked : ∀ h x, f.isThere h = true → x ∈ built deeds h →
    ∃ e, f.get? x = some e ∧ e.parent = linkTo h
  tag : ∀ id e, f.get? id = some e → e.tag.ref? = none
  slot : ∀ id e r, f.get? id = some e → e.hasText = true → e.content.ref? = some r →
    ∃ x, r = .element x ∧ Deed.moved id x ∈ deeds ∧
      ∃ e', f.get? x = some e' ∧ e'.parent = .element id
  waiting : ∀ x ∈ pending, (∃ e, f.get? x = some e ∧ e.parent = .absent) ∧
    ∀ h, attached h x ∉ deeds
  distinct : pending.Nodup

theorem Logged.holder_unique (logged : f.Logged deeds) {h h' : Ref} {x : ElementId}
    (first : attached h x ∈ deeds) (second : attached h' x ∈ deeds) : h = h' := by
  have same := List.inj_on_of_nodup_map logged.once (mem_attachments.2 first)
    (mem_attachments.2 second) rfl
  exact congrArg Prod.fst same

theorem Logged.nodup_built (logged : f.Logged deeds) (h : Ref) : (built deeds h).Nodup :=
  (List.Nodup.sublist (List.Sublist.map _ List.filter_sublist) logged.once).filter _

/-! ## Places -/

/-- Where an element can be held: among the children of a holder, or in the text slot of another
element. -/
inductive Place where
  | child (holder : Ref) (position : Nat)
  | text (id : ElementId)
  deriving DecidableEq, Repr

def Stands (f : Forest) (x : ElementId) : Place → Prop
  | .child holder position => (f.childrenOf holder)[position]? = some (.ref (.element x))
  | .text id => ∃ e, f.get? id = some e ∧ e.hasText = true ∧ e.content = .ref (.element x)

theorem isThere_of_mem_childrenOf {h : Ref} {v : Datum} (mem : v ∈ f.childrenOf h) :
    f.isThere h = true := by
  cases h with
  | element id =>
    rw [isThere, isAlive]
    rw [childrenOf] at mem
    cases hid : f.get? id with
    | none => rw [hid] at mem; cases mem
    | some e => rfl
  | document d =>
    rw [isThere]
    rw [childrenOf, rootsOf] at mem
    cases hd : f.roots? d with
    | none => rw [hd] at mem; cases mem
    | some roots => rfl

variable {x : ElementId} {h : Ref} {i : Nat}

theorem Orderly.built_of_stands (orderly : f.Orderly deeds pending)
    (stands : f.Stands x (.child h i)) :
    f.isThere h = true ∧ (built deeds h)[i]? = some x := by
  have there := isThere_of_mem_childrenOf (List.mem_of_getElem? stands)
  refine ⟨there, ?_⟩
  have place : (f.childrenOf h)[i]? = some (.ref (.element x)) := stands
  rw [orderly.children h there, List.getElem?_map] at place
  obtain ⟨y, hy, same⟩ := Option.map_eq_some_iff.1 place
  obtain rfl : y = x := by simpa using same
  exact hy

theorem Orderly.moved_of_stands (orderly : f.Orderly deeds pending) {id : ElementId}
    (stands : f.Stands x (.text id)) : Deed.moved id x ∈ deeds ∧
      ∃ e', f.get? x = some e' ∧ e'.parent = .element id := by
  obtain ⟨e, there, slot, content⟩ := stands
  have ref : e.content.ref? = some (.element x) := by
    rw [content]
    rfl
  obtain ⟨y, same, moved⟩ := orderly.slot id e _ there slot ref
  rw [Ref.element.inj same]
  exact moved

/-- No element is held at two places. -/
theorem Orderly.place_unique (orderly : f.Orderly deeds pending) {p q : Place}
    (first : f.Stands x p) (second : f.Stands x q) : p = q := by
  have logged := orderly.logged
  -- what stands in a text slot was moved, and stands among no children any more
  have apart : ∀ {h i id}, f.Stands x (.child h i) → ¬ f.Stands x (.text id) :=
    fun child text => (mem_built.1 (List.mem_of_getElem? (orderly.built_of_stands child).2)).2 _
      (orderly.moved_of_stands text).1
  match p, q with
  | .child h i, .child h' i' =>
    have hi := (orderly.built_of_stands first).2
    have hi' := (orderly.built_of_stands second).2
    have same := logged.holder_unique (mem_built.1 (List.mem_of_getElem? hi)).1
      (mem_built.1 (List.mem_of_getElem? hi')).1
    subst same
    have bound := (List.getElem?_eq_some_iff.1 hi).1
    rw [(List.getElem?_inj bound (logged.nodup_built h)).1 (hi.trans hi'.symm)]
  | .child h i, .text id => exact absurd second (apart first)
  | .text id, .child h i => exact absurd first (apart second)
  | .text id, .text id' =>
    have same := logged.holder_unique (logged.moved id x (orderly.moved_of_stands first).1)
      (logged.moved id' x (orderly.moved_of_stands second).1)
    rw [Ref.element.inj same]

/-- What is held by a holder links to it, but a document is nobody's parent. -/
theorem Orderly.link_child (orderly : f.Orderly deeds pending)
    (stands : f.Stands x (.child h i)) : f.link x = linkTo h := by
  obtain ⟨there, hi⟩ := orderly.built_of_stands stands
  obtain ⟨e, hx, parent⟩ := orderly.linked h x there (List.mem_of_getElem? hi)
  cases h with
  | element id => exact link_eq_element hx parent there
  | document d => exact link_eq_absent hx parent

theorem Orderly.link_text (orderly : f.Orderly deeds pending) {id : ElementId}
    (stands : f.Stands x (.text id)) : f.link x = .element id := by
  obtain ⟨-, e', hx, parent⟩ := orderly.moved_of_stands stands
  obtain ⟨e, there, -⟩ := stands
  refine link_eq_element hx parent ?_
  rw [isAlive, there]
  rfl

/-- What is shown below a holder is younger, and documents are above all elements. -/
theorem Orderly.acyclic (orderly : f.Orderly deeds pending) : f.Acyclic := by
  let rank : Ref → Nat
    | .element id => f.elements.size - id.index
    | .document _ => f.elements.size + 1
  have below : ∀ h x, f.isThere h = true → attached h x ∈ deeds → rank (.element x) < rank h := by
    intro h x there attached
    have bound := orderly.logged.child h x attached
    cases h with
    | element id =>
      have older := orderly.logged.older id x attached
      simp only [rank]
      omega
    | document d =>
      simp only [rank]
      omega
  have child : ∀ h s, s ∈ (f.childrenOf h).filterMap Value.ref? → rank s < rank h := by
    intro h s hs
    obtain ⟨v, hv, ref⟩ := List.mem_filterMap.1 hs
    have there := isThere_of_mem_childrenOf hv
    rw [orderly.children h there] at hv
    obtain ⟨x, hx, rfl⟩ := List.mem_map.1 hv
    obtain rfl : .element x = s := Option.some.inj ref
    exact below h x there (mem_built.1 hx).1
  refine acyclic_of_rank rank fun r s shows => ?_
  cases r with
  | document d => exact child (.document d) s shows
  | element id =>
    cases there : f.get? id with
    | none => simp [Shows, shown, there] at shows
    | some e =>
      have alive : f.isThere (.element id) = true := by
        rw [isThere, isAlive, there]
        rfl
      have children : f.childrenOf (.element id) = e.children := by
        rw [childrenOf, there]
        rfl
      have shown : s ∈ e.shown := by
        simpa [Shows, Forest.shown, there] using shows
      rw [Element.shown, orderly.tag id e there] at shown
      obtain text | held := List.mem_append.1 shown
      · obtain ⟨slot, content⟩ : e.hasText = true ∧ e.content.ref? = some s := by
          split at text <;> simp_all
        obtain ⟨x, rfl, moved, -⟩ := orderly.slot id e s there slot content
        exact below _ x alive (orderly.logged.moved id x moved)
      · exact child (.element id) s (children ▸ held)

end Forest

end Hypertext
