import Hypertext.Proofs.Collections
import Hypertext.Proofs.Invariants

/-! Histories of forests, and the links to parents that they make. An element is linked when it is
attached to an element or becomes the text of one, and by nothing that a document does: neither
attaching it to a document nor taking it out of anything looks at the link. So a child of a document
has the parent that it was linked to last, as long as that one is there. The main statement is
`roots_keep_last_link`; `reached_in_programs` says that it is one about programs. -/
namespace Hypertext
set_option autoImplicit false

/-! ## Histories -/

/-- The links that were made, the last one first. -/
abbrev LinkLog := List (ElementId × ParentLink)

namespace Operation

/-- What is linked to an element that takes a value as a child or as its text. -/
def linked (id : ElementId) : Datum → LinkLog
  | .ref (.element child) => [(child, .element id)]
  | _ => []

/-- The links that a change makes. A new element has none. -/
def links (f : Forest) : Operation → LinkLog
  | create kind tag => [((f.insert { kind, tag }).1, .absent)]
  | attach (.element id) child => linked id child
  | setText id content => if f.hasText id then linked id content else []
  | setParent id link => [(id, link)]
  | createDocument | add .. | attach (.document _) _ | remove .. | setMark .. | setProperty ..
  | rewrite .. | askStyle _ => []

end Operation

namespace Forest

variable {f g : Forest} {roots : List Ref} {log : LinkLog} {id x : ElementId}

/-- A forest that changes have led to, with the links that they made. In between anything that
nobody holds can go. -/
inductive Reached : LinkLog → Forest → Prop where
  | start : Reached [] {}
  | step {log : LinkLog} {f : Forest} (op : Operation) (before : Reached log f) :
    Reached (op.links f ++ log) (op.apply f)
  | pruned {log : LinkLog} {f g : Forest} {roots : List Ref} (before : Reached log f)
    (pruned : f.Pruned g roots) : Reached log g

/-- Changes one after the other, with the links that they make. -/
def change (state : LinkLog × Forest) (ops : List Operation) : LinkLog × Forest :=
  ops.foldl (fun (log, f) op => (op.links f ++ log, op.apply f)) state

theorem Reached.change (reached : Reached log f) (ops : List Operation) :
    Reached (Forest.change (log, f) ops).1 (Forest.change (log, f) ops).2 := by
  induction ops generalizing log f with
  | nil => exact reached
  | cons op ops ih => exact ih (reached.step op)

/-! ## Links that stay -/

/-- What is there was there before, with the same link. -/
def KeepsLinks (f g : Forest) : Prop :=
  ∀ x e, g.get? x = some e → ∃ e', f.get? x = some e' ∧ e'.parent = e.parent

theorem keepsLinks_update (f : Forest) (id : ElementId) (change : Element → Element)
    (same : ∀ e, (change e).parent = e.parent) : f.KeepsLinks (f.update id change) := by
  intro x e there
  rw [get?_update] at there
  split at there
  next h =>
    obtain ⟨e', there', rfl⟩ := Option.map_eq_some_iff.1 there
    exact ⟨e', h ▸ there', (same e').symm⟩
  next => exact ⟨e, there, rfl⟩

theorem keepsLinks_setChildren (f : Forest) (holder : Ref) (children : List Datum) :
    f.KeepsLinks (f.setChildren holder children) := by
  cases holder with
  | element id => exact keepsLinks_update f id _ fun _ => rfl
  | document d => exact fun x e there => ⟨e, there, rfl⟩

theorem keepsLinks_setProperty (f : Forest) (id : ElementId) (p : Property) (value : Datum) :
    f.KeepsLinks (f.setProperty id p value) := by
  rw [setProperty]
  split
  · exact keepsLinks_update f id _ fun _ => rfl
  · exact keepsLinks_update f id _ fun _ => rfl

theorem Pruned.keepsLinks (pruned : f.Pruned g roots) : f.KeepsLinks g := fun x e there =>
  ⟨e, (pruned.get? x (isThere_element.2 ⟨e, there⟩)).symm.trans there, rfl⟩

/-! ## Logs -/

/-- The link of everything that is there is the last one that a log has of it. -/
def Told (log : LinkLog) (f : Forest) : Prop :=
  ∀ x e, f.get? x = some e → log.lookup x = some e.parent

theorem Told.of_keepsLinks (told : Told log f) (keeps : f.KeepsLinks g) : Told log g := by
  intro x e there
  obtain ⟨e', there', same⟩ := keeps x e there
  rw [told x e' there', same]

/-- One more link tells of a forest in which nothing else has changed. -/
theorem Told.cons (told : Told log f) {link : ParentLink}
    (own : ∀ e, g.get? id = some e → e.parent = link)
    (others : ∀ x, x ≠ id → g.get? x = f.get? x) : Told ((id, link) :: log) g := by
  intro x e there
  rw [List.lookup_cons]
  by_cases same : x = id
  · rw [beq_iff_eq.2 same, own e (same ▸ there)]
  · rw [beq_eq_false_iff_ne.2 same]
    exact told x e (others x same ▸ there)

theorem Told.setParent (told : Told log f) (id : ElementId) (link : ParentLink) :
    Told ((id, link) :: log) (f.setParent id link) := by
  refine told.cons (fun e there => ?_) fun x other => ?_
  · rw [get?_setParent, if_pos rfl] at there
    obtain ⟨e', -, rfl⟩ := Option.map_eq_some_iff.1 there
    rfl
  · rw [get?_setParent, if_neg other]

theorem Told.insert (told : Told log f) (kind : Kind) (tag : Datum) :
    Told (((f.insert { kind, tag }).1, .absent) :: log) (f.insert { kind, tag }).2 := by
  refine told.cons (fun e there => ?_) fun x other => ?_
  · rw [get?_insert, if_pos rfl] at there
    obtain rfl := Option.some.inj there
    rfl
  · rw [get?_insert, if_neg other]

theorem Told.attach (told : Told log f) (id : ElementId) (child : Datum) :
    Told (Operation.linked id child ++ log) (f.attach (.element id) child) := by
  match child with
  | .ref (.element held) =>
    exact (told.setParent held (.element id)).of_keepsLinks (keepsLinks_setChildren _ _ _)
  | .ref (.document _) | .scalar _ | .list _ | .record _ | .renderer .. | .made _ _ =>
    exact told.of_keepsLinks (keepsLinks_setChildren _ _ _)

/-- The children and the mark of the element change as well, but these are no links. -/
theorem Told.setContent (told : Told log f) (id : ElementId) (content : Datum) :
    Told ((if f.hasText id then Operation.linked id content else []) ++ log)
      (f.setContent id content) := by
  rw [Forest.setContent]
  split
  next slot =>
    have filled : Told log (f.update id ({ · with content, mark := .bool false })) :=
      told.of_keepsLinks (keepsLinks_update f id _ fun _ => rfl)
    cases content with
    | ref r =>
      cases r with
      | element held =>
        exact (filled.of_keepsLinks (keepsLinks_setChildren _ _ _)).setParent held (.element id)
      | document _ => exact filled
    | scalar _ | list _ | record _ | renderer _ _ | made _ _ => exact filled
  next => exact told.of_keepsLinks (keepsLinks_update f id _ fun _ => rfl)

/-- Each change logs the links that it makes. -/
theorem Told.apply (told : Told log f) (op : Operation) : Told (op.links f ++ log) (op.apply f) := by
  match op with
  | .create kind tag => exact told.insert kind tag
  | .createDocument => exact told
  | .add holder child | .remove holder child =>
    exact told.of_keepsLinks (keepsLinks_setChildren _ _ _)
  | .attach (.element id) child => exact told.attach id child
  | .attach (.document d) child => exact told.of_keepsLinks (keepsLinks_setChildren _ _ _)
  | .setText id content => exact told.setContent id content
  | .setMark id mark => exact told.of_keepsLinks (keepsLinks_update f id _ fun _ => rfl)
  | .setProperty id p value => exact told.of_keepsLinks (keepsLinks_setProperty f id p value)
  | .setParent id link => exact told.setParent id link
  | .rewrite id change => exact told.of_keepsLinks (keepsLinks_update f id _ fun _ => rfl)
  | .askStyle id => exact told.of_keepsLinks (keepsLinks_update f id _ fun _ => rfl)

theorem Reached.told (reached : Reached log f) : Told log f := by
  induction reached with
  | start =>
    intro x e there
    cases there
  | step op _ ih => exact ih.apply op
  | pruned _ pruned ih => exact ih.of_keepsLinks pruned.keepsLinks

/-! ## Documents -/

theorem isAlive_update (f : Forest) (id x : ElementId) (change : Element → Element) :
    (f.update id change).isAlive x = f.isAlive x := by
  rw [isAlive, get?_update, isAlive]
  split
  next same => rw [same, Option.isSome_map]
  next => rfl

/-- A link depends on what is stored of it, and on who is there. -/
theorem link_update (f : Forest) (id : ElementId) (change : Element → Element)
    (same : ∀ e, (change e).parent = e.parent) (x : ElementId) :
    (f.update id change).link x = f.link x := by
  have stored : ((f.update id change).get? x).map (·.parent) = (f.get? x).map (·.parent) := by
    rw [get?_update]
    split
    next h =>
      subst h
      rw [Option.map_map]
      exact congrArg (Option.map · _) (funext same)
    next => rfl
  rw [link, stored, link]
  simp only [isAlive_update]

theorem link_remove (f : Forest) (holder : Ref) (child : Datum) (x : ElementId) :
    (f.remove holder child).link x = f.link x := by
  cases holder with
  | element id =>
    exact link_update f id ({ · with children := (f.childrenOf (.element id)).erase child })
      (fun _ => rfl) x
  | document d => rfl

theorem link_attach_document (f : Forest) (d : DocumentId) (child : Datum) (x : ElementId) :
    (f.attach (.document d) child).link x = f.link x := rfl

/-- An element without a parent inherits nothing. -/
theorem inheritsMark_of_absent (none : f.link x = .absent) : f.inheritsMark x = pure false := by
  have alone : f.ancestors x = [] := by
    rw [ancestors, parent?, none]
    rfl
  rw [inheritsMark, alone, beyond]
  simp only [List.any_nil, List.getLast?_nil, Option.getD_none, none]
  rfl

/-- Attaching to a document changes no link, and neither does taking out. So the parent of a child
of a document is what it was linked to last, if that is there; it has none exactly if it was never
linked since it was made, or if that one is gone. Without a parent its own mark decides how its text
is written; else a mark of a former holder may. -/
theorem roots_keep_last_link (reached : Reached log f) :
    (∀ d child y, (f.attach (.document d) child).link y = f.link y) ∧
    (∀ holder child y, (f.remove holder child).link y = f.link y) ∧
    ∀ d x e, .ref (.element x) ∈ f.rootsOf d → f.get? x = some e →
      ∃ link, log.lookup x = some link ∧
        Query.parent.answer (.ref (.element x)) f = pure (Query.linkValue (f.surviving link)) ∧
        (f.link x = .absent ↔ link = .absent ∨ ∃ p, link = .element p ∧ f.isAlive p = false) ∧
        (f.link x = .absent → Query.verbatim.answer (.ref (.element x)) f = pure e.mark ∧
          f.isVerbatim x = pure (f.isMarked x)) ∧
        ((∀ c, ¬ f.MeetsChoice x c) →
          (f.isVerbatim x).result = .ok (decide (f.MeetsMark x) || f.isMarked x)) := by
  refine ⟨f.link_attach_document, f.link_remove, fun d x e _ there => ?_⟩
  have last := reached.told x e there
  have link := link_eq_surviving there
  refine ⟨e.parent, last, ?_, ?_, fun none => ⟨?_, ?_⟩, result_isVerbatim⟩
  · rw [Query.answer, Query.subject?, there, ← link]
    rfl
  · rw [link]
    cases e.parent with
    | absent => simp [surviving]
    | choice c => simp [surviving]
    | element p => cases alive : f.isAlive p <;> simp [surviving, alive]
  · rw [answer_verbatim there, inheritsMark_of_absent none]
    rfl
  · rw [isVerbatim, inheritsMark_of_absent none]
    rfl

/-- A paragraph is attached to a marked element, taken out again, and attached to a document. -/
def moves : List Operation :=
  [.create (.catalog .div) (.text "div"), .setMark ⟨0⟩ (.bool true),
    .create (.catalog .p) (.text "p"), .setText ⟨1⟩ (.text "<"),
    .attach (.element ⟨0⟩) (.ref (.element ⟨1⟩)), .remove (.element ⟨0⟩) (.ref (.element ⟨1⟩)),
    .createDocument, .attach (.document ⟨0⟩) (.ref (.element ⟨1⟩))]

def moved : Forest := (change ([], {}) moves).2

/-- Its parent is still the element that holds it no more, and its text is not escaped. -/
theorem roots_keep_last_link_of_moved :
    moved.rootsOf ⟨0⟩ = [.ref (.element ⟨1⟩)] ∧ moved.childrenOf (.element ⟨0⟩) = [] ∧
    Query.parent.answer (.ref (.element ⟨1⟩)) moved = pure (.ref (.element ⟨0⟩)) ∧
    moved.isMarked ⟨1⟩ = false ∧ (moved.isVerbatim ⟨1⟩).result = .ok true := by
  obtain ⟨-, -, roots⟩ := roots_keep_last_link (Reached.start.change moves)
  obtain ⟨link, last, parent, -⟩ := roots ⟨0⟩ ⟨1⟩ _ (List.mem_singleton_self _) rfl
  cases last
  exact ⟨rfl, rfl, parent, rfl, rfl⟩

/-! ## Programs -/

theorem reached_isAlwaysKept : IsAlwaysKept fun f => ∃ log, Reached log f where
  apply _ op := fun ⟨_, reached⟩ => ⟨_, reached.step op⟩
  pruned := fun pruned ⟨_, reached⟩ => ⟨_, reached.pruned pruned⟩

/-- Wherever a program comes to, its commands have led there by such changes. -/
theorem reached_in_programs (limits : Limits) {watched : List String} {program : List Step}
    {s : Session} (comes : Session.ComesTo { limits } watched program s) :
    ∃ log, Reached log s.forest :=
  Session.holds_in_all_programs reached_isAlwaysKept (s := { limits }) ⟨[], .start⟩ comes

end Forest

end Hypertext
