import Hypertext.Proofs.Unfolding

/-! Trees of elements only. What holds of every element that is held, at any depth, holds of every
node of the unfolding. The main statement is `UnfoldsAll.all`. -/
namespace Hypertext
set_option autoImplicit false

open Relation

namespace Tree

mutual

/-- Every node is an element, and its face and what stands in its text slot have a property. -/
def All (p : Face → Option Tree → Prop) : Tree → Prop
  | .node x inside children => p x inside ∧ AllInside p inside ∧ AllFrom p children
  | .bare _ _ => False

def AllInside (p : Face → Option Tree → Prop) : Option Tree → Prop
  | none => True
  | some t => All p t

def AllFrom (p : Face → Option Tree → Prop) : List Tree → Prop
  | [] => True
  | t :: rest => All p t ∧ AllFrom p rest

end

variable {p q : Face → Option Tree → Prop}

mutual

theorem All.imp {t : Tree} (h : t.All p) (hpq : ∀ x inside, p x inside → q x inside) :
    t.All q := by
  match t with
  | .node x inside children =>
    exact ⟨hpq x inside h.1, AllInside.imp h.2.1 hpq, AllFrom.imp h.2.2 hpq⟩
  | .bare _ _ => exact h.elim

theorem AllInside.imp {inside : Option Tree} (h : AllInside p inside)
    (hpq : ∀ x inside, p x inside → q x inside) : AllInside q inside := by
  match inside with
  | none => trivial
  | some t => exact All.imp (t := t) h hpq

theorem AllFrom.imp {ts : List Tree} (h : AllFrom p ts)
    (hpq : ∀ x inside, p x inside → q x inside) : AllFrom q ts := by
  match ts with
  | [] => trivial
  | t :: rest => exact ⟨All.imp h.1 hpq, AllFrom.imp h.2 hpq⟩

end

end Tree

namespace Forest

/-- The first element holds the second as a child or as its text. -/
def Holds (f : Forest) (id held : ElementId) : Prop :=
  ∃ e, f.get? id = some e ∧ (.ref (.element held) ∈ e.children ∨
    e.hasText = true ∧ e.content = .ref (.element held))

/-- An element and all that it holds at any depth have a property, and hold only elements. -/
def Below (f : Forest) (p : ElementId → Element → Prop) (root : ElementId) : Prop :=
  ∀ id e, ReflTransGen f.Holds root id → f.get? id = some e →
    p id e ∧ ∀ w ∈ e.children, ∃ child, w = .ref (.element child)

/-- Values are elements with a property, and so is all that is held below them. -/
def Throughout (f : Forest) (p : ElementId → Element → Prop) (vs : List Datum) : Prop :=
  ∀ v ∈ vs, ∃ root, v = .ref (.element root) ∧ f.Below p root

variable {f : Forest} {p q : ElementId → Element → Prop}

theorem Below.step {id held : ElementId} (h : f.Below p id) (holds : f.Holds id held) :
    f.Below p held := fun id' e hpath there => h id' e (.head holds hpath) there

theorem Below.throughout {id : ElementId} {e : Element} (h : f.Below p id)
    (there : f.get? id = some e) : f.Throughout p e.children := by
  intro w hw
  obtain ⟨child, rfl⟩ := (h id e .refl there).2 w hw
  exact ⟨child, rfl, h.step ⟨e, there, .inl hw⟩⟩

/-- What holds below an element holds of it, below its children and below its text. -/
theorem below_iff {id : ElementId} {e : Element} (there : f.get? id = some e) : f.Below p id ↔
    (p id e ∧ ∀ held, e.hasText = true → e.content = .ref (.element held) → f.Below p held) ∧
      f.Throughout p e.children := by
  constructor
  · intro below
    refine ⟨⟨(below id e .refl there).1, fun held slot content => ?_⟩, below.throughout there⟩
    exact below.step ⟨e, there, .inr ⟨slot, content⟩⟩
  · rintro ⟨⟨here, text⟩, children⟩ id' e' path there'
    obtain rfl | ⟨next, ⟨e'', there'', holds⟩, rest⟩ := path.cases_head
    · obtain rfl := Option.some.inj (there.symm.trans there')
      refine ⟨here, fun w hw => ?_⟩
      obtain ⟨child, rfl, -⟩ := children w hw
      exact ⟨child, rfl⟩
    · obtain rfl := Option.some.inj (there.symm.trans there'')
      obtain child | ⟨slot, content⟩ := holds
      · obtain ⟨root, same, below⟩ := children _ child
        obtain rfl : next = root := by simpa using same
        exact below id' e' rest there'
      · exact text next slot content id' e' rest there'

theorem below_of_gone {id : ElementId} (gone : f.get? id = none) : f.Below p id := by
  intro id' e' path there
  obtain rfl | ⟨next, ⟨e, alive, -⟩, -⟩ := path.cases_head
  · rw [gone] at there
    cases there
  · rw [gone] at alive
    cases alive

theorem throughout_cons {v : Datum} {vs : List Datum} :
    f.Throughout p (v :: vs) ↔
      (∃ root, v = .ref (.element root) ∧ f.Below p root) ∧ f.Throughout p vs :=
  List.forall_mem_cons

theorem mem_of_get? {id : ElementId} {e : Element} (there : f.get? id = some e) :
    some e ∈ f.elements := by
  rw [get?, Option.join_eq_some_iff] at there
  exact Array.mem_of_getElem? there

/-- What holds of everything that is there holds throughout. -/
theorem throughout_of_forall (roots : List ElementId) (h : ∀ id e, f.get? id = some e →
    p id e ∧ ∀ w ∈ e.children, ∃ child, w = .ref (.element child)) :
    f.Throughout p (roots.map (.ref <| .element ·)) := by
  intro v hv
  obtain ⟨root, _, rfl⟩ := List.mem_map.1 hv
  exact ⟨root, rfl, fun id e _ there => h id e there⟩

/-- A face that is read of an element with a property, beside what its text slot unfolds to. -/
def FaceOf (f : Forest) (p : ElementId → Element → Prop) (x : Face) (inside : Option Tree) :
    Prop :=
  ∃ id e, f.get? id = some e ∧ p id e ∧ x = f.face id e ∧ f.UnfoldsText e inside

theorem Throughout.and {vs : List Datum} (hp : f.Throughout p vs) (hq : f.Throughout q vs) :
    f.Throughout (fun id e => p id e ∧ q id e) vs := by
  intro v hv
  obtain ⟨root, rfl, below⟩ := hp v hv
  obtain ⟨root', same, below'⟩ := hq _ hv
  obtain rfl : root' = root := by simpa using same.symm
  exact ⟨root', rfl, fun id e path there =>
    ⟨⟨(below id e path there).1, (below' id e path there).1⟩, (below id e path there).2⟩⟩

mutual

theorem Unfolds.all {v : Datum} {t : Tree} (unfolds : f.Unfolds v t) {root : ElementId}
    (hroot : v = .ref (.element root)) (h : f.Below p root) : t.All (f.FaceOf p) := by
  match unfolds with
  | .element there text held =>
    obtain rfl : _ = root := by simpa using hroot
    rw [Tree.All]
    refine ⟨⟨_, _, there, (h _ _ .refl there).1, rfl, text⟩,
      UnfoldsText.all text fun held slot hcontent => ?_, UnfoldsAll.all held (h.throughout there)⟩
    exact h.step ⟨_, there, .inr ⟨slot, hcontent⟩⟩
  | .document held => cases hroot
  | .value plain => exact absurd hroot (plain _)

theorem UnfoldsText.all {e : Element} {inside : Option Tree} (unfolds : f.UnfoldsText e inside)
    (h : ∀ id, e.hasText = true → e.content = .ref (.element id) → f.Below p id) :
    Tree.AllInside (f.FaceOf p) inside := by
  match unfolds with
  | .element slot content held => exact Unfolds.all held rfl (h _ slot content)
  | .other _ => trivial

theorem UnfoldsAll.all {vs : List Datum} {ts : List Tree} (unfolds : f.UnfoldsAll vs ts)
    (h : f.Throughout p vs) : Tree.AllFrom (f.FaceOf p) ts := by
  match unfolds with
  | .nil => trivial
  | .cons head tail =>
    obtain ⟨root, hroot, hbelow⟩ := h _ List.mem_cons_self
    exact ⟨Unfolds.all head hroot hbelow, UnfoldsAll.all tail fun w hw => h w (by simp [hw])⟩
  | .gone _ tail => exact UnfoldsAll.all tail fun w hw => h w (by simp [hw])

end

mutual

/-- What holds of every face of an unfolding holds of the elements that the faces are read of. -/
theorem Unfolds.below_of_all {v : Datum} {t : Tree} (unfolds : f.Unfolds v t)
    (h : t.All fun x inside => ∀ id e, f.get? id = some e → x = f.face id e →
      f.UnfoldsText e inside → p id e) : ∃ root, v = .ref (.element root) ∧ f.Below p root := by
  match unfolds with
  | .element there text held =>
    obtain ⟨hx, hinside, hchildren⟩ := h
    exact ⟨_, rfl, (below_iff there).2 ⟨⟨hx _ _ there rfl text,
      UnfoldsText.below_of_all text hinside⟩, UnfoldsAll.throughout_of_all held hchildren⟩⟩
  | .document held => exact h.elim
  | .value plain => exact h.elim

theorem UnfoldsText.below_of_all {e : Element} {inside : Option Tree}
    (unfolds : f.UnfoldsText e inside)
    (h : Tree.AllInside (fun x inside => ∀ id e, f.get? id = some e → x = f.face id e →
      f.UnfoldsText e inside → p id e) inside) :
    ∀ held, e.hasText = true → e.content = .ref (.element held) → f.Below p held := by
  intro other slot' content'
  match unfolds with
  | .element slot content held =>
    obtain ⟨root, same, below⟩ := Unfolds.below_of_all held h
    rw [← content, content'] at same
    obtain rfl : other = root := by simpa using same
    exact below
  | .other empty => exact below_of_gone (empty other slot' content')

theorem UnfoldsAll.throughout_of_all {vs : List Datum} {ts : List Tree}
    (unfolds : f.UnfoldsAll vs ts)
    (h : Tree.AllFrom (fun x inside => ∀ id e, f.get? id = some e → x = f.face id e →
      f.UnfoldsText e inside → p id e) ts) : f.Throughout p vs := by
  match unfolds with
  | .nil => exact fun v hv => absurd hv List.not_mem_nil
  | .cons head tail =>
    exact throughout_cons.2 ⟨Unfolds.below_of_all head h.1, UnfoldsAll.throughout_of_all tail h.2⟩
  | .gone gone tail =>
    exact throughout_cons.2 ⟨⟨_, rfl, below_of_gone gone⟩, UnfoldsAll.throughout_of_all tail h⟩

end

end Forest

end Hypertext
