import Hypertext.Proofs.Acyclicity

/-! The unfolding of a forest as a relation, one rule for each thing that can stand in a tree. The
main statements are `unfoldsAll_trees`, that acyclic values unfold to the trees that are rendered,
and `UnfoldsAll.unique`, that they unfold to nothing else. -/
namespace Hypertext.Forest
set_option autoImplicit false

open Relation

mutual

/-- A value unfolds to a tree: an element to a node with what it holds, a document to what it
holds, and any other value to itself. -/
inductive Unfolds (f : Forest) : Datum → Tree → Prop where
  | element {id : ElementId} {e : Element} {inside : Option Tree} {children : List Tree}
      (there : f.get? id = some e) (text : UnfoldsText f e inside)
      (held : UnfoldsAll f e.children children) :
      Unfolds f (.ref (.element id)) (.node (f.face id e) inside children)
  | document {id : DocumentId} {children : List Tree}
      (held : UnfoldsAll f (f.rootsOf id) children) :
      Unfolds f (.ref (.document id)) (.bare .document children)
  | value {v : Datum} (plain : ∀ r, v ≠ .ref r) :
      Unfolds f v (.bare (.value (f.typeName v)) [])

/-- The element in a text slot unfolds to the tree inside. -/
inductive UnfoldsText (f : Forest) : Element → Option Tree → Prop where
  | element {e : Element} {id : ElementId} {t : Tree} (slot : e.hasText = true)
      (content : e.content = .ref (.element id)) (held : Unfolds f (.ref (.element id)) t) :
      UnfoldsText f e (some t)
  | other {e : Element}
      (empty : ∀ id, e.hasText = true → e.content = .ref (.element id) → f.get? id = none) :
      UnfoldsText f e none

/-- Values unfold one after the other; what is gone leaves no tree. -/
inductive UnfoldsAll (f : Forest) : List Datum → List Tree → Prop where
  | nil : UnfoldsAll f [] []
  | cons {v : Datum} {vs : List Datum} {t : Tree} {ts : List Tree} (head : Unfolds f v t)
      (tail : UnfoldsAll f vs ts) : UnfoldsAll f (v :: vs) (t :: ts)
  | gone {id : ElementId} {vs : List Datum} {ts : List Tree} (gone : f.get? id = none)
      (tail : UnfoldsAll f vs ts) : UnfoldsAll f (.ref (.element id) :: vs) ts

end

variable {f : Forest}

theorem Unfolds.isThere {id : ElementId} {t : Tree} (h : f.Unfolds (.ref (.element id)) t) :
    f.get? id ≠ none := by
  cases h with
  | element there _ _ => simp [there]
  | value plain => exact absurd rfl (plain _)

/-! ## There is at most one unfolding -/

mutual

theorem Unfolds.unique {v : Datum} {t u : Tree} (ht : f.Unfolds v t) (hu : f.Unfolds v u) :
    t = u := by
  match ht, hu with
  | .element there text held, .element there' text' held' =>
    obtain rfl := Option.some.inj (there.symm.trans there')
    rw [UnfoldsText.unique text text', UnfoldsAll.unique held held']
  | .document held, .document held' => rw [UnfoldsAll.unique held held']
  | .value _, .value _ => rfl
  | .element _ _ _, .value plain => exact absurd rfl (plain _)
  | .document _, .value plain => exact absurd rfl (plain _)
  | .value plain, .element _ _ _ => exact absurd rfl (plain _)
  | .value plain, .document _ => exact absurd rfl (plain _)

theorem UnfoldsText.unique {e : Element} {t u : Option Tree} (ht : f.UnfoldsText e t)
    (hu : f.UnfoldsText e u) : t = u := by
  match ht, hu with
  | .element _ content held, .element _ content' held' =>
    obtain rfl : _ = _ := by simpa using content.symm.trans content'
    rw [Unfolds.unique held held']
  | .element slot content held, .other gone => exact absurd (gone _ slot content) held.isThere
  | .other gone, .element slot content held => exact absurd (gone _ slot content) held.isThere
  | .other _, .other _ => rfl

theorem UnfoldsAll.unique {vs : List Datum} {ts us : List Tree} (ht : f.UnfoldsAll vs ts)
    (hu : f.UnfoldsAll vs us) : ts = us := by
  match ht, hu with
  | .nil, .nil => rfl
  | .cons head tail, .cons head' tail' =>
    rw [Unfolds.unique head head', UnfoldsAll.unique tail tail']
  | .cons head _, .gone gone _ => exact absurd gone head.isThere
  | .gone gone _, .cons head _ => exact absurd gone head.isThere
  | .gone _ tail, .gone _ tail' => exact UnfoldsAll.unique tail tail'

end

/-! ## Acyclic values have one -/

/-- The circles below a value, if it refers to anything. -/
def AcyclicBelow (f : Forest) (v : Datum) : Prop := ∀ r, v.ref? = some r → f.AcyclicFrom [r]

theorem AcyclicFrom.child {id : ElementId} {e : Element} (acyclic : f.AcyclicFrom [.element id])
    (there : f.get? id = some e) : ∀ v ∈ e.children, f.AcyclicBelow v :=
  fun _ hv _ hr => acyclic.below (.single (shows_child there hv hr))

theorem AcyclicFrom.root {id : DocumentId} (acyclic : f.AcyclicFrom [.document id]) :
    ∀ v ∈ f.rootsOf id, f.AcyclicBelow v :=
  fun _ hv _ hr => acyclic.below (.single (shows_root hv hr))

theorem tree?_eq_none {v : Datum} (acyclic : f.AcyclicBelow v) (h : f.tree? v = none) :
    ∃ id, v = .ref (.element id) ∧ f.get? id = none := by
  match v with
  | .ref (.element id) =>
    refine ⟨id, rfl, ?_⟩
    cases there : f.get? id with
    | none => rfl
    | some e =>
      rw [tree?_element there (acyclic _ rfl)] at h
      cases h
  | .ref (.document id) =>
    rw [tree?_document id (acyclic _ rfl)] at h
    cases h
  | .scalar _ | .list _ | .record _ | .renderer .. | .made .. =>
    rw [tree?_value (by simp)] at h
    cases h

theorem trees_cons (v : Datum) (vs : List Datum) :
    f.trees (v :: vs) = (f.tree? v).toList ++ f.trees vs := by
  rw [trees, List.filterMap_cons]
  cases f.tree? v <;> rfl

theorem size_le_of_mem {t : Tree} {ts : List Tree} (h : t ∈ ts) : t.size ≤ Tree.sizeAll ts := by
  induction ts with
  | nil => cases h
  | cons u ts ih =>
    rw [Tree.sizeAll]
    obtain rfl | h := List.mem_cons.1 h
    · omega
    · have hsize := ih h
      omega

/-- Values that each unfold to their trees unfold to all of them. -/
theorem unfoldsAll_of_unfolds (vs : List Datum) (acyclic : ∀ v ∈ vs, f.AcyclicBelow v)
    (held : ∀ v ∈ vs, ∀ t, f.tree? v = some t → f.Unfolds v t) : f.UnfoldsAll vs (f.trees vs) := by
  induction vs with
  | nil => exact .nil
  | cons v vs ih =>
    have tail := ih (fun w hw => acyclic w (List.mem_cons_of_mem v hw))
      fun w hw => held w (List.mem_cons_of_mem v hw)
    rw [trees_cons]
    cases htree : f.tree? v with
    | none =>
      obtain ⟨id, rfl, gone⟩ := tree?_eq_none (acyclic v List.mem_cons_self) htree
      exact .gone gone tail
    | some t => exact .cons (held v List.mem_cons_self t htree) tail

theorem unfoldsText_of_unfolds {id : ElementId} {e : Element} (there : f.get? id = some e)
    (acyclic : f.AcyclicFrom [.element id])
    (held : ∀ t, f.insideOf e = some t → f.Unfolds e.content t) :
    f.UnfoldsText e (f.insideOf e) := by
  cases hinside : f.insideOf e with
  | none =>
    refine .other fun other slot content => ?_
    have below : f.AcyclicBelow e.content :=
      fun r hr => acyclic.below (.single (shows_content there slot hr))
    rw [insideOf, slot, content] at hinside
    obtain ⟨gone, hgone, hnone⟩ := tree?_eq_none (content ▸ below) hinside
    obtain rfl : other = gone := by simpa using hgone
    exact hnone
  | some t =>
    have unfolds := held t hinside
    rw [insideOf] at hinside
    split at hinside
    next h =>
      rw [Bool.and_eq_true] at h
      obtain ⟨other, hother⟩ : ∃ other, e.content = .ref (.element other) := by
        unfold isElement at h
        split at h
        next other hother => exact ⟨other, hother⟩
        next => simp at h
      exact .element h.1 hother (hother ▸ unfolds)
    next => cases hinside

/-- By induction on the size, since the trees of what is held are smaller. -/
theorem unfolds_of_size (n : Nat) {v : Datum} {t : Tree} (hsize : t.size ≤ n)
    (acyclic : f.AcyclicBelow v) (htree : f.tree? v = some t) : f.Unfolds v t := by
  induction n generalizing v t with
  | zero => cases t <;> simp [Tree.size] at hsize
  | succ n ih =>
    have all (vs : List Datum) (below : ∀ v ∈ vs, f.AcyclicBelow v)
        (hsize : Tree.sizeAll (f.trees vs) ≤ n) : f.UnfoldsAll vs (f.trees vs) := by
      refine unfoldsAll_of_unfolds vs below fun w hw u hu => ih ?_ (below w hw) hu
      exact Nat.le_trans (size_le_of_mem (List.mem_filterMap.2 ⟨w, hw, hu⟩)) hsize
    cases v with
    | ref r =>
      have hr := acyclic r rfl
      cases r with
      | element id =>
        cases there : f.get? id with
        | none =>
          rw [tree?_gone there] at htree
          cases htree
        | some e =>
          rw [tree?_element there hr] at htree
          obtain rfl := Option.some.inj htree
          rw [Tree.size] at hsize
          refine .element there (unfoldsText_of_unfolds there hr fun u hu => ?_)
            (all _ (hr.child there) (by omega))
          rw [hu, Tree.sizeInside] at hsize
          rw [insideOf] at hu
          split at hu
          next h =>
            rw [Bool.and_eq_true] at h
            refine ih (by omega) (fun r hr' => ?_) hu
            exact hr.below (.single (shows_content there h.1 hr'))
          next => cases hu
      | document id =>
        rw [tree?_document id hr] at htree
        obtain rfl := Option.some.inj htree
        rw [Tree.size] at hsize
        exact .document (all _ hr.root (by omega))
    | scalar _ | list _ | record _ | renderer _ _ _ | made _ _ =>
      rw [tree?_value (by simp)] at htree
      obtain rfl := Option.some.inj htree
      exact .value (by simp)

theorem unfolds_of_tree? {v : Datum} {t : Tree} (acyclic : f.AcyclicBelow v)
    (h : f.tree? v = some t) : f.Unfolds v t := unfolds_of_size t.size (Nat.le_refl _) acyclic h

theorem unfoldsAll_trees (vs : List Datum) (acyclic : ∀ v ∈ vs, f.AcyclicBelow v) :
    f.UnfoldsAll vs (f.trees vs) :=
  unfoldsAll_of_unfolds vs acyclic fun v hv _ htree => unfolds_of_tree? (acyclic v hv) htree

end Hypertext.Forest
