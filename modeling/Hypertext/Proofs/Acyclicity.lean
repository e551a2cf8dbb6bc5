import Mathlib.Data.List.Basic
import Mathlib.Data.List.Perm.Subperm
import Mathlib.Logic.Relation
import Hypertext.Forest.Lemmas
import Hypertext.Render.Unfolding

/-! Forests without circles below some roots. Writing out an element goes on to its children, to
what its text slot holds and to a tag that is itself an element; where no chain of these comes back
to where it was, the depth at which trees are cut off is never met. The main statements are
`tree?_element` and `tree?_document`: a tree is made of the trees of what is held. -/
namespace Hypertext
set_option autoImplicit false

open Relation

/-- The reference that a value is, whatever its origin. -/
def Value.ref? {ρ : Type} : Value ρ → Option ρ
  | .ref r => some r
  | .made _ v => ref? v
  | _ => none

/-- What writing out an element goes on to. -/
def Element.shown (e : Element) : List Ref :=
  e.tag.ref?.toList ++ (if e.hasText then e.content.ref?.toList else [])
    ++ e.children.filterMap Value.ref?

namespace Forest

def shown (f : Forest) : Ref → List Ref
  | .element id => ((f.get? id).map Element.shown).getD []
  | .document id => (f.rootsOf id).filterMap Value.ref?

/-- Writing out the first goes on to the second: a child, the text of an element, or its tag. -/
def Shows (f : Forest) (r s : Ref) : Prop := s ∈ f.shown r

/-- Nothing below some roots comes back to itself. -/
def AcyclicFrom (f : Forest) (roots : List Ref) : Prop :=
  ∀ r ∈ roots, ∀ s, ReflTransGen f.Shows r s → ¬ TransGen f.Shows s s

def Acyclic (f : Forest) : Prop := ∀ r, ¬ TransGen f.Shows r r

variable {f : Forest}

theorem Acyclic.acyclicFrom (acyclic : f.Acyclic) (roots : List Ref) : f.AcyclicFrom roots :=
  fun _ _ s _ => acyclic s

/-! ## What is shown -/

theorem shows_of_get? {id : ElementId} {e : Element} {s : Ref} (there : f.get? id = some e)
    (hs : s ∈ e.shown) : f.Shows (.element id) s := by
  simpa [Shows, shown, there] using hs

theorem shows_tag {id : ElementId} {e : Element} {s : Ref} (there : f.get? id = some e)
    (hs : e.tag.ref? = some s) : f.Shows (.element id) s :=
  shows_of_get? there (by simp [Element.shown, hs])

theorem shows_content {id : ElementId} {e : Element} {s : Ref} (there : f.get? id = some e)
    (slot : e.hasText = true) (hs : e.content.ref? = some s) : f.Shows (.element id) s :=
  shows_of_get? there (by simp [Element.shown, slot, hs])

theorem shows_child {id : ElementId} {e : Element} {v : Datum} {s : Ref}
    (there : f.get? id = some e) (hv : v ∈ e.children) (hs : v.ref? = some s) :
    f.Shows (.element id) s := by
  refine shows_of_get? there ?_
  rw [Element.shown, List.mem_append]
  exact Or.inr (List.mem_filterMap.2 ⟨v, hv, hs⟩)

theorem shows_root {id : DocumentId} {v : Datum} {s : Ref} (hv : v ∈ f.rootsOf id)
    (hs : v.ref? = some s) : f.Shows (.document id) s :=
  List.mem_filterMap.2 ⟨v, hv, hs⟩

theorem AcyclicFrom.below {r s : Ref} (acyclic : f.AcyclicFrom [r]) (h : TransGen f.Shows r s) :
    f.AcyclicFrom [s] := by
  intro r' hr' u hu
  obtain rfl := List.mem_singleton.1 hr'
  exact acyclic r (by simp) u (h.to_reflTransGen.trans hu)

/-- What every step makes smaller never comes back to itself. -/
theorem acyclic_of_rank (rank : Ref → Nat) (h : ∀ r s, f.Shows r s → rank s < rank r) :
    f.Acyclic := by
  have descend : ∀ r s, TransGen f.Shows r s → rank s < rank r := by
    intro r s hrs
    induction hrs with
    | single h' => exact h _ _ h'
    | tail _ h' ih => exact Nat.lt_trans (h _ _ h') ih
  exact fun r hr => Nat.lt_irrefl _ (descend r r hr)

/-! ## Chains are short -/

theorem length_le_of_nodup {visited : List Ref} (nodup : visited.Nodup)
    (there : ∀ r ∈ visited, f.isThere r = true) :
    visited.length ≤ f.elements.size + f.documents.size := by
  have hsub : visited ⊆ f.domain := fun r hr => mem_domain (there r hr)
  have hlen := (nodup.subperm hsub).length_le
  have hdomain : f.domain.length ≤ f.elements.size + f.documents.size := by
    have h := List.length_filter_le f.isThere
      ((List.range f.elements.size).map (Ref.element ⟨·⟩)
        ++ (List.range f.documents.size).map (Ref.document ⟨·⟩))
    simpa [domain] using h
  omega

/-! ## What a face reads -/

theorem textOfRefBy_congr {trees trees' : List Datum → List Tree} {r : Ref}
    (element : ∀ id, r = .element id → trees [.ref r] = trees' [.ref r])
    (document : ∀ id, r = .document id → trees (f.rootsOf id) = trees' (f.rootsOf id)) :
    f.textOfRefBy trees r = f.textOfRefBy trees' r := by
  cases r with
  | element id => rw [textOfRefBy, textOfRefBy, element id rfl]
  | document id => rw [textOfRefBy, textOfRefBy, document id rfl]

theorem written_congr {id : ElementId} {text text' : Ref → Reading String} (v : Datum)
    (h : ∀ r, v.ref? = some r → text r = text' r) : f.written id text v = f.written id text' v := by
  fun_induction f.written id text v with
  | case1 => rfl
  | case2 => rfl
  | case3 => rfl
  | case4 s hs => rw [written.eq_4 _ _ _ _ hs]
  | case5 r hr =>
    rw [h r rfl, written]
    exact hr
  | case6 o v ih => rw [ih h, written]
  | case7 v h1 h2 h3 h4 h5 h6 => rw [written] <;> assumption

theorem faceOf_congr {id : ElementId} {e : Element} {text text' : Ref → Reading String}
    (tag : ∀ r, e.tag.ref? = some r → text r = text' r)
    (content : ∀ r, e.hasText = true → e.content.ref? = some r → text r = text' r) :
    f.faceOf id e text = f.faceOf id e text' := by
  have htag : f.writtenTag text e.tag = f.writtenTag text' e.tag := by
    unfold writtenTag
    split
    next r hr => exact tag r (by rw [hr, Value.ref?])
    next => rfl
  have hcontent : (if e.hasText then f.written id text e.content else pure "") =
      if e.hasText then f.written id text' e.content else pure "" := by
    split
    next slot => exact written_congr e.content fun r hr => content r slot hr
    next => rfl
  rw [faceOf, faceOf, htag, hcontent]

section Below

variable {read read' : Datum → Option Tree} {id : ElementId} {e : Element}
  (there : f.get? id = some e)
  (down : ∀ w : Datum, (∀ s, w.ref? = some s → TransGen f.Shows (.element id) s) →
    read w = read' w)
include there down

/-- A face depends on the trees of what is below its element. -/
theorem faceOf_congr_below : f.faceOf id e (f.textOfRefBy (·.filterMap read)) =
    f.faceOf id e (f.textOfRefBy (·.filterMap read')) := by
  have text (r : Ref) (hr : f.Shows (.element id) r) :
      f.textOfRefBy (·.filterMap read) r = f.textOfRefBy (·.filterMap read') r := by
    refine textOfRefBy_congr (fun _ _ => ?_) fun doc hdoc => ?_
    · refine List.filterMap_congr fun w hw => down w fun s hs => ?_
      obtain rfl := List.mem_singleton.1 hw
      obtain rfl := Option.some.inj hs
      exact .single hr
    · subst hdoc
      refine List.filterMap_congr fun w hw => down w fun s hs => ?_
      exact .tail (.single hr) (shows_root hw hs)
  exact faceOf_congr (fun r hr => text r (shows_tag there hr))
    fun r slot hr => text r (shows_content there slot hr)

theorem inside_congr_below : (if e.hasText && isElement e.content then read e.content else none) =
    if e.hasText && isElement e.content then read' e.content else none := by
  split
  next h =>
    rw [Bool.and_eq_true] at h
    exact down _ fun s hs => .single (shows_content there h.1 hs)
  next => rfl

theorem children_congr_below : e.children.filterMap read = e.children.filterMap read' :=
  List.filterMap_congr fun w hw => down w fun _ hs => .single (shows_child there hw hs)

end Below

/-! ## Depth to spare -/

/-- Below a chain of different elements and documents there is depth left, since only so many are
there. -/
theorem treeWithin_stable {d d' : Nat} {v : Datum} {visited : List Ref} (nodup : visited.Nodup)
    (there : ∀ r ∈ visited, f.isThere r = true)
    (above : ∀ s, v.ref? = some s → ∀ r ∈ visited, TransGen f.Shows r s)
    (acyclic : ∀ s, v.ref? = some s → f.AcyclicFrom [s])
    (hd : f.elements.size + f.documents.size < visited.length + d)
    (hd' : f.elements.size + f.documents.size < visited.length + d') :
    f.treeWithin d v = f.treeWithin d' v := by
  have hlen := length_le_of_nodup nodup there
  induction d generalizing d' v visited with
  | zero => omega
  | succ d ih =>
    obtain _ | d' := d'
    · omega
    -- what lies below a reference that is there is cut off no sooner than before
    have step (r : Ref) (hr : v.ref? = some r) (hthere : f.isThere r = true) (w : Datum)
        (hw : ∀ s, w.ref? = some s → TransGen f.Shows r s) :
        f.treeWithin d w = f.treeWithin d' w := by
      have fresh : r ∉ visited := fun h =>
        acyclic r hr r (by simp) r .refl (above r hr r h)
      have nodup' : (r :: visited).Nodup := List.nodup_cons.2 ⟨fresh, nodup⟩
      have there' : ∀ s ∈ r :: visited, f.isThere s = true := by
        intro s hs
        obtain rfl | hs := List.mem_cons.1 hs
        · exact hthere
        · exact there s hs
      refine ih nodup' there' ?_ ?_ (by simp only [List.length_cons]; omega)
        (by simp only [List.length_cons]; omega) (length_le_of_nodup nodup' there')
      · intro s hs u hu
        obtain rfl | hu := List.mem_cons.1 hu
        · exact hw s hs
        · exact (above r hr u hu).trans (hw s hs)
      · exact fun s hs => (acyclic r hr).below (hw s hs)
    match v with
    | .ref (.element id) =>
      rw [treeWithin, treeWithin]
      cases there : f.get? id with
      | none => rfl
      | some e =>
        have down := step (.element id) rfl (by simp [isThere, isAlive, there])
        simp only [Option.bind_eq_bind, Option.bind_some]
        rw [faceOf_congr_below there down, inside_congr_below there down,
          children_congr_below there down]
    | .ref (.document id) =>
      rw [treeWithin, treeWithin]
      congr 2
      refine List.filterMap_congr fun w hw => ?_
      have hthere : f.isThere (.document id) = true := by
        by_contra h
        have hnone : f.roots? id = none := by simpa [isThere] using h
        simp [rootsOf, hnone] at hw
      exact step _ rfl hthere w fun s hs => .single (shows_root hw hs)
    | .scalar s => rfl
    | .list items => rfl
    | .record fields => rfl
    | .renderer roots pretty indent => rfl
    | .made o v => rfl

/-- One level less is still enough below what is there. -/
theorem treeWithin_eq_tree? {r : Ref} {v : Datum} (hthere : f.isThere r = true)
    (acyclic : f.AcyclicFrom [r]) (hv : ∀ s, v.ref? = some s → TransGen f.Shows r s) :
    f.treeWithin (f.elements.size + f.documents.size) v = f.tree? v := by
  have single : [r].Nodup := List.nodup_cons.2 ⟨List.not_mem_nil, List.nodup_nil⟩
  refine treeWithin_stable single (by simpa using hthere) ?_ ?_
    (by simp) (by simp; omega)
  · intro s hs u hu
    obtain rfl := List.mem_singleton.1 hu
    exact hv s hs
  · exact fun s hs => acyclic.below (hv s hs)

/-! ## The tree of an element -/

/-- What is read of an element, with whatever its tag and its text refer to written out in full. -/
def face (f : Forest) (id : ElementId) (e : Element) : Face := f.faceOf id e f.textOfRef

def insideOf (f : Forest) (e : Element) : Option Tree :=
  if e.hasText && isElement e.content then f.tree? e.content else none

theorem tree?_element {id : ElementId} {e : Element} (there : f.get? id = some e)
    (acyclic : f.AcyclicFrom [.element id]) :
    f.tree? (.ref (.element id)) =
      some (.node (f.face id e) (f.insideOf e) (f.trees e.children)) := by
  have hthere : f.isThere (.element id) = true := by simp [isThere, isAlive, there]
  have down := fun w => treeWithin_eq_tree? (v := w) hthere acyclic
  rw [tree?, treeWithin, there]
  simp only [Option.bind_eq_bind, Option.bind_some]
  rw [faceOf_congr_below there down, inside_congr_below there down,
    children_congr_below there down]
  rfl

theorem tree?_document (id : DocumentId) (acyclic : f.AcyclicFrom [.document id]) :
    f.tree? (.ref (.document id)) = some (.bare .document (f.trees (f.rootsOf id))) := by
  rw [tree?, treeWithin]
  congr 2
  refine List.filterMap_congr fun w hw => ?_
  have hthere : f.isThere (.document id) = true := by
    by_contra h
    have hnone : f.roots? id = none := by simpa [isThere] using h
    simp [rootsOf, hnone] at hw
  exact treeWithin_eq_tree? hthere acyclic fun s hs => .single (shows_root hw hs)

theorem tree?_gone {id : ElementId} (gone : f.get? id = none) :
    f.tree? (.ref (.element id)) = none := by
  rw [tree?, treeWithin, gone]
  rfl

theorem tree?_value {v : Datum} (plain : ∀ r, v ≠ .ref r) :
    f.tree? v = some (.bare (.value (f.typeName v)) []) := by
  rw [tree?, treeWithin] <;> exact fun _ h => plain _ h

end Forest

end Hypertext
