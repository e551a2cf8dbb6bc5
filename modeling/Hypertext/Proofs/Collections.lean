import Hypertext.Proofs.Ancestors
import Hypertext.Proofs.Marks

/-! What a collection takes from an element that it leaves. The element stays as it is, with
everything that it holds, but the link to a parent that goes reads as absent, and the walk up from
the element ends there. Whether its text is written as it is changes only where the mark that said
so is met no more. The main statement is `Pruned.isVerbatim`. -/
namespace Hypertext.Forest
set_option autoImplicit false

open Relation

variable {f g : Forest} {roots : List Ref} {id : ElementId}

/-! ## Survivors -/

/-- The second is what the first holds, or is held by what the first holds, and so on. -/
def Reaches (f : Forest) : Ref → Ref → Prop := ReflTransGen fun r s => s ∈ f.held r

/-- What is left is what the roots reach. -/
theorem isThere_collect {r : Ref} :
    (f.collect roots).isThere r = true ↔
      f.isThere r = true ∧ ∃ root ∈ roots, f.Reaches root r := by
  have pruned := f.collect_pruned roots
  constructor
  · intro left
    refine ⟨pruned.there left,
      forall_collect (P := fun r => ∃ root ∈ roots, f.Reaches root r) ?_ ?_ left⟩
    · exact fun r s ⟨root, hroot, reaches⟩ held => ⟨root, hroot, reaches.tail held⟩
    · exact fun r hr => ⟨r, hr, .refl⟩
  · rintro ⟨there, root, hroot, reaches⟩
    induction reaches with
    | refl => exact pruned.root root hroot there
    | tail _ held ih => exact pruned.closed _ _ (ih (isThere_of_mem_held held)) held there

/-! ## Parents -/

/-- A link that is left: one to an element that is gone is absent. -/
def surviving (g : Forest) : ParentLink → ParentLink
  | .element parent => if g.isAlive parent then .element parent else .absent
  | other => other

theorem link_eq_surviving {e : Element} (there : f.get? id = some e) :
    f.link id = f.surviving e.parent := by
  rw [link, there, surviving.eq_def]
  rfl

theorem Pruned.isAlive (pruned : f.Pruned g roots) (alive : g.isAlive id = true) :
    f.isAlive id = true := pruned.there (r := .element id) alive

theorem Pruned.surviving_surviving (pruned : f.Pruned g roots) (link : ParentLink) :
    g.surviving (f.surviving link) = g.surviving link := by
  cases link with
  | absent | choice _ => rfl
  | element parent =>
    cases alive : f.isAlive parent with
    | true => rw [surviving, if_pos alive]
    | false =>
      have gone : ¬ g.isAlive parent = true := fun left => by simp [pruned.isAlive left] at alive
      simp [surviving, alive, gone]

theorem Pruned.link (pruned : f.Pruned g roots) (alive : g.isAlive id = true) :
    g.link id = g.surviving (f.link id) := by
  obtain ⟨e, left⟩ := Option.isSome_iff_exists.1 alive
  have there := (pruned.get? id alive).symm.trans left
  rw [link_eq_surviving left, link_eq_surviving there, pruned.surviving_surviving]

theorem Pruned.parent? (pruned : f.Pruned g roots) (alive : g.isAlive id = true) :
    g.parent? id = (f.parent? id).filter g.isAlive := by
  rw [Forest.parent?, pruned.link alive, Forest.parent?]
  cases f.link id with
  | absent | choice _ => rfl
  | element parent =>
    rw [surviving]
    cases left : g.isAlive parent with
    | false => rw [if_neg Bool.false_ne_true, Option.filter_some_neg (by simp [left])]
    | true => rw [if_pos rfl, Option.filter_some_pos left]

/-! ## Ancestors -/

/-- By induction on the limit: each step goes up to one that is left, or ends the climb. -/
theorem Pruned.climb (pruned : f.Pruned g roots) (limit : Nat) (next : Option ElementId) :
    g.climb limit (next.filter g.isAlive) = (f.climb limit next).takeWhile g.isAlive := by
  induction limit generalizing next with
  | zero => rw [Forest.climb, Forest.climb, List.takeWhile_nil]
  | succ limit ih =>
    cases next with
    | none => rw [Option.filter_none, Forest.climb, Forest.climb, List.takeWhile_nil]
    | some parent =>
      cases left : g.isAlive parent with
      | false =>
        rw [Option.filter_some_neg (by simp [left]), Forest.climb, Forest.climb,
          List.takeWhile_cons_of_neg (by simp [left])]
      | true =>
        rw [Option.filter_some_pos left, Forest.climb, Forest.climb, List.takeWhile_cons_of_pos left,
          pruned.parent? left, ih]

theorem Pruned.ancestors (pruned : f.Pruned g roots) (alive : g.isAlive id = true) :
    g.ancestors id = (f.ancestors id).takeWhile g.isAlive := by
  rw [Forest.ancestors, pruned.parent? alive, pruned.climb, Forest.ancestors]

/-- As long as the chain of parents is left, it goes on with what is left of the link. -/
theorem Pruned.linkAbove (pruned : f.Pruned g roots) (alive : g.isAlive id = true) {n : Nat}
    (elements : ∀ i < n, ∃ parent, g.linkAbove id i = .element parent) :
    g.linkAbove id n = g.surviving (f.linkAbove id n) := by
  induction n with
  | zero => exact pruned.link alive
  | succ n ih =>
    have before := ih fun i hi => elements i (Nat.lt_succ_of_lt hi)
    obtain ⟨parent, link⟩ := elements n (Nat.lt_succ_self n)
    rw [link] at before
    obtain ⟨left, there⟩ : g.isAlive parent = true ∧ f.linkAbove id n = .element parent := by
      cases above : f.linkAbove id n with
      | absent | choice _ =>
        rw [above] at before
        cases before
      | element y =>
        rw [above, surviving] at before
        split at before
        next left =>
          obtain rfl := ParentLink.element.inj before
          exact ⟨left, rfl⟩
        next => cases before
    rw [Forest.linkAbove, link, Forest.linkAbove, there]
    exact pruned.link left

/-! ## Marks -/

/-- Left, if it was there at all. -/
def LeftIn (f g : Forest) (r : Ref) : Prop := f.isThere r = true → g.isThere r = true

theorem Pruned.keeps (pruned : f.Pruned g roots) {r s : Ref} (keeps : f.LeftIn g r)
    (held : s ∈ f.held r) : f.LeftIn g s :=
  fun there => pruned.closed r s (keeps (isThere_of_mem_held held)) held there

theorem Pruned.get?_of_keeps (pruned : f.Pruned g roots) (keeps : f.LeftIn g (.element id)) :
    g.get? id = f.get? id := by
  by_cases left : g.isAlive id = true
  · exact pruned.get? id left
  · have gone : ¬ f.isAlive id = true := fun there => left (keeps there)
    have before : f.get? id = none := by simpa [Forest.isAlive] using gone
    have after : g.get? id = none := by simpa [Forest.isAlive] using left
    rw [before, after]

theorem Pruned.rootsOf_of_keeps (pruned : f.Pruned g roots) {d : DocumentId}
    (keeps : f.LeftIn g (.document d)) : g.rootsOf d = f.rootsOf d := by
  by_cases left : g.isThere (.document d) = true
  · rw [rootsOf, pruned.roots? d left, rootsOf]
  · have gone : ¬ f.isThere (.document d) = true := fun there => left (keeps there)
    have before : f.roots? d = none := by simpa [isThere] using gone
    have after : g.roots? d = none := by simpa [isThere] using left
    rw [rootsOf, rootsOf, before, after]

theorem Pruned.truth (pruned : f.Pruned g roots) {v : Datum} (keeps : ∀ r ∈ v.refs, f.LeftIn g r) :
    g.truth v = f.truth v := by
  refine Value.truth_congr fun r hr => ?_
  cases r with
  | element id => rfl
  | document d => simp only [pruned.rootsOf_of_keeps (keeps _ hr)]

theorem Pruned.isMarked (pruned : f.Pruned g roots) (alive : g.isAlive id = true) :
    g.isMarked id = f.isMarked id := by
  obtain ⟨e, left⟩ := Option.isSome_iff_exists.1 alive
  have there := (pruned.get? id alive).symm.trans left
  have keeps : ∀ r ∈ e.mark.refs, f.LeftIn g r := fun r hr =>
    pruned.keeps (r := .element id) (fun _ => alive) <| by
      rw [held_of_get? there, Element.holds]
      simp [hr]
  rw [Forest.isMarked, Forest.isMarked, left, there, Option.any_some, Option.any_some,
    pruned.truth keeps]

theorem any_isMarked_ancestors (pruned : f.Pruned g roots) (alive : g.isAlive id = true) :
    (g.ancestors id).any g.isMarked = ((f.ancestors id).takeWhile g.isAlive).any f.isMarked := by
  rw [pruned.ancestors alive, Bool.eq_iff_iff, List.any_eq_true, List.any_eq_true]
  refine exists_congr fun y => and_congr_right fun hy => ?_
  rw [pruned.isMarked (List.mem_takeWhile_imp hy)]

/-! ## Walks -/

/-- What a walk comes to that goes to its end. -/
theorem result_beyond (f : Forest) (id : ElementId) : (f.beyond id (f.ancestors id)).result =
    match f.linkAbove id (f.ancestors id).length with
    | .choice c =>
      if (f.ancestors id).length < ancestorLimit then .error (.nameMissing c.family "parent")
      else .ok ()
    | _ => .ok () := by
  rw [beyond, Forest.ancestors, link_last_climb, ← Forest.ancestors]
  cases f.linkAbove id (f.ancestors id).length with
  | absent | element _ => rfl
  | choice c =>
    simp only
    split <;> rfl

theorem result_isVerbatim_eq (f : Forest) (id : ElementId) : (f.isVerbatim id).result =
    if (f.ancestors id).any f.isMarked then .ok true
    else (f.beyond id (f.ancestors id)).result.map fun _ => f.isMarked id := by
  rw [Forest.isVerbatim, inheritsMark, Account.result_bind]
  split
  · rfl
  · rw [Account.result_bind]
    cases (f.beyond id (f.ancestors id)).result <;> rfl

theorem Pruned.linkAbove_end (pruned : f.Pruned g roots) (alive : g.isAlive id = true) :
    g.linkAbove id (g.ancestors id).length = g.surviving (f.linkAbove id (g.ancestors id).length) :=
  pruned.linkAbove alive fun _ hi => (lt_length_ancestors.1 hi).2

theorem Pruned.beyond_of_kept (pruned : f.Pruned g roots) (alive : g.isAlive id = true)
    (kept : ∀ y ∈ f.ancestors id, g.isAlive y = true) :
    (g.beyond id (g.ancestors id)).result = (f.beyond id (f.ancestors id)).result := by
  have same : g.ancestors id = f.ancestors id := by
    rw [pruned.ancestors alive, List.takeWhile_eq_self_iff]
    exact kept
  rw [result_beyond, result_beyond, pruned.linkAbove_end alive, same]
  cases f.linkAbove id (f.ancestors id).length with
  | absent | choice _ => rfl
  | element parent =>
    rw [surviving]
    cases g.isAlive parent <;> rfl

/-- Where an ancestor is lost the walk ends below it. -/
theorem Pruned.beyond_of_lost (pruned : f.Pruned g roots) (alive : g.isAlive id = true)
    (lost : ¬ ∀ y ∈ f.ancestors id, g.isAlive y = true) :
    (g.beyond id (g.ancestors id)).result = .ok () := by
  have shorter : (g.ancestors id).length < (f.ancestors id).length := by
    rw [pruned.ancestors alive]
    refine Nat.lt_of_le_of_ne (List.takeWhile_prefix _).length_le fun same => lost ?_
    exact List.takeWhile_eq_self_iff.1 ((List.takeWhile_prefix _).eq_of_length same)
  obtain ⟨-, parent, link⟩ := lt_length_ancestors.1 shorter
  rw [result_beyond, pruned.linkAbove_end alive, link, surviving]
  cases g.isAlive parent <;> rfl

/-! ## Texts -/

/-- The text of an element was written as it is only for the marks of ancestors that are met no
more, since they are gone or above one that is gone. -/
structure LosesMark (f g : Forest) (id : ElementId) : Prop where
  own : f.isMarked id = false
  met : ∀ y ∈ (f.ancestors id).takeWhile g.isAlive, f.isMarked y = false
  lost : ∃ y ∈ (f.ancestors id).dropWhile g.isAlive, f.isMarked y = true

/-- How the text of an element is written before and after others are gone: in the same way, or
escaped after it was written as it is. (A walk that failed at a choice may come to an end below it.)
-/
def Rewritten (f g : Forest) (id : ElementId) : Prop :=
  (g.isVerbatim id).result = (f.isVerbatim id).result ∨
  f.LosesMark g id ∧ (f.isVerbatim id).result = .ok true ∧ (g.isVerbatim id).result = .ok false ∨
  (¬ ∀ y ∈ f.ancestors id, g.isAlive y = true) ∧
    (∃ c, f.MeetsChoice id c ∧ (f.isVerbatim id).result = .error (.nameMissing c.family "parent")) ∧
    (g.isVerbatim id).result = .ok (f.isMarked id)

theorem Pruned.isVerbatim_of_kept (pruned : f.Pruned g roots) (alive : g.isAlive id = true)
    (kept : ∀ y ∈ f.ancestors id, g.isAlive y = true) :
    (g.isVerbatim id).result = (f.isVerbatim id).result := by
  rw [result_isVerbatim_eq, result_isVerbatim_eq, any_isMarked_ancestors pruned alive,
    List.takeWhile_eq_self_iff.2 kept, pruned.beyond_of_kept alive kept, pruned.isMarked alive]

theorem Pruned.isVerbatim (pruned : f.Pruned g roots) (alive : g.isAlive id = true) :
    f.Rewritten g id := by
  by_cases kept : ∀ y ∈ f.ancestors id, g.isAlive y = true
  · exact .inl (pruned.isVerbatim_of_kept alive kept)
  have split : (f.ancestors id).any f.isMarked =
      (((f.ancestors id).takeWhile g.isAlive).any f.isMarked ||
        ((f.ancestors id).dropWhile g.isAlive).any f.isMarked) := by
    rw [← List.any_append, List.takeWhile_append_dropWhile]
  have after : (g.isVerbatim id).result =
      .ok (((f.ancestors id).takeWhile g.isAlive).any f.isMarked || f.isMarked id) := by
    rw [result_isVerbatim_eq, any_isMarked_ancestors pruned alive, pruned.beyond_of_lost alive kept,
      pruned.isMarked alive]
    cases ((f.ancestors id).takeWhile g.isAlive).any f.isMarked <;> rfl
  rw [Rewritten, after, result_isVerbatim_eq, split]
  cases met : ((f.ancestors id).takeWhile g.isAlive).any f.isMarked with
  | true => exact .inl rfl
  | false =>
    cases lost : ((f.ancestors id).dropWhile g.isAlive).any f.isMarked with
    | true =>
      cases own : f.isMarked id with
      | true => exact .inl rfl
      | false =>
        refine .inr (.inl ⟨⟨own, fun y hy => ?_, List.any_eq_true.1 lost⟩, rfl, rfl⟩)
        simpa using List.any_eq_false.1 met y hy
    | false =>
      rw [Bool.or_false, if_neg Bool.false_ne_true, Bool.false_or, result_beyond]
      cases link : f.linkAbove id (f.ancestors id).length with
      | absent | element _ => exact .inl rfl
      | choice c =>
        by_cases within : (f.ancestors id).length < ancestorLimit
        · refine .inr (.inr ⟨kept, ⟨c, ⟨_, within, link⟩, ?_⟩, rfl⟩)
          simp [within, Except.map]
        · exact .inl (by simp [within, Except.map])

end Hypertext.Forest
