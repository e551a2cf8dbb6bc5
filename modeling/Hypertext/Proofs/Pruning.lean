import Mathlib.Algebra.GroupWithZero.Nat
import Mathlib.Algebra.Order.BigOperators.Group.List
import Mathlib.Algebra.Order.Group.Nat
import Mathlib.Data.List.Nodup
import Hypertext.Forest.Lemmas

/-! What a release and a collection leave of a forest. Whatever is left is as it was, and with it
everything that it holds is left, so that nobody who is left ever misses what it held. -/
namespace Hypertext.Forest
set_option autoImplicit false

/-- What is left of a forest, some references being held from outside. -/
structure Pruned (f g : Forest) (roots : List Ref) : Prop where
  elements : g.elements.size = f.elements.size
  documents : g.documents.size = f.documents.size
  get? : ∀ id, g.isThere (.element id) = true → g.get? id = f.get? id
  roots? : ∀ d, g.isThere (.document d) = true → g.roots? d = f.roots? d
  root : ∀ r ∈ roots, f.isThere r = true → g.isThere r = true
  closed : ∀ r s, g.isThere r = true → s ∈ f.held r → f.isThere s = true → g.isThere s = true

variable {f g : Forest} {roots : List Ref}

theorem Pruned.refl (f : Forest) (roots : List Ref) : f.Pruned f roots :=
  ⟨rfl, rfl, fun _ _ => rfl, fun _ _ => rfl, fun _ _ there => there, fun _ _ _ _ there => there⟩

theorem Pruned.there (pruned : f.Pruned g roots) {r : Ref} (there : g.isThere r = true) :
    f.isThere r = true := by
  cases r with
  | element id =>
    rw [isThere, isAlive, ← pruned.get? id there]
    exact there
  | document d =>
    rw [isThere, ← pruned.roots? d there]
    exact there

theorem Pruned.childrenOf (pruned : f.Pruned g roots) {r : Ref} (there : g.isThere r = true) :
    g.childrenOf r = f.childrenOf r := by
  cases r with
  | element id => rw [Forest.childrenOf, Forest.childrenOf, pruned.get? id there]
  | document d => rw [Forest.childrenOf, Forest.childrenOf, rootsOf, rootsOf, pruned.roots? d there]

/-! ## References that are there -/

theorem nodup_domain (f : Forest) : f.domain.Nodup := by
  refine List.Nodup.filter _ (List.nodup_append.2 ⟨?_, ?_, ?_⟩)
  · exact List.nodup_range.map fun i j h => by simpa using h
  · exact List.nodup_range.map fun i j h => by simpa using h
  · intro r hr s hs
    obtain ⟨i, -, rfl⟩ := List.mem_map.1 hr
    obtain ⟨j, -, rfl⟩ := List.mem_map.1 hs
    exact (nomatch ·)

/-- What is gone holds nothing. -/
theorem held_of_not_there {r : Ref} (gone : ¬ f.isThere r = true) : f.held r = [] := by
  cases r with
  | element id =>
    have none : f.get? id = none := by simpa [isThere, isAlive] using gone
    rw [held, none]
  | document d =>
    have none : f.roots? d = none := by simpa [isThere] using gone
    rw [held, rootsOf, none]
    rfl

/-! ## Collection -/

/-- What a search has found so far of what is there: everything else is unseen, and what a found
one holds is found or pending. -/
structure Explored (f : Forest) (unseen : Array Bool) (found pending : List Ref) : Prop where
  inventory : ∀ r, f.isThere r = true → unseen[r.slot]? = some true ∨ r ∈ found
  explored : ∀ r ∈ found, ∀ s ∈ f.held r, f.isThere s = true → s ∈ found ∨ s ∈ pending

theorem Explored.visit {unseen : Array Bool} {found pending : List Ref} {r : Ref}
    (before : f.Explored unseen found (r :: pending)) (bound : r.slot < unseen.size) :
    f.Explored (unseen.set r.slot false) (r :: found) (f.held r ++ pending) := by
  refine ⟨fun s there => ?_, fun s hs x hx there => ?_⟩
  · by_cases same : s = r
    · exact .inr (same ▸ List.mem_cons_self)
    · have other : r.slot ≠ s.slot := fun h => same (Ref.slot_inj.1 h).symm
      rw [Array.getElem?_set_ne bound other]
      exact (before.inventory s there).imp_right (List.mem_cons_of_mem r)
  · obtain rfl | hs := List.mem_cons.1 hs
    · exact .inr (List.mem_append_left _ hx)
    · obtain hx | hx := before.explored s hs x hx there
      · exact .inl (List.mem_cons_of_mem r hx)
      · obtain rfl | hx := List.mem_cons.1 hx
        · exact .inl List.mem_cons_self
        · exact .inr (List.mem_append_right _ hx)

/-- A reference that is not unseen has been found, if it is there at all. -/
theorem Explored.skip {unseen : Array Bool} {found pending : List Ref} {r : Ref}
    (before : f.Explored unseen found (r :: pending)) (seen : unseen[r.slot]? ≠ some true) :
    (f.isThere r = true → r ∈ found) ∧ f.Explored unseen found pending := by
  have known : f.isThere r = true → r ∈ found := fun there =>
    (before.inventory r there).resolve_left seen
  refine ⟨known, before.inventory, fun s hs x hx there => ?_⟩
  obtain hx | hx := before.explored s hs x hx there
  · exact .inl hx
  · obtain rfl | hx := List.mem_cons.1 hx
    · exact .inl (known there)
    · exact .inr hx

/-- A search finds everything that is there and is pending or held by what it finds. -/
theorem gather_closed (unseen : Array Bool) (found pending : List Ref)
    (before : f.Explored unseen found pending) :
    found ⊆ f.gather unseen found pending ∧
      (∀ r ∈ pending, f.isThere r = true → r ∈ f.gather unseen found pending) ∧
      ∀ r ∈ f.gather unseen found pending, ∀ s ∈ f.held r, f.isThere s = true →
        s ∈ f.gather unseen found pending := by
  -- a reference that is passed over was found before
  have pass : ∀ {unseen : Array Bool} {found pending result : List Ref} {r : Ref},
      f.Explored unseen found (r :: pending) → unseen[r.slot]? ≠ some true → found ⊆ result →
      (∀ s ∈ pending, f.isThere s = true → s ∈ result) →
      ∀ s ∈ r :: pending, f.isThere s = true → s ∈ result := by
    intro unseen found pending result r before seen grows reached s hs there
    obtain rfl | hs := List.mem_cons.1 hs
    · exact grows ((before.skip seen).1 there)
    · exact reached s hs there
  induction unseen, found, pending using gather.induct f with
  | case1 unseen found =>
    rw [gather]
    refine ⟨fun _ h => h, fun r h => (nomatch h), fun r hr s hs there => ?_⟩
    exact (before.explored r hr s hs there).resolve_right (nomatch ·)
  | case2 unseen found r pending bound fresh ih =>
    rw [gather, dif_pos bound, if_pos fresh]
    obtain ⟨grows, reached, closed⟩ := ih (before.visit bound)
    refine ⟨fun s hs => grows (List.mem_cons_of_mem r hs), fun s hs there => ?_, closed⟩
    obtain rfl | hs := List.mem_cons.1 hs
    · exact grows List.mem_cons_self
    · exact reached s (List.mem_append_right _ hs) there
  | case3 unseen found r pending bound old ih =>
    have seen : unseen[r.slot]? ≠ some true := by
      rw [Array.getElem?_eq_getElem bound]
      simpa using old
    rw [gather, dif_pos bound, if_neg old]
    obtain ⟨grows, reached, closed⟩ := ih (before.skip seen).2
    exact ⟨grows, pass before seen grows reached, closed⟩
  | case4 unseen found r pending outside ih =>
    have seen : unseen[r.slot]? ≠ some true := by
      rw [Array.getElem?_eq_none (Nat.le_of_not_lt outside)]
      exact (nomatch ·)
    rw [gather, dif_neg outside]
    obtain ⟨grows, reached, closed⟩ := ih (before.skip seen).2
    exact ⟨grows, pass before seen grows reached, closed⟩

/-- Everything that is there is unseen at first. -/
theorem explored_domain (f : Forest) (roots : List Ref) :
    f.Explored (flags f.slots f.domain) [] roots := by
  refine ⟨fun r there => .inl ?_, fun r h => (nomatch h)⟩
  rw [flags_getElem? _ _ _ (slot_lt_slots there), decide_eq_true (mem_domain there)]

theorem isThere_keepOnly {refs : List Ref} {r : Ref} :
    (f.keepOnly refs).isThere r = true ↔ r ∈ refs ∧ f.isThere r = true := by
  cases r with
  | element id =>
    rw [isThere, isAlive, get?_keepOnly]
    split <;> simp [*, isThere, isAlive]
  | document d =>
    rw [isThere, roots?_keepOnly]
    split <;> simp [*, isThere]

theorem collect_pruned (f : Forest) (roots : List Ref) : f.Pruned (f.collect roots) roots := by
  obtain ⟨-, reached, closed⟩ := gather_closed _ _ _ (f.explored_domain roots)
  refine ⟨by simp [collect, keepOnly, keep], by simp [collect, keepOnly, keep], fun id there => ?_,
    fun d there => ?_, fun r hr there => ?_, fun r s there hs hthere => ?_⟩
  · rw [collect, get?_keepOnly, if_pos (isThere_keepOnly.1 there).1]
  · rw [collect, roots?_keepOnly, if_pos (isThere_keepOnly.1 there).1]
  · exact isThere_keepOnly.2 ⟨reached r hr there, there⟩
  · exact isThere_keepOnly.2 ⟨closed r (isThere_keepOnly.1 there).1 s hs hthere, hthere⟩

/-! ## Release -/

/-- How many times the roots and what is not released hold a reference. -/
def owed (f : Forest) (roots released : List Ref) (r : Ref) : Nat :=
  roots.count r + (f.domain.map fun y => if y ∈ released then 0 else (f.held y).count r).sum

theorem sum_release {l : List Ref} (distinct : l.Nodup) {r : Ref} (mem : r ∈ l)
    {released : List Ref} (new : r ∉ released) (g : Ref → Nat) :
    (l.map fun y => if y ∈ released then 0 else g y).sum =
      (l.map fun y => if y ∈ r :: released then 0 else g y).sum + g r := by
  induction l with
  | nil => nomatch mem
  | cons x l ih =>
    obtain ⟨hx, distinct⟩ := List.nodup_cons.1 distinct
    simp only [List.map_cons, List.sum_cons]
    obtain rfl | mem := List.mem_cons.1 mem
    · have same : (l.map fun y => if y ∈ r :: released then 0 else g y) =
          l.map fun y => if y ∈ released then 0 else g y := by
        refine List.map_congr_left fun y hy => ?_
        have other : y ≠ r := fun h => hx (h ▸ hy)
        simp [other]
      rw [same, if_neg new, if_pos List.mem_cons_self]
      omega
    · have other : x ≠ r := fun h => hx (h ▸ mem)
      rw [ih distinct mem]
      simp only [List.mem_cons, other, false_or]
      omega

/-- What is left of the count of a reference. -/
def left (counts : Array Nat) (r : Ref) : Nat := counts[r.slot]?.getD 0

theorem left_unhold (state : Array Nat × List Ref) (r s : Ref) :
    left (unhold state r).1 s = left state.1 s - if s = r then 1 else 0 := by
  show left (state.1.setIfInBounds r.slot (left state.1 r - 1)) s = _
  by_cases same : s = r
  · subst same
    by_cases bound : s.slot < state.1.size
    · rw [left, Array.getElem?_setIfInBounds_self_of_lt bound, if_pos rfl]
      rfl
    · simp [left, Nat.le_of_not_lt bound]
  · rw [left, Array.getElem?_setIfInBounds_ne fun h => same (Ref.slot_inj.1 h).symm, if_neg same]
    rfl

theorem waiting_unhold (state : Array Nat × List Ref) (r : Ref) :
    (unhold state r).2 = if left state.1 r - 1 = 0 then r :: state.2 else state.2 := rfl

/-- The books of a release: a reference counts for at least what it is owed and what is pending of
it, so that it waits or is released once at most, and only when nothing is left of its count. -/
structure Booked (f : Forest) (roots released pending : List Ref) (state : Array Nat × List Ref) :
    Prop where
  debt : ∀ r, f.isThere r = true → f.owed roots released r + pending.count r ≤ left state.1 r
  spent : ∀ r ∈ state.2 ++ released, left state.1 r = 0
  once : ∀ r, f.isThere r = true → (state.2 ++ released).count r ≤ 1

variable {released pending : List Ref} {state : Array Nat × List Ref} {r : Ref}

theorem Booked.unhold (books : f.Booked roots released (r :: pending) state) :
    f.Booked roots released pending (unhold state r) := by
  refine ⟨fun s there => ?_, fun s hs => ?_, fun s there => ?_⟩
  · have before := books.debt s there
    rw [left_unhold]
    by_cases same : s = r
    · subst same
      rw [List.count_cons_self] at before
      rw [if_pos rfl]
      omega
    · rw [List.count_cons_of_ne (Ne.symm same)] at before
      rwa [if_neg same]
  · rw [waiting_unhold] at hs
    rw [left_unhold]
    have old : s ∈ state.2 ++ released → left state.1 s - (if s = r then 1 else 0) = 0 := fun hs => by
      rw [books.spent s hs, Nat.zero_sub]
    split at hs
    next last =>
      obtain rfl | hs := List.mem_cons.1 hs
      · rw [if_pos rfl, last]
      · exact old hs
    next => exact old hs
  · have before := books.once s there
    rw [waiting_unhold]
    split
    next =>
      show (r :: (state.2 ++ released)).count s ≤ 1
      by_cases same : s = r
      · subst same
        -- its count was not used up before, so that it did not wait
        have new : s ∉ state.2 ++ released := fun hs => by
          have spent := books.spent s hs
          have debt := books.debt s there
          rw [List.count_cons_self] at debt
          omega
        rw [List.count_cons_self, List.count_eq_zero.2 new]
      · rwa [List.count_cons_of_ne (Ne.symm same)]
    next => exact before

theorem Booked.unholdAll (books : f.Booked roots released pending state) :
    f.Booked roots released [] (pending.foldl Forest.unhold state) := by
  induction pending generalizing state with
  | nil => exact books
  | cons r pending ih => exact ih books.unhold

/-- With each release the debt goes down by what the released one held. -/
theorem owed_cons (new : f.isThere r = true → r ∉ released) (s : Ref) :
    f.owed roots (r :: released) s + (f.held r).count s ≤ f.owed roots released s := by
  by_cases there : f.isThere r = true
  · have split := sum_release f.nodup_domain (mem_domain there) (new there)
      fun y => (f.held y).count s
    simp only [owed]
    omega
  · rw [held_of_not_there there, List.count_nil, Nat.add_zero]
    refine Nat.add_le_add_left (List.sum_le_sum fun y _ => ?_) _
    by_cases hy : y ∈ released
    · rw [if_pos (List.mem_cons_of_mem r hy), if_pos hy]
    · rw [if_neg hy]
      split
      · exact Nat.zero_le _
      · exact Nat.le_refl _

/-- What is released next leaves all that it holds pending. -/
theorem Booked.release {counts : Array Nat} {waiting : List Ref}
    (books : f.Booked roots released [] (counts, r :: waiting)) :
    f.Booked roots (r :: released) (f.held r) (counts, waiting) := by
  have moved : (waiting ++ r :: released).Perm (r :: waiting ++ released) := List.perm_middle
  have new : f.isThere r = true → r ∉ released := fun there h => by
    have once := books.once r there
    have hcount := List.count_pos_iff.2 h
    simp only [List.cons_append, List.count_cons_self, List.count_append] at once
    omega
  refine ⟨fun s hs => ?_, fun s hs => books.spent s (moved.mem_iff.1 hs), fun s there => ?_⟩
  · have before := books.debt s hs
    rw [List.count_nil] at before
    exact Nat.le_trans (owed_cons new s) before
  · rw [moved.count_eq]
    exact books.once s there

/-- Nothing that is left owes a hold to what is released, as far as that was there. -/
theorem owed_release (fuel : Nat) {counts : Array Nat} {waiting : List Ref}
    (books : f.Booked roots released [] (counts, waiting)) :
    ∀ r ∈ f.release fuel counts released waiting, f.isThere r = true →
      f.owed roots (f.release fuel counts released waiting) r = 0 := by
  have final : ∀ {released waiting : List Ref} {counts : Array Nat},
      f.Booked roots released [] (counts, waiting) → ∀ r ∈ released, f.isThere r = true →
      f.owed roots released r = 0 := by
    intro released waiting counts books r hr there
    have debt := books.debt r there
    have spent := books.spent r (List.mem_append_right _ hr)
    omega
  induction fuel generalizing counts released waiting with
  | zero =>
    rw [Forest.release]
    exact final books
  | succ fuel ih =>
    cases waiting with
    | nil =>
      rw [Forest.release]
      exact final books
    | cons r waiting =>
      rw [Forest.release]
      exact ih books.release.unholdAll

/-! ### The first books -/

theorem left_hold (refs : List Ref) {counts : Array Nat} {r : Ref} (bound : r.slot < counts.size) :
    left (hold counts refs) r = left counts r + refs.count r := by
  induction refs generalizing counts with
  | nil => rfl
  | cons s refs ih =>
    show left (hold (counts.modify s.slot (· + 1)) refs) r = _
    rw [ih (by simpa using bound), left, left, Array.getElem?_modify]
    by_cases same : s = r
    · subst same
      simp [bound]
      omega
    · rw [if_neg fun h => same (Ref.slot_inj.1 h), List.count_cons_of_ne same]

@[simp] theorem size_hold (refs : List Ref) (counts : Array Nat) :
    (hold counts refs).size = counts.size := by
  induction refs generalizing counts with
  | nil => rfl
  | cons s refs ih => exact (ih _).trans (by simp)

theorem left_holdAll (holders : List Ref) {counts : Array Nat} (bound : r.slot < counts.size) :
    left (holders.foldl (fun counts y => hold counts (f.held y)) counts) r =
      left counts r + (holders.map fun y => (f.held y).count r).sum := by
  induction holders generalizing counts with
  | nil => rfl
  | cons y holders ih =>
    rw [List.foldl_cons, ih (by simpa using bound), left_hold _ bound, List.map_cons,
      List.sum_cons, Nat.add_assoc]

/-- Before a release every reference counts for exactly what it is owed. -/
theorem left_holdings (there : f.isThere r = true) :
    left (f.holdings roots) r = f.owed roots [] r := by
  have bound := slot_lt_slots there
  rw [holdings, left_holdAll _ (by simpa using bound), left_hold _ (by simpa using bound)]
  simp [left, owed, bound]

theorem booked_holdings (f : Forest) (roots : List Ref) :
    f.Booked roots [] [] (f.holdings roots,
      f.domain.filter fun r => (f.holdings roots)[r.slot]?.getD 0 == 0) := by
  refine ⟨fun r there => ?_, fun r hr => ?_, fun r _ => ?_⟩
  · rw [left_holdings there]
    exact Nat.le_refl _
  · rw [List.append_nil] at hr
    simpa [left] using (List.mem_filter.1 hr).2
  · rw [List.append_nil]
    exact List.nodup_iff_count_le_one.1 (f.nodup_domain.filter _) r

/-- Whoever holds what is released is released as well, and no root is released. -/
theorem unheld_closed (there : f.isThere r = true) (gone : r ∈ f.unheld roots) :
    r ∉ roots ∧ ∀ y, f.isThere y = true → r ∈ f.held y → y ∈ f.unheld roots := by
  have nothing : f.owed roots (f.unheld roots) r = 0 :=
    owed_release _ (f.booked_holdings roots) r gone there
  obtain ⟨hroots, hsum⟩ := Nat.add_eq_zero_iff.1 nothing
  refine ⟨List.count_eq_zero.1 hroots, fun y hy held => ?_⟩
  by_contra kept
  have zero := List.sum_eq_zero_iff.1 hsum _ (List.mem_map_of_mem (mem_domain hy))
  rw [if_neg kept] at zero
  exact List.count_eq_zero.1 zero held

theorem isThere_without {refs : List Ref} {r : Ref} :
    (f.without refs).isThere r = true ↔ r ∉ refs ∧ f.isThere r = true := by
  cases r with
  | element id =>
    rw [isThere, isAlive, get?_without]
    split <;> simp [*, isThere, isAlive]
  | document d =>
    rw [isThere, roots?_without]
    split <;> simp [*, isThere]

theorem settle_pruned (f : Forest) (roots : List Ref) : f.Pruned (f.settle roots) roots := by
  have settled : f.settle roots = f ∨ f.settle roots = f.without (f.unheld roots) := by
    unfold settle
    split
    next h => exact .inl rfl
    next => exact .inr rfl
  obtain same | settled := settled
  · rw [same]
    exact .refl f roots
  rw [settled]
  refine ⟨by simp [without, keep], by simp [without, keep], fun id there => ?_, fun d there => ?_,
    fun r hr there => ?_, fun r s there hs hthere => ?_⟩
  · rw [get?_without, if_neg (isThere_without.1 there).1]
  · rw [roots?_without, if_neg (isThere_without.1 there).1]
  · exact isThere_without.2 ⟨fun gone => (unheld_closed there gone).1 hr, there⟩
  · obtain ⟨kept, there⟩ := isThere_without.1 there
    exact isThere_without.2 ⟨fun gone => kept ((unheld_closed hthere gone).2 r there hs), hthere⟩

end Hypertext.Forest
