import Hypertext.Attributes.Shelf
import Hypertext.Proofs.SetAlgebra

/-! Operations in place against those that make a new collection. The new collection is built from
what is left over, the old one loses and gains pair after pair: a difference discards, an
intersection discards a difference, a symmetric difference toggles. The main statement is
`inPlace_leaves_result`: with any right operand, the left one itself too, the pairs come out the
same, and no other collection of the shelf changes. -/
namespace Hypertext.Attributes
set_option autoImplicit false

variable {c l r : Attributes} {a b : Attribute}

/-! ## Discarding -/

theorem toList_discard (distinct : c.Distinct) (b : Attribute) :
    (c.discard b).toList = c.toList.filter fun a => decide (a ≠ b) := by
  by_cases hb : b ∈ c.toList
  · rw [discard, if_pos ((has_iff_mem distinct).2 hb), erase]
    refine List.filter_congr fun a ha => ?_
    have hkey : a.key = b.key ↔ a = b :=
      ⟨fun same => distinct.eq_of_key ha hb same, fun same => congrArg _ same⟩
    rw [Bool.eq_iff_iff, bne_iff_ne, decide_eq_true_iff, ne_eq, ne_eq, hkey]
  · rw [discard, if_neg fun h => hb ((has_iff_mem distinct).1 h)]
    have hself : c.toList.filter (fun a => decide (a ≠ b)) = c.toList :=
      List.filter_eq_self.2 fun a ha => decide_eq_true fun same => hb (same ▸ ha)
    exact hself.symm

theorem toList_foldl_discard (distinct : c.Distinct) (pairs : List Attribute) :
    (pairs.foldl discard c).toList = c.toList.filter fun a => decide (a ∉ pairs) := by
  induction pairs generalizing c with
  | nil => simp
  | cons b pairs ih =>
    rw [List.foldl_cons, ih (distinct_discard distinct b), toList_discard distinct,
      List.filter_filter]
    refine List.filter_congr fun a _ => ?_
    rw [Bool.eq_iff_iff, Bool.and_eq_true, decide_eq_true_iff, decide_eq_true_iff,
      decide_eq_true_iff, List.mem_cons, not_or, and_comm]

/-! ## Toggling -/

theorem distinct_toggle (distinct : c.Distinct) (b : Attribute) : (c.toggle b).Distinct := by
  unfold toggle
  split
  · exact distinct_discard distinct b
  · exact distinct_add distinct b

/-- A pair that is there is the only one with its key. -/
theorem toList_toggle_of_mem (distinct : c.Distinct) (hb : b ∈ c.toList) :
    (c.toggle b).toList = c.toList.filter (·.key != b.key) := by
  have hhas := (has_iff_mem distinct).2 hb
  rw [toggle, if_pos hhas, discard, if_pos hhas, erase]

theorem toList_toggle_of_notMem (distinct : c.Distinct) (hb : b ∉ c.toList) :
    (c.toggle b).toList = c.toList.filter (·.key != b.key) ++ [b] := by
  rw [toggle, if_neg fun h => hb ((has_iff_mem distinct).1 h), toList_add_of_notMem distinct hb]

theorem filter_lacks_cons (pairs : List Attribute) :
    c.toList.filter (fun a => decide (a.key ∉ (b :: pairs).map (·.key))) =
      (c.toList.filter (·.key != b.key)).filter fun a => decide (a.key ∉ pairs.map (·.key)) := by
  rw [List.filter_filter]
  refine List.filter_congr fun a _ => ?_
  rw [Bool.eq_iff_iff, Bool.and_eq_true, decide_eq_true_iff, decide_eq_true_iff, bne_iff_ne,
    List.map_cons, List.mem_cons, not_or, and_comm]

/-- Whatever has a key among the pairs is taken out, and pairs that are new come last, in their
order. -/
theorem toList_foldl_toggle {pairs : List Attribute} (nodup : (pairs.map (·.key)).Nodup)
    (distinct : c.Distinct) : (pairs.foldl toggle c).toList =
      c.toList.filter (fun a => decide (a.key ∉ pairs.map (·.key))) ++
        pairs.filter (fun b => decide (b ∉ c.toList)) := by
  -- the first pair goes or takes the place of the one with its key; the others have other keys, so
  -- that each of them is new afterwards exactly if it was new before
  induction pairs generalizing c with
  | nil => simp
  | cons b pairs ih =>
    rw [List.map_cons, List.nodup_cons] at nodup
    obtain ⟨new, nodup⟩ := nodup
    have other : ∀ x ∈ pairs, x.key ≠ b.key := by
      intro x hx same
      exact new (same ▸ List.mem_map_of_mem hx)
    rw [List.foldl_cons, ih nodup (distinct_toggle distinct b), filter_lacks_cons]
    by_cases hb : b ∈ c.toList
    · have hfirst : (b :: pairs).filter (fun x => decide (x ∉ c.toList)) =
          pairs.filter fun x => decide (x ∉ c.toList) := List.filter_cons_of_neg (by simpa using hb)
      have hrest : pairs.filter (fun x => decide (x ∉ (c.toggle b).toList)) =
          pairs.filter fun x => decide (x ∉ c.toList) := by
        refine List.filter_congr fun x hx => ?_
        simp [toList_toggle_of_mem distinct hb, other x hx]
      rw [hfirst, hrest, toList_toggle_of_mem distinct hb]
    · have hfirst : (b :: pairs).filter (fun x => decide (x ∉ c.toList)) =
          b :: pairs.filter fun x => decide (x ∉ c.toList) :=
        List.filter_cons_of_pos (by simpa using hb)
      have hadd : c.toggle b = c.add b := by
        rw [toggle, if_neg fun h => hb ((has_iff_mem distinct).1 h)]
      have hlast : [b].filter (fun a => decide (a.key ∉ pairs.map (·.key))) = [b] :=
        List.filter_cons_of_pos (by simpa using new)
      rw [hfirst, hadd, filter_notMem_add distinct hb other, ← hadd,
        toList_toggle_of_notMem distinct hb, List.filter_append, hlast, List.append_assoc]
      rfl

/-! ## In place and anew -/

theorem ext_toList {c d : Attributes} (h : c.toList = d.toList) : c = d := by
  cases c
  cases d
  exact congrArg _ h

theorem unite_eq_union (hl : l.Distinct) (r : Operand) : l.unite r = l.union r := by
  rw [unite, union, ofList_append, ofList_toList hl]

theorem subtract_eq_diff (hl : l.Distinct) (hr : r.Distinct) :
    l.subtract (.collection r) = l.diff (.collection r) := by
  apply ext_toList
  rw [toList_diff hl hr]
  exact toList_foldl_discard hl r.toList

/-- An intersection in place keeps the order of the left operand. -/
theorem toList_restrict (hl : l.Distinct) (hr : r.Distinct) :
    (l.restrict (.collection r)).toList =
      l.toList.filter fun a => decide (a ∈ (l.inter (.collection r)).toList) := by
  rw [restrict, toList_foldl_discard hl]
  refine List.filter_congr fun a ha => ?_
  rw [Bool.eq_iff_iff, decide_eq_true_iff, decide_eq_true_iff, mem_diff hl hr, mem_inter hl hr]
  tauto

/-- What the right operand has of its own overrides nothing but pairs of the left one whose keys the
right operand has too. -/
theorem toList_symmDiff (hl : l.Distinct) (hr : r.Distinct) :
    (l.symmDiff (.collection r)).toList =
      l.toList.filter (fun a => decide (a.key ∉ r.toList.map (·.key))) ++
        r.toList.filter (fun b => decide (b ∉ l.toList)) := by
  have hsymm : l.symmDiff (.collection r) =
      (l.diff (.collection r)).union (.collection (r.diff (.collection l))) := rfl
  have hleft : ∀ a ∈ l.toList, Agrees (r.diff (.collection l)).toList a ∧ a ∉ r.toList ↔
      a.key ∉ r.toList.map (·.key) := by
    intro a ha
    rw [List.mem_map]
    constructor
    · rintro ⟨agrees, har⟩ ⟨b, hbr, same⟩
      by_cases hbl : b ∈ l.toList
      · exact har (hl.eq_of_key hbl ha same ▸ hbr)
      · exact har (agrees b ((mem_diff hr hl).2 ⟨hbr, hbl⟩) same ▸ hbr)
    · intro lacks
      refine ⟨fun b hb same => ?_, fun har => lacks ⟨a, har, rfl⟩⟩
      exact absurd ⟨b, ((mem_diff hr hl).1 hb).1, same⟩ lacks
  have hright : ∀ b ∈ r.toList, b ∉ (l.diff (.collection r)).toList := by
    intro b hbr hb
    exact ((mem_diff hl hr).1 hb).2 hbr
  rw [hsymm, toList_union (distinct_diff l r) (distinct_diff r l)]
  congr 1
  · rw [toList_diff hl hr, List.filter_filter]
    refine List.filter_congr fun a ha => ?_
    rw [Bool.eq_iff_iff, Bool.and_eq_true, decide_eq_true_iff, decide_eq_true_iff,
      decide_eq_true_iff, hleft a ha]
  · rw [toList_diff hr hl]
    refine List.filter_eq_self.2 fun b hb => decide_eq_true ?_
    exact hright b (List.mem_filter.1 hb).1

theorem toggleAll_eq_symmDiff (hl : l.Distinct) (hr : r.Distinct) :
    l.toggleAll (.collection r) = l.symmDiff (.collection r) := by
  apply ext_toList
  rw [toList_symmDiff hl hr]
  exact toList_foldl_toggle hr hl

/-- The operation that makes a new collection of what this one leaves in its left operand. -/
def Operation.anew : Operation → Operation
  | .unite => .union
  | .restrict => .inter
  | .subtract => .diff
  | .toggleAll => .symmDiff
  | operation => operation

theorem Operation.inPlace_anew (operation : Operation) : operation.anew.inPlace = false := by
  cases operation <;> rfl

/-- No key twice on the right: a collection always, a list of pairs if it has none. -/
def Operand.Distinct (r : Operand) : Prop := (r.toList.map (·.key)).Nodup

theorem Operand.toList_collected {r : Operand} (distinct : r.Distinct) :
    r.collected.toList = r.toList := by
  cases r with
  | collection c => rfl
  | pairs pairs => exact toList_ofList distinct

theorem Operand.distinct_collected {r : Operand} (distinct : r.Distinct) :
    r.collected.Distinct := by
  rw [Attributes.Distinct, r.toList_collected distinct]
  exact distinct

/-- An operation sees of a right operand without repeated keys only its pairs in their order. -/
theorem Operation.apply_collected {r : Operand} (distinct : r.Distinct) (l : Attributes)
    (operation : Operation) :
    operation.apply l r = operation.apply l (.collection r.collected) := by
  have hlist : (Operand.collection r.collected).toList = r.toList := r.toList_collected distinct
  have hdiff : l.diff r = l.diff (.collection r.collected) := rfl
  cases operation with
  | union => simp only [apply, Attributes.union, hlist]
  | inter => simp only [apply, Attributes.inter, hlist]
  | diff => exact hdiff
  | symmDiff => rfl
  | unite => simp only [apply, Attributes.unite, hlist]
  | restrict => simp only [apply, Attributes.restrict, hdiff]
  | subtract => simp only [apply, Attributes.subtract, hlist]
  | toggleAll => rfl

/-- What an operation in place leaves, from what the other operation makes of the two operands. Only
an intersection takes its order from the right operand when it is made anew. -/
def Operation.kept (l made : Attributes) : Operation → List Attribute
  | .restrict => l.toList.filter fun a => decide (a ∈ made.toList)
  | _ => made.toList

theorem Operation.toList_apply_of_inPlace {operation : Operation}
    (inPlace : operation.inPlace = true) (hl : l.Distinct) {r : Operand} (hr : r.Distinct) :
    (operation.apply l r).toList = operation.kept l (operation.anew.apply l r) := by
  have hcollected := r.distinct_collected hr
  rw [apply_collected hr l operation, apply_collected hr l operation.anew]
  cases operation with
  | unite => exact congrArg toList (unite_eq_union hl _)
  | restrict => exact toList_restrict hl hcollected
  | subtract => exact congrArg toList (subtract_eq_diff hl hcollected)
  | toggleAll => exact congrArg toList (toggleAll_eq_symmDiff hl hcollected)
  | union => cases inPlace
  | inter => cases inPlace
  | diff => cases inPlace
  | symmDiff => cases inPlace

/-- Whichever order they are in, the pairs are the same. -/
theorem Operation.mem_apply_of_inPlace {operation : Operation} (inPlace : operation.inPlace = true)
    (hl : l.Distinct) {r : Operand} (hr : r.Distinct) :
    a ∈ (operation.apply l r).toList ↔ a ∈ (operation.anew.apply l r).toList := by
  rw [toList_apply_of_inPlace inPlace hl hr]
  cases operation with
  | restrict =>
    have hcollected := r.distinct_collected hr
    have hanew : restrict.anew.apply l r = l.inter (.collection r.collected) :=
      inter.apply_collected hr l
    rw [hanew, kept, List.mem_filter, decide_eq_true_iff, mem_inter hl hcollected]
    tauto
  | _ => rfl

/-! ## Collections on a shelf -/

theorem distinct_foldl {change : Attributes → Attribute → Attributes}
    (step : ∀ c : Attributes, c.Distinct → ∀ a, (change c a).Distinct) (pairs : List Attribute)
    (distinct : c.Distinct) : (pairs.foldl change c).Distinct := by
  induction pairs generalizing c with
  | nil => exact distinct
  | cons a pairs ih => exact ih (step c distinct a)

theorem Operation.distinct_apply (operation : Operation) (hl : l.Distinct) (r : Operand) :
    (operation.apply l r).Distinct := by
  cases operation with
  | union | inter | diff | symmDiff => exact distinct_ofList _
  | unite => exact distinct_foldl (fun _ h a => distinct_add h a) _ hl
  | restrict | subtract => exact distinct_foldl (fun _ h a => distinct_discard h a) _ hl
  | toggleAll => exact distinct_foldl (fun _ h a => distinct_toggle h a) _ hl

theorem Call.distinct_run {ρ : Type} (distinct : c.Distinct) (call : Call ρ) :
    (call.run c).2.Distinct := by
  cases call with
  | set key value => exact distinct_write distinct key _
  | assign key value => exact distinct_write distinct key _
  | get key fallback => simp only [run]; split <;> exact distinct
  | getItem key => simp only [run]; split <;> exact distinct
  | deleteItem key =>
    simp only [run]
    split
    · exact distinct_erase distinct key
    · exact distinct
  | remove key => exact distinct_erase distinct key
  | add pair => exact distinct_add distinct pair
  | discard pair => exact distinct_discard distinct pair
  | contains item =>
    cases item with
    | scalar x => cases x <;> exact distinct
    | _ => exact distinct
  | pop =>
    cases h : c.pop? with
    | none => simpa only [run, h] using distinct
    | some popped =>
      obtain ⟨a, -, rfl⟩ := Option.map_eq_some_iff.1 h
      simpa only [run, h] using distinct_discard distinct a
  | clear => exact List.nodup_nil
  | _ => exact distinct

namespace Shelf

variable {ρ : Type} {s t : Shelf} {name other : String} {cell : Nat}

/-- Every collection on the shelf has distinct keys. -/
def Distinct (s : Shelf) : Prop :=
  ∀ (cell : Nat) (c : Attributes), s.cells[cell]? = some c → c.Distinct

theorem cell?_bind (s : Shelf) (name other : String) (cell : Nat) :
    (s.bind name cell).cell? other = if other = name then some cell else s.cell? other := by
  by_cases same : other = name
  · simp [cell?, bind, same]
  · have hrest : ∀ l : List (String × Nat),
        (l.filter (·.1 != name)).lookup other = l.lookup other := by
      intro l
      induction l with
      | nil => rfl
      | cons p l ih =>
        by_cases hp : p.1 = name
        · have hne : (other == p.1) = false := by simpa [hp] using same
          rw [List.filter_cons_of_neg (by simpa using hp), ih, List.lookup_cons, hne]
        · rw [List.filter_cons_of_pos (by simpa using hp), List.lookup_cons, List.lookup_cons, ih]
    have hne : (other == name) = false := by simpa using same
    rw [if_neg same, cell?, bind, List.lookup_cons, hne]
    exact hrest s.names

theorem get_eq_ok_iff : s.get name = .ok c ↔
    ∃ cell, s.cell? name = some cell ∧ s.cells[cell]? = some c := by
  have hget : s.get? name = some c ↔ ∃ cell, s.cell? name = some cell ∧ s.cells[cell]? = some c :=
    Option.bind_eq_some_iff
  rw [← hget, get]
  cases s.get? name <;> simp

theorem get_store (s : Shelf) (name : String) (c : Attributes) :
    (s.store name c).get name = .ok c := by
  refine get_eq_ok_iff.2 ⟨s.cells.size, ?_, Array.getElem?_push_size⟩
  rw [store, cell?_bind, if_pos rfl]

theorem getElem?_store (s : Shelf) (name : String) (c : Attributes) {other : Nat}
    (h : other < s.cells.size) : (s.store name c).cells[other]? = s.cells[other]? := by
  have hpush : (s.cells.push c)[other]? = s.cells[other]? := by
    rw [Array.getElem?_push, if_neg (Nat.ne_of_lt h)]
  exact hpush

theorem distinct_store (distinct : s.Distinct) (name : String) (hc : c.Distinct) :
    (s.store name c).Distinct := by
  intro cell d hd
  have hpush : (s.cells.push c)[cell]? = some d := hd
  rw [Array.getElem?_push] at hpush
  split at hpush
  · exact Option.some.inj hpush ▸ hc
  · exact distinct cell d hpush

theorem distinct_update (distinct : s.Distinct) (name : String) (hc : c.Distinct) :
    (s.update name c).Distinct := by
  unfold update
  split
  next cell _ =>
    intro i d hd
    rw [Array.getElem?_setIfInBounds] at hd
    split at hd
    · split at hd
      · exact Option.some.inj hd ▸ hc
      · cases hd
    · exact distinct i d hd
  next => exact distinct_store distinct name hc

theorem exists_of_bind {ε α β : Type} {first : Except ε α} {next : α → Except ε β} {b : β}
    (h : (first >>= next) = .ok b) : ∃ a, first = .ok a ∧ next a = .ok b := by
  cases first with
  | error e => cases h
  | ok a => exact ⟨a, rfl, h⟩

theorem distinct_get (distinct : s.Distinct) (h : s.get name = .ok c) : c.Distinct := by
  obtain ⟨cell, -, hc⟩ := get_eq_ok_iff.1 h
  exact distinct cell c hc

theorem distinct_answer (distinct : s.Distinct) {request : Request ρ} {answer : Value ρ}
    (h : s.answer request = .ok (answer, t)) : t.Distinct := by
  cases request with
  | create name pairs =>
    cases h
    exact distinct_store distinct name (distinct_ofList pairs)
  | call name call =>
    obtain ⟨c, hc, h⟩ := exists_of_bind h
    obtain ⟨call, -, h⟩ := exists_of_bind h
    have hrun := call.distinct_run (distinct_get distinct hc)
    generalize call.run c = outcome at h hrun
    obtain ⟨value, d⟩ := outcome
    obtain ⟨value, -, h⟩ := exists_of_bind h
    cases h
    exact distinct_update distinct name hrun
  | operate left operation right result =>
    obtain ⟨l, hl, h⟩ := exists_of_bind h
    obtain ⟨r, hr, h⟩ := exists_of_bind h
    have happly := operation.distinct_apply (distinct_get distinct hl) r
    dsimp only at h
    split at h
    · have hupdate := distinct_update distinct left happly
      split at h
      · cases h
        exact hupdate
      · cases h
        exact hupdate
    · cases h
      exact distinct_store distinct result happly
  | compare left how right =>
    obtain ⟨l, -, h⟩ := exists_of_bind h
    obtain ⟨r, -, h⟩ := exists_of_bind h
    obtain ⟨b, -, h⟩ := exists_of_bind h
    cases h
    exact distinct
  | disjoint left right =>
    obtain ⟨l, -, h⟩ := exists_of_bind h
    obtain ⟨r, -, h⟩ := exists_of_bind h
    cases h
    exact distinct

theorem distinct_run (distinct : s.Distinct) (request : Request ρ) :
    (s.run request).2.Distinct := by
  unfold run
  split
  next h => exact distinct_answer distinct h
  next => exact distinct

/-- The shelf after some requests, whether they were answered or not. -/
def after (requests : List (Request ρ)) : Shelf :=
  requests.foldl (fun s request => (s.run request).2) {}

theorem distinct_after (requests : List (Request ρ)) : (after requests).Distinct := by
  have step : ∀ s : Shelf, s.Distinct →
      (requests.foldl (fun s request => (s.run request).2) s).Distinct := by
    induction requests with
    | nil => exact fun _ h => h
    | cons request requests ih => exact fun s h => ih _ (distinct_run h request)
  refine step {} fun cell c h => ?_
  cases h

/-! ## In place and anew on a shelf -/

variable {left result fresh : String} {right : String ⊕ List Attribute} {r : Operand}
  {operation : Operation}

theorem run_of_inPlace (inPlace : operation.inPlace = true) (hcell : s.cell? left = some cell)
    (hl : s.cells[cell]? = some l) (hr : s.operand right = .ok r) :
    s.run (.operate left operation right result : Request ρ) =
      (.ok .null, Shelf.bind { s with cells := s.cells.setIfInBounds cell (operation.apply l r) }
        result cell) := by
  have hget := get_eq_ok_iff.2 ⟨cell, hcell, hl⟩
  have hupdate : s.update left (operation.apply l r) =
      { s with cells := s.cells.setIfInBounds cell (operation.apply l r) } := by
    rw [update, hcell]
  have hanswer : s.answer (.operate left operation right result : Request ρ) =
      .ok (.null, Shelf.bind { s with cells := s.cells.setIfInBounds cell (operation.apply l r) }
        result cell) := by
    simp only [answer, hget, hr, inPlace, hupdate, Bind.bind, Except.bind, if_true]
    have hsame : Shelf.cell? { s with cells := s.cells.setIfInBounds cell (operation.apply l r) }
      left = some cell := hcell
    rw [hsame]
    rfl
  rw [run, hanswer]

theorem run_of_anew (anew : operation.inPlace = false) (hl : s.get left = .ok l)
    (hr : s.operand right = .ok r) :
    s.run (.operate left operation right result : Request ρ) =
      (.ok .null, s.store result (operation.apply l r)) := by
  have hanswer : s.answer (.operate left operation right result : Request ρ) =
      .ok (.null, s.store result (operation.apply l r)) := by
    simp only [answer, hl, hr, anew, Bind.bind, Except.bind, Bool.false_eq_true, if_false]
    rfl
  rw [run, hanswer]

theorem distinct_operand (distinct : s.Distinct) (hr : s.operand right = .ok r)
    (nodup : ∀ pairs, right = .inr pairs → (pairs.map (·.key)).Nodup) : r.Distinct := by
  cases right with
  | inl name =>
    rw [operand] at hr
    cases hget : s.get name with
    | error fault => rw [hget] at hr; cases hr
    | ok c =>
      rw [hget] at hr
      cases hr
      exact distinct_get distinct hget
  | inr pairs =>
    cases hr
    exact nodup pairs rfl

/-- The shelf `t` after an operation in place on a cell, next to the shelf `u` after the operation
that makes a new collection, both from the shelf `s`. -/
structure Agree (s t u : Shelf) (operation : Operation) (cell : Nat) (l : Attributes)
    (result fresh : String) : Prop where
  /-- The pairs are the same, in the same order; an intersection keeps the order of the left
  operand. -/
  same : ∃ kept made, t.cells[cell]? = some kept ∧ u.get fresh = .ok made ∧
    kept.toList = operation.kept l made ∧ ∀ a, a ∈ kept.toList ↔ a ∈ made.toList
  /-- No other collection changes in place, and no further one comes to be. -/
  others : ∀ other, other ≠ cell → t.cells[other]? = s.cells[other]?
  /-- The result is the changed collection itself. -/
  names : ∀ name, t.cell? name = if name = result then some cell else s.cell? name
  /-- What was there is untouched by the other operation, its left operand too. -/
  apart : ∀ other, other < s.cells.size → u.cells[other]? = s.cells[other]?

/-- On any shelf that requests lead to, with any right operand, a list of pairs having no key twice:
an operation in place leaves in its left operand what the other one makes of the two. The right
operand may be the left one, under the same or another name. -/
theorem inPlace_leaves_result (requests : List (Request ρ)) (hs : s = after requests)
    (inPlace : operation.inPlace = true) (hcell : s.cell? left = some cell)
    (hl : s.cells[cell]? = some l) (hr : s.operand right = .ok r)
    (nodup : ∀ pairs, right = .inr pairs → (pairs.map (·.key)).Nodup) :
    ∃ t u, s.run (.operate left operation right result : Request ρ) = (.ok .null, t) ∧
      s.run (.operate left operation.anew right fresh : Request ρ) = (.ok .null, u) ∧
      Agree s t u operation cell l result fresh := by
  have distinct : s.Distinct := hs ▸ distinct_after requests
  have hdistinct := distinct_operand distinct hr nodup
  have hkeys := distinct cell l hl
  obtain ⟨hbound, -⟩ := Array.getElem?_eq_some_iff.1 hl
  refine ⟨_, _, run_of_inPlace inPlace hcell hl hr,
    run_of_anew operation.inPlace_anew (get_eq_ok_iff.2 ⟨cell, hcell, hl⟩) hr, ?_⟩
  exact {
    same := ⟨operation.apply l r, operation.anew.apply l r,
      Array.getElem?_setIfInBounds_self_of_lt hbound, get_store s fresh _,
      operation.toList_apply_of_inPlace inPlace hkeys hdistinct,
      fun a => operation.mem_apply_of_inPlace inPlace hkeys hdistinct⟩
    others := fun other hne => Array.getElem?_setIfInBounds_ne hne.symm
    names := fun name => cell?_bind _ result name cell
    apart := fun other hother => getElem?_store s fresh _ hother }

/-- Two collections that bind one key to different values, the first of which has a further name. -/
def conflict : List (Request Empty) :=
  [.create "wide" wide.toList, .create "narrow" narrow.toList,
    .operate "wide" .unite (.inr []) "alias"]

theorem inPlace_leaves_result_of_alias :
    (after conflict).cell? "wide" = some 0 ∧ (after conflict).cell? "alias" = some 0 ∧
    (after conflict).cells[0]? = some wide ∧
    (∃ t u, (after conflict).run
        (.operate "wide" .toggleAll (.inr narrow.toList) "out" : Request Empty) = (.ok .null, t) ∧
      (after conflict).run
        (.operate "wide" .symmDiff (.inr narrow.toList) "new" : Request Empty) = (.ok .null, u) ∧
      Agree (after conflict) t u .toggleAll 0 wide "out" "new") ∧
    ∃ t u, (after conflict).run
        (.operate "wide" .restrict (.inl "alias") "out" : Request Empty) = (.ok .null, t) ∧
      (after conflict).run
        (.operate "wide" .inter (.inl "alias") "new" : Request Empty) = (.ok .null, u) ∧
      Agree (after conflict) t u .restrict 0 wide "out" "new" := by
  have hwide : (after conflict).cell? "wide" = some 0 := by decide
  have halias : (after conflict).cell? "alias" = some 0 := by decide
  have hcell : (after conflict).cells[0]? = some wide := by decide
  have hself : (after conflict).operand (.inl "alias") = .ok (.collection wide) := rfl
  refine ⟨hwide, halias, hcell, ?_, ?_⟩
  · refine inPlace_leaves_result conflict rfl rfl hwide hcell rfl ?_
    intro pairs h
    cases h
    decide
  · refine inPlace_leaves_result conflict rfl rfl hwide hcell hself ?_
    intro pairs h
    cases h

end Shelf

end Hypertext.Attributes
