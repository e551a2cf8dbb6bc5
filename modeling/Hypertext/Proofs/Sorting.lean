import Hypertext.Json.Printer
import Hypertext.Proofs.Erasure

/-! Values apart from their origins and from the order of fields, which JSON text does not keep. Two
values are the same in that sense if their sorted forms are. -/
namespace Hypertext
set_option autoImplicit false

namespace Json

variable {α β : Type}

theorem perm_sortFields (fields : List (String × α)) : (sortFields fields).Perm fields :=
  List.mergeSort_perm _ _

theorem sortFields_sortFields (fields : List (String × α)) :
    sortFields (sortFields fields) = sortFields fields := by
  refine List.mergeSort_of_pairwise (List.pairwise_mergeSort (fun x y z hxy hyz => ?_)
    (fun x y => ?_) fields)
  · rw [decide_eq_true_eq] at hxy hyz ⊢
    exact String.le_trans hxy hyz
  · rw [Bool.or_eq_true, decide_eq_true_eq, decide_eq_true_eq]
    exact String.le_total x.1 y.1

/-- A change of the values does not change the order of the names. -/
theorem map_sortFields (change : α → β) (fields : List (String × α)) :
    (sortFields fields).map (fun field => (field.1, change field.2)) =
      sortFields (fields.map fun field => (field.1, change field.2)) :=
  List.map_mergeSort fun _ _ _ _ => rfl

theorem names_sortFields (fields : List (String × α)) :
    ((sortFields fields).map (·.1)).Perm (fields.map (·.1)) := (perm_sortFields fields).map _

/-- Where no name occurs twice, looking one up is finding a field. -/
theorem lookup_eq_some_iff_mem {fields : List (String × α)} (distinct : (fields.map (·.1)).Nodup)
    {name : String} {a : α} : fields.lookup name = some a ↔ (name, a) ∈ fields := by
  induction fields with
  | nil => exact ⟨(nomatch ·), (nomatch ·)⟩
  | cons field fields ih =>
    obtain ⟨key, b⟩ := field
    rw [List.map_cons, List.nodup_cons] at distinct
    rw [List.lookup_cons, List.mem_cons]
    by_cases hkey : name = key
    · subst hkey
      rw [beq_self_eq_true]
      refine ⟨fun h => .inl (by rw [Option.some.inj h]), fun h => ?_⟩
      obtain h | h := h
      · rw [(Prod.mk.inj h).2]
      · exact absurd (List.mem_map_of_mem (f := (·.1)) h) distinct.1
    · rw [beq_eq_false_iff_ne.2 hkey]
      refine (ih distinct.2).trans ⟨.inr, fun h => ?_⟩
      obtain h | h := h
      · exact absurd (Prod.mk.inj h).1 hkey
      · exact h

theorem lookup_of_perm {fields fields' : List (String × α)} (perm : fields.Perm fields')
    (distinct : (fields'.map (·.1)).Nodup) (name : String) :
    fields.lookup name = fields'.lookup name := by
  have distinct' := (perm.map (·.1)).nodup_iff.2 distinct
  refine Option.ext fun a => ?_
  rw [lookup_eq_some_iff_mem distinct, lookup_eq_some_iff_mem distinct', perm.mem_iff]

theorem lookup_map (change : α → β) (fields : List (String × α)) (name : String) :
    (fields.map fun field => (field.1, change field.2)).lookup name =
      (fields.lookup name).map change := by
  induction fields with
  | nil => rfl
  | cons field fields ih =>
    rw [List.map_cons, List.lookup_cons, List.lookup_cons]
    cases name == field.1 with
    | true => rfl
    | false => exact ih

end Json

namespace Value

variable {ρ : Type}

mutual

/-- The value without origins and with the fields of its records in the order of their names. -/
def sorted : Value ρ → Value ρ
  | .scalar s => .scalar s
  | .list items => .list (sortedList items)
  | .record fields => .record (Json.sortFields (sortedFields fields))
  | .ref r => .ref r
  | .renderer roots pretty indent => .renderer (sortedList roots) (sorted pretty) (sorted indent)
  | .made _ v => sorted v

def sortedList : List (Value ρ) → List (Value ρ)
  | [] => []
  | v :: rest => sorted v :: sortedList rest

def sortedFields : List (String × Value ρ) → List (String × Value ρ)
  | [] => []
  | (name, v) :: rest => (name, sorted v) :: sortedFields rest

end

theorem sortedList_eq_map (items : List (Value ρ)) : sortedList items = items.map sorted := by
  induction items with
  | nil => rfl
  | cons v items ih => rw [sortedList, List.map_cons, ih]

theorem sortedFields_eq_map (fields : List (String × Value ρ)) :
    sortedFields fields = fields.map fun field => (field.1, field.2.sorted) := by
  induction fields with
  | nil => rfl
  | cons field fields ih =>
    obtain ⟨name, v⟩ := field
    rw [sortedFields, List.map_cons, ih]

theorem names_sortedFields (fields : List (String × Value ρ)) :
    (sortedFields fields).map (·.1) = fields.map (·.1) := by
  rw [sortedFields_eq_map, List.map_map]
  rfl

theorem sorted_record (fields : List (String × Value ρ)) :
    (record fields).sorted =
      record ((Json.sortFields fields).map fun field => (field.1, field.2.sorted)) := by
  rw [sorted, sortedFields_eq_map, Json.map_sortFields]

/-! ## Origins do not count -/

mutual

theorem sorted_erased (v : Value ρ) : v.erased.sorted = v.sorted := by
  match v with
  | .scalar _ | .ref _ => rfl
  | .list items =>
    show list (sortedList (substList .ref items)) = list (sortedList items)
    rw [sortedList_subst items]
  | .record fields =>
    show record (Json.sortFields (sortedFields (substFields .ref fields))) =
      record (Json.sortFields (sortedFields fields))
    rw [sortedFields_subst fields]
  | .renderer roots pretty indent =>
    show renderer (sortedList (substList .ref roots)) pretty.erased.sorted indent.erased.sorted =
      renderer (sortedList roots) pretty.sorted indent.sorted
    rw [sortedList_subst roots, sorted_erased pretty, sorted_erased indent]
  | .made _ v => exact sorted_erased v

theorem sortedList_subst (items : List (Value ρ)) :
    sortedList (substList .ref items) = sortedList items := by
  match items with
  | [] => rfl
  | v :: rest =>
    show v.erased.sorted :: sortedList (substList .ref rest) = v.sorted :: sortedList rest
    rw [sorted_erased v, sortedList_subst rest]

theorem sortedFields_subst (fields : List (String × Value ρ)) :
    sortedFields (substFields .ref fields) = sortedFields fields := by
  match fields with
  | [] => rfl
  | (name, v) :: rest =>
    show (name, v.erased.sorted) :: sortedFields (substFields .ref rest) =
      (name, v.sorted) :: sortedFields rest
    rw [sorted_erased v, sortedFields_subst rest]

end

theorem sorted_of_erased {v w : Value ρ} (h : v.erased = w) : v.sorted = w.sorted := by
  rw [← sorted_erased v, h]

/-! ## What is sorted stays sorted -/

theorem sortedFields_sortFields (fields : List (String × Value ρ)) :
    sortedFields (Json.sortFields fields) = Json.sortFields (sortedFields fields) := by
  rw [sortedFields_eq_map, sortedFields_eq_map, Json.map_sortFields]

mutual

theorem sorted_sorted (v : Value ρ) : v.sorted.sorted = v.sorted := by
  match v with
  | .scalar _ | .ref _ => rfl
  | .list items => rw [sorted, sorted, sortedList_sortedList items]
  | .record fields =>
    rw [sorted, sorted, sortedFields_sortFields, sortedFields_sortedFields fields,
      Json.sortFields_sortFields]
  | .renderer roots pretty indent =>
    rw [sorted, sorted, sortedList_sortedList roots, sorted_sorted pretty, sorted_sorted indent]
  | .made _ v => exact sorted_sorted v

theorem sortedList_sortedList (items : List (Value ρ)) :
    sortedList (sortedList items) = sortedList items := by
  match items with
  | [] => rfl
  | v :: rest => rw [sortedList, sortedList, sorted_sorted v, sortedList_sortedList rest]

theorem sortedFields_sortedFields (fields : List (String × Value ρ)) :
    sortedFields (sortedFields fields) = sortedFields fields := by
  match fields with
  | [] => rfl
  | (name, v) :: rest =>
    rw [sortedFields, sortedFields, sorted_sorted v, sortedFields_sortedFields rest]

end

/-! ## What sorting leaves as it is -/

theorem isRecord_sorted (v : Value ρ) : v.sorted.isRecord = v.isRecord := by
  match v with
  | .made o v => exact isRecord_sorted v
  | .scalar _ | .list _ | .record _ | .ref _ | .renderer .. => rfl

theorem erased_of_sorted_scalar {v : Value ρ} {s : Scalar} (h : v.sorted = .scalar s) :
    v.erased = .scalar s := by
  match v with
  | .made o w => exact erased_of_sorted_scalar (v := w) h
  | .scalar t => exact h
  | .list _ | .record _ | .ref _ | .renderer .. => cases h

theorem items?_of_sorted {v : Value ρ} {items : List (Value ρ)} (h : v.sorted = .list items) :
    ∃ parts, v.items? = some parts ∧ parts.map sorted = items := by
  match v with
  | .made o w => exact items?_of_sorted (v := w) h
  | .list parts =>
    refine ⟨parts, rfl, ?_⟩
    rw [← sortedList_eq_map]
    exact list.inj h
  | .scalar _ | .record _ | .ref _ | .renderer .. => cases h

/-- In a list of scalars there is nothing to sort. -/
theorem map_erased_of_map_sorted {parts : List (Value ρ)} {ss : List Scalar}
    (h : parts.map sorted = ss.map .scalar) : parts.map erased = ss.map .scalar := by
  induction ss generalizing parts with
  | nil => rw [List.map_eq_nil_iff.1 h]; rfl
  | cons s ss ih =>
    obtain ⟨w, parts, rfl, hw, hrest⟩ := List.map_eq_cons_iff.1 h
    rw [List.map_cons, List.map_cons, ih hrest, erased_of_sorted_scalar hw]

theorem erased_of_sorted_scalars {v : Value ρ} {ss : List Scalar}
    (h : v.sorted = .list (ss.map .scalar)) : v.erased = .list (ss.map .scalar) := by
  match v with
  | .made o w => exact erased_of_sorted_scalars (v := w) h
  | .list parts =>
    have hparts : parts.map sorted = ss.map .scalar := by
      rw [← sortedList_eq_map]
      exact list.inj h
    show list (substList .ref parts) = _
    rw [substList_eq_map, ← map_erased_of_map_sorted hparts]
    rfl
  | .scalar _ | .record _ | .ref _ | .renderer .. => cases h

end Value

end Hypertext
