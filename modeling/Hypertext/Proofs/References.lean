import Hypertext.Proofs.Upkeep
import Hypertext.Value.Origin
import Hypertext.Value.Spelling

/-! The references in values. A part of a value refers to nothing else than the whole, and a value that
is made of another refers to what the other's references were replaced by. -/
namespace Hypertext.Value
set_option autoImplicit false

variable {ρ σ τ : Type} {r : ρ} {s : σ}

theorem mem_refsList_iff {vs : List (Value ρ)} : r ∈ refsList vs ↔ ∃ v ∈ vs, r ∈ v.refs := by
  refine ⟨fun hr => ?_, fun ⟨v, hv, hr⟩ => mem_refsList hv hr⟩
  induction vs with
  | nil => cases hr
  | cons v vs ih =>
    obtain hr | hr := List.mem_append.1 hr
    · exact ⟨v, List.mem_cons_self, hr⟩
    · obtain ⟨w, hw, hr⟩ := ih hr
      exact ⟨w, List.mem_cons_of_mem v hw, hr⟩

theorem mem_refsFields_iff {fields : List (String × Value ρ)} :
    r ∈ refsFields fields ↔ ∃ field ∈ fields, r ∈ field.2.refs := by
  induction fields with
  | nil => exact ⟨(nomatch ·), fun ⟨_, h, _⟩ => nomatch h⟩
  | cons head fields ih =>
    obtain ⟨name, v⟩ := head
    simp only [refsFields, List.mem_append, ih, List.mem_cons, exists_eq_or_imp]

theorem mem_refs_of_lookup {fields : List (String × Value ρ)} {name : String} {v : Value ρ}
    (h : fields.lookup name = some v) (hr : r ∈ v.refs) : r ∈ refsFields fields := by
  obtain ⟨before, after, rfl, -⟩ := List.lookup_eq_some_iff.1 h
  exact mem_refsFields_iff.2 ⟨(name, v), by simp, hr⟩

theorem mem_refs_of_items? {v : Value ρ} {items : List (Value ρ)} (h : v.items? = some items)
    (hr : r ∈ refsList items) : r ∈ v.refs := by
  fun_induction items? v with
  | case1 =>
    obtain rfl := Option.some.inj h
    exact hr
  | case2 o v ih => exact ih h
  | case3 => cases h

/-! ## Replaced references -/

mutual

theorem mem_refs_subst (f : ρ → Value σ) (v : Value ρ) :
    s ∈ (v.subst f).refs ↔ ∃ r ∈ v.refs, s ∈ (f r).refs := by
  match v with
  | .scalar _ => simp [subst, refs]
  | .list items => exact mem_refsList_subst f items
  | .record fields => exact mem_refsFields_subst f fields
  | .ref r => simp [subst, refs]
  | .renderer roots pretty indent =>
    simp only [subst, refs, List.mem_append, mem_refsList_subst f roots, mem_refs_subst f pretty,
      mem_refs_subst f indent, or_and_right, exists_or]
  | .made _ v => exact mem_refs_subst f v

theorem mem_refsList_subst (f : ρ → Value σ) (items : List (Value ρ)) :
    s ∈ refsList (substList f items) ↔ ∃ r ∈ refsList items, s ∈ (f r).refs := by
  match items with
  | [] => simp [substList, refsList]
  | v :: rest =>
    simp only [substList, refsList, List.mem_append, mem_refs_subst f v, mem_refsList_subst f rest,
      or_and_right, exists_or]

theorem mem_refsFields_subst (f : ρ → Value σ) (fields : List (String × Value ρ)) :
    s ∈ refsFields (substFields f fields) ↔ ∃ r ∈ refsFields fields, s ∈ (f r).refs := by
  match fields with
  | [] => simp [substFields, refsFields]
  | (_, v) :: rest =>
    simp only [substFields, refsFields, List.mem_append, mem_refs_subst f v,
      mem_refsFields_subst f rest, or_and_right, exists_or]

end

/-- A value refers to the same with and without its origins. -/
theorem mem_refs_erased {v : Value ρ} : r ∈ v.erased.refs ↔ r ∈ v.refs := by
  simp [erased, mem_refs_subst, refs]

/-! ## Parts without origins -/

mutual

theorem subst_subst (f : ρ → Value σ) (g : σ → Value τ) (v : Value ρ) :
    (v.subst f).subst g = v.subst fun r => (f r).subst g := by
  match v with
  | .scalar _ | .ref _ => simp only [subst]
  | .list items => simp only [subst, substList_substList f g items]
  | .record fields => simp only [subst, substFields_substFields f g fields]
  | .renderer roots pretty indent =>
    simp only [subst, substList_substList f g roots, subst_subst f g pretty, subst_subst f g indent]
  | .made _ v => simp only [subst, subst_subst f g v]

theorem substList_substList (f : ρ → Value σ) (g : σ → Value τ) (items : List (Value ρ)) :
    substList g (substList f items) = substList (fun r => (f r).subst g) items := by
  match items with
  | [] => rfl
  | v :: rest => simp only [substList, subst_subst f g v, substList_substList f g rest]

theorem substFields_substFields (f : ρ → Value σ) (g : σ → Value τ)
    (fields : List (String × Value ρ)) :
    substFields g (substFields f fields) = substFields (fun r => (f r).subst g) fields := by
  match fields with
  | [] => rfl
  | (_, v) :: rest => simp only [substFields, subst_subst f g v, substFields_substFields f g rest]

end

theorem erased_erased (v : Value ρ) : v.erased.erased = v.erased := subst_subst .ref .ref v

theorem lookup_substFields (f : ρ → Value σ) (fields : List (String × Value ρ)) (name : String) :
    (substFields f fields).lookup name = (fields.lookup name).map (subst f) := by
  induction fields with
  | nil => rfl
  | cons head fields ih =>
    obtain ⟨key, v⟩ := head
    rw [substFields, List.lookup_cons, List.lookup_cons]
    split
    · rfl
    · exact ih

theorem items?_erased (v : Value ρ) : v.erased.items? = v.items?.map (substList .ref) := by
  match v with
  | .made _ v => exact items?_erased v
  | .scalar _ | .list _ | .record _ | .ref _ | .renderer .. => rfl

theorem isRecord_erased (v : Value ρ) : v.erased.isRecord = v.isRecord := by
  match v with
  | .made _ v => exact isRecord_erased v
  | .scalar _ | .list _ | .record _ | .ref _ | .renderer .. => rfl

/-- Whether a value counts as true depends on no other references than its own. -/
theorem truth_congr {p q : ρ → Bool} {v : Value ρ} (h : ∀ r ∈ v.refs, p r = q r) :
    v.truth p = v.truth q := by
  match v with
  | .ref r => exact h r (List.mem_singleton_self r)
  | .made _ v => exact truth_congr (v := v) h
  | .scalar _ | .list _ | .record _ | .renderer .. => rfl

theorem typeName_congr {p q : ρ → String} {v : Value ρ} (h : ∀ r ∈ v.refs, p r = q r) :
    v.typeName p = v.typeName q := by
  match v with
  | .ref r => exact h r (List.mem_singleton_self r)
  | .made _ v => exact typeName_congr (v := v) h
  | .scalar _ | .list _ | .record _ | .renderer .. => rfl

section Spelled

variable {p q : ρ → String}

mutual

/-- So does the spelling of a value. -/
theorem literal_congr {v : Value ρ} (h : ∀ r ∈ v.refs, p r = q r) : v.literal p = v.literal q := by
  match v with
  | .scalar _ | .renderer .. => simp only [literal]
  | .ref r => exact h r (List.mem_singleton_self r)
  | .list items =>
    have parts : literals p items = literals q items := literals_congr h
    simp only [literal, parts]
  | .record fields =>
    have parts : fieldLiterals p fields = fieldLiterals q fields := fieldLiterals_congr h
    simp only [literal, parts]
  | .made _ v => simp only [literal, literal_congr (v := v) h]

theorem literals_congr {items : List (Value ρ)} (h : ∀ r ∈ refsList items, p r = q r) :
    literals p items = literals q items := by
  match items with
  | [] => rfl
  | v :: rest =>
    obtain ⟨head, tail⟩ := List.forall_mem_append.1 h
    rw [literals, literals, literal_congr head, literals_congr tail]

theorem fieldLiterals_congr {fields : List (String × Value ρ)}
    (h : ∀ r ∈ refsFields fields, p r = q r) : fieldLiterals p fields = fieldLiterals q fields := by
  match fields with
  | [] => rfl
  | (_, v) :: rest =>
    obtain ⟨head, tail⟩ := List.forall_mem_append.1 h
    rw [fieldLiterals, fieldLiterals, literal_congr head, fieldLiterals_congr tail]

end

theorem plain_congr {v : Value ρ} (h : ∀ r ∈ v.refs, p r = q r) : v.plain p p = v.plain q q := by
  match v with
  | .scalar _ => rfl
  | .ref r => exact h r (List.mem_singleton_self r)
  | .made _ v => exact plain_congr (v := v) h
  | .list _ | .record _ | .renderer .. => exact literal_congr h

end Spelled

/-! ## Numbers that are too long -/

section TooLong

variable {p q : ρ → Bool}

mutual

theorem isTooLong_congr {v : Value ρ} (h : ∀ r ∈ v.refs, p r = q r) :
    v.isTooLong p = v.isTooLong q := by
  match v with
  | .scalar _ | .renderer .. => simp only [isTooLong]
  | .ref r => exact h r (List.mem_singleton_self r)
  | .list items =>
    have parts : anyTooLong p items = anyTooLong q items := anyTooLong_congr h
    simp only [isTooLong, parts]
  | .record fields =>
    have parts : anyFieldTooLong p fields = anyFieldTooLong q fields := anyFieldTooLong_congr h
    simp only [isTooLong, parts]
  | .made _ v => simp only [isTooLong, isTooLong_congr (v := v) h]

theorem anyTooLong_congr {items : List (Value ρ)} (h : ∀ r ∈ refsList items, p r = q r) :
    anyTooLong p items = anyTooLong q items := by
  match items with
  | [] => rfl
  | v :: rest =>
    obtain ⟨head, tail⟩ := List.forall_mem_append.1 h
    rw [anyTooLong, anyTooLong, isTooLong_congr head, anyTooLong_congr tail]

theorem anyFieldTooLong_congr {fields : List (String × Value ρ)}
    (h : ∀ r ∈ refsFields fields, p r = q r) : anyFieldTooLong p fields = anyFieldTooLong q fields := by
  match fields with
  | [] => rfl
  | (_, v) :: rest =>
    obtain ⟨head, tail⟩ := List.forall_mem_append.1 h
    rw [anyFieldTooLong, anyFieldTooLong, isTooLong_congr head, anyFieldTooLong_congr tail]

end

mutual

theorem isTooLong_subst (f : ρ → Value σ) (p : σ → Bool) (v : Value ρ) :
    (v.subst f).isTooLong p = v.isTooLong fun r => (f r).isTooLong p := by
  match v with
  | .scalar _ | .ref _ | .renderer .. => simp only [subst, isTooLong]
  | .list items => simp only [subst, isTooLong, anyTooLong_subst f p items]
  | .record fields => simp only [subst, isTooLong, anyFieldTooLong_subst f p fields]
  | .made _ v => simp only [subst, isTooLong, isTooLong_subst f p v]

theorem anyTooLong_subst (f : ρ → Value σ) (p : σ → Bool) (items : List (Value ρ)) :
    anyTooLong p (substList f items) = anyTooLong (fun r => (f r).isTooLong p) items := by
  match items with
  | [] => rfl
  | v :: rest => simp only [substList, anyTooLong, isTooLong_subst f p v, anyTooLong_subst f p rest]

theorem anyFieldTooLong_subst (f : ρ → Value σ) (p : σ → Bool)
    (fields : List (String × Value ρ)) :
    anyFieldTooLong p (substFields f fields) =
      anyFieldTooLong (fun r => (f r).isTooLong p) fields := by
  match fields with
  | [] => rfl
  | (_, v) :: rest =>
    simp only [substFields, anyFieldTooLong, isTooLong_subst f p v, anyFieldTooLong_subst f p rest]

end

theorem isTooLong_erased (p : ρ → Bool) (v : Value ρ) : v.erased.isTooLong p = v.isTooLong p :=
  isTooLong_subst .ref p v

end TooLong

end Hypertext.Value
