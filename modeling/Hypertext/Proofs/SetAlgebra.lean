import Mathlib.Data.List.Nodup
import Mathlib.Data.List.Perm.Subperm
import Hypertext.Attributes.Algebra
import Hypertext.Attributes.Lemmas

/-! Collections of attributes as sets. A set is one of pairs, but a key has one pair at most, so that a
union overrides: of two pairs with one key it keeps the right one. The main statement is
`operators_form_sets`: what the operators hold and in which order, and the laws that survive. -/
namespace Hypertext.Attributes
set_option autoImplicit false

variable {c d l r n : Attributes} {a b : Attribute}

/-! ## Members -/

theorem Distinct.eq_of_key (distinct : c.Distinct) (ha : a ∈ c.toList) (hb : b ∈ c.toList)
    (same : a.key = b.key) : a = b := List.inj_on_of_nodup_map distinct ha hb same

theorem Distinct.nodup (distinct : c.Distinct) : c.toList.Nodup := List.Nodup.of_map _ distinct

theorem find?_eq_some_iff (distinct : c.Distinct) {key : String} :
    c.find? key = some a ↔ a ∈ c.toList ∧ a.key = key := by
  constructor
  · intro h
    exact ⟨mem_of_find? h, key_of_find? h⟩
  · rintro ⟨ha, rfl⟩
    cases h : c.find? a.key with
    | none => exact absurd rfl (find?_eq_none_iff.1 h a ha)
    | some b => rw [distinct.eq_of_key (mem_of_find? h) ha (key_of_find? h)]

theorem has_iff_mem (distinct : c.Distinct) : c.has a = true ↔ a ∈ c.toList := by
  rw [has_iff, find?_eq_some_iff distinct]
  simp

/-! ## Adding pairs one after the other -/

theorem toList_ofList {pairs : List Attribute} (nodup : (pairs.map (·.key)).Nodup) :
    (ofList pairs).toList = pairs := congrArg toList (ofList_toList (c := ⟨pairs⟩) nodup)

theorem ofList_append (pairs more : List Attribute) :
    ofList (pairs ++ more) = more.foldl add (ofList pairs) := by
  rw [ofList, List.foldl_append, ofList]

theorem add_of_mem (distinct : c.Distinct) (h : a ∈ c.toList) : c.add a = c := by
  rw [add, if_pos ((has_iff_mem distinct).2 h)]

theorem toList_add_of_notMem (distinct : c.Distinct) (h : a ∉ c.toList) :
    (c.add a).toList = c.toList.filter (·.key != a.key) ++ [a] := by
  have hnot : ¬ c.has a = true := fun h' => h ((has_iff_mem distinct).1 h')
  rw [add, if_neg hnot, erase]

/-- What is in a list of pairs with this key is this pair. -/
def Agrees (pairs : List Attribute) (a : Attribute) : Prop :=
  ∀ b ∈ pairs, b.key = a.key → b = a

instance (pairs : List Attribute) : DecidablePred (Agrees pairs) :=
  fun a => inferInstanceAs (Decidable (∀ b ∈ pairs, b.key = a.key → b = a))

theorem agrees_cons {pairs : List Attribute} :
    Agrees (b :: pairs) a ↔ (b.key = a.key → b = a) ∧ Agrees pairs a := by
  simp [Agrees]

/-- A pair that is there already agrees with the pairs beside it. -/
theorem filter_agrees_of_mem (distinct : c.Distinct) (hb : b ∈ c.toList) (pairs : List Attribute) :
    c.toList.filter (fun a => decide (Agrees (b :: pairs) a)) =
      c.toList.filter fun a => decide (Agrees pairs a) := by
  refine List.filter_congr fun a ha => ?_
  have hagrees : Agrees (b :: pairs) a ↔ Agrees pairs a := by
    rw [agrees_cons]
    exact and_iff_right fun same => distinct.eq_of_key hb ha same
  simp only [hagrees]

/-- A pair that is new takes the place of the one with its key. -/
theorem filter_agrees_of_notMem (hb : b ∉ c.toList) (pairs : List Attribute) :
    c.toList.filter (fun a => decide (Agrees (b :: pairs) a)) =
      (c.toList.filter (·.key != b.key)).filter fun a => decide (Agrees pairs a) := by
  rw [List.filter_filter]
  refine List.filter_congr fun a ha => ?_
  have hagrees : Agrees (b :: pairs) a ↔ Agrees pairs a ∧ a.key ≠ b.key := by
    rw [agrees_cons, and_comm]
    refine and_congr_right fun _ => ⟨fun h same => ?_, fun h same => absurd same.symm h⟩
    exact hb (h same.symm ▸ ha)
  have hkey : (a.key != b.key) = decide (a.key ≠ b.key) := by
    by_cases same : a.key = b.key <;> simp [same]
  rw [hkey, ← Bool.decide_and]
  simp only [hagrees]

/-- Pairs with other keys are new after a pair was added if they were new before. -/
theorem filter_notMem_add (distinct : c.Distinct) (hb : b ∉ c.toList) {pairs : List Attribute}
    (other : ∀ x ∈ pairs, x.key ≠ b.key) :
    pairs.filter (fun x => decide (x ∉ (c.add b).toList)) =
      pairs.filter fun x => decide (x ∉ c.toList) := by
  refine List.filter_congr fun x hx => ?_
  have hkey := other x hx
  have hxb : x ≠ b := fun h => hkey (congrArg _ h)
  have hmem : x ∈ (c.add b).toList ↔ x ∈ c.toList := by
    rw [toList_add_of_notMem distinct hb]
    simp [hkey, hxb]
  simp only [hmem]

/-- Pairs of other values are taken out, and pairs that are new come last, in their order. -/
theorem toList_foldl_add {pairs : List Attribute} (nodup : (pairs.map (·.key)).Nodup)
    (distinct : c.Distinct) : (pairs.foldl add c).toList =
      c.toList.filter (fun a => decide (Agrees pairs a)) ++
        pairs.filter (fun b => decide (b ∉ c.toList)) := by
  induction pairs generalizing c with
  | nil => simp [Agrees]
  | cons b pairs ih =>
    rw [List.map_cons, List.nodup_cons] at nodup
    obtain ⟨new, nodup⟩ := nodup
    have other : ∀ x ∈ pairs, x.key ≠ b.key := by
      intro x hx same
      exact new (same ▸ List.mem_map_of_mem hx)
    rw [List.foldl_cons, ih nodup (distinct_add distinct b)]
    by_cases hb : b ∈ c.toList
    · have hfirst : (b :: pairs).filter (fun x => decide (x ∉ c.toList)) =
          pairs.filter fun x => decide (x ∉ c.toList) := List.filter_cons_of_neg (by simpa using hb)
      rw [add_of_mem distinct hb, filter_agrees_of_mem distinct hb, hfirst]
    · have hfirst : (b :: pairs).filter (fun x => decide (x ∉ c.toList)) =
          b :: pairs.filter fun x => decide (x ∉ c.toList) :=
        List.filter_cons_of_pos (by simpa using hb)
      have hlast : Agrees pairs b := fun x hx same => absurd same (other x hx)
      have hsingle : [b].filter (fun a => decide (Agrees pairs a)) = [b] :=
        List.filter_cons_of_pos (by simpa using hlast)
      rw [filter_notMem_add distinct hb other, toList_add_of_notMem distinct hb,
        List.filter_append, hsingle, filter_agrees_of_notMem hb, hfirst, List.append_assoc]
      rfl

/-! ## The operators -/

/-- The pairs of the left one that the right one does not bind to other values, and then the pairs of
the right one that are new. -/
theorem toList_union (hl : l.Distinct) (hr : r.Distinct) : (l.union (.collection r)).toList =
    l.toList.filter (fun a => decide (Agrees r.toList a)) ++
      r.toList.filter (fun b => decide (b ∉ l.toList)) := by
  rw [union, ofList_append, ofList_toList hl]
  exact toList_foldl_add hr hl

theorem toList_inter (hl : l.Distinct) (hr : r.Distinct) : (l.inter (.collection r)).toList =
    r.toList.filter (fun a => decide (a ∈ l.toList)) := by
  have nodup : ((r.toList.filter l.has).map (·.key)).Nodup :=
    hr.sublist (List.filter_sublist.map _)
  have hinter : (l.inter (.collection r)).toList = r.toList.filter l.has := toList_ofList nodup
  rw [hinter]
  refine List.filter_congr fun a _ => ?_
  rw [Bool.eq_iff_iff, has_iff_mem hl, decide_eq_true_iff]

theorem toList_diff (hl : l.Distinct) (hr : r.Distinct) : (l.diff (.collection r)).toList =
    l.toList.filter (fun a => decide (a ∉ r.toList)) := by
  have nodup : ((l.toList.filter fun a => !r.has a).map (·.key)).Nodup :=
    hl.sublist (List.filter_sublist.map _)
  have hdiff : (l.diff (.collection r)).toList = l.toList.filter fun a => !r.has a :=
    toList_ofList nodup
  rw [hdiff]
  refine List.filter_congr fun a _ => ?_
  rw [Bool.eq_iff_iff, decide_eq_true_iff, Bool.not_eq_true', ← has_iff_mem hr,
    Bool.not_eq_true]

theorem distinct_union (l r : Attributes) : (l.union (.collection r)).Distinct :=
  distinct_ofList _

theorem distinct_inter (l r : Attributes) : (l.inter (.collection r)).Distinct :=
  distinct_ofList _

theorem distinct_diff (l r : Attributes) : (l.diff (.collection r)).Distinct :=
  distinct_ofList _

theorem distinct_symmDiff (l r : Attributes) : (l.symmDiff (.collection r)).Distinct :=
  distinct_union _ _

/-- A union holds the right pairs, and the left ones whose keys the right one lacks. -/
theorem mem_union (hl : l.Distinct) (hr : r.Distinct) : a ∈ (l.union (.collection r)).toList ↔
    a ∈ r.toList ∨ a ∈ l.toList ∧ ∀ b ∈ r.toList, b.key ≠ a.key := by
  rw [toList_union hl hr, List.mem_append, List.mem_filter, List.mem_filter, decide_eq_true_iff,
    decide_eq_true_iff]
  constructor
  · rintro (⟨ha, agrees⟩ | ⟨ha, -⟩)
    · by_cases hright : a ∈ r.toList
      · exact .inl hright
      · exact .inr ⟨ha, fun b hb same => hright (agrees b hb same ▸ hb)⟩
    · exact .inl ha
  · rintro (ha | ⟨ha, new⟩)
    · by_cases hleft : a ∈ l.toList
      · exact .inl ⟨hleft, fun b hb same => hr.eq_of_key hb ha same⟩
      · exact .inr ⟨ha, hleft⟩
    · exact .inl ⟨ha, fun b hb same => absurd same (new b hb)⟩

theorem mem_inter (hl : l.Distinct) (hr : r.Distinct) : a ∈ (l.inter (.collection r)).toList ↔
    a ∈ l.toList ∧ a ∈ r.toList := by
  rw [toList_inter hl hr, List.mem_filter, decide_eq_true_iff, and_comm]

theorem mem_diff (hl : l.Distinct) (hr : r.Distinct) : a ∈ (l.diff (.collection r)).toList ↔
    a ∈ l.toList ∧ a ∉ r.toList := by
  rw [toList_diff hl hr, List.mem_filter, decide_eq_true_iff]

theorem mem_symmDiff (hl : l.Distinct) (hr : r.Distinct) :
    a ∈ (l.symmDiff (.collection r)).toList ↔ (a ∈ r.toList ∧ a ∉ l.toList) ∨
      (a ∈ l.toList ∧ a ∉ r.toList) ∧ ∀ b ∈ r.toList, b ∉ l.toList → b.key ≠ a.key := by
  have hsymm : l.symmDiff (.collection r) =
      (l.diff (.collection r)).union (.collection (r.diff (.collection l))) := rfl
  rw [hsymm, mem_union (distinct_diff l r) (distinct_diff r l), mem_diff hr hl, mem_diff hl hr]
  simp only [mem_diff hr hl, and_imp]

/-! ## Comparisons -/

theorem subset_iff (hc : c.Distinct) (hd : d.Distinct) :
    c.subset d = true ↔ ∀ a ∈ c.toList, a ∈ d.toList := by
  have hall : c.toList.all d.has = true ↔ ∀ a ∈ c.toList, a ∈ d.toList := by
    simp only [List.all_eq_true, has_iff_mem hd]
  rw [subset, Bool.and_eq_true, decide_eq_true_iff, hall, and_iff_right_iff_imp]
  intro h
  exact (hc.nodup.subperm h).length_le

/-- Two collections are the same if they hold the same pairs, in whatever order. -/
theorem sameAs_iff (hc : c.Distinct) (hd : d.Distinct) :
    c.sameAs d = true ↔ ∀ a, a ∈ c.toList ↔ a ∈ d.toList := by
  rw [sameAs, Bool.and_eq_true, beq_iff_eq, subset_iff hc hd]
  constructor
  · rintro ⟨hsize, hsub⟩ a
    have hperm := (hc.nodup.subperm hsub).perm_of_length_le (Nat.le_of_eq hsize.symm)
    exact hperm.mem_iff
  · intro h
    have hperm := (List.perm_ext_iff_of_nodup hc.nodup hd.nodup).2 h
    exact ⟨hperm.length_eq, fun a ha => (h a).1 ha⟩

/-! ## Laws -/

theorem inter_sameAs_comm (hl : l.Distinct) (hr : r.Distinct) :
    (l.inter (.collection r)).sameAs (r.inter (.collection l)) = true := by
  rw [sameAs_iff (distinct_inter l r) (distinct_inter r l)]
  intro a
  rw [mem_inter hl hr, mem_inter hr hl, and_comm]

/-- The two parts of a collection have no key in common, so that nothing is overridden. -/
theorem diff_union_inter_sameAs (hl : l.Distinct) (hr : r.Distinct) :
    ((l.diff (.collection r)).union (.collection (l.inter (.collection r)))).sameAs l = true := by
  rw [sameAs_iff (distinct_union _ _) hl]
  intro a
  rw [mem_union (distinct_diff l r) (distinct_inter l r), mem_inter hl hr, mem_diff hl hr]
  constructor
  · rintro (⟨ha, -⟩ | ⟨⟨ha, -⟩, -⟩)
    · exact ha
    · exact ha
  · intro ha
    by_cases hright : a ∈ r.toList
    · exact .inl ⟨ha, hright⟩
    · refine .inr ⟨⟨ha, hright⟩, fun b hb same => hright ?_⟩
      obtain ⟨hbl, hbr⟩ := (mem_inter hl hr).1 hb
      exact hl.eq_of_key hbl ha same ▸ hbr

/-- Where the two bind a key to different values, both sides keep the right one. -/
theorem symmDiff_sameAs (hl : l.Distinct) (hr : r.Distinct) :
    (l.symmDiff (.collection r)).sameAs
      ((l.union (.collection r)).diff (.collection (l.inter (.collection r)))) = true := by
  rw [sameAs_iff (distinct_symmDiff l r) (distinct_diff _ _)]
  intro a
  rw [mem_symmDiff hl hr, mem_diff (distinct_union l r) (distinct_inter l r), mem_union hl hr,
    mem_inter hl hr]
  constructor
  · rintro (⟨har, hal⟩ | ⟨⟨hal, har⟩, new⟩)
    · exact ⟨.inl har, fun h => hal h.1⟩
    · refine ⟨.inr ⟨hal, fun b hb same => ?_⟩, fun h => har h.2⟩
      by_cases hbl : b ∈ l.toList
      · exact har (hl.eq_of_key hbl hal same ▸ hb)
      · exact new b hb hbl same
  · rintro ⟨har | ⟨hal, new⟩, notBoth⟩
    · exact .inl ⟨har, fun hal => notBoth ⟨hal, har⟩⟩
    · exact .inr ⟨⟨hal, fun har => new a har rfl⟩, fun b hb _ => new b hb⟩

/-- The key of a pair is bound by a union if it is bound on either side. -/
theorem exists_key_union (hl : l.Distinct) (hr : r.Distinct) (key : String) :
    (∃ b ∈ (l.union (.collection r)).toList, b.key = key) ↔
      (∃ b ∈ l.toList, b.key = key) ∨ ∃ b ∈ r.toList, b.key = key := by
  constructor
  · rintro ⟨b, hb, same⟩
    rcases (mem_union hl hr).1 hb with hbr | ⟨hbl, -⟩
    · exact .inr ⟨b, hbr, same⟩
    · exact .inl ⟨b, hbl, same⟩
  · rintro (⟨b, hbl, same⟩ | ⟨b, hbr, same⟩)
    · by_cases bound : ∃ x ∈ r.toList, x.key = b.key
      · obtain ⟨x, hx, hkey⟩ := bound
        exact ⟨x, (mem_union hl hr).2 (.inl hx), hkey.trans same⟩
      · refine ⟨b, (mem_union hl hr).2 (.inr ⟨hbl, fun x hx hkey => ?_⟩), same⟩
        exact bound ⟨x, hx, hkey⟩
    · exact ⟨b, (mem_union hl hr).2 (.inl hbr), same⟩

theorem union_assoc_sameAs (hl : l.Distinct) (hr : r.Distinct) (hn : n.Distinct) :
    ((l.union (.collection r)).union (.collection n)).sameAs
      (l.union (.collection (r.union (.collection n)))) = true := by
  rw [sameAs_iff (distinct_union _ _) (distinct_union _ _)]
  intro a
  have hkeys : (∀ b ∈ (r.union (.collection n)).toList, b.key ≠ a.key) ↔
      (∀ b ∈ r.toList, b.key ≠ a.key) ∧ ∀ b ∈ n.toList, b.key ≠ a.key := by
    have h := not_congr (exists_key_union hr hn a.key)
    simpa only [not_or, not_exists, not_and] using h
  rw [mem_union (distinct_union l r) hn, mem_union hl hr, mem_union hl (distinct_union r n), hkeys,
    mem_union hr hn]
  constructor
  · rintro (han | ⟨har | ⟨hal, newR⟩, newN⟩)
    · exact .inl (.inl han)
    · exact .inl (.inr ⟨har, newN⟩)
    · exact .inr ⟨hal, newR, newN⟩
  · rintro ((han | ⟨har, newN⟩) | ⟨hal, newR, newN⟩)
    · exact .inl han
    · exact .inr ⟨.inl har, newN⟩
    · exact .inr ⟨.inr ⟨hal, newR⟩, newN⟩

theorem right_subset_union (hl : l.Distinct) (hr : r.Distinct) :
    r.subset (l.union (.collection r)) = true := by
  rw [subset_iff hr (distinct_union l r)]
  intro a ha
  exact (mem_union hl hr).2 (.inl ha)

/-- A union keeps the left collection if it overrides nothing of it. -/
theorem left_subset_union_iff (hl : l.Distinct) (hr : r.Distinct) :
    l.subset (l.union (.collection r)) = true ↔
      ∀ a ∈ l.toList, ∀ b ∈ r.toList, a.key = b.key → a.value = b.value := by
  rw [subset_iff hl (distinct_union l r)]
  constructor
  · intro h a ha b hb same
    rcases (mem_union hl hr).1 (h a ha) with har | ⟨-, new⟩
    · exact congrArg Attribute.value (hr.eq_of_key har hb same)
    · exact absurd same.symm (new b hb)
  · intro h a ha
    rw [mem_union hl hr]
    by_cases bound : ∃ b ∈ r.toList, b.key = a.key
    · obtain ⟨⟨key, value⟩, hb, rfl⟩ := bound
      have hvalue : a.value = value := h a ha _ hb rfl
      subst hvalue
      exact .inl hb
    · exact .inr ⟨ha, fun b hb same => bound ⟨b, hb, same⟩⟩

theorem subset_refl (hl : l.Distinct) : l.subset l = true :=
  (subset_iff hl hl).2 fun _ ha => ha

theorem subset_trans (hl : l.Distinct) (hr : r.Distinct) (hn : n.Distinct)
    (hlr : l.subset r = true) (hrn : r.subset n = true) : l.subset n = true := by
  rw [subset_iff hl hr] at hlr
  rw [subset_iff hr hn] at hrn
  exact (subset_iff hl hn).2 fun a ha => hrn a (hlr a ha)

theorem sameAs_of_subset (hl : l.Distinct) (hr : r.Distinct)
    (hlr : l.subset r = true) (hrl : r.subset l = true) : l.sameAs r = true := by
  rw [subset_iff hl hr] at hlr
  rw [subset_iff hr hl] at hrl
  exact (sameAs_iff hl hr).2 fun a => ⟨hlr a, hrl a⟩

/-- What the operators make of two collections: which pairs, in which order. -/
structure Combined (l r : Attributes) : Prop where
  mem_union : ∀ a, a ∈ (l.union (.collection r)).toList ↔
    a ∈ r.toList ∨ a ∈ l.toList ∧ ∀ b ∈ r.toList, b.key ≠ a.key
  union : (l.union (.collection r)).toList =
    l.toList.filter (fun a => decide (Agrees r.toList a)) ++
      r.toList.filter (fun b => decide (b ∉ l.toList))
  inter : (l.inter (.collection r)).toList = r.toList.filter fun a => decide (a ∈ l.toList)
  diff : (l.diff (.collection r)).toList = l.toList.filter fun a => decide (a ∉ r.toList)
  distinct_union : (l.union (.collection r)).Distinct
  distinct_inter : (l.inter (.collection r)).Distinct
  distinct_diff : (l.diff (.collection r)).Distinct
  distinct_symmDiff : (l.symmDiff (.collection r)).Distinct

/-- The laws of sets that hold although a union overrides. Collections are the same up to the order
of their pairs. -/
structure Lawful (l r n : Attributes) : Prop where
  sameAs_iff : l.sameAs r = true ↔ ∀ a, a ∈ l.toList ↔ a ∈ r.toList
  inter_comm : (l.inter (.collection r)).sameAs (r.inter (.collection l)) = true
  diff_union_inter :
    ((l.diff (.collection r)).union (.collection (l.inter (.collection r)))).sameAs l = true
  symmDiff_eq : (l.symmDiff (.collection r)).sameAs
    ((l.union (.collection r)).diff (.collection (l.inter (.collection r)))) = true
  union_assoc : ((l.union (.collection r)).union (.collection n)).sameAs
    (l.union (.collection (r.union (.collection n)))) = true
  right_subset_union : r.subset (l.union (.collection r)) = true
  left_subset_union : l.subset (l.union (.collection r)) = true ↔
    ∀ a ∈ l.toList, ∀ b ∈ r.toList, a.key = b.key → a.value = b.value
  subset_refl : l.subset l = true
  subset_trans : l.subset r = true → r.subset n = true → l.subset n = true
  subset_antisymm : l.subset r = true → r.subset l = true → l.sameAs r = true

/-- Collections form sets of pairs in which the right operand of a union overrides the left one. -/
theorem operators_form_sets (hl : l.Distinct) (hr : r.Distinct) (hn : n.Distinct) :
    Combined l r ∧ Lawful l r n := by
  constructor
  · exact {
      mem_union := fun _ => mem_union hl hr
      union := toList_union hl hr
      inter := toList_inter hl hr
      diff := toList_diff hl hr
      distinct_union := distinct_union l r
      distinct_inter := distinct_inter l r
      distinct_diff := distinct_diff l r
      distinct_symmDiff := distinct_symmDiff l r }
  · exact {
      sameAs_iff := sameAs_iff hl hr
      inter_comm := inter_sameAs_comm hl hr
      diff_union_inter := diff_union_inter_sameAs hl hr
      symmDiff_eq := symmDiff_sameAs hl hr
      union_assoc := union_assoc_sameAs hl hr hn
      right_subset_union := right_subset_union hl hr
      left_subset_union := left_subset_union_iff hl hr
      subset_refl := subset_refl hl
      subset_trans := subset_trans hl hr hn
      subset_antisymm := sameAs_of_subset hl hr }

/-- Two collections that bind one key to different values, and a third one that has both keys. -/
def wide : Attributes := ⟨[⟨"class", "wide"⟩, ⟨"id", "a"⟩]⟩

def narrow : Attributes := ⟨[⟨"id", "a"⟩, ⟨"class", "narrow"⟩]⟩

theorem operators_form_sets_of_conflict : wide.Distinct ∧ narrow.Distinct ∧
    (wide.union (.collection narrow)).toList = [⟨"id", "a"⟩, ⟨"class", "narrow"⟩] ∧
    ¬ wide.subset (wide.union (.collection narrow)) = true ∧
    Combined wide narrow ∧ Lawful wide narrow wide := by
  have hwide : wide.Distinct := by decide
  have hnarrow : narrow.Distinct := by decide
  have hlaws := operators_form_sets hwide hnarrow hwide
  refine ⟨hwide, hnarrow, by decide, ?_, hlaws⟩
  intro kept
  have hsame := hlaws.2.left_subset_union.1 kept ⟨"class", "wide"⟩ (by decide)
    ⟨"class", "narrow"⟩ (by decide) rfl
  exact absurd hsame (by decide)

end Hypertext.Attributes
