import Hypertext.Attributes

/-! What the operations on a collection of attributes do to its view `find?`, and that keys stay
distinct. -/
namespace Hypertext.Attributes
set_option autoImplicit false

/-- At most one pair for each key. -/
def Distinct (c : Attributes) : Prop := (c.toList.map (·.key)).Nodup

instance (c : Attributes) : Decidable c.Distinct :=
  inferInstanceAs (Decidable (c.toList.map (·.key)).Nodup)

/-! ## Reading -/

theorem key_of_find? {c : Attributes} {key : String} {a : Attribute}
    (h : c.find? key = some a) : a.key = key := by
  simpa using List.find?_some h

theorem mem_of_find? {c : Attributes} {key : String} {a : Attribute}
    (h : c.find? key = some a) : a ∈ c.toList := List.mem_of_find?_eq_some h

theorem has_iff {c : Attributes} {a : Attribute} : c.has a = true ↔ c.find? a.key = some a := by
  simp [has]

theorem find?_eq_none_iff {c : Attributes} {key : String} :
    c.find? key = none ↔ ∀ a ∈ c.toList, a.key ≠ key := by
  simp [find?]

/-! ## Erasing -/

theorem find?_erase (c : Attributes) (key other : String) :
    (c.erase key).find? other = if other = key then none else c.find? other := by
  by_cases h : other = key
  · rw [if_pos h, find?_eq_none_iff]
    intro a ha
    simp only [erase, List.mem_filter, bne_iff_ne] at ha
    exact h ▸ ha.2
  · rw [if_neg h]
    simp only [find?, erase, List.find?_filter]
    congr 1
    funext a
    by_cases ha : a.key = other
    · simp [ha, h]
    · simp [ha]

theorem distinct_erase {c : Attributes} (h : c.Distinct) (key : String) :
    (c.erase key).Distinct := h.sublist ((List.filter_sublist).map _)

theorem distinct_discard {c : Attributes} (h : c.Distinct) (a : Attribute) :
    (c.discard a).Distinct := by
  unfold discard
  split
  · exact distinct_erase h a.key
  · exact h

/-! ## Adding -/

theorem find?_add (c : Attributes) (a : Attribute) (key : String) :
    (c.add a).find? key = if key = a.key then some a else c.find? key := by
  unfold add
  by_cases hkey : key = a.key
  · subst hkey
    rw [if_pos rfl]
    split
    next h => exact has_iff.1 h
    next =>
      have : (c.erase a.key).find? a.key = none := by rw [find?_erase, if_pos rfl]
      simp only [find?] at this ⊢
      simp [List.find?_append, this]
  · rw [if_neg hkey]
    split
    next => rfl
    next =>
      have : (c.erase a.key).find? key = c.find? key := by rw [find?_erase, if_neg hkey]
      have hne : (a.key == key) = false := by simpa using Ne.symm hkey
      simp only [find?] at this ⊢
      simp [List.find?_append, this, hne]

theorem distinct_add {c : Attributes} (h : c.Distinct) (a : Attribute) : (c.add a).Distinct := by
  unfold add
  split
  · exact h
  · simp only [Distinct, List.map_append, List.map_cons, List.map_nil]
    refine List.nodup_append.2 ⟨distinct_erase h a.key, by simp, ?_⟩
    intro key hkey other hother
    obtain ⟨b, hb, rfl⟩ := List.mem_map.1 hkey
    obtain rfl := List.mem_singleton.1 hother
    simp only [erase, List.mem_filter, bne_iff_ne] at hb
    exact hb.2

theorem distinct_write {c : Attributes} (h : c.Distinct) (key : String) (value : Option String) :
    (c.write key value).Distinct := by
  cases value with
  | none => exact distinct_erase h key
  | some value => exact distinct_add h _

theorem distinct_ofList (pairs : List Attribute) : (ofList pairs).Distinct := by
  have step : ∀ (l : List Attribute) (c : Attributes), c.Distinct → (l.foldl add c).Distinct := by
    intro l
    induction l with
    | nil => exact fun _ h => h
    | cons a l ih => exact fun c h => ih (c.add a) (distinct_add h a)
  exact step pairs empty List.nodup_nil

theorem add_of_new {c : Attributes} {a : Attribute} (new : ∀ b ∈ c.toList, b.key ≠ a.key) :
    c.add a = ⟨c.toList ++ [a]⟩ := by
  have hfind := find?_eq_none_iff.2 new
  have hhas : c.has a = false := by
    rw [has, hfind]
    rfl
  have herase : (c.erase a.key).toList = c.toList :=
    List.filter_eq_self.2 fun b hb => bne_iff_ne.2 (new b hb)
  rw [add, hhas, herase]
  rfl

theorem ofList_toList {c : Attributes} (distinct : c.Distinct) : ofList c.toList = c := by
  have step : ∀ (l : List Attribute) (c : Attributes), ((c.toList ++ l).map (·.key)).Nodup →
      l.foldl add c = ⟨c.toList ++ l⟩ := by
    intro l
    induction l with
    | nil =>
      intro c _
      rw [List.append_nil]
      rfl
    | cons a l ih =>
      intro c nodup
      have new : ∀ b ∈ c.toList, b.key ≠ a.key := by
        rw [List.map_append, List.nodup_append] at nodup
        exact fun b hb => nodup.2.2 b.key (List.mem_map_of_mem hb) a.key
          (List.mem_map_of_mem List.mem_cons_self)
      have happend : (c.add a).toList ++ l = c.toList ++ a :: l := by
        rw [add_of_new new, List.append_assoc]
        rfl
      rw [List.foldl_cons, ih (c.add a) (by rwa [happend]), happend]
  exact step c.toList empty distinct

/-! ## Writing and discarding -/

theorem get?_write (c : Attributes) (key other : String) (value : Option String) :
    (c.write key value).get? other = if other = key then value else c.get? other := by
  cases value with
  | none =>
    simp only [get?, write, find?_erase]
    split <;> rfl
  | some value =>
    simp only [get?, write, find?_add]
    split <;> rfl

theorem find?_discard (c : Attributes) (a : Attribute) (key : String) :
    (c.discard a).find? key =
      if key = a.key ∧ c.find? key = some a then none else c.find? key := by
  unfold discard
  split
  next h =>
    rw [find?_erase]
    by_cases hkey : key = a.key
    · subst hkey
      rw [if_pos rfl, if_pos ⟨rfl, has_iff.1 h⟩]
    · rw [if_neg hkey, if_neg fun h => hkey h.1]
  next h =>
    rw [if_neg]
    rintro ⟨rfl, hfind⟩
    exact h (has_iff.2 hfind)

end Hypertext.Attributes
