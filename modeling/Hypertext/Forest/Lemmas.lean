import Hypertext.Forest.Holding

/-! What the operations on a forest do to its views `get?` and `roots?`. -/
namespace Hypertext.Forest
set_option autoImplicit false

/-! ## New objects -/

theorem get?_insert (f : Forest) (e : Element) (id : ElementId) :
    (f.insert e).2.get? id = if id = (f.insert e).1 then some e else f.get? id := by
  obtain ⟨i⟩ := id
  simp only [get?, insert, ElementId.mk.injEq, Array.getElem?_push]
  split <;> simp

theorem roots?_insertDocument (f : Forest) (id : DocumentId) :
    f.insertDocument.2.roots? id = if id = f.insertDocument.1 then some [] else f.roots? id := by
  obtain ⟨i⟩ := id
  simp only [roots?, insertDocument, DocumentId.mk.injEq, Array.getElem?_push]
  split <;> simp

/-! ## Changes of one element -/

theorem get?_update (f : Forest) (id other : ElementId) (change : Element → Element) :
    (f.update id change).get? other =
      if other = id then (f.get? id).map change else f.get? other := by
  simp only [get?, update, Array.getElem?_modify]
  by_cases h : other = id
  · subst h
    rw [if_pos rfl, if_pos rfl]
    rcases f.elements[other.index]? with _ | _ | e <;> rfl
  · have hne : ¬ id.index = other.index := by
      intro heq
      exact h (by cases id; cases other; simp_all)
    rw [if_neg h, if_neg hne]

theorem get?_setParent (f : Forest) (id other : ElementId) (parent : ParentLink) :
    (f.setParent id parent).get? other =
      if other = id then (f.get? id).map ({ · with parent }) else f.get? other :=
  get?_update f id other _

theorem get?_setChildren_element (f : Forest) (id other : ElementId)
    (children : List Datum) :
    (f.setChildren (.element id) children).get? other =
      if other = id then (f.get? id).map ({ · with children }) else f.get? other :=
  get?_update f id other _

theorem get?_setMark (f : Forest) (id other : ElementId) (mark : Datum) :
    (f.setMark id mark).get? other =
      if other = id then (f.get? id).map ({ · with mark }) else f.get? other :=
  get?_update f id other _

/-! ## Collection -/

theorem flags_getElem? (size : Nat) (refs : List Ref) (r : Ref) (h : r.slot < size) :
    (flags size refs)[r.slot]? = some (decide (r ∈ refs)) := by
  have step : ∀ (l : List Ref) (a : Array Bool), a.size = size →
      (l.foldl (fun flags r => flags.setIfInBounds r.slot true) a)[r.slot]? =
        if r ∈ l then some true else a[r.slot]? := by
    intro l
    induction l with
    | nil => intro a _; simp
    | cons x l ih =>
      intro a ha
      rw [List.foldl_cons, ih _ (by simpa using ha)]
      by_cases hl : r ∈ l
      · simp [hl]
      · by_cases hx : r = x
        · subst hx
          simp [hl, ha, h]
        · have hne : x.slot ≠ r.slot := fun heq => hx (Ref.slot_inj.1 heq).symm
          simp [hl, hx, Array.getElem?_setIfInBounds_ne hne]
  unfold flags
  rw [step _ _ (by simp)]
  by_cases hm : r ∈ refs
  · simp [hm]
  · simp [hm, h]

theorem get?_keep (f : Forest) (test : Ref → Bool) (id : ElementId) :
    (f.keep test).get? id = if test (.element id) then f.get? id else none := by
  simp only [get?, keep, Array.getElem?_mapIdx]
  cases f.elements[id.index]? <;> split <;> simp_all

theorem roots?_keep (f : Forest) (test : Ref → Bool) (id : DocumentId) :
    (f.keep test).roots? id = if test (.document id) then f.roots? id else none := by
  simp only [roots?, keep, Array.getElem?_mapIdx]
  cases f.documents[id.index]? <;> split <;> simp_all

theorem lt_size_of_isSome {α : Type} (slots : Array (Option α)) {i : Nat}
    (h : slots[i]?.join.isSome = true) : i < slots.size := by
  rcases Nat.lt_or_ge i slots.size with hi | hi
  · exact hi
  · simp [Array.getElem?_eq_none hi] at h

theorem slot_lt_slots {f : Forest} {r : Ref} (h : f.isThere r = true) : r.slot < f.slots := by
  cases r with
  | element id =>
    have := lt_size_of_isSome f.elements h
    simp only [Ref.slot, slots]
    omega
  | document id =>
    have := lt_size_of_isSome f.documents h
    simp only [Ref.slot, slots]
    omega

theorem mem_domain {f : Forest} {r : Ref} (h : f.isThere r = true) : r ∈ f.domain := by
  rw [domain, List.mem_filter]
  refine ⟨?_, h⟩
  cases r with
  | element id => simpa using ⟨id.index, lt_size_of_isSome f.elements h, rfl⟩
  | document id => simpa using ⟨id.index, lt_size_of_isSome f.documents h, rfl⟩

/-- Exactly the given elements are kept, as they are. -/
theorem get?_keepOnly (f : Forest) (refs : List Ref) (id : ElementId) :
    (f.keepOnly refs).get? id = if .element id ∈ refs then f.get? id else none := by
  rw [keepOnly, get?_keep]
  cases h : f.get? id with
  | none => simp
  | some e =>
    rw [flags_getElem? _ _ _ (slot_lt_slots (by simp [isThere, isAlive, h]))]
    simp

theorem roots?_keepOnly (f : Forest) (refs : List Ref) (id : DocumentId) :
    (f.keepOnly refs).roots? id = if .document id ∈ refs then f.roots? id else none := by
  rw [keepOnly, roots?_keep]
  cases h : f.roots? id with
  | none => simp
  | some roots =>
    rw [flags_getElem? _ _ _ (slot_lt_slots (by simp [isThere, h]))]
    simp

/-- The given elements are gone, and all others are as they were. -/
theorem get?_without (f : Forest) (refs : List Ref) (id : ElementId) :
    (f.without refs).get? id = if .element id ∈ refs then none else f.get? id := by
  rw [without, get?_keep]
  cases h : f.get? id with
  | none => simp
  | some e =>
    rw [flags_getElem? _ _ _ (slot_lt_slots (by simp [isThere, isAlive, h]))]
    by_cases hm : Ref.element id ∈ refs <;> simp [hm]

theorem roots?_without (f : Forest) (refs : List Ref) (id : DocumentId) :
    (f.without refs).roots? id = if .document id ∈ refs then none else f.roots? id := by
  rw [without, roots?_keep]
  cases h : f.roots? id with
  | none => simp
  | some roots =>
    rw [flags_getElem? _ _ _ (slot_lt_slots (by simp [isThere, h]))]
    by_cases hm : Ref.document id ∈ refs <;> simp [hm]

end Hypertext.Forest
