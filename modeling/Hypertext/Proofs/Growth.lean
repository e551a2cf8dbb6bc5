import Hypertext.Proofs.Plan

/-! Forests that grow: new elements come under new identities, and what was there before stays. -/
namespace Hypertext
set_option autoImplicit false

/-- An element after a value was put into its text slot. -/
def Element.filled (e : Element) (content : Datum) : Element :=
  { e with content, mark := .bool false }

namespace Forest

/-- Nothing that the first forest has room for is another in the second. -/
structure Grows (f g : Forest) : Prop where
  size : f.elements.size ≤ g.elements.size
  same : ∀ id : ElementId, id.index < f.elements.size → g.get? id = f.get? id
  roots : ∀ d, g.roots? d = f.roots? d

variable {f g h : Forest}

theorem Grows.refl (f : Forest) : f.Grows f := ⟨Nat.le_refl _, fun _ _ => rfl, fun _ => rfl⟩

theorem Grows.trans (first : f.Grows g) (second : g.Grows h) : f.Grows h :=
  ⟨Nat.le_trans first.size second.size,
    fun id hid => (second.same id (Nat.lt_of_lt_of_le hid first.size)).trans (first.same id hid),
    fun d => (second.roots d).trans (first.roots d)⟩

theorem index_lt {id : ElementId} {e : Element} (there : f.get? id = some e) :
    id.index < f.elements.size := by
  refine Nat.lt_of_not_le fun hid => ?_
  rw [get?, Array.getElem?_eq_none hid] at there
  cases there

/-! ## Sizes -/

@[simp] theorem size_update (f : Forest) (id : ElementId) (change : Element → Element) :
    (f.update id change).elements.size = f.elements.size := by
  simp [update]

@[simp] theorem size_setParent (f : Forest) (id : ElementId) (parent : ParentLink) :
    (f.setParent id parent).elements.size = f.elements.size := size_update f id _

@[simp] theorem size_setChildren (f : Forest) (holder : Ref) (children : List Datum) :
    (f.setChildren holder children).elements.size = f.elements.size := by
  cases holder with
  | element id => exact size_update f id _
  | document d => rfl

/-! ## Children -/

theorem get?_setChildren_of_ne {holder : Ref} {i : ElementId} (hne : holder ≠ .element i)
    (f : Forest) (children : List Datum) : (f.setChildren holder children).get? i = f.get? i := by
  cases holder with
  | element id =>
    rw [get?_setChildren_element, if_neg]
    rintro rfl
    exact hne rfl
  | document d => rfl

theorem roots?_setChildren (f : Forest) (d other : DocumentId) (children : List Datum) :
    (f.setChildren (.document d) children).roots? other =
      if other = d then (f.roots? d).map fun _ => children else f.roots? other := by
  simp only [roots?, setChildren, Array.getElem?_modify]
  by_cases h : other = d
  · subst h
    rw [if_pos rfl, if_pos rfl]
    rcases f.documents[other.index]? with _ | _ | roots <;> rfl
  · have hne : ¬ d.index = other.index := by
      intro heq
      exact h (by cases d; cases other; simp_all)
    rw [if_neg h, if_neg hne]

theorem childrenOf_setChildren {holder : Ref} (there : f.isThere holder = true)
    (children : List Datum) : (f.setChildren holder children).childrenOf holder = children := by
  cases holder with
  | element id =>
    obtain ⟨e, he⟩ := Option.isSome_iff_exists.1 there
    rw [childrenOf, get?_setChildren_element, if_pos rfl, he]
    rfl
  | document d =>
    obtain ⟨roots, hroots⟩ := Option.isSome_iff_exists.1 there
    rw [childrenOf, rootsOf, roots?_setChildren, if_pos rfl, hroots]
    rfl

theorem isThere_setChildren {holder : Ref} (there : f.isThere holder = true)
    (children : List Datum) : (f.setChildren holder children).isThere holder = true := by
  cases holder with
  | element id =>
    obtain ⟨e, he⟩ := Option.isSome_iff_exists.1 there
    rw [isThere, isAlive, get?_setChildren_element, if_pos rfl, he]
    rfl
  | document d =>
    obtain ⟨roots, hroots⟩ := Option.isSome_iff_exists.1 there
    rw [isThere, roots?_setChildren, if_pos rfl, hroots]
    rfl

theorem modify_modify {α : Type} (slots : Array α) (i : Nat) (first second : α → α) :
    (slots.modify i first).modify i second = slots.modify i (second ∘ first) := by
  apply Array.toList_inj.1
  rw [Array.toList_modify, Array.toList_modify, Array.toList_modify, List.modify_modify_eq]

theorem setChildren_setChildren (f : Forest) (holder : Ref) (first second : List Datum) :
    (f.setChildren holder first).setChildren holder second = f.setChildren holder second := by
  cases holder with
  | element id =>
    simp only [setChildren, update, modify_modify, Option.map_comp_map]
    rfl
  | document d =>
    simp only [setChildren, modify_modify, Option.map_comp_map]
    rfl

theorem grows_setChildren_childrenOf (f : Forest) (holder : Ref) :
    (f.setChildren holder (f.childrenOf holder)).Grows f := by
  refine ⟨Nat.le_of_eq (size_setChildren f holder _), fun i _ => ?_, fun other => ?_⟩
  · cases holder with
    | element id =>
      rw [get?_setChildren_element, childrenOf]
      split
      next h =>
        subst h
        cases f.get? i <;> rfl
      next => rfl
    | document d => rfl
  · cases holder with
    | element id => rfl
    | document d =>
      rw [roots?_setChildren, childrenOf, rootsOf]
      split
      next h =>
        subst h
        cases f.roots? other <;> rfl
      next => rfl

/-! ## What keeps growth -/

theorem Grows.setChildren (grows : f.Grows g) {holder : Ref} (there : f.isThere holder = true)
    (children : List Datum) :
    (f.setChildren holder children).Grows (g.setChildren holder children) := by
  refine ⟨by simpa using grows.size, fun i hi => ?_, ?_⟩
  · rw [size_setChildren] at hi
    by_cases hne : holder = .element i
    · subst hne
      rw [get?_setChildren_element, get?_setChildren_element, if_pos rfl, if_pos rfl,
        grows.same i hi]
    · rw [get?_setChildren_of_ne hne, get?_setChildren_of_ne hne, grows.same i hi]
  · intro d
    cases holder with
    | element id => exact grows.roots d
    | document d' =>
      rw [roots?_setChildren, roots?_setChildren, grows.roots d, grows.roots d']

theorem Grows.update (grows : f.Grows g) {id : ElementId} (new : f.elements.size ≤ id.index)
    (change : Element → Element) : f.Grows (g.update id change) := by
  refine ⟨by simpa using grows.size, fun i hi => ?_, grows.roots⟩
  rw [get?_update, if_neg, grows.same i hi]
  rintro rfl
  omega

theorem Grows.isThere (grows : f.Grows g) {r : Ref} (there : f.isThere r = true) :
    g.isThere r = true := by
  cases r with
  | element id =>
    obtain ⟨e, he⟩ := Option.isSome_iff_exists.1 there
    rw [Forest.isThere, isAlive, grows.same id (index_lt he), he]
    rfl
  | document d =>
    rw [Forest.isThere, grows.roots d]
    exact there

theorem Grows.childrenOf (grows : f.Grows g) {r : Ref} (there : f.isThere r = true) :
    g.childrenOf r = f.childrenOf r := by
  cases r with
  | element id =>
    obtain ⟨e, he⟩ := Option.isSome_iff_exists.1 there
    rw [Forest.childrenOf, Forest.childrenOf, grows.same id (index_lt he)]
  | document d => rw [Forest.childrenOf, Forest.childrenOf, rootsOf, rootsOf, grows.roots d]

theorem grows_insert (f : Forest) (e : Element) : f.Grows (f.insert e).2 := by
  refine ⟨by simp [insert], fun i hi => ?_, fun _ => rfl⟩
  rw [get?_insert, if_neg]
  rintro rfl
  simp [insert] at hi

/-! ## New identities -/

def Within (low high : Nat) (ids : List ElementId) : Prop :=
  ids.Nodup ∧ ∀ i ∈ ids, low ≤ i.index ∧ i.index < high

theorem Within.append {low middle high : Nat} {ids ids' : List ElementId}
    (first : Within low middle ids) (second : Within middle high ids') (hlow : low ≤ middle)
    (hhigh : middle ≤ high) : Within low high (ids ++ ids') := by
  refine ⟨List.nodup_append.2 ⟨first.1, second.1, fun i hi j hj => ?_⟩, fun i hi => ?_⟩
  · rintro rfl
    have hfirst := first.2 i hi
    have hsecond := second.2 i hj
    omega
  · obtain hi | hi := List.mem_append.1 hi
    · have hfirst := first.2 i hi
      omega
    · have hsecond := second.2 i hi
      omega

/-! ## One element apart -/

/-- The same apart from one element, which is now another. -/
structure GrowsBut (f g : Forest) (id : ElementId) (e : Element) : Prop where
  size : f.elements.size ≤ g.elements.size
  here : g.get? id = some e
  same : ∀ i : ElementId, i.index < f.elements.size → i ≠ id → g.get? i = f.get? i
  roots : ∀ d, g.roots? d = f.roots? d

theorem GrowsBut.trans {id : ElementId} {e e' : Element} (first : f.GrowsBut g id e)
    (second : g.GrowsBut h id e') : f.GrowsBut h id e' :=
  ⟨Nat.le_trans first.size second.size, second.here,
    fun i hi hne => (second.same i (Nat.lt_of_lt_of_le hi first.size) hne).trans
      (first.same i hi hne), fun d => (second.roots d).trans (first.roots d)⟩

theorem Grows.but (grows : f.Grows g) {id : ElementId} {e : Element} (there : g.get? id = some e) :
    f.GrowsBut g id e := ⟨grows.size, there, fun i hi _ => grows.same i hi, grows.roots⟩

/-- Apart from what is new nothing is another. -/
theorem GrowsBut.grows {id : ElementId} {e : Element} (but : f.GrowsBut g id e)
    (new : f.elements.size ≤ id.index) : f.Grows g := by
  refine ⟨but.size, fun i hi => but.same i hi ?_, but.roots⟩
  rintro rfl
  omega

theorem growsBut_update {id : ElementId} {e : Element} (there : f.get? id = some e)
    (change : Element → Element) : f.GrowsBut (f.update id change) id (change e) := by
  refine ⟨by simp, ?_, fun i _ hne => ?_, fun _ => rfl⟩
  · rw [get?_update, if_pos rfl, there]
    rfl
  · rw [get?_update, if_neg hne]

theorem GrowsBut.update {id : ElementId} {e : Element} (but : f.GrowsBut g id e)
    {other : ElementId} (new : f.elements.size ≤ other.index) (hne : other ≠ id)
    (change : Element → Element) : f.GrowsBut (g.update other change) id e := by
  refine ⟨by simpa using but.size, ?_, fun i hi hi' => ?_, but.roots⟩
  · rw [get?_update, if_neg hne.symm]
    exact but.here
  · rw [get?_update, if_neg, but.same i hi hi']
    rintro rfl
    omega

/-- What does not hold the element stays stored. -/
theorem Stores.growBut {p : Plan} {root id : ElementId} {ids : List ElementId} {e : Element}
    (stores : f.Stores p root ids) (but : f.GrowsBut g id e) (elsewhere : id ∉ ids) :
    g.Stores p root ids := by
  refine stores.congr fun i hi => ?_
  obtain ⟨e, he⟩ := stores.there i hi
  refine but.same i (index_lt he) ?_
  rintro rfl
  exact elsewhere hi

theorem StoresText.growBut {id : ElementId} {e e' : Element} {label : ElementLabel}
    {inside : Option Plan} {ids : List ElementId} (stores : f.StoresText id e label inside ids)
    (but : f.GrowsBut g id e') (elsewhere : id ∉ ids) : g.StoresText id e label inside ids := by
  refine stores.congr (fun i hi => ?_) ⟨e', but.here⟩
  obtain ⟨e, he⟩ := stores.there i hi
  refine but.same i (index_lt he) ?_
  rintro rfl
  exact elsewhere hi

/-! ## Trees that were added -/

/-- The link of what a document or element holds. -/
def linkTo : Ref → ParentLink
  | .element id => .element id
  | .document _ => .absent

/-- The first forest with a tree as planned, all of it new, below an element without a parent. -/
structure Restored (f g : Forest) (p : Plan) (root : ElementId) : Prop where
  grows : f.Grows g
  unlinked : ∃ e, g.get? root = some e ∧ e.parent = .absent
  stored : ∃ ids, g.Stores p root ids ∧ Within f.elements.size g.elements.size ids

/-- The same for trees that a holder got as its last children. -/
structure RestoredAll (f g : Forest) (holder : Ref) (ps : List Plan) (roots : List ElementId) :
    Prop where
  grows : (f.setChildren holder
    (f.childrenOf holder ++ roots.map (.ref <| .element ·))).Grows g
  linked : ∀ root ∈ roots, ∃ e, g.get? root = some e ∧ e.parent = linkTo holder
  stored : ∃ ids, g.StoresAll ps (roots.map (.ref <| .element ·)) ids ∧
    Within f.elements.size g.elements.size ids

theorem restoredAll_nil (f : Forest) (holder : Ref) : f.RestoredAll f holder [] [] := by
  refine ⟨?_, fun _ h => absurd h List.not_mem_nil, [], .nil, List.nodup_nil,
    fun _ h => absurd h List.not_mem_nil⟩
  rw [List.map_nil, List.append_nil]
  exact grows_setChildren_childrenOf f holder

theorem ne_of_new {holder : Ref} {i : ElementId} (there : f.isThere holder = true)
    (new : f.elements.size ≤ i.index) : holder ≠ .element i := by
  rintro rfl
  obtain ⟨e, he⟩ := Option.isSome_iff_exists.1 there
  have hold := index_lt he
  omega

theorem Restored.attach {p : Plan} {root : ElementId} (restored : f.Restored g p root)
    {holder : Ref} (there : f.isThere holder = true) :
    f.RestoredAll (g.attach holder (.ref (.element root))) holder [p] [root] := by
  obtain ⟨e, hroot, hparent⟩ := restored.unlinked
  obtain ⟨ids, stores, within⟩ := restored.stored
  have new : f.elements.size ≤ root.index := (within.2 root stores.root_mem).1
  -- first the link, then the list of children
  obtain ⟨linked, hattach, grows, hlink, hstores, hsize⟩ : ∃ linked : Forest,
      g.attach holder (.ref (.element root)) = linked.add holder (.ref (.element root)) ∧
      f.Grows linked ∧ (∃ e, linked.get? root = some e ∧ e.parent = linkTo holder) ∧
      linked.Stores p root ids ∧ linked.elements.size = g.elements.size := by
    cases holder with
    | element id =>
      refine ⟨g.setParent root (.element id), rfl, restored.grows.update new _, ?_,
        stores.relink within.1 _, size_setParent g root _⟩
      refine ⟨{ e with parent := .element id }, ?_, rfl⟩
      rw [get?_setParent, if_pos rfl, hroot]
      rfl
    | document d => exact ⟨g, rfl, restored.grows, ⟨e, hroot, hparent⟩, stores, rfl⟩
  have elsewhere : ∀ i ∈ ids, holder ≠ .element i :=
    fun i hi => ne_of_new there (within.2 i hi).1
  rw [hattach, add, grows.childrenOf there]
  refine ⟨grows.setChildren there _, ?_, ids, ?_, ?_⟩
  · intro root' hroot'
    rw [List.mem_singleton.1 hroot']
    obtain ⟨e, he, hparent⟩ := hlink
    refine ⟨e, ?_, hparent⟩
    rw [get?_setChildren_of_ne (elsewhere root stores.root_mem), he]
  · have h := hstores.congr fun i hi => get?_setChildren_of_ne (elsewhere i hi) linked
      (f.childrenOf holder ++ [.ref (.element root)])
    simpa using StoresAll.cons h .nil
  · rw [size_setChildren, hsize]
    exact within

/-- An element in the text slot of another without children: the slot is filled, the list of
children stays empty, and then the link is set. -/
theorem setContent_of_childless {id held : ElementId} {e : Element} (there : f.get? id = some e)
    (slot : e.hasText = true) (empty : e.children = []) :
    f.setContent id (.ref (.element held)) =
      ((f.update id (·.filled (.ref (.element held)))).update id
        ({ · with children := [] })).setParent held (.element id) := by
  have hslot : f.hasText id = true := by
    rw [hasText, there]
    exact slot
  have hchildren :
      (f.update id (·.filled (.ref (.element held)))).childrenOf (.element id) = [] := by
    rw [childrenOf, get?_update, if_pos rfl, there]
    exact empty
  rw [Forest.setContent, if_pos hslot]
  show ((f.update id (·.filled (.ref (.element held)))).remove (.element id) _).setParent held
    (.element id) = _
  rw [remove, hchildren]
  rfl

theorem Restored.setContent {p : Plan} {held id : ElementId} {e : Element}
    (restored : f.Restored g p held) (there : f.get? id = some e) (slot : e.hasText = true)
    (empty : e.children = []) :
    f.GrowsBut (g.setContent id (.ref (.element held))) id (e.filled (.ref (.element held))) ∧
      (g.setContent id (.ref (.element held))).link held = .element id ∧
      ∃ ids, (g.setContent id (.ref (.element held))).Stores p held ids ∧
        Within f.elements.size (g.setContent id (.ref (.element held))).elements.size ids := by
  obtain ⟨ids, stores, within⟩ := restored.stored
  obtain ⟨eheld, hheld, _⟩ := restored.unlinked
  have hold := index_lt there
  have hnew := (within.2 held stores.root_mem).1
  have hne : held ≠ id := by
    rintro rfl
    omega
  have elsewhere : id ∉ ids := by
    intro hi
    have hnew := (within.2 id hi).1
    omega
  have hid : g.get? id = some e := (restored.grows.same id hold).trans there
  have filled := growsBut_update hid (·.filled (.ref (.element held)))
  have cleared := growsBut_update filled.here ({ · with children := [] })
  have hcleared : ({ e.filled (.ref (.element held)) with children := [] } : Element) =
      e.filled (.ref (.element held)) := by
    rw [Element.filled, ← empty]
  rw [hcleared] at cleared
  have but := filled.trans cleared
  have linked := ((restored.grows.but hid).trans but).update hnew hne
    ({ · with parent := .element id })
  have hheld' := (but.same held (index_lt hheld) hne).trans hheld
  rw [setContent_of_childless hid slot empty]
  refine ⟨linked, ?_, ids, ?_, ?_⟩
  · refine link_eq_element (e := { eheld with parent := .element id }) ?_ rfl ?_
    · rw [get?_setParent, if_pos rfl, hheld']
      rfl
    · show (Forest.get? _ id).isSome = true
      rw [setParent, linked.here]
      rfl
  · exact (stores.growBut but elsewhere).relink within.1 _
  · rw [size_setParent, size_update, size_update]
    exact within

/-- What was added first stays when more is added. -/
theorem RestoredAll.append {holder : Ref} {ps ps' : List Plan} {roots roots' : List ElementId}
    (first : f.RestoredAll g holder ps roots) (second : g.RestoredAll h holder ps' roots')
    (there : f.isThere holder = true) :
    f.RestoredAll h holder (ps ++ ps') (roots ++ roots') := by
  obtain ⟨ids, stores, within⟩ := first.stored
  obtain ⟨ids', stores', within'⟩ := second.stored
  have hchildren : g.childrenOf holder =
      f.childrenOf holder ++ roots.map (.ref <| .element ·) := by
    rw [first.grows.childrenOf (isThere_setChildren there _), childrenOf_setChildren there]
  have grows : (f.setChildren holder (f.childrenOf holder ++
      (roots ++ roots').map (.ref <| .element ·))).Grows h := by
    have hset := first.grows.setChildren (isThere_setChildren there _)
      (f.childrenOf holder ++ (roots ++ roots').map (.ref <| .element ·))
    rw [setChildren_setChildren] at hset
    refine hset.trans ?_
    rw [List.map_append, ← List.append_assoc, ← hchildren]
    exact second.grows
  -- the second holder is an old element, so that the first trees do not change
  have same : ∀ i : ElementId, f.elements.size ≤ i.index → i.index < g.elements.size →
      h.get? i = g.get? i := by
    intro i new hi
    rw [second.grows.same i (by rwa [size_setChildren]),
      get?_setChildren_of_ne (ne_of_new there new)]
  have hfirst : f.elements.size ≤ g.elements.size := by
    have hsize := first.grows.size
    rwa [size_setChildren] at hsize
  have hsecond : g.elements.size ≤ h.elements.size := by
    have hsize := second.grows.size
    rwa [size_setChildren] at hsize
  refine ⟨grows, fun root hroot => ?_, ids ++ ids', ?_, within.append within' hfirst hsecond⟩
  · obtain hroot | hroot := List.mem_append.1 hroot
    · have hmem := stores.child_mem (List.mem_map_of_mem hroot)
      rw [same root (within.2 root hmem).1 (within.2 root hmem).2]
      exact first.linked root hroot
    · exact second.linked root hroot
  · rw [List.map_append]
    refine StoresAll.append (stores.congr fun i hi => ?_) stores'
    exact same i (within.2 i hi).1 (within.2 i hi).2

theorem RestoredAll.node {label : ElementLabel} {inside : Option Plan} {children : List Plan}
    {id : ElementId} {e : Element} {ids : List ElementId} {roots : List ElementId}
    (restored : g.RestoredAll h (.element id) children roots) (grows : f.Grows g)
    (there : g.get? id = some e) (kind : e.kind = label.kind) (tag : e.tag = .text label.tag)
    (attributes : e.attributes = label.attributes) (empty : e.children = [])
    (unlinked : e.parent = .absent) (text : g.StoresText id e label inside ids)
    (within : Within f.elements.size g.elements.size (id :: ids)) :
    f.Restored h (.node label inside children) id := by
  obtain ⟨ids', stores, within'⟩ := restored.stored
  have hchildren : g.childrenOf (.element id) = [] := by
    rw [childrenOf, there]
    exact empty
  have hgrows := restored.grows
  rw [hchildren, List.nil_append] at hgrows
  -- the element itself changes only in its children
  have set : g.GrowsBut (g.setChildren (.element id) (roots.map (.ref <| .element ·))) id
      { e with children := roots.map (.ref <| .element ·) } :=
    growsBut_update there ({ · with children := roots.map (.ref <| .element ·) })
  have here : h.get? id = some { e with children := roots.map (.ref <| .element ·) } :=
    (hgrows.same id (index_lt set.here)).trans set.here
  have but := set.trans (hgrows.but here)
  have elsewhere : id ∉ ids := (List.nodup_cons.1 within.1).1
  refine ⟨((grows.but there).trans but).grows (within.2 id List.mem_cons_self).1,
    ⟨_, here, unlinked⟩, _, .node here kind tag attributes
      ((text.growBut but elsewhere).of_eq rfl rfl rfl) stores fun child hchild => ?_,
    within.append within' grows.size but.size⟩
  obtain ⟨root, hroot, hchild⟩ := List.mem_map.1 hchild
  obtain rfl : root = child := by simpa using hchild
  obtain ⟨eroot, htree, hparent⟩ := restored.linked root hroot
  refine link_eq_element htree hparent ?_
  rw [isAlive, here]
  rfl

end Forest

end Hypertext
