import Hypertext.Proofs.Ownership

/-! What the operations of building do to the agreement of a forest with its deeds: new objects,
values in text slots, the attachment of an element that waits for it, the move of a child into the
text slot of its holder, and the removal of what nothing holds. -/
namespace Hypertext
set_option autoImplicit false

/-! ## References in values -/

theorem Value.mem_refs_of_ref? {ρ : Type} {v : Value ρ} {r : ρ} (h : v.ref? = some r) :
    r ∈ v.refs := by
  fun_induction Value.ref? v with
  | case1 s =>
    rw [Option.some.inj h, Value.refs]
    exact List.mem_singleton_self r
  | case2 o v ih =>
    rw [Value.refs]
    exact ih h
  | case3 => cases h

theorem Value.mem_refsList {ρ : Type} {vs : List (Value ρ)} {v : Value ρ} {r : ρ} (hv : v ∈ vs)
    (hr : r ∈ v.refs) : r ∈ Value.refsList vs := by
  induction vs with
  | nil => cases hv
  | cons w vs ih =>
    rw [Value.refsList]
    obtain rfl | hv := List.mem_cons.1 hv
    · exact List.mem_append_left _ hr
    · exact List.mem_append_right _ (ih hv)

namespace Forest

open Deed

variable {f g : Forest} {deeds : List Deed} {pending : List ElementId}

theorem mem_held_of_child {h : Ref} {v : Datum} {r : Ref} (hv : v ∈ f.childrenOf h)
    (hr : r ∈ v.refs) : r ∈ f.held h := by
  cases h with
  | element id =>
    rw [childrenOf] at hv
    rw [held]
    cases there : f.get? id with
    | none => rw [there] at hv; cases hv
    | some e =>
      rw [there] at hv
      exact List.mem_append_left _ (List.mem_append_left _ (Value.mem_refsList hv hr))
  | document d => exact Value.mem_refsList hv hr

theorem mem_held_of_content {id : ElementId} {e : Element} {r : Ref} (there : f.get? id = some e)
    (hr : r ∈ e.content.refs) : r ∈ f.held (.element id) := by
  rw [held, there]
  simp [hr]

theorem isThere_element {id : ElementId} :
    f.isThere (.element id) = true ↔ ∃ e, f.get? id = some e := Option.isSome_iff_exists

/-! ## The log -/

theorem Logged.mono (logged : f.Logged deeds) (elements : f.elements.size ≤ g.elements.size)
    (documents : f.documents.size ≤ g.documents.size) : g.Logged deeds := by
  refine ⟨logged.once, logged.older, logged.moved, fun h x hx => ?_, fun h x hx => ?_⟩
  · have room := logged.holder h x hx
    cases h with
    | element id => exact Nat.lt_of_lt_of_le room elements
    | document d => exact Nat.lt_of_lt_of_le room documents
  · exact Nat.lt_of_lt_of_le (logged.child h x hx) elements

theorem hasRoom_of_isThere {h : Ref} (there : f.isThere h = true) : f.HasRoom h := by
  cases h with
  | element id => exact lt_size_of_isSome _ there
  | document d => exact lt_size_of_isSome _ there

/-! ## What is left -/

theorem Orderly.pruned {roots : List Ref} (orderly : f.Orderly deeds pending)
    (pruned : f.Pruned g roots) (held : ∀ x ∈ pending, .element x ∈ roots) :
    g.Orderly deeds pending := by
  -- what is left has all that it holds
  have kept : ∀ {h x e}, g.isThere h = true → .element x ∈ f.held h → f.get? x = some e →
      g.get? x = some e := by
    intro h x e there hx hget
    have left := pruned.closed h (.element x) there hx (isThere_element.2 ⟨e, hget⟩)
    exact (pruned.get? x left).trans hget
  have same : ∀ {id e}, g.get? id = some e → f.get? id = some e := fun there =>
    (pruned.get? _ (isThere_element.2 ⟨_, there⟩)).symm.trans there
  refine ⟨orderly.logged.mono (Nat.le_of_eq pruned.elements.symm)
    (Nat.le_of_eq pruned.documents.symm), fun h there => ?_, fun h x there hx => ?_,
    fun id e there => orderly.tag id e (same there), fun id e r there slot content => ?_,
    fun x hx => ?_, orderly.distinct⟩
  · rw [pruned.childrenOf there]
    exact orderly.children h (pruned.there there)
  · obtain ⟨e, hget, parent⟩ := orderly.linked h x (pruned.there there) hx
    refine ⟨e, kept there (mem_held_of_child (v := .ref (.element x)) ?_ ?_) hget, parent⟩
    · rw [orderly.children h (pruned.there there)]
      exact List.mem_map_of_mem hx
    · exact List.mem_singleton_self _
  · obtain ⟨x, rfl, moved, e', hget, parent⟩ := orderly.slot id e r (same there) slot content
    refine ⟨x, rfl, moved, e', kept (isThere_element.2 ⟨e, there⟩) ?_ hget, parent⟩
    exact mem_held_of_content (same there) (Value.mem_refs_of_ref? content)
  · obtain ⟨⟨e, hget, parent⟩, unattached⟩ := orderly.waiting x hx
    have left := pruned.root _ (held x hx) (isThere_element.2 ⟨e, hget⟩)
    exact ⟨⟨e, (pruned.get? x left).trans hget, parent⟩, unattached⟩

/-! ## Changes of elements -/

/-- The same elements and documents are there, and each element is related to what it was. -/
structure Changed (f g : Forest) (R : ElementId → Element → Element → Prop) : Prop where
  elements : g.elements.size = f.elements.size
  documents : g.documents.size = f.documents.size
  there : ∀ d, g.isThere (.document d) = f.isThere (.document d)
  get? : ∀ id, Option.Rel (R id) (f.get? id) (g.get? id)

variable {R : ElementId → Element → Element → Prop} {id : ElementId} {e e' : Element}

theorem Changed.after (changed : f.Changed g R) (there : f.get? id = some e) :
    ∃ e', g.get? id = some e' ∧ R id e e' := by
  have h := changed.get? id
  rw [there] at h
  generalize g.get? id = e' at h ⊢
  cases h with
  | some related => exact ⟨_, rfl, related⟩

theorem Changed.before (changed : f.Changed g R) (there : g.get? id = some e') :
    ∃ e, f.get? id = some e ∧ R id e e' := by
  have h := changed.get? id
  rw [there] at h
  generalize f.get? id = e at h ⊢
  cases h with
  | some related => exact ⟨_, rfl, related⟩

theorem Changed.isThere (changed : f.Changed g R) (r : Ref) : g.isThere r = f.isThere r := by
  cases r with
  | document d => exact changed.there d
  | element id =>
    have h := changed.get? id
    rw [Forest.isThere, Forest.isThere, isAlive, isAlive]
    generalize f.get? id = e, g.get? id = e' at h ⊢
    cases h <;> rfl

theorem Changed.logged (changed : f.Changed g R) (logged : f.Logged deeds) : g.Logged deeds :=
  logged.mono (Nat.le_of_eq changed.elements.symm) (Nat.le_of_eq changed.documents.symm)

theorem Changed.imp {R' : ElementId → Element → Element → Prop} (changed : f.Changed g R)
    (h : ∀ id e e', R id e e' → R' id e e') : f.Changed g R' := by
  refine ⟨changed.elements, changed.documents, changed.there, fun id => ?_⟩
  have hrel := changed.get? id
  generalize f.get? id = e, g.get? id = e' at hrel ⊢
  cases hrel with
  | none => exact .none
  | some related => exact .some (h _ _ _ related)

theorem changed_update (id : ElementId) {change : Element → Element}
    (same : ∀ other e, other ≠ id → R other e e) (related : ∀ e, R id e (change e)) :
    f.Changed (f.update id change) R := by
  refine ⟨size_update f id change, rfl, fun _ => rfl, fun other => ?_⟩
  rw [get?_update]
  by_cases hid : other = id
  · rw [if_pos hid, hid]
    cases f.get? id with
    | none => exact .none
    | some e => exact .some (related e)
  · rw [if_neg hid]
    cases f.get? other with
    | none => exact .none
    | some e => exact .some (same other e hid)

/-- Two changes one after the other. -/
theorem Changed.trans {h : Forest} {R' : ElementId → Element → Element → Prop}
    (first : f.Changed g R) (second : g.Changed h R') :
    f.Changed h fun id e e'' => ∃ e', R id e e' ∧ R' id e' e'' := by
  refine ⟨second.elements.trans first.elements, second.documents.trans first.documents,
    fun d => (second.there d).trans (first.there d), fun id => ?_⟩
  have hfirst := first.get? id
  have hsecond := second.get? id
  generalize f.get? id = e, g.get? id = e', h.get? id = e'' at hfirst hsecond ⊢
  cases hfirst with
  | none =>
    cases hsecond
    exact .none
  | some related =>
    cases hsecond with
    | some related' => exact .some ⟨_, related, related'⟩

/-! ## Changes that keep the shape -/

/-- The same but for what is neither a child nor a link nor an element in a text slot. -/
structure Resembles (e e' : Element) : Prop where
  kind : e'.kind = e.kind
  children : e'.children = e.children
  parent : e'.parent = e.parent
  tag : e'.tag = e.tag
  content : e.hasText = true → e'.content = e.content ∨ e'.content.ref? = none

theorem Resembles.refl (e : Element) : Resembles e e := ⟨rfl, rfl, rfl, rfl, fun _ => .inl rfl⟩

theorem Resembles.trans {e e' e'' : Element} (first : Resembles e e') (second : Resembles e' e'') :
    Resembles e e'' := by
  refine ⟨second.kind.trans first.kind, second.children.trans first.children,
    second.parent.trans first.parent, second.tag.trans first.tag, fun slot => ?_⟩
  have slot' : e'.hasText = true := by
    rw [Element.hasText, first.kind]
    exact slot
  obtain same | plain := second.content slot'
  · rw [same]
    exact first.content slot
  · exact .inr plain

/-- Forests of the same shape. -/
structure SameShape (f g : Forest) : Prop where
  changed : f.Changed g fun _ => Resembles
  roots? : ∀ d, g.roots? d = f.roots? d

theorem sameShape_update (id : ElementId) {change : Element → Element}
    (resembles : ∀ e, Resembles e (change e)) : f.SameShape (f.update id change) :=
  ⟨changed_update id (fun _ e _ => .refl e) resembles, fun _ => rfl⟩

theorem SameShape.refl (f : Forest) : f.SameShape f := by
  refine ⟨⟨rfl, rfl, fun _ => rfl, fun id => ?_⟩, fun _ => rfl⟩
  cases f.get? id with
  | none => exact .none
  | some e => exact .some (.refl e)

theorem SameShape.trans {h : Forest} (first : f.SameShape g) (second : g.SameShape h) :
    f.SameShape h :=
  ⟨(first.changed.trans second.changed).imp fun _ _ _ ⟨_, first, second⟩ => first.trans second,
    fun d => (second.roots? d).trans (first.roots? d)⟩

theorem sameShape_setMark (id : ElementId) (mark : Datum) : f.SameShape (f.setMark id mark) :=
  sameShape_update id fun _ => ⟨rfl, rfl, rfl, rfl, fun _ => .inl rfl⟩

/-- A value that is no element or document only fills the slot. -/
theorem sameShape_setContent (id : ElementId) {content : Datum} (plain : content.ref? = none) :
    f.SameShape (f.setContent id content) := by
  simp only [setContent]
  split
  · split
    next => cases plain
    next => exact sameShape_update id fun _ => ⟨rfl, rfl, rfl, rfl, fun _ => .inr plain⟩
  · exact sameShape_update id fun _ => ⟨rfl, rfl, rfl, rfl, fun _ => .inr plain⟩

/-- Without a text slot any value is only kept. -/
theorem sameShape_setContent_of_slotless {id : ElementId} (slotless : ¬ f.hasText id = true)
    (content : Datum) : f.SameShape (f.setContent id content) := by
  rw [setContent, if_neg slotless]
  refine ⟨⟨size_update f id _, rfl, fun _ => rfl, fun other => ?_⟩, fun _ => rfl⟩
  rw [get?_update]
  split
  next same =>
    rw [same]
    cases hget : f.get? id with
    | none => exact .none
    | some e =>
      refine .some ⟨rfl, rfl, rfl, rfl, fun slot => absurd ?_ slotless⟩
      rw [hasText, hget]
      exact slot
  next => exact (SameShape.refl f).changed.get? other

theorem sameShape_setProperty (id : ElementId) (p : Property) (value : Datum) :
    f.SameShape (f.setProperty id p value) := by
  unfold setProperty
  split
  · exact sameShape_update id fun _ => ⟨rfl, rfl, rfl, rfl, fun _ => .inl rfl⟩
  · exact sameShape_update id fun _ => ⟨rfl, rfl, rfl, rfl, fun _ => .inl rfl⟩

theorem SameShape.childrenOf (same : f.SameShape g) (r : Ref) : g.childrenOf r = f.childrenOf r := by
  cases r with
  | element id =>
    have h := same.changed.get? id
    rw [Forest.childrenOf, Forest.childrenOf]
    generalize f.get? id = e, g.get? id = e' at h ⊢
    cases h with
    | none => rfl
    | some resembles => exact resembles.children
  | document d => rw [Forest.childrenOf, Forest.childrenOf, rootsOf, rootsOf, same.roots? d]

theorem Orderly.sameShape (orderly : f.Orderly deeds pending) (same : f.SameShape g) :
    g.Orderly deeds pending := by
  have changed := same.changed
  have linked : ∀ {x p}, (∃ e, f.get? x = some e ∧ e.parent = p) →
      ∃ e, g.get? x = some e ∧ e.parent = p := by
    rintro x p ⟨e, there, parent⟩
    obtain ⟨e', there', resembles⟩ := changed.after there
    exact ⟨e', there', resembles.parent.trans parent⟩
  refine ⟨changed.logged orderly.logged, fun h there => ?_, fun h x there hx => ?_,
    fun id e there => ?_, fun id e r there slot content => ?_,
    fun x hx => ⟨linked (orderly.waiting x hx).1, (orderly.waiting x hx).2⟩, orderly.distinct⟩
  · rw [changed.isThere] at there
    rw [same.childrenOf]
    exact orderly.children h there
  · rw [changed.isThere] at there
    exact linked (orderly.linked h x there hx)
  · obtain ⟨e', there', resembles⟩ := changed.before there
    rw [resembles.tag]
    exact orderly.tag id e' there'
  · obtain ⟨e', there', resembles⟩ := changed.before there
    rw [Element.hasText, resembles.kind] at slot
    obtain same | plain := resembles.content slot
    · rw [same] at content
      obtain ⟨x, hx, moved, parent⟩ := orderly.slot id e' r there' slot content
      exact ⟨x, hx, moved, linked parent⟩
    · rw [plain] at content
      cases content

/-! ## New objects -/

/-- What is new was never attached, and nothing was attached to it. -/
theorem Logged.new_element (logged : f.Logged deeds) (e : Element) :
    (∀ h, attached h (f.insert e).1 ∉ deeds) ∧ built deeds (.element (f.insert e).1) = [] := by
  refine ⟨fun h hx => Nat.lt_irrefl _ (logged.child h _ hx), ?_⟩
  refine List.eq_nil_iff_forall_not_mem.2 fun x hx => ?_
  exact Nat.lt_irrefl _ (logged.holder _ x (mem_built.1 hx).1)

theorem Logged.new_document (logged : f.Logged deeds) :
    built deeds (.document f.insertDocument.1) = [] := by
  refine List.eq_nil_iff_forall_not_mem.2 fun x hx => ?_
  exact Nat.lt_irrefl _ (logged.holder _ x (mem_built.1 hx).1)

/-- A new element that holds nothing waits to be attached. -/
theorem Orderly.insert (orderly : f.Orderly deeds pending) {e : Element} (childless : e.children = [])
    (unlinked : e.parent = .absent) (tag : e.tag.ref? = none) (content : e.content.ref? = none) :
    (f.insert e).2.Orderly deeds ((f.insert e).1 :: pending) := by
  obtain ⟨unattached, none⟩ := orderly.logged.new_element e
  have grows := grows_insert f e
  have fresh : ∀ {id : ElementId} {e' : Element}, f.get? id = some e' → id ≠ (f.insert e).1 := by
    rintro id e' there rfl
    exact Nat.lt_irrefl _ (index_lt there)
  have old : ∀ {id : ElementId} {e' : Element}, f.get? id = some e' →
      (f.insert e).2.get? id = some e' := fun there => by
    rw [get?_insert, if_neg (fresh there), there]
  have linked : ∀ {x p}, (∃ e, f.get? x = some e ∧ e.parent = p) →
      ∃ e', (f.insert e).2.get? x = some e' ∧ e'.parent = p :=
    fun ⟨e', there, parent⟩ => ⟨e', old there, parent⟩
  have both : ∀ {id : ElementId} {e' : Element}, (f.insert e).2.get? id = some e' →
      id = (f.insert e).1 ∧ e' = e ∨ f.get? id = some e' := by
    intro id e' there
    rw [get?_insert] at there
    split at there
    next same => exact .inl ⟨same, (Option.some.inj there).symm⟩
    next => exact .inr there
  have here : (f.insert e).2.get? (f.insert e).1 = some e := by
    rw [get?_insert, if_pos rfl]
  have holders : ∀ {h}, (f.insert e).2.isThere h = true →
      h = .element (f.insert e).1 ∨ f.isThere h = true := by
    intro h there
    cases h with
    | document d => exact .inr there
    | element id =>
      obtain ⟨e', there⟩ := isThere_element.1 there
      exact (both there).imp (fun same => congrArg _ same.1)
        fun there => isThere_element.2 ⟨e', there⟩
  refine ⟨orderly.logged.mono grows.size (Nat.le_refl _), fun h there => ?_, fun h x there hx => ?_,
    fun id e' there => ?_, fun id e' r there slot hr => ?_, fun x hx => ?_, ?_⟩
  · obtain rfl | there := holders there
    · rw [none, childrenOf, here]
      exact childless
    · rw [grows.childrenOf there]
      exact orderly.children h there
  · obtain rfl | there := holders there
    · rw [none] at hx
      cases hx
    · exact linked (orderly.linked h x there hx)
  · obtain ⟨-, rfl⟩ | there := both there
    · exact tag
    · exact orderly.tag id e' there
  · obtain ⟨-, rfl⟩ | there := both there
    · rw [content] at hr
      cases hr
    · obtain ⟨x, hx, moved, parent⟩ := orderly.slot id e' r there slot hr
      exact ⟨x, hx, moved, linked parent⟩
  · obtain rfl | hx := List.mem_cons.1 hx
    · exact ⟨⟨e, here, unlinked⟩, unattached⟩
    · exact ⟨linked (orderly.waiting x hx).1, (orderly.waiting x hx).2⟩
  · refine List.nodup_cons.2 ⟨fun hx => ?_, orderly.distinct⟩
    obtain ⟨⟨e', there, -⟩, -⟩ := orderly.waiting _ hx
    exact fresh there rfl

theorem Orderly.insertDocument (orderly : f.Orderly deeds pending) :
    f.insertDocument.2.Orderly deeds pending := by
  have none := orderly.logged.new_document
  refine ⟨orderly.logged.mono (Nat.le_refl _) (by simp [Forest.insertDocument]), fun h there => ?_,
    fun h x there hx => ?_, orderly.tag, orderly.slot, orderly.waiting, orderly.distinct⟩
  · cases h with
    | element id => exact orderly.children (.element id) there
    | document d =>
      rw [isThere, roots?_insertDocument] at there
      rw [childrenOf, rootsOf, roots?_insertDocument]
      split at there
      next same =>
        rw [if_pos same, same, none]
        rfl
      next other =>
        rw [if_neg other]
        exact orderly.children (.document d) there
  · cases h with
    | element id => exact orderly.linked (.element id) x there hx
    | document d =>
      rw [isThere, roots?_insertDocument] at there
      split at there
      next same =>
        rw [same, none] at hx
        cases hx
      next => exact orderly.linked (.document d) x there hx

/-! ## Attachment -/

theorem changed_setChildren (h : Ref) (children : List Datum)
    (same : ∀ y e, R y e e) (set : ∀ id e, h = .element id → R id e { e with children }) :
    f.Changed (f.setChildren h children) R := by
  cases h with
  | element id => exact changed_update id (fun y e _ => same y e) fun e => set id e rfl
  | document d =>
    refine ⟨rfl, by simp [setChildren], fun d' => ?_, fun y => ?_⟩
    · rw [isThere, isThere, roots?_setChildren]
      split
      next h => rw [h, Option.isSome_map]
      next => rfl
    · show Option.Rel (R y) (f.get? y) (f.get? y)
      cases f.get? y with
      | none => exact .none
      | some e => exact .some (same y e)

theorem childrenOf_setChildren_of_ne {h h' : Ref} (other : h' ≠ h) (f : Forest)
    (children : List Datum) : (f.setChildren h children).childrenOf h' = f.childrenOf h' := by
  cases h' with
  | element id => rw [childrenOf, childrenOf, get?_setChildren_of_ne other.symm]
  | document d =>
    cases h with
    | element id => rfl
    | document d' =>
      rw [childrenOf, childrenOf, rootsOf, rootsOf, roots?_setChildren, if_neg]
      rintro rfl
      exact other rfl

theorem childrenOf_update (f : Forest) (x : ElementId) (change : Element → Element)
    (same : ∀ e, (change e).children = e.children) (h : Ref) :
    (f.update x change).childrenOf h = f.childrenOf h := by
  cases h with
  | document d => rfl
  | element id =>
    rw [childrenOf, childrenOf, get?_update]
    split
    next here =>
      rw [here]
      cases f.get? x with
      | none => rfl
      | some e => exact same e
    next => rfl

theorem childrenOf_setParent (f : Forest) (x : ElementId) (parent : ParentLink) (h : Ref) :
    (f.setParent x parent).childrenOf h = f.childrenOf h :=
  childrenOf_update f x ({ · with parent }) (fun _ => rfl) h

/-- What an attachment does to an element beside its children. -/
structure Attaches (h : Ref) (x y : ElementId) (e e' : Element) : Prop where
  kind : e'.kind = e.kind
  tag : e'.tag = e.tag
  content : e'.content = e.content
  other : y ≠ x → e'.parent = e.parent
  linked : y = x → e.parent = .absent → e'.parent = linkTo h

theorem changed_attach (f : Forest) (h : Ref) (x : ElementId) :
    f.Changed (f.attach h (.ref (.element x))) (Attaches h x) := by
  -- the list of children is nothing that an attachment has to agree on
  have add : ∀ (g : Forest) (children : List Datum), g.Changed (g.setChildren h children)
      fun _ e e' => e'.kind = e.kind ∧ e'.tag = e.tag ∧ e'.content = e.content ∧
        e'.parent = e.parent := fun g children =>
    changed_setChildren h children (fun _ _ => ⟨rfl, rfl, rfl, rfl⟩)
      fun _ _ _ => ⟨rfl, rfl, rfl, rfl⟩
  cases h with
  | element id =>
    have link : f.Changed (f.setParent x (.element id)) (Attaches (.element id) x) :=
      changed_update x (fun y e hy => ⟨rfl, rfl, rfl, fun _ => rfl, fun same => absurd same hy⟩)
        fun e => ⟨rfl, rfl, rfl, fun hx => absurd rfl hx, fun _ _ => rfl⟩
    refine (link.trans (add _ _)).imp fun y e e'' ⟨e', attaches, kind, tag, content, parent⟩ => ?_
    exact ⟨kind.trans attaches.kind, tag.trans attaches.tag, content.trans attaches.content,
      fun hy => parent.trans (attaches.other hy),
      fun hy none => parent.trans (attaches.linked hy none)⟩
  | document d =>
    exact (add f _).imp fun y e e' ⟨kind, tag, content, parent⟩ =>
      ⟨kind, tag, content, fun _ => parent, fun _ none => parent.trans none⟩

/-- An edit of one list of children. -/
theorem childrenOf_edited (h h' : Ref) (there : h = h' → f.isThere h = true)
    (change : List Datum → List Datum) :
    (f.setChildren h (change (f.childrenOf h))).childrenOf h' =
      if h = h' then change (f.childrenOf h') else f.childrenOf h' := by
  split
  next same =>
    rw [← same]
    exact childrenOf_setChildren (there same) _
  next other => exact childrenOf_setChildren_of_ne (Ne.symm other) f _

/-- Attaching appends as adding does. -/
theorem childrenOf_attach (h h' : Ref) (there : h = h' → f.isThere h = true) (child : Datum) :
    (f.attach h child).childrenOf h' =
      if h = h' then f.childrenOf h' ++ [child] else f.childrenOf h' := by
  match h, child with
  | .element id, .ref (.element x) =>
    have linked : .element id = h' → (f.setParent x (.element id)).isThere (.element id) = true := by
      intro same
      rw [setParent, (changed_update (f := f) (R := fun _ _ _ => True) x (fun _ _ _ => trivial)
        fun _ => trivial).isThere]
      exact there same
    have added := childrenOf_edited (.element id) h' linked (· ++ [.ref (.element x)])
    rw [childrenOf_setParent f x _ h'] at added
    exact added
  | .element _, .ref (.document _) | .element _, .scalar _ | .element _, .list _
  | .element _, .record _ | .element _, .renderer .. | .element _, .made .. | .document _, _ =>
    exact childrenOf_edited _ h' there (· ++ [_])

theorem Logged.attached {h : Ref} {x : ElementId} (logged : f.Logged deeds)
    (new : ∀ h', Deed.attached h' x ∉ deeds) (there : f.isThere h = true)
    (alive : ∃ e, f.get? x = some e) (older : ∀ id, h = .element id → id.index < x.index) :
    f.Logged (deeds ++ [.attached h x]) := by
  have cases : ∀ {h' y}, Deed.attached h' y ∈ deeds ++ [.attached h x] →
      Deed.attached h' y ∈ deeds ∨ h' = h ∧ y = x := by
    intro h' y hy
    simpa using hy
  refine ⟨?_, fun id y hy => ?_, fun id y hy => ?_, fun h' y hy => ?_, fun h' y hy => ?_⟩
  · have more : attachments (deeds ++ [.attached h x]) = attachments deeds ++ [(h, x)] := by
      simp [attachments]
    rw [more, List.map_append]
    refine logged.once.append (List.nodup_singleton x) fun y hy hx => ?_
    obtain rfl : y = x := List.mem_singleton.1 hx
    obtain ⟨⟨h', y⟩, hmem, rfl⟩ := List.mem_map.1 hy
    exact new h' (mem_attachments.1 hmem)
  · obtain hy | ⟨same, rfl⟩ := cases hy
    · exact logged.older id y hy
    · exact older id same.symm
  · obtain hy | hy := List.mem_append.1 hy
    · exact List.mem_append_left _ (logged.moved id y hy)
    · simp at hy
  · obtain hy | ⟨rfl, -⟩ := cases hy
    · exact logged.holder h' y hy
    · exact hasRoom_of_isThere there
  · obtain hy | ⟨-, rfl⟩ := cases hy
    · exact logged.child h' y hy
    · obtain ⟨e, hget⟩ := alive
      exact index_lt hget

/-- An element that waits gets its place behind what was attached to its holder before. -/
theorem Orderly.attach {h : Ref} {x : ElementId} (orderly : f.Orderly deeds (x :: pending))
    (there : f.isThere h = true) (older : ∀ id, h = .element id → id.index < x.index) :
    (f.attach h (.ref (.element x))).Orderly (deeds ++ [attached h x]) pending := by
  have changed := f.changed_attach h x
  have logged := orderly.logged
  obtain ⟨⟨ex, hx, unlinked⟩, unattached⟩ := orderly.waiting x List.mem_cons_self
  obtain ⟨new, distinct⟩ := List.nodup_cons.1 orderly.distinct
  have unmoved : ∀ id, Deed.moved id x ∉ deeds := fun id hmoved =>
    unattached _ (logged.moved id x hmoved)
  have linked : ∀ {y p}, y ≠ x → (∃ e, f.get? y = some e ∧ e.parent = p) →
      ∃ e', (f.attach h (.ref (.element x))).get? y = some e' ∧ e'.parent = p := by
    rintro y p hy ⟨e, hget, parent⟩
    obtain ⟨e', hget', attaches⟩ := changed.after hget
    exact ⟨e', hget', (attaches.other hy).trans parent⟩
  refine ⟨changed.logged (logged.attached unattached there ⟨ex, hx⟩ older),
    fun h' there' => ?_, fun h' y there' hy => ?_, fun id e' hget => ?_,
    fun id e' r hget slot content => ?_, fun y hy => ?_, distinct⟩
  · rw [changed.isThere] at there'
    rw [childrenOf_attach h h' fun _ => there, built_attached unmoved, List.map_append,
      orderly.children h' there']
    split <;> simp
  · rw [changed.isThere] at there'
    rw [built_attached unmoved] at hy
    obtain old | last := List.mem_append.1 hy
    · refine linked ?_ (orderly.linked h' y there' old)
      rintro rfl
      exact unattached h' (mem_built.1 old).1
    · obtain ⟨rfl, rfl⟩ : h = h' ∧ y = x := by simpa using last
      obtain ⟨e', hget, attaches⟩ := changed.after hx
      exact ⟨e', hget, attaches.linked rfl unlinked⟩
  · obtain ⟨e, hget', attaches⟩ := changed.before hget
    rw [attaches.tag]
    exact orderly.tag id e hget'
  · obtain ⟨e, hget', attaches⟩ := changed.before hget
    rw [attaches.content] at content
    rw [Element.hasText, attaches.kind] at slot
    obtain ⟨y, rfl, moved, parent⟩ := orderly.slot id e r hget' slot content
    have hy : y ≠ x := by
      rintro rfl
      exact unmoved id moved
    exact ⟨y, rfl, List.mem_append_left _ moved, linked hy parent⟩
  · obtain ⟨parent, hfree⟩ := orderly.waiting y (List.mem_cons_of_mem x hy)
    have other : y ≠ x := by
      rintro rfl
      exact new hy
    refine ⟨linked other parent, fun h' hmem => ?_⟩
    obtain hmem | hmem := List.mem_append.1 hmem
    · exact hfree h' hmem
    · exact other (Deed.attached.inj (List.mem_singleton.1 hmem)).2

/-! ## Moves -/

/-- What a move does to an element beside its children. -/
structure Moves (id x y : ElementId) (e e' : Element) : Prop where
  kind : e'.kind = e.kind
  tag : e'.tag = e.tag
  content : e'.content = if y = id then .ref (.element x) else e.content
  parent : e'.parent = if y = x then .element id else e.parent

variable {x : ElementId}

/-- The slot is filled, the first occurrence among the children is taken out, and the link is
set. -/
theorem setContent_of_element (slot : f.hasText id = true) :
    f.setContent id (.ref (.element x)) =
      ((f.update id ({ · with content := .ref (.element x), mark := .bool false })).remove
        (.element id) (.ref (.element x))).setParent x (.element id) := by
  rw [setContent, if_pos slot]

theorem exists_get?_of_hasText (slot : f.hasText id = true) : ∃ e, f.get? id = some e := by
  rw [hasText] at slot
  cases hget : f.get? id with
  | none => rw [hget] at slot; cases slot
  | some e => exact ⟨e, rfl⟩

theorem changed_move (slot : f.hasText id = true) :
    f.Changed (f.setContent id (.ref (.element x))) (Moves id x) := by
  have fill : f.Changed (f.update id ({ · with content := .ref (.element x), mark := .bool false }))
      fun y e e' => e'.kind = e.kind ∧ e'.tag = e.tag ∧ e'.parent = e.parent ∧
        e'.content = if y = id then .ref (.element x) else e.content :=
    changed_update id (fun y e hy => ⟨rfl, rfl, rfl, (if_neg hy).symm⟩)
      fun e => ⟨rfl, rfl, rfl, (if_pos rfl).symm⟩
  have clear : ∀ (g : Forest) (children : List Datum),
      g.Changed (g.setChildren (.element id) children) fun _ e e' => e'.kind = e.kind ∧
        e'.tag = e.tag ∧ e'.parent = e.parent ∧ e'.content = e.content := fun g children =>
    changed_setChildren _ _ (fun _ _ => ⟨rfl, rfl, rfl, rfl⟩) fun _ _ _ => ⟨rfl, rfl, rfl, rfl⟩
  have link : ∀ g : Forest, g.Changed (g.setParent x (.element id)) fun y e e' =>
      e'.kind = e.kind ∧ e'.tag = e.tag ∧ e'.content = e.content ∧
        e'.parent = if y = x then .element id else e.parent := fun g =>
    changed_update x (fun y e hy => ⟨rfl, rfl, rfl, (if_neg hy).symm⟩)
      fun e => ⟨rfl, rfl, rfl, (if_pos rfl).symm⟩
  rw [setContent_of_element slot]
  refine ((fill.trans (clear _ _)).trans (link _)).imp ?_
  rintro y e last ⟨e'', ⟨e', first, second⟩, third⟩
  obtain ⟨kind₁, tag₁, parent₁, content₁⟩ := first
  obtain ⟨kind₂, tag₂, parent₂, content₂⟩ := second
  obtain ⟨kind₃, tag₃, content₃, parent₃⟩ := third
  refine ⟨kind₃.trans (kind₂.trans kind₁), tag₃.trans (tag₂.trans tag₁),
    content₃.trans (content₂.trans content₁), ?_⟩
  rw [parent₃, parent₂, parent₁]

theorem childrenOf_move (slot : f.hasText id = true) (h : Ref) :
    (f.setContent id (.ref (.element x))).childrenOf h =
      if h = .element id then (f.childrenOf h).erase (.ref (.element x)) else f.childrenOf h := by
  let filled := f.update id ({ · with content := .ref (.element x), mark := .bool false })
  have same : ∀ h, filled.childrenOf h = f.childrenOf h :=
    childrenOf_update f id _ fun _ => rfl
  have there : filled.isThere (.element id) = true := by
    obtain ⟨e, hget⟩ := exists_get?_of_hasText slot
    rw [isThere_element]
    exact ⟨_, (get?_update f id id _).trans (by rw [if_pos rfl, hget]; rfl)⟩
  rw [setContent_of_element slot, childrenOf_setParent, remove]
  split
  next here =>
    rw [here, childrenOf_setChildren there, same]
  next other => rw [childrenOf_setChildren_of_ne other, same]

theorem Logged.move (logged : f.Logged deeds)
    (attached : Deed.attached (.element id) x ∈ deeds) : f.Logged (deeds ++ [.moved id x]) := by
  have same : ∀ {h y}, Deed.attached h y ∈ deeds ++ [.moved id x] → Deed.attached h y ∈ deeds := by
    intro h y hy
    simpa using hy
  refine ⟨?_, fun id' y hy => logged.older id' y (same hy), fun id' y hy => ?_,
    fun h y hy => logged.holder h y (same hy), fun h y hy => logged.child h y (same hy)⟩
  · have more : attachments (deeds ++ [.moved id x]) = attachments deeds := by
      simp [attachments]
    rw [more]
    exact logged.once
  · refine List.mem_append_left _ ?_
    obtain hy | hy := List.mem_append.1 hy
    · exact logged.moved id' y hy
    · obtain ⟨rfl, rfl⟩ := Deed.moved.inj (List.mem_singleton.1 hy)
      exact attached

/-- An element that was attached to an element with a text slot goes on to that slot. -/
theorem Orderly.move (orderly : f.Orderly deeds pending) (slot : f.hasText id = true)
    (attached : Deed.attached (.element id) x ∈ deeds) (alive : ∃ e, f.get? x = some e) :
    (f.setContent id (.ref (.element x))).Orderly (deeds ++ [.moved id x]) pending := by
  have changed := changed_move (x := x) slot
  have logged := orderly.logged
  have linked : ∀ {y p}, y ≠ x → (∃ e, f.get? y = some e ∧ e.parent = p) →
      ∃ e', (f.setContent id (.ref (.element x))).get? y = some e' ∧ e'.parent = p := by
    rintro y p hy ⟨e, hget, parent⟩
    obtain ⟨e', hget', moves⟩ := changed.after hget
    have same := moves.parent
    rw [if_neg hy] at same
    exact ⟨e', hget', same.trans parent⟩
  refine ⟨changed.logged (logged.move attached), fun h there => ?_, fun h y there hy => ?_,
    fun id' e' hget => ?_, fun id' e' r hget hslot content => ?_, fun y hy => ?_, orderly.distinct⟩
  · rw [changed.isThere] at there
    rw [childrenOf_move slot, built_moved, orderly.children h there]
    by_cases same : h = .element id
    · subst same
      have injective : Function.Injective fun y : ElementId => (.ref (.element y) : Datum) :=
        fun y z h => by simpa using h
      rw [if_pos rfl, ← List.map_erase injective, (logged.nodup_built _).erase_eq_filter]
      exact congrArg _ (List.filter_congr fun y _ => by by_cases hy : y = x <;> simp [hy])
    · have elsewhere : (built deeds h).filter (· ≠ x) = built deeds h := by
        refine List.filter_eq_self.2 fun y hy => decide_eq_true ?_
        rintro rfl
        exact same (logged.holder_unique (mem_built.1 hy).1 attached)
      rw [if_neg same, elsewhere]
  · rw [changed.isThere] at there
    rw [built_moved, List.mem_filter] at hy
    exact linked (of_decide_eq_true hy.2) (orderly.linked h y there hy.1)
  · obtain ⟨e, hget', moves⟩ := changed.before hget
    rw [moves.tag]
    exact orderly.tag id' e hget'
  · obtain ⟨e, hget', moves⟩ := changed.before hget
    rw [moves.content] at content
    rw [Element.hasText, moves.kind] at hslot
    by_cases here : id' = id
    · subst here
      rw [if_pos rfl] at content
      obtain rfl : .element x = r := Option.some.inj content
      obtain ⟨ex, hx⟩ := alive
      obtain ⟨ex', hx', moves⟩ := changed.after hx
      refine ⟨x, rfl, by simp, ex', hx', moves.parent.trans (if_pos rfl)⟩
    · rw [if_neg here] at content
      obtain ⟨y, rfl, moved, parent⟩ := orderly.slot id' e r hget' hslot content
      refine ⟨y, rfl, List.mem_append_left _ moved, linked ?_ parent⟩
      rintro rfl
      exact here (Ref.element.inj (logged.holder_unique (logged.moved id' y moved) attached))
  · obtain ⟨parent, hfree⟩ := orderly.waiting y hy
    refine ⟨linked ?_ parent, fun h hmem => hfree h (by simpa using hmem)⟩
    rintro rfl
    exact hfree _ attached

end Forest

end Hypertext
