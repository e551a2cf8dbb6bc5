import Hypertext.Proofs.Evolution
import Hypertext.Proofs.Quiet
import Hypertext.Proofs.Rebuilding
import Hypertext.Proofs.Refusals

/-! What construction and the reading of payloads do to a forest, whether they answer or fail: what was
there before is spared. A new element is not marked, and each element that is read has the mark that its
node says. The main statements are `Action.spares_construct` and `Payload.restores`. -/
namespace Hypertext
set_option autoImplicit false

/-! ## Since a forest -/

namespace Forest

variable {spared f g : Forest} {log : MarkLog}

/-- The second forest has come from the first one, and the documents of that are as they were. -/
structure Since (spared f : Forest) : Prop where
  fits : spared.Fits f
  roots : ∀ d, spared.HasRoom (.document d) → f.roots? d = spared.roots? d

theorem Since.refl (f : Forest) : f.Since f := ⟨.refl f, fun _ _ => rfl⟩

theorem Since.evolves (since : spared.Since f) (evolves : spared.Evolves f g log) : spared.Since g :=
  ⟨since.fits.trans evolves.fits, fun d room => (evolves.roots d room).trans (since.roots d room)⟩

theorem Since.truth_eq (since : spared.Since f) {v : Datum} (known : ∀ r ∈ v.refs, spared.HasRoom r) :
    f.truth v = spared.truth v := by
  refine Value.truth_congr fun r hr => ?_
  cases r with
  | element id => rfl
  | document d =>
    show (!(f.rootsOf d).isEmpty) = !(spared.rootsOf d).isEmpty
    rw [rootsOf, rootsOf, since.roots d (known _ hr)]

end Forest

/-! ## Actions that spare a forest -/

namespace Action

variable {α β : Type} {spared : Forest} {s : Store} {act : Action α}
  {Q R : α → Forest → MarkLog → Prop}

/-- An action evolves the forest of a store and spares a part of it. Where it answers, something holds
of the answer, the forest and the log. -/
def Spares (spared : Forest) (s : Store) (act : Action α) (Q : α → Forest → MarkLog → Prop) : Prop :=
  ∃ log, spared.Evolves s.forest (act.run s).2.forest log ∧
    ∀ a, (act.run s).1 = .ok a → Q a (act.run s).2.forest log

theorem spares_pure {a : α} (h : Q a s.forest []) : Spares spared s (pure a) Q :=
  ⟨[], .refl spared s.forest, fun _ answer => Except.ok.inj answer ▸ h⟩

theorem spares_throw (fault : Fault) : Spares spared s (throw fault) Q :=
  ⟨[], .refl spared s.forest, fun _ answer => nomatch answer⟩

/-- What follows knows that the first action has run. -/
theorem Spares.bind {next : α → Action β} {R : β → Forest → MarkLog → Prop}
    (first : Spares spared s act Q)
    (second : ∀ a s' log, Runs act s a s' → spared.Evolves s.forest s'.forest log →
      Q a s'.forest log → Spares spared s' (next a) fun b g more => R b g (log ++ more)) :
    Spares spared s (act >>= next) R := by
  obtain ⟨log, evolves, answers⟩ := first
  rw [Spares, run_bind]
  cases ran : act.run s with
  | mk result s' =>
  rw [ran] at evolves answers
  cases result with
  | error fault => exact ⟨log, evolves, fun _ answer => nomatch answer⟩
  | ok a =>
    obtain ⟨more, evolves', answers'⟩ := second a s' log ran evolves (answers a rfl)
    exact ⟨log ++ more, evolves.trans evolves', answers'⟩

theorem Spares.imp (spares : Spares spared s act Q)
    (h : ∀ a g log, Q a g log → R a g log) : Spares spared s act R := by
  obtain ⟨log, evolves, answers⟩ := spares
  exact ⟨log, evolves, fun a answer => h a _ log (answers a answer)⟩

/-- An answered action may have another log. -/
theorem Spares.relog (spares : Spares spared s act Q)
    (h : ∀ a g log, spared.Evolves s.forest g log → Q a g log →
      ∃ more, spared.Evolves s.forest g more ∧ R a g more) : Spares spared s act R := by
  obtain ⟨log, evolves, answers⟩ := spares
  cases answer : (act.run s).1 with
  | error fault => exact ⟨log, evolves, fun _ h => nomatch answer.symm.trans h⟩
  | ok a =>
    obtain ⟨more, evolves', h⟩ := h a _ log evolves (answers a answer)
    exact ⟨more, evolves', fun b hb => Except.ok.inj (answer.symm.trans hb) ▸ h⟩

theorem spares_forest {next : Forest → Action α} (h : Spares spared s (next s.forest) Q) :
    Spares spared s (forest >>= next) Q := by
  rw [Spares, run_bind]
  exact h

theorem spares_liftExcept {e : Except Fault α} (h : ∀ a, e = .ok a → Q a s.forest []) :
    Spares spared s (liftExcept e) Q := by
  cases e with
  | error fault => exact spares_throw fault
  | ok a => exact spares_pure (h a rfl)

theorem spares_liftM {e : Except Fault α} (h : ∀ a, e = .ok a → Q a s.forest []) :
    Spares spared s (liftM e) Q := by
  cases e with
  | error fault => exact spares_throw fault
  | ok a => exact spares_pure (h a rfl)

theorem spares_change {f : Forest → Forest} {log : MarkLog}
    (evolves : spared.Evolves s.forest (f s.forest) log) :
    Spares spared s (change f) fun _ g log' => log' = log ∧ g = f s.forest :=
  ⟨log, evolves, fun _ _ => ⟨rfl, rfl⟩⟩

/-- An action that leaves the forest as it is. -/
theorem spares_of_same (same : (act.run s).2.forest = s.forest)
    (h : ∀ a, (act.run s).1 = .ok a → Q a s.forest []) : Spares spared s act Q := by
  refine ⟨[], ?_, fun a answer => ?_⟩
  · rw [same]
    exact .refl spared s.forest
  · rw [same]
    exact h a answer

/-! ## Sizes -/

theorem size_setProperty (f : Forest) (id : ElementId) (p : Property) (v : Datum) :
    (f.setProperty id p v).elements.size = f.elements.size := by
  rw [Forest.setProperty]
  split
  · exact Forest.size_update ..
  · exact Forest.size_update ..

theorem size_attach (f : Forest) (holder : Ref) (child : Datum) :
    (f.attach holder child).elements.size = f.elements.size := by
  unfold Forest.attach
  split
  · rw [Forest.add, Forest.size_setChildren, Forest.size_setParent]
  · exact Forest.size_setChildren ..

/-! ## Construction -/

variable {holder : Ref}

/-- No element is new, and no mark is set. -/
def Rearranges {α : Type} (f : Forest) (_ : α) (g : Forest) (log : MarkLog) : Prop :=
  log = [] ∧ g.elements.size = f.elements.size

theorem spares_attach (fresh : ¬ spared.HasRoom holder) {child : Datum}
    (known : ∀ r ∈ child.refs, s.forest.HasRoom r) :
    Spares spared s (attach holder child) (Rearranges s.forest) := by
  refine spares_forest ?_
  split
  · exact spares_throw _
  · refine (spares_change (Forest.evolves_attach fresh known)).imp fun _ g log h => ⟨h.1, ?_⟩
    rw [h.2, size_attach]

theorem spares_attachAll (fresh : ¬ spared.HasRoom holder) {children : List Datum}
    (known : ∀ r ∈ Value.refsList children, s.forest.HasRoom r) :
    Spares spared s (attachAll holder children) (Rearranges s.forest) := by
  induction children generalizing s with
  | nil => exact spares_pure ⟨rfl, rfl⟩
  | cons child children ih =>
    have first : ∀ r ∈ child.refs, s.forest.HasRoom r := fun r hr =>
      known r (List.mem_append_left _ hr)
    refine (spares_attach fresh first).bind fun _ s' log _ evolves h => ?_
    refine (ih fun r hr => evolves.fits.room (known r (List.mem_append_right _ hr))).imp
      fun _ g more h' => ⟨?_, h'.2.trans h.2⟩
    rw [h.1, h'.1]
    rfl

theorem evolves_setProperties {f : Forest} {id : ElementId} (fresh : ¬ spared.HasRoom (.element id))
    (properties : List (Property × Datum))
    (known : ∀ r ∈ properties.flatMap (·.2.refs), f.HasRoom r) :
    spared.Evolves f (properties.foldl (fun f p => f.setProperty id p.1 p.2) f) [] ∧
      (properties.foldl (fun f p => f.setProperty id p.1 p.2) f).elements.size =
        f.elements.size := by
  induction properties generalizing f with
  | nil => exact ⟨.refl spared f, rfl⟩
  | cons head properties ih =>
    have first : spared.Evolves f (f.setProperty id head.1 head.2) [] :=
      Forest.evolves_setProperty (fun r hr => known r (List.mem_append_left _ hr)) fresh head.1
    obtain ⟨rest, size⟩ := ih fun r hr => first.fits.room (known r (List.mem_append_right _ hr))
    exact ⟨first.trans rest, size.trans (size_setProperty ..)⟩

theorem refs_of_tagFor {f : Forest} {kind : Kind} {tag given : Datum}
    (h : kind.tagFor f given = .ok tag) : tag.refs ⊆ given.refs := by
  unfold Kind.tagFor at h
  split at h
  · rw [← Except.ok.inj h]
    exact List.nil_subset _
  · split at h
    · cases h
    · split at h
      · cases h
      · cases h
      · rw [Except.ok.inj h]
        exact List.Subset.refl _

/-- One element is new, and it is not marked. -/
def Adds (f : Forest) (id : ElementId) (g : Forest) (log : MarkLog) : Prop :=
  id = ⟨f.elements.size⟩ ∧ g.elements.size = f.elements.size + 1 ∧ log = [⟨id, .bool false⟩]

theorem Adds.hasRoom {f g : Forest} {id : ElementId} {log : MarkLog} (adds : Adds f id g log) :
    g.HasRoom (.element id) := by
  obtain ⟨rfl, size, -⟩ := adds
  exact Nat.lt_of_lt_of_eq (Nat.lt_succ_self _) size.symm

theorem spares_construct (fits : spared.Fits s.forest) (kind : Kind) {args : Arguments}
    (known : ∀ r ∈ args.refs, s.forest.HasRoom r) :
    Spares spared s (construct kind args) (Adds s.forest) := by
  simp only [Arguments.refs, List.mem_append, or_imp, forall_and] at known
  obtain ⟨⟨⟨tags, texts⟩, properties⟩, items⟩ := known
  -- a new element has no mark, and its text sets none
  suffices whole : Spares spared s (construct kind args) fun id g log =>
      id = ⟨s.forest.elements.size⟩ ∧ g.elements.size = s.forest.elements.size + 1 ∧
        ∃ texts : MarkLog, (∀ w ∈ texts, w = ⟨id, .bool false⟩) ∧
          log = ⟨id, .bool false⟩ :: texts by
    refine whole.relog fun id g log evolves h => ?_
    obtain ⟨hid, size, texts, same, rfl⟩ := h
    refine ⟨_, evolves.relog (fun x => (MarkLog.last?_cons_same same x).symm) ?_, hid, size, rfl⟩
    intro w hw
    exact evolves.apart w (List.mem_singleton.1 hw ▸ List.mem_cons_self)
  refine spares_forest ?_
  have tagged : Spares spared s (liftExcept (kind.tagFor s.forest args.tag)) fun tag g log =>
      kind.tagFor s.forest args.tag = .ok tag ∧ g = s.forest ∧ log = [] :=
    spares_liftExcept fun tag htag => ⟨htag, rfl, rfl⟩
  refine tagged.bind fun tag s' _ _ _ h => ?_
  obtain ⟨htag, same, rfl⟩ := h
  rw [← same] at fits tags texts properties items htag ⊢
  have inserted := Forest.evolves_insert fits kind fun r hr => tags r (refs_of_tagFor htag hr)
  have insert : Spares spared s' (insert { kind, tag }) (Adds s'.forest) := by
    refine ⟨_, inserted, fun id answer => ?_⟩
    obtain rfl := Except.ok.inj answer
    exact ⟨rfl, Array.size_push .., rfl⟩
  refine insert.bind fun id s₁ log _ evolves h => ?_
  obtain ⟨hid, size, rfl⟩ := h
  have fresh : ¬ spared.HasRoom (.element id) := fun room =>
    absurd (fits.room room) (hid ▸ Nat.lt_irrefl _)
  have room := fun r (hr : s'.forest.HasRoom r) => evolves.fits.room hr
  have filled : ∃ log, spared.Evolves s₁.forest
      (if kind.hasText then s₁.forest.setContent id args.text else s₁.forest) log ∧
      (∀ w ∈ log, w = ⟨id, .bool false⟩) ∧
      (if kind.hasText then s₁.forest.setContent id args.text else s₁.forest).elements.size =
        s₁.forest.elements.size := by
    split
    · exact ⟨_, Forest.evolves_setContent fresh fun r hr => room r (texts r hr), by simp,
        Payload.size_setContent ..⟩
    · exact ⟨[], .refl spared _, by simp, rfl⟩
  obtain ⟨log, filled, only, size₁⟩ := filled
  obtain ⟨set, size₂⟩ := evolves_setProperties fresh args.properties fun r hr =>
    filled.fits.room (room r (properties r hr))
  refine (spares_change (filled.trans set)).bind fun _ s₂ _ _ evolves' h => ?_
  obtain ⟨rfl, hg⟩ := h
  have held : ∀ r ∈ Value.refsList args.items, s₂.forest.HasRoom r := by
    intro r hr
    obtain ⟨v, hv, hr⟩ := Value.mem_refsList_iff.1 hr
    exact evolves'.fits.room (room r (items r (List.mem_flatMap.2 ⟨v, hv, hr⟩)))
  refine (spares_attachAll fresh held).bind fun _ s₃ _ _ _ h' => ?_
  refine spares_pure ⟨same ▸ hid, ?_, log, only, ?_⟩
  · rw [h'.2, hg, size₂, size₁, size, same]
  · rw [h'.1]
    simp

end Action

/-! ## The marks that payloads give -/

namespace Payload

open Hypertext.Action (Runs Spares Rearranges Adds)

variable {spared f : Forest} {v w : Datum} {fields : Fields} {s : Store} {r : Ref}

/-- The nodes that a node holds: first a record for its text, then its children. -/
def lower (v : Datum) : List Datum := (below? v .text).toList ++ childrenOf v

theorem mem_lower_record : w ∈ lower (.record fields) →
    fields.lookup "text" = some w ∨
      ∃ items, listed? fields "children" = some items ∧ w ∈ items := by
  intro hw
  obtain hw | hw := List.mem_append.1 hw
  · have text := Option.mem_toList.1 hw
    rw [below?] at text
    split at text
    · exact .inl (Option.eq_some_of_filter_eq_some text)
    · cases text
  · exact .inr (exists_listed hw)

theorem mem_lower {v w : Datum} (hw : w ∈ lower v) : sizeOf w < sizeOf v ∧ w.refs ⊆ v.refs := by
  match v with
  | .made o v =>
    obtain ⟨size, refs⟩ := mem_lower (v := v) hw
    refine ⟨?_, refs⟩
    rw [Value.made.sizeOf_spec]
    omega
  | .record fields =>
    obtain text | ⟨items, listed, mem⟩ := mem_lower_record hw
    · refine ⟨?_, fun r hr => Value.mem_refs_of_lookup text hr⟩
      have := Value.sizeOf_lookup_lt text
      rw [Value.record.sizeOf_spec]
      omega
    · refine ⟨sizeOf_lt_of_listed? listed mem, fun r hr => ?_⟩
      rw [listed?] at listed
      split at listed
      · cases Option.some.inj listed
        cases mem
      next v hv =>
        exact Value.mem_refs_of_lookup hv
          (Value.mem_refs_of_items? listed (Value.mem_refsList mem hr))
  | .scalar _ | .list _ | .ref _ | .renderer .. => cases hw

/-- Whether the element of a node is marked. A document is no element. -/
def flag? (f : Forest) (v : Datum) : Option Bool :=
  (kind? v).map fun kind => kind.hasText && markOf f (fieldsOf v)

/-- The same for all elements of a node, in the order in which they are made. -/
def flags (f : Forest) (v : Datum) : List Bool :=
  (flag? f v).toList ++ (lower v).attach.flatMap fun w => flags f w.1
termination_by sizeOf v
decreasing_by exact (mem_lower w.2).1

theorem flags_eq (f : Forest) (v : Datum) :
    flags f v = (flag? f v).toList ++ (lower v).flatMap (flags f) := by
  rw [flags]
  simp

theorem fieldsOf_erased (v : Datum) :
    fieldsOf v.erased = Value.substFields .ref (fieldsOf v) := by
  match v with
  | .made _ v => exact fieldsOf_erased v
  | .scalar _ | .list _ | .record _ | .ref _ | .renderer .. => rfl

theorem lookup_fieldsOf_erased (v : Datum) (name : String) :
    (fieldsOf v.erased).lookup name = ((fieldsOf v).lookup name).map Value.erased := by
  rw [fieldsOf_erased, Value.lookup_substFields]
  rfl

theorem kind?_erased (v : Datum) : kind? v.erased = kind? v := by
  rw [kind?, kind?, type?, type?, lookup_fieldsOf_erased, Option.map_map]
  simp only [Function.comp_def, Value.erased_erased]

theorem childrenOf_erased (v : Datum) : childrenOf v.erased = (childrenOf v).map Value.erased := by
  rw [childrenOf, childrenOf, listed?, listed?, lookup_fieldsOf_erased]
  cases (fieldsOf v).lookup "children" with
  | none => rfl
  | some w =>
    show (w.erased.items?).getD [] = _
    rw [Value.items?_erased]
    cases h : w.items? with
    | none => simp [h]
    | some items => simp [h, Value.substList_eq_map, Value.erased]

theorem lower_erased (v : Datum) : lower v.erased = (lower v).map Value.erased := by
  have text : below? v.erased .text = (below? v .text).map Value.erased := by
    rw [below?, below?, hasText, hasText, kind?_erased, lookup_fieldsOf_erased]
    split
    · cases (fieldsOf v).lookup "text" with
      | none => rfl
      | some w => cases h : w.isRecord <;> simp [Option.filter, Value.isRecord_erased, h]
    · rfl
  rw [lower, lower, text, childrenOf_erased, List.map_append]
  cases below? v .text <;> rfl

theorem flag?_erased (f : Forest) (v : Datum) : flag? f v.erased = flag? f v := by
  have marked : markOf f (fieldsOf v.erased) = markOf f (fieldsOf v) := by
    rw [markOf, markOf, lookup_fieldsOf_erased, Option.map_map]
    exact congrArg (fun truth => (((fieldsOf v).lookup "unsafe").map truth).getD false)
      (funext fun w => Value.truth_erased _ w)
  rw [flag?, flag?, kind?_erased, marked]

/-- Origins are nothing to the marks. -/
theorem flags_erased (f : Forest) (v : Datum) : flags f v.erased = flags f v := by
  have below : (lower v).flatMap (fun w => flags f w.erased) = (lower v).flatMap (flags f) :=
    List.flatMap_congr fun w hw => flags_erased f w
  rw [flags_eq, flags_eq f v, flag?_erased, lower_erased, List.flatMap_map, below]
termination_by sizeOf v
decreasing_by exact (mem_lower hw).1

/-- The log of elements that are made one after the other with these marks. -/
def restored (start : Nat) (marks : List Bool) : MarkLog :=
  (marks.zipIdx start).map fun p => ⟨⟨p.2⟩, .bool p.1⟩

theorem restored_cons (start : Nat) (b : Bool) (marks : List Bool) :
    restored start (b :: marks) = ⟨⟨start⟩, .bool b⟩ :: restored (start + 1) marks := by
  rw [restored, List.zipIdx_cons, List.map_cons, restored]

theorem restored_append (start : Nat) (marks more : List Bool) :
    restored start (marks ++ more) = restored start marks ++ restored (start + marks.length) more := by
  rw [restored, List.zipIdx_append, List.map_append, restored, restored]

theorem index_of_mem_restored {start : Nat} {marks : List Bool} {m : Marking}
    (hm : m ∈ restored start marks) : start ≤ m.on.index := by
  obtain ⟨p, hp, rfl⟩ := List.mem_map.1 hm
  exact (List.mem_zipIdx hp).1

/-- So many elements are new, and these are their marks. -/
def Restored (f : Forest) (marks : List Bool) (g : Forest) (log : MarkLog) : Prop :=
  log = restored f.elements.size marks ∧ g.elements.size = f.elements.size + marks.length

theorem restored_nil (f : Forest) : Restored f [] f [] := ⟨rfl, rfl⟩

theorem Restored.append {g h : Forest} {marks more : List Bool} {log log' : MarkLog}
    (first : Restored f marks g log) (second : Restored g more h log') :
    Restored f (marks ++ more) h (log ++ log') := by
  refine ⟨?_, ?_⟩
  · rw [first.1, second.1, first.2, restored_append]
  · rw [second.2, first.2, List.length_append, Nat.add_assoc]

/-! ## Reading -/

/-- Reading data spares what was there before, and what it makes is new and has these marks. -/
def Restores (v : Datum) : Prop :=
  ∀ (spared : Forest) (s : Store), spared.Since s.forest → (∀ r ∈ v.refs, spared.HasRoom r) →
    Spares spared s (node v) fun r g log =>
      ¬ spared.HasRoom r ∧ g.HasRoom r ∧ Restored s.forest (flags spared v) g log

/-- The same where an element is wanted. -/
theorem Restores.element {α : Type} {Q : α → Forest → MarkLog → Prop} (restores : Restores v)
    (since : spared.Since s.forest) (known : ∀ r ∈ v.refs, spared.HasRoom r)
    {next : ElementId → Action α}
    (h : ∀ x s' log, spared.Since s'.forest → spared.Evolves s.forest s'.forest log →
      ¬ spared.HasRoom (.element x) → s'.forest.HasRoom (.element x) →
      Restored s.forest (flags spared v) s'.forest log →
      Spares spared s' (next x) fun a g more => Q a g (log ++ more)) :
    Spares spared s (node v >>= fun r => elementOnly r >>= next) Q := by
  refine (restores spared s since known).bind fun r s' log _ evolves h' => ?_
  obtain ⟨fresh, room, restored⟩ := h'
  cases r with
  | element x => exact h x s' log (since.evolves evolves) evolves fresh room restored
  | document d => exact Action.spares_throw _

theorem spares_attachAll {holder : Ref} (fresh : ¬ spared.HasRoom holder) {items : List Datum}
    (restores : ∀ w ∈ items, Restores w) (since : spared.Since s.forest)
    (known : ∀ w ∈ items, ∀ r ∈ w.refs, spared.HasRoom r) :
    Spares spared s (attachAll holder items) fun _ g log =>
      Restored s.forest (items.flatMap (flags spared)) g log := by
  induction items generalizing s with
  | nil =>
    rw [attachAll]
    exact Action.spares_pure (restored_nil _)
  | cons w items ih =>
    rw [attachAll]
    refine (restores w List.mem_cons_self).element since (known w List.mem_cons_self)
      fun x s₁ log since evolves _ room first => ?_
    have attached : spared.Evolves s₁.forest (s₁.forest.attach holder (.ref (.element x))) [] :=
      Forest.evolves_attach fresh fun r hr => List.mem_singleton.1 hr ▸ room
    refine (Action.spares_change attached).bind fun _ s₂ _ _ evolves h => ?_
    obtain ⟨rfl, hg⟩ := h
    refine (ih (fun w hw => restores w (List.mem_cons_of_mem _ hw)) (since.evolves evolves)
      fun w hw => known w (List.mem_cons_of_mem _ hw)).imp fun _ g more h => ?_
    have size : s₂.forest.elements.size = s₁.forest.elements.size := by
      rw [hg, Action.size_attach]
    rw [List.flatMap_cons]
    exact first.append ⟨size ▸ h.1, size ▸ h.2⟩

theorem spares_children {holder : Ref} (fresh : ¬ spared.HasRoom holder)
    (restores : ∀ w ∈ childrenOf (.record fields), Restores w) (since : spared.Since s.forest)
    (known : ∀ w ∈ childrenOf (.record fields), ∀ r ∈ w.refs, spared.HasRoom r) (type : String) :
    Spares spared s (children type holder fields) fun _ g log =>
      Restored s.forest ((childrenOf (.record fields)).flatMap (flags spared)) g log := by
  rw [children_eq]
  refine Action.spares_forest ?_
  split
  next items hitems =>
    have listed : childrenOf (.record fields) = items := by
      show (listed? fields "children").getD [] = items
      rw [listField_eq_ok_iff.1 hitems]
      rfl
    rw [listed] at restores known ⊢
    exact spares_attachAll fresh restores since known
  next => exact Action.spares_throw _

/-- The elements of a text are new, and it takes the mark of its element away. -/
theorem spares_textSlot {id : ElementId} (fresh : ¬ spared.HasRoom (.element id))
    (restores : ∀ w, fields.lookup "text" = some w → w.isRecord = true → Restores w)
    (since : spared.Since s.forest)
    (known : ∀ w, fields.lookup "text" = some w → ∀ r ∈ w.refs, spared.HasRoom r) :
    Spares spared s (textSlot id fields) fun _ g log => ∃ more, log = more ++ [⟨id, .bool false⟩] ∧
      Restored s.forest (((fields.lookup "text").filter Value.isRecord).toList.flatMap
        (flags spared)) g more := by
  rw [textSlot_eq]
  cases hw : fields.lookup "text" with
  | none =>
    have filled := Forest.evolves_setContent fresh (f := s.forest) (v := .text "")
      fun _ h => nomatch h
    refine (Action.spares_change filled).imp fun _ g log h => ⟨[], h.1, rfl, ?_⟩
    rw [h.2, size_setContent]
    rfl
  | some w =>
    cases record : w.isRecord with
    | true =>
      simp only [record, if_true]
      refine (restores w hw record).element since (known w hw)
        fun x s₁ log _ _ _ room first => ?_
      have filled := Forest.evolves_setContent fresh (f := s₁.forest) (v := .ref (.element x))
        fun r hr => List.mem_singleton.1 hr ▸ room
      refine (Action.spares_change filled).imp fun _ g more h => ⟨log, by rw [h.1], ?_⟩
      simp only [Option.filter, record, if_true, Option.toList_some, List.flatMap_singleton]
      refine ⟨first.1, ?_⟩
      rw [h.2, size_setContent, first.2]
    | false =>
      simp only [record, Bool.false_eq_true, if_false]
      obtain ⟨content, s₁, runs, erased, same⟩ := Action.runs_identified w s
      have identified : Spares spared s (Action.identified w) fun v g log =>
          v.erased = w.erased ∧ g = s.forest ∧ log = [] := by
        refine Action.spares_of_same (by rw [show (Action.identified w).run s = _ from runs, same])
          fun v answer => ⟨?_, rfl, rfl⟩
        rw [show (Action.identified w).run s = _ from runs] at answer
        rw [← Except.ok.inj answer, erased]
      refine identified.bind fun v s₂ log _ _ h => ?_
      obtain ⟨erased, same, rfl⟩ := h
      have filled := Forest.evolves_setContent fresh (f := s₂.forest) (v := v) fun r hr => by
        rw [← Value.mem_refs_erased, erased, Value.mem_refs_erased] at hr
        exact same ▸ since.fits.room (known w hw r hr)
      refine (Action.spares_change filled).imp fun _ g more h => ⟨[], h.1, ?_⟩
      simp only [Option.filter, record, Bool.false_eq_true, if_false, Option.toList_none,
        List.flatMap_nil]
      refine ⟨rfl, ?_⟩
      rw [h.2, size_setContent, same]
      rfl

/-- The flag of an element node whose kind is known. -/
theorem flag?_record {type : String} {kind : Kind} (f : Forest) (named : type? fields = some type)
    (known : Kind.ofPayloadName? type = some kind) :
    flag? f (.record fields) = some (kind.hasText && markOf f fields) := by
  have hkind : kind? (.record fields) = some kind := by
    show (type? fields).bind _ = _
    rw [named]
    exact known
  rw [flag?, hkind]
  rfl

/-- The texts of a node whose kind is known. -/
theorem below?_record {type : String} {kind : Kind} (named : type? fields = some type)
    (known : Kind.ofPayloadName? type = some kind) : below? (.record fields) .text =
      if kind.hasText then (fields.lookup "text").filter Value.isRecord else none := by
  have hkind : kind? (.record fields) = some kind := by
    show (type? fields).bind _ = _
    rw [named]
    exact known
  rw [below?, hasText, hkind]
  rfl

theorem markOf_eq {f : Forest} (since : spared.Since f)
    (known : ∀ r ∈ Value.refsFields fields, spared.HasRoom r) : markOf f fields = markOf spared fields := by
  rw [markOf, markOf]
  cases h : fields.lookup "unsafe" with
  | none => rfl
  | some w => exact since.truth_eq fun r hr => known r (Value.mem_refs_of_lookup h hr)

theorem spares_newElement {type : String} {kind : Kind} (since : spared.Since s.forest)
    (hkind : Kind.ofPayloadName? type = some kind)
    (known : ∀ r ∈ Value.refsFields fields, spared.HasRoom r) :
    Spares spared s (newElement type fields) (Adds s.forest) := by
  rw [newElement, hkind]
  refine Action.spares_forest ?_
  have tags : ∀ r ∈ ((fields.lookup "tag_name").getD .null).erased.refs, s.forest.HasRoom r := by
    intro r hr
    rw [Value.mem_refs_erased] at hr
    cases h : fields.lookup "tag_name" with
    | none =>
      rw [h] at hr
      cases hr
    | some w =>
      rw [h] at hr
      exact since.fits.room (known r (Value.mem_refs_of_lookup h hr))
  dsimp only
  split
  · exact (Action.spares_throw (Q := fun _ _ _ => False) _).bind fun _ _ _ _ _ h => h.elim
  · refine Action.spares_construct since.fits kind fun r hr => tags r ?_
    simpa [Arguments.refs, Value.refs] using hr

theorem spares_readAttributes (type : String) (id : ElementId) (pairs : List Datum) :
    Spares spared s (readAttributes type id pairs) (Rearranges s.forest) := by
  induction pairs generalizing s with
  | nil => exact Action.spares_pure ⟨rfl, rfl⟩
  | cons pair pairs ih =>
    rw [readAttributes]
    refine Action.spares_forest ?_
    have read : Spares spared s (liftM (attributeOf s.forest type pair) : Action Attribute)
        (Rearranges s.forest) := Action.spares_liftM fun _ _ => ⟨rfl, rfl⟩
    refine read.bind fun a s₁ _ _ _ h => ?_
    have set := Forest.evolves_setAttributes spared s₁.forest id ((s₁.forest.attributesOf id).add a)
    refine (Action.spares_change set).bind fun _ s₂ _ _ _ h' => ih.imp fun _ g log h'' => ?_
    refine ⟨by rw [h.1, h'.1, h''.1]; rfl, ?_⟩
    rw [h''.2, h'.2, Forest.setAttributes, Forest.size_update, h.2]

/-- An element up to its children: one element, and those of its text. -/
def Heads (spared f : Forest) (fields : Fields) (id : ElementId) (g : Forest) (log : MarkLog) :
    Prop :=
  id = ⟨f.elements.size⟩ ∧ g.HasRoom (.element id) ∧
    Restored f ((flag? spared (.record fields)).toList ++
      (below? (.record fields) .text).toList.flatMap (flags spared)) g log

/-- The same with all that has been set on the way: before its text the element is not marked, and after
it the mark of the node is set. -/
def Headed (spared f : Forest) (fields : Fields) (id : ElementId) (g : Forest) (log : MarkLog) :
    Prop :=
  id = ⟨f.elements.size⟩ ∧ ∃ b more, flag? spared (.record fields) = some b ∧
    more = restored (f.elements.size + 1)
      ((below? (.record fields) .text).toList.flatMap (flags spared)) ∧
    g.elements.size = f.elements.size + 1 +
      ((below? (.record fields) .text).toList.flatMap (flags spared)).length ∧
    (log = [⟨id, .bool false⟩] ∧ b = false ∧ more = [] ∨
      log = ⟨id, .bool false⟩ :: more ++ [⟨id, .bool false⟩, ⟨id, .bool b⟩])

/-- What is set first is overwritten. -/
theorem Headed.heads {f g : Forest} {id : ElementId} {log : MarkLog}
    (headed : Headed spared f fields id g log) (evolves : spared.Evolves f g log) :
    ∃ more, spared.Evolves f g more ∧ Heads spared f fields id g more := by
  obtain ⟨hid, b, more, hflag, hmore, size, hlog⟩ := headed
  have elsewhere : ∀ w ∈ more, w.on ≠ id := by
    rintro w hw rfl
    have bound := index_of_mem_restored (hmore ▸ hw)
    rw [hid] at bound
    exact absurd bound (Nat.not_succ_le_self _)
  have same : ∀ x, MarkLog.last? (⟨id, .bool b⟩ :: more) x = log.last? x := by
    intro x
    obtain ⟨rfl, rfl, rfl⟩ | rfl := hlog
    · rfl
    · exact (MarkLog.last?_overwritten elsewhere _ _ _ x).symm
  have room : g.HasRoom (.element id) := by
    rw [hid]
    show f.elements.size < g.elements.size
    omega
  refine ⟨_, evolves.relog same fun w hw => ?_, hid, room, ?_, ?_⟩
  · obtain ⟨rfl, rfl, rfl⟩ | rfl := hlog
    · exact evolves.apart w hw
    · refine evolves.apart w ?_
      obtain rfl | hw := List.mem_cons.1 hw
      · exact List.mem_append_right _ (by simp)
      · exact List.mem_append_left _ (List.mem_cons_of_mem _ hw)
  · rw [hflag, Option.toList_some, List.singleton_append, restored_cons, hid, hmore]
  · rw [size, hflag]
    simp
    omega

theorem spares_fillSlot {type : String} {kind : Kind} {id : ElementId}
    (fresh : ¬ spared.HasRoom (.element id)) (named : type? fields = some type)
    (hkind : Kind.ofPayloadName? type = some kind) (slot : s.forest.hasText id = kind.hasText)
    (restores : ∀ w, fields.lookup "text" = some w → w.isRecord = true → Restores w)
    (since : spared.Since s.forest) (known : ∀ r ∈ Value.refsFields fields, spared.HasRoom r) :
    Spares spared s (fillSlot id fields) fun id' g log => id' = id ∧
      ∃ b more, flag? spared (.record fields) = some b ∧
        Restored s.forest ((below? (.record fields) .text).toList.flatMap (flags spared)) g more ∧
        (log = [] ∧ b = false ∧ more = [] ∨
          log = more ++ [⟨id, .bool false⟩, ⟨id, .bool b⟩]) := by
  rw [flag?_record spared named hkind, below?_record named hkind]
  refine Action.spares_forest ?_
  cases text : kind.hasText with
  | false =>
    rw [slot, text, if_neg Bool.false_ne_true]
    exact Action.spares_pure ⟨rfl, _, [], rfl, restored_nil _, .inl ⟨rfl, rfl, rfl⟩⟩
  | true =>
    rw [slot, text, if_pos rfl]
    have texts : ∀ w, fields.lookup "text" = some w → ∀ r ∈ w.refs, spared.HasRoom r :=
      fun w hw r hr => known r (Value.mem_refs_of_lookup hw hr)
    refine (spares_textSlot fresh restores since texts).bind fun _ s₁ _ _ evolves h => ?_
    obtain ⟨more, rfl, restored⟩ := h
    have marked := Forest.evolves_setMark (f := s₁.forest) (v := .bool (markOf s₁.forest fields))
      (fun _ h => nomatch h) fresh
    refine (Action.spares_change marked).bind fun _ s₂ _ _ _ h => Action.spares_pure ?_
    refine ⟨rfl, _, more, rfl, ⟨restored.1, ?_⟩, .inr ?_⟩
    · rw [h.2, Forest.setMark, Forest.size_update, restored.2]
      rfl
    · rw [h.1, markOf_eq (since.evolves evolves) known]
      simp

theorem spares_elementHead {type : String} (named : type? fields = some type)
    (restores : ∀ w, fields.lookup "text" = some w → w.isRecord = true → Restores w)
    (since : spared.Since s.forest) (known : ∀ r ∈ Value.refsFields fields, spared.HasRoom r) :
    Spares spared s (elementHead type fields) (Heads spared s.forest fields) := by
  suffices whole : Spares spared s (elementHead type fields) (Headed spared s.forest fields) from
    whole.relog fun id g log evolves headed => headed.heads evolves
  rw [elementHead_eq]
  have told : Spares spared s (Action.tell fun _ => (ignoredEvents type fields).forM Account.report)
      fun _ g log => g = s.forest ∧ log = [] :=
    Action.spares_of_same (Session.forest_tell _ s) fun _ _ => ⟨rfl, rfl⟩
  refine told.bind fun _ s₁ _ _ evolves₁ h₁ => ?_
  obtain ⟨same, rfl⟩ := h₁
  have since₁ := since.evolves evolves₁
  cases hkind : Kind.ofPayloadName? type with
  | none =>
    rw [newElement, hkind]
    exact (Action.spares_throw (Q := fun _ _ _ => False) _).bind fun _ _ _ _ _ h => h.elim
  | some kind =>
    refine (spares_newElement since₁ hkind known).bind fun id s₂ _ made evolves₂ h₂ => ?_
    obtain ⟨hid, size₂, rfl⟩ := h₂
    have fresh : ¬ spared.HasRoom (.element id) := fun room =>
      absurd (since₁.fits.room room) (hid ▸ Nat.lt_irrefl _)
    obtain ⟨tag, there⟩ := get?_of_newElement hkind made
    have since₂ := since₁.evolves evolves₂
    refine Action.spares_forest ?_
    have listed : Spares spared s₂ (liftM (listField s₂.forest type fields "attributes") : Action _)
        fun _ g log => g = s₂.forest ∧ log = [] := Action.spares_liftM fun _ _ => ⟨rfl, rfl⟩
    refine listed.bind fun pairs s₃ _ _ evolves₃ h₃ => ?_
    obtain ⟨same₃, rfl⟩ := h₃
    have since₃ := since₂.evolves evolves₃
    refine (spares_readAttributes type id pairs).bind fun _ s₄ _ read evolves₄ h₄ => ?_
    obtain ⟨rfl, size₄⟩ := h₄
    rw [← same₃] at there
    obtain ⟨attributes, here⟩ := get?_of_readAttributes there read
    have slot : s₄.forest.hasText id = kind.hasText := by
      rw [Forest.hasText, here]
      rfl
    refine (spares_fillSlot fresh named hkind slot restores (since₃.evolves evolves₄) known).imp
      fun id' g log h => ?_
    obtain ⟨rfl, b, more, hflag, ⟨hmore, size⟩, hlog⟩ := h
    rw [size₄, same₃, size₂, same] at hmore size
    refine ⟨same ▸ hid, b, more, hflag, hmore, size, ?_⟩
    obtain ⟨rfl, hb, hm⟩ | rfl := hlog
    · exact .inl ⟨rfl, hb, hm⟩
    · exact .inr rfl

theorem restores_record (text : ∀ w, fields.lookup "text" = some w → w.isRecord = true → Restores w)
    (held : ∀ w ∈ childrenOf (.record fields), Restores w) : Restores (.record fields) := by
  intro spared s since known
  have lower : ∀ w ∈ childrenOf (.record fields), ∀ r ∈ w.refs, spared.HasRoom r := fun w hw r hr =>
    known r ((mem_lower (v := .record fields) (List.mem_append_right _ hw)).2 hr)
  rw [node]
  refine Action.spares_forest ?_
  have named : Spares spared s (liftM (typeOf s.forest fields) : Action String) fun type g log =>
      type? fields = some type ∧ g = s.forest ∧ log = [] :=
    Action.spares_liftM fun type htype => ⟨typeOf_eq_ok_iff.1 htype, rfl, rfl⟩
  refine named.bind fun type s₁ _ _ evolves₁ h₁ => ?_
  obtain ⟨named, same, rfl⟩ := h₁
  have since₁ := since.evolves evolves₁
  split
  next document =>
    have inserted : Spares spared s₁ Action.insertDocument fun d g log =>
        d = ⟨s₁.forest.documents.size⟩ ∧ g = s₁.forest.insertDocument.2 ∧ log = [] :=
      ⟨[], Forest.evolves_insertDocument since₁.fits, fun d answer =>
        ⟨(Except.ok.inj answer).symm, rfl, rfl⟩⟩
    refine inserted.bind fun d s₂ _ _ evolves₂ h₂ => ?_
    obtain ⟨hd, hg, rfl⟩ := h₂
    have fresh : ¬ spared.HasRoom (.document d) := fun room =>
      absurd (since₁.fits.room room) (hd ▸ Nat.lt_irrefl _)
    have room : s₂.forest.HasRoom (.document d) := by
      rw [hg, hd]
      show s₁.forest.documents.size < (s₁.forest.documents.push (some [])).size
      rw [Array.size_push]
      exact Nat.lt_succ_self _
    refine (spares_children fresh held (since₁.evolves evolves₂) lower type).bind
      fun _ s₃ log _ evolves₃ h₃ => Action.spares_pure ⟨fresh, evolves₃.fits.room room, ?_⟩
    have slotless : kind? (.record fields) = none := by
      show (type? fields).bind _ = _
      rw [named, document]
      rfl
    have flags : flags spared (.record fields) =
        (childrenOf (.record fields)).flatMap (flags spared) := by
      rw [flags_eq, flag?, Payload.lower, below?, hasText, slotless]
      rfl
    have none_new : Restored s.forest [] s₂.forest [] := by
      rw [hg, same]
      exact restored_nil _
    rw [flags, List.append_nil]
    exact none_new.append h₃
  next element =>
    refine (spares_elementHead named text since₁ known).bind fun x s₂ log _ evolves₂ h₂ => ?_
    obtain ⟨hx, room, head⟩ := h₂
    have fresh : ¬ spared.HasRoom (.element x) := fun room =>
      absurd (since₁.fits.room room) (hx ▸ Nat.lt_irrefl _)
    have flags : flags spared (.record fields) = (flag? spared (.record fields)).toList ++
        (below? (.record fields) .text).toList.flatMap (flags spared) ++
        (childrenOf (.record fields)).flatMap (flags spared) := by
      rw [flags_eq, Payload.lower, List.flatMap_append, List.append_assoc]
    refine (spares_children fresh held (since₁.evolves evolves₂) lower type).bind
      fun _ s₃ more _ evolves₃ h₃ => Action.spares_pure ⟨fresh, evolves₃.fits.room room, ?_⟩
    rw [flags, List.append_nil]
    exact same ▸ head.append h₃
theorem restores (v : Datum) : Restores v := by
  match v with
  | .made o v =>
    intro spared s since known
    rw [node_made, show flags spared (.made o v) = flags spared v by rw [flags_eq, flags_eq]; rfl]
    exact restores v spared s since known
  | .record fields => exact restores_record (fun w hw _ => restores w) fun w hw => restores w
  | .scalar _ | .list _ | .ref _ | .renderer .. =>
    intro spared s _ _
    simp only [node]
    exact Action.spares_forest (Action.spares_throw _)
termination_by sizeOf v
decreasing_by
  · rw [Value.made.sizeOf_spec]
    omega
  · have := Value.sizeOf_lookup_lt hw
    rw [Value.record.sizeOf_spec]
    omega
  · exact (mem_lower (v := .record fields) (List.mem_append_right _ hw)).1

/-- What a JSON text gives refers to nothing. -/
theorem spares_nodeOfJson (limits : Limits) (s : Store) (text : String) :
    Spares s.forest s (nodeOfJson limits text) fun r g log => g.HasRoom r ∧
      ∃ v, Json.read limits text.toList = .ok v ∧ Restored s.forest (flags s.forest v) g log := by
  rw [nodeOfJson]
  split
  · exact Action.spares_throw _
  next v hv =>
    have known : ∀ r ∈ v.refs, s.forest.HasRoom r := by simp [Json.plain_of_read hv]
    exact (restores v s.forest s (.refl _) known).imp fun r g log h => ⟨h.2.1, v, hv, h.2.2⟩

end Payload

end Hypertext
