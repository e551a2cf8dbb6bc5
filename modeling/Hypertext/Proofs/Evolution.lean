import Hypertext.Proofs.References

/-! How forests evolve. An operation makes room for new objects, changes who holds whom, and sets marks
of elements that have a text slot; a log tells which marks. Some operations spare what was there before.
There is one lemma for each operation, and `Evolves.trans` puts them together. -/
namespace Hypertext
set_option autoImplicit false

/-! ## Logs of marks -/

/-- From now on an element has this mark. -/
structure Marking where
  on : ElementId
  mark : Datum
  deriving DecidableEq

/-- Markings in the order in which they were made. -/
abbrev MarkLog := List Marking

namespace MarkLog

/-- The mark that the last entry on an element gives it. -/
def last? (log : MarkLog) (x : ElementId) : Option Datum :=
  (log.reverse.find? fun w => w.on = x).map Marking.mark

@[simp] theorem last?_append (log more : MarkLog) (x : ElementId) :
    last? (log ++ more) x = (more.last? x).or (log.last? x) := by
  rw [last?, List.reverse_append, List.find?_append, last?, last?]
  cases more.reverse.find? fun w => w.on = x <;> rfl

theorem last?_singleton (y x : ElementId) (d : Datum) :
    last? [⟨y, d⟩] x = if y = x then some d else none := by
  by_cases h : y = x <;> simp [last?, h]

theorem last?_eq_none {log : MarkLog} {x : ElementId} (h : ∀ w ∈ log, w.on ≠ x) :
    log.last? x = none := by
  rw [last?, List.find?_eq_none.2, Option.map_none]
  intro w hw
  simpa using h w (List.mem_reverse.1 hw)

theorem mem_of_last? {log : MarkLog} {x : ElementId} {d : Datum} (h : log.last? x = some d) :
    ⟨x, d⟩ ∈ log := by
  obtain ⟨w, hw, rfl⟩ := Option.map_eq_some_iff.1 h
  obtain rfl : w.on = x := by simpa using List.find?_some hw
  exact List.mem_reverse.1 (List.mem_of_find?_eq_some hw)

/-- What is set again and again to the same is set. -/
theorem last?_cons_same {w : Marking} {log : MarkLog} (same : ∀ v ∈ log, v = w) (x : ElementId) :
    last? (w :: log) x = last? [w] x := by
  rw [← List.singleton_append, last?_append]
  cases h : log.last? x with
  | none => rfl
  | some d =>
    rw [← same _ (mem_of_last? h), last?_singleton, if_pos rfl]
    rfl

/-- Before what is set last of an element, nothing counts that was set of it. -/
theorem last?_overwritten {x : ElementId} {more : MarkLog} (elsewhere : ∀ w ∈ more, w.on ≠ x)
    (first second d : Datum) (y : ElementId) :
    last? (⟨x, first⟩ :: more ++ [⟨x, second⟩, ⟨x, d⟩]) y = last? (⟨x, d⟩ :: more) y := by
  rw [← List.singleton_append, ← List.singleton_append (l := more)]
  simp only [last?_append]
  by_cases h : x = y
  · subst h
    rw [last?_eq_none elsewhere]
    simp [last?]
  · simp [last?, h]

end MarkLog

/-- What an element holds under an identity. -/
def Element.holds (e : Element) (id : ElementId) : List Ref :=
  Value.refsList e.children
    ++ (e.content.refs ++ e.mark.refs ++ e.tag.refs ++ Value.refsFields e.undeclared)
    ++ if e.styled then [.element id] else []

namespace Forest

variable {spared f g h : Forest} {id x : ElementId} {e : Element} {log more : MarkLog} {r : Ref}

/-- The own mark of an element with a text slot. -/
def mark? (f : Forest) (x : ElementId) : Option Datum :=
  (f.get? x).bind fun e => if e.hasText then some e.mark else none

theorem mark?_of_get? (there : f.get? x = some e) :
    f.mark? x = if e.hasText then some e.mark else none := by rw [mark?, there, Option.bind_some]

theorem held_of_get? (there : f.get? id = some e) : f.held (.element id) = e.holds id := by
  rw [held, there]
  rfl

theorem held_of_gone (gone : f.get? id = none) : f.held (.element id) = [] := by rw [held, gone]

/-! ## Room -/

/-- The second forest has room for everything that the first one has room for. -/
structure Fits (f g : Forest) : Prop where
  elements : f.elements.size ≤ g.elements.size
  documents : f.documents.size ≤ g.documents.size

theorem Fits.refl (f : Forest) : f.Fits f := ⟨Nat.le_refl _, Nat.le_refl _⟩

theorem Fits.trans (first : f.Fits g) (second : g.Fits h) : f.Fits h :=
  ⟨Nat.le_trans first.elements second.elements, Nat.le_trans first.documents second.documents⟩

theorem Fits.room (fits : f.Fits g) (room : f.HasRoom r) : g.HasRoom r := by
  cases r with
  | element id => exact Nat.lt_of_lt_of_le room fits.elements
  | document d => exact Nat.lt_of_lt_of_le room fits.documents

theorem fits_empty (f : Forest) : ({} : Forest).Fits f := ⟨Nat.zero_le _, Nat.zero_le _⟩

theorem not_hasRoom_empty : ¬ ({} : Forest).HasRoom r := by
  cases r with
  | element id => exact Nat.not_lt_zero _
  | document d => exact Nat.not_lt_zero _

/-- Nothing holds what there is no room for. -/
def Closed (f : Forest) : Prop := ∀ r s, s ∈ f.held r → f.HasRoom s

/-! ## Evolution -/

/-- A forest becomes another. Everything holds what it held before or what there is room for, and the
marks are what the log says or what they were. What is spared holds nothing new but itself, and it has
no entry in the log. -/
structure Evolves (spared f g : Forest) (log : MarkLog) : Prop where
  fits : f.Fits g
  held : ∀ r s, s ∈ g.held r → s ∈ f.held r ∨ g.HasRoom s ∧ (spared.HasRoom r → s = r)
  roots : ∀ d, spared.HasRoom (.document d) → g.roots? d = f.roots? d
  marks : ∀ x d, g.mark? x = some d → (log.last? x).or (f.mark? x) = some d
  apart : ∀ w ∈ log, ¬ spared.HasRoom (.element w.on)

theorem Evolves.refl (spared f : Forest) : spared.Evolves f f [] :=
  ⟨.refl f, fun _ _ hs => .inl hs, fun _ _ => rfl, fun _ _ hx => hx, fun _ hw => nomatch hw⟩

theorem Evolves.trans (first : spared.Evolves f g log) (second : spared.Evolves g h more) :
    spared.Evolves f h (log ++ more) where
  fits := first.fits.trans second.fits
  held r s hs := by
    obtain hs | new := second.held r s hs
    · obtain hs | ⟨room, itself⟩ := first.held r s hs
      · exact .inl hs
      · exact .inr ⟨second.fits.room room, itself⟩
    · exact .inr new
  roots d room := (second.roots d room).trans (first.roots d room)
  marks x d hx := by
    rw [MarkLog.last?_append, Option.or_assoc]
    exact Option.or_eq_some_iff.2 ((Option.or_eq_some_iff.1 (second.marks x d hx)).imp_right
      (.imp_right (first.marks x d)))
  apart w hw := (List.mem_append.1 hw).elim (first.apart w) (second.apart w)

/-- Nothing need be spared. -/
theorem Evolves.free (evolves : spared.Evolves f g log) : ({} : Forest).Evolves f g log where
  fits := evolves.fits
  held r s hs := (evolves.held r s hs).imp_right fun new => ⟨new.1, (absurd · not_hasRoom_empty)⟩
  roots _ room := absurd room not_hasRoom_empty
  marks := evolves.marks
  apart _ _ := not_hasRoom_empty

/-- Logs are told apart by their last entries only. -/
theorem Evolves.relog (evolves : spared.Evolves f g log) (same : ∀ x, more.last? x = log.last? x)
    (apart : ∀ w ∈ more, ¬ spared.HasRoom (.element w.on)) : spared.Evolves f g more where
  __ := evolves
  marks x d hx := by
    rw [same]
    exact evolves.marks x d hx
  apart := apart

theorem Evolves.closed (evolves : spared.Evolves f g log) (closed : f.Closed) : g.Closed := by
  intro r s hs
  obtain hs | new := evolves.held r s hs
  · exact evolves.fits.room (closed r s hs)
  · exact new.1

/-! ## New objects -/

theorem fits_insert (f : Forest) (e : Element) : f.Fits (f.insert e).2 := by
  refine ⟨?_, Nat.le_refl _⟩
  show f.elements.size ≤ (f.elements.push (some e)).size
  rw [Array.size_push]
  exact Nat.le_succ _

theorem evolves_insert (fits : spared.Fits f) (kind : Kind) {tag : Datum}
    (known : ∀ r ∈ tag.refs, f.HasRoom r) : spared.Evolves f (f.insert { kind, tag }).2
      [⟨(f.insert { kind, tag }).1, .bool false⟩] where
  fits := fits_insert f _
  held r s hs := by
    by_cases hr : r = .element (f.insert { kind, tag }).1
    · subst hr
      rw [held_of_get? ((f.get?_insert _ _).trans (if_pos rfl))] at hs
      have hs : s ∈ tag.refs := by
        simpa [Element.holds, Value.refsList, Value.refsFields, Value.refs] using hs
      refine .inr ⟨(fits_insert f _).room (known s hs), fun room => ?_⟩
      exact absurd (fits.room room) (Nat.lt_irrefl _)
    · cases r with
      | document d => exact .inl hs
      | element id =>
        have same : (f.insert { kind, tag }).2.get? id = f.get? id :=
          (f.get?_insert _ id).trans (if_neg fun h => hr (by rw [h]))
        rw [Forest.held, same] at hs
        exact .inl hs
  roots _ _ := rfl
  marks x d hx := by
    rw [MarkLog.last?_singleton]
    by_cases hx' : x = (f.insert { kind, tag }).1
    · subst hx'
      rw [mark?_of_get? ((f.get?_insert _ _).trans (if_pos rfl))] at hx
      split at hx
      · rw [if_pos rfl]
        exact hx
      · cases hx
    · rw [mark?, f.get?_insert, if_neg hx'] at hx
      rw [if_neg (Ne.symm hx')]
      exact hx
  apart w hw := by
    obtain rfl := List.mem_singleton.1 hw
    exact fun room => absurd (fits.room room) (Nat.lt_irrefl _)

theorem evolves_insertDocument (fits : spared.Fits f) :
    spared.Evolves f f.insertDocument.2 [] where
  fits := ⟨Nat.le_refl _, by
    show f.documents.size ≤ (f.documents.push (some [])).size
    rw [Array.size_push]
    exact Nat.le_succ _⟩
  held r s hs := by
    cases r with
    | element id => exact .inl hs
    | document d =>
      rw [Forest.held, rootsOf, roots?_insertDocument] at hs
      split at hs
      · cases hs
      · exact .inl hs
  roots d room := by
    rw [roots?_insertDocument, if_neg]
    rintro rfl
    exact absurd (fits.room room) (Nat.lt_irrefl _)
  marks _ _ hx := hx
  apart _ hw := nomatch hw

/-! ## Changes of one element -/

theorem fits_update (f : Forest) (id : ElementId) (change : Element → Element) :
    f.Fits (f.update id change) := ⟨Nat.le_of_eq (size_update f id change).symm, Nat.le_refl _⟩

/-- A change of an element that keeps its kind. -/
theorem evolves_update {change : Element → Element} (kind : ∀ e, (change e).kind = e.kind)
    (holds : ∀ e s, f.get? id = some e → s ∈ (change e).holds id →
      s ∈ e.holds id ∨ f.HasRoom s ∧ (spared.HasRoom (.element id) → s = .element id))
    (marks : ∀ e, f.get? id = some e → e.hasText = true →
      (log.last? id).or (some e.mark) = some (change e).mark)
    (only : ∀ w ∈ log, w.on = id) (apart : ∀ w ∈ log, ¬ spared.HasRoom (.element w.on)) :
    spared.Evolves f (f.update id change) log where
  fits := fits_update f id change
  held r s hs := by
    cases r with
    | document d => exact .inl hs
    | element y =>
      by_cases hy : y = id
      · subst hy
        cases there : f.get? y with
        | none =>
          rw [held_of_gone (by rw [get?_update, if_pos rfl, there]; rfl)] at hs
          cases hs
        | some e =>
          rw [held_of_get? (e := change e) (by rw [get?_update, if_pos rfl, there]; rfl)] at hs
          rw [held_of_get? there]
          exact (holds e s there hs).imp_right (.imp_left (fits_update f y change).room)
      · rw [Forest.held, get?_update, if_neg hy] at hs
        exact .inl hs
  roots _ _ := rfl
  marks x d hx := by
    by_cases hx' : x = id
    · subst hx'
      rw [mark?, get?_update, if_pos rfl] at hx
      cases there : f.get? x with
      | none =>
        rw [there] at hx
        cases hx
      | some e =>
        have slot : (change e).hasText = e.hasText := congrArg Kind.hasText (kind e)
        rw [there, Option.map_some, Option.bind_some, slot] at hx
        rw [mark?_of_get? there]
        split at hx
        next text =>
          rw [if_pos text, marks e there text]
          exact hx
        next => cases hx
    · rw [MarkLog.last?_eq_none fun w hw h => hx' (h.symm.trans (only w hw)), Option.none_or]
      rw [mark?, get?_update, if_neg hx'] at hx
      exact hx
  apart := apart

/-- A change that sets no mark and gives the element nothing to hold but itself. -/
theorem evolves_update_plain (spared f : Forest) (id : ElementId) {change : Element → Element}
    (kind : ∀ e, (change e).kind = e.kind) (mark : ∀ e, (change e).mark = e.mark)
    (holds : ∀ e s, s ∈ (change e).holds id → s ∈ e.holds id ∨ s = .element id) :
    spared.Evolves f (f.update id change) [] := by
  refine evolves_update kind (fun e s there hs => ?_) (fun e _ _ => by rw [mark e]; rfl)
    (fun _ hw => nomatch hw) fun _ hw => nomatch hw
  refine (holds e s hs).imp_right fun itself => ⟨?_, fun _ => itself⟩
  rw [itself]
  exact index_lt there

theorem evolves_setParent (spared f : Forest) (id : ElementId) (parent : ParentLink) :
    spared.Evolves f (f.setParent id parent) [] :=
  evolves_update_plain spared f id (fun _ => rfl) (fun _ => rfl) fun _ _ hs => .inl hs

theorem evolves_setAttributes (spared f : Forest) (id : ElementId) (attributes : Attributes) :
    spared.Evolves f (f.setAttributes id attributes) [] :=
  evolves_update_plain spared f id (fun _ => rfl) (fun _ => rfl) fun _ _ hs => .inl hs

theorem evolves_setStyled (spared f : Forest) (id : ElementId) :
    spared.Evolves f (f.setStyled id) [] := by
  refine evolves_update_plain spared f id (fun _ => rfl) (fun _ => rfl) fun e s hs => ?_
  obtain hs | hs := List.mem_append.1 hs
  · exact .inl (List.mem_append_left _ hs)
  · exact .inr (by simpa using hs)

/-- A mark that refers to nothing gives nothing to hold. -/
theorem mem_held_of_setMark {b : Bool} {s : Ref} (h : s ∈ (f.setMark id (.bool b)).held r) :
    s ∈ f.held r := by
  cases r with
  | document d => exact h
  | element y =>
    by_cases hy : y = id
    · subst hy
      cases there : f.get? y with
      | none =>
        rw [held_of_gone (by rw [get?_setMark, if_pos rfl, there]; rfl)] at h
        cases h
      | some e =>
        rw [held_of_get? (e := { e with mark := .bool b })
          (by rw [get?_setMark, if_pos rfl, there]; rfl)] at h
        rw [held_of_get? there]
        simp only [Element.holds, Value.refs, List.append_nil, List.mem_append] at h ⊢
        obtain (h | ((h | h) | h)) | h := h
        · exact .inl (.inl h)
        · exact .inl (.inr (.inl (.inl (.inl h))))
        · exact .inl (.inr (.inl (.inr h)))
        · exact .inl (.inr (.inr h))
        · exact .inr h
    · rw [Forest.held, get?_setMark, if_neg hy] at h
      exact h

section
variable {v : Datum} (known : ∀ r ∈ v.refs, f.HasRoom r)
include known

theorem evolves_setUndeclared (fresh : ¬ spared.HasRoom (.element id)) (name : String) :
    spared.Evolves f (f.setUndeclared id name v) [] := by
  refine evolves_update (fun _ => rfl) (fun e s _ hs => ?_) (fun _ _ _ => rfl)
    (fun _ hw => nomatch hw) fun _ hw => nomatch hw
  simp only [Element.holds, Value.refsFields, List.mem_append] at hs ⊢
  obtain (hs | ((hs | hs) | hs) | hs | hs) | hs := hs
  · exact .inl (.inl (.inl hs))
  · exact .inl (.inl (.inr (.inl (.inl (.inl hs)))))
  · exact .inl (.inl (.inr (.inl (.inl (.inr hs)))))
  · exact .inl (.inl (.inr (.inl (.inr hs))))
  · exact .inr ⟨known s hs, (absurd · fresh)⟩
  · obtain ⟨field, hfield, hs⟩ := Value.mem_refsFields_iff.1 hs
    exact .inl (.inl (.inr (.inr (Value.mem_refsFields_iff.2
      ⟨field, List.mem_of_mem_filter hfield, hs⟩))))
  · exact .inl (.inr hs)

theorem evolves_setProperty (fresh : ¬ spared.HasRoom (.element id)) (p : Property) :
    spared.Evolves f (f.setProperty id p v) [] := by
  rw [setProperty]
  split
  · exact evolves_setAttributes spared f id _
  · exact evolves_setUndeclared known fresh p.key

theorem evolves_setMark (fresh : ¬ spared.HasRoom (.element id)) :
    spared.Evolves f (f.setMark id v) [⟨id, v⟩] := by
  have only : ∀ w ∈ ([⟨id, v⟩] : MarkLog), w.on = id := fun w hw =>
    congrArg Marking.on (List.mem_singleton.1 hw)
  refine evolves_update (fun _ => rfl) (fun e s _ hs => ?_) (fun _ _ _ => ?_) only
    fun w hw => only w hw ▸ fresh
  · simp only [Element.holds, List.mem_append] at hs ⊢
    obtain (hs | ((hs | hs) | hs) | hs) | hs := hs
    · exact .inl (.inl (.inl hs))
    · exact .inl (.inl (.inr (.inl (.inl (.inl hs)))))
    · exact .inr ⟨known s hs, (absurd · fresh)⟩
    · exact .inl (.inl (.inr (.inl (.inr hs))))
    · exact .inl (.inl (.inr (.inr hs)))
    · exact .inl (.inr hs)
  · rw [MarkLog.last?_singleton, if_pos rfl]
    rfl

end

theorem evolves_setMark_bool (f : Forest) (id : ElementId) (b : Bool) :
    ({} : Forest).Evolves f (f.setMark id (.bool b)) [⟨id, .bool b⟩] :=
  evolves_setMark (fun _ hr => absurd hr List.not_mem_nil) not_hasRoom_empty

/-! ## Children -/

theorem fits_setChildren (f : Forest) (holder : Ref) (children : List Datum) :
    f.Fits (f.setChildren holder children) := by
  cases holder with
  | element id => exact fits_update f id _
  | document d =>
    refine ⟨Nat.le_refl _, Nat.le_of_eq ?_⟩
    show f.documents.size = (f.documents.modify _ _).size
    rw [Array.size_modify]

theorem evolves_setChildren {holder : Ref} (fresh : ¬ spared.HasRoom holder) {children : List Datum}
    (known : ∀ s ∈ Value.refsList children,
      s ∈ Value.refsList (f.childrenOf holder) ∨ f.HasRoom s) :
    spared.Evolves f (f.setChildren holder children) [] := by
  cases holder with
  | element id =>
    refine evolves_update (fun _ => rfl) (fun e s there hs => ?_) (fun _ _ _ => rfl)
      (fun _ hw => nomatch hw) fun _ hw => nomatch hw
    rw [Element.holds, List.append_assoc] at hs ⊢
    obtain hs | hs := List.mem_append.1 hs
    · rw [childrenOf, there] at known
      exact (known s hs).imp (List.mem_append_left _) fun room => ⟨room, (absurd · fresh)⟩
    · exact .inl (List.mem_append_right _ hs)
  | document d =>
    refine ⟨fits_setChildren f _ _, fun r s hs => ?_, fun d' room => ?_, fun _ _ hx => hx,
      fun _ hw => nomatch hw⟩
    · cases r with
      | element id => exact .inl hs
      | document d' =>
        rw [Forest.held, rootsOf, roots?_setChildren] at hs
        split at hs
        next same =>
          subst same
          cases there : f.roots? d' with
          | none =>
            rw [there] at hs
            cases hs
          | some roots =>
            rw [there] at hs
            refine (known s hs).imp id fun room => ⟨(fits_setChildren f _ _).room room, ?_⟩
            exact (absurd · fresh)
        next => exact .inl hs
    · rw [roots?_setChildren, if_neg]
      rintro rfl
      exact fresh room

theorem evolves_add {holder : Ref} (fresh : ¬ spared.HasRoom holder) {v : Datum}
    (known : ∀ r ∈ v.refs, f.HasRoom r) : spared.Evolves f (f.add holder v) [] := by
  refine evolves_setChildren fresh fun s hs => ?_
  obtain ⟨w, hw, hs⟩ := Value.mem_refsList_iff.1 hs
  obtain hw | hw := List.mem_append.1 hw
  · exact .inl (Value.mem_refsList_iff.2 ⟨w, hw, hs⟩)
  · exact .inr (known s (List.mem_singleton.1 hw ▸ hs))

theorem evolves_remove {holder : Ref} (fresh : ¬ spared.HasRoom holder) (v : Datum) :
    spared.Evolves f (f.remove holder v) [] := by
  refine evolves_setChildren fresh fun s hs => ?_
  obtain ⟨w, hw, hs⟩ := Value.mem_refsList_iff.1 hs
  exact .inl (Value.mem_refsList_iff.2 ⟨w, List.mem_of_mem_erase hw, hs⟩)

theorem evolves_attach {holder : Ref} (fresh : ¬ spared.HasRoom holder) {v : Datum}
    (known : ∀ r ∈ v.refs, f.HasRoom r) : spared.Evolves f (f.attach holder v) [] := by
  unfold attach
  split
  next id held =>
    have linked := evolves_setParent spared f held (.element id)
    exact linked.trans (evolves_add fresh fun r hr => linked.fits.room (known r hr))
  next => exact evolves_add fresh known

/-! ## Texts -/

theorem evolves_setContent (fresh : ¬ spared.HasRoom (.element id)) {v : Datum}
    (known : ∀ r ∈ v.refs, f.HasRoom r) :
    spared.Evolves f (f.setContent id v) [⟨id, .bool false⟩] := by
  have only : ∀ w ∈ ([⟨id, .bool false⟩] : MarkLog), w.on = id := fun w hw =>
    congrArg Marking.on (List.mem_singleton.1 hw)
  have apart : ∀ w ∈ ([⟨id, .bool false⟩] : MarkLog), ¬ spared.HasRoom (.element w.on) :=
    fun w hw => only w hw ▸ fresh
  rw [setContent]
  split
  next slot =>
    have filled : spared.Evolves f (f.update id (·.filled v)) [⟨id, .bool false⟩] := by
      refine evolves_update (fun _ => rfl) (fun e s _ hs => ?_) (fun _ _ _ => ?_) only apart
      · simp only [Element.holds, Element.filled, Value.refs, List.append_nil, List.mem_append] at hs ⊢
        obtain (hs | (hs | hs) | hs) | hs := hs
        · exact .inl (.inl (.inl hs))
        · exact .inr ⟨known s hs, (absurd · fresh)⟩
        · exact .inl (.inl (.inr (.inl (.inr hs))))
        · exact .inl (.inl (.inr (.inr hs)))
        · exact .inl (.inr hs)
      · rw [MarkLog.last?_singleton, if_pos rfl]
        rfl
    dsimp only
    split
    · exact (filled.trans (evolves_remove fresh _)).trans (evolves_setParent spared _ _ _)
    · exact filled
  next slotless =>
    refine evolves_update (fun _ => rfl) (fun e s _ hs => ?_) (fun e there text => ?_) only apart
    · simp only [Element.holds, List.mem_append] at hs ⊢
      obtain (hs | ((hs | hs) | hs) | hs) | hs := hs
      · exact .inl (.inl (.inl hs))
      · exact .inr ⟨known s hs, (absurd · fresh)⟩
      · exact .inl (.inl (.inr (.inl (.inl (.inr hs)))))
      · exact .inl (.inl (.inr (.inl (.inr hs))))
      · exact .inl (.inl (.inr (.inr hs)))
      · exact .inl (.inr hs)
    · -- a mark is nothing to an element without a text slot
      rw [hasText, there] at slotless
      exact absurd text slotless

/-! ## What is left -/

theorem isThere_of_mem_held {s : Ref} (h : s ∈ f.held r) : f.isThere r = true := by
  by_cases there : f.isThere r = true
  · exact there
  · rw [held_of_not_there there] at h
    cases h

variable {kept : List Ref}

theorem Pruned.fits (pruned : f.Pruned g kept) : f.Fits g :=
  ⟨Nat.le_of_eq pruned.elements.symm, Nat.le_of_eq pruned.documents.symm⟩

theorem Pruned.fitted (pruned : f.Pruned g kept) : g.Fits f :=
  ⟨Nat.le_of_eq pruned.elements, Nat.le_of_eq pruned.documents⟩

theorem Pruned.held_subset (pruned : f.Pruned g kept) {s : Ref} (h : s ∈ g.held r) :
    s ∈ f.held r := by
  have there := isThere_of_mem_held h
  cases r with
  | element id =>
    rw [Forest.held, pruned.get? id there] at h
    exact h
  | document d =>
    rw [Forest.held, rootsOf, pruned.roots? d there] at h
    exact h

theorem Pruned.mark?_eq (pruned : f.Pruned g kept) {d : Datum} (h : g.mark? x = some d) :
    f.mark? x = some d := by
  obtain ⟨e, there, -⟩ := Option.bind_eq_some_iff.1 h
  rwa [mark?, ← pruned.get? x (isThere_element.2 ⟨e, there⟩)]

end Forest

end Hypertext
