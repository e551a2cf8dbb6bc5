import Hypertext.Forest.Lineage
import Hypertext.Forest.Lemmas

/-! Whether text is written as it is, told from the marks of the elements above. Where the links
to parents lead up to an element without one, the walk meets the first so many of these elements,
and it reports if there are more. The main statement is `isVerbatim_eq`. -/
namespace Hypertext
set_option autoImplicit false

/-- What reading the marks above an element and its own mark comes to. -/
def verbatimOf (tag : Datum) (above : List Bool) (own : Bool) : Reading Bool := do
  if (above.take ancestorLimit).any (fun mark => mark) then return true
  if ancestorLimit < above.length then .report (.walkCut tag)
  return own

theorem exists_verbatimOf (tag : Datum) (above : List Bool) (own : Bool) :
    ∃ b, (verbatimOf tag above own).result = .ok b := by
  rw [verbatimOf]
  split
  · exact ⟨_, rfl⟩
  · split
    · exact ⟨_, rfl⟩
    · exact ⟨_, rfl⟩

namespace Forest

variable {f : Forest}

/-- The parents of an element, up to one that has none. -/
def Lineage (f : Forest) : ElementId → List ElementId → Prop
  | id, [] => f.link id = .absent
  | id, parent :: rest => f.link id = .element parent ∧ Lineage f parent rest

theorem climb_lineage {id : ElementId} {above : List ElementId} (h : f.Lineage id above)
    (limit : Nat) : f.climb limit (f.parent? id) = above.take limit := by
  induction limit generalizing id above with
  | zero => rw [climb, List.take_zero]
  | succ limit ih =>
    cases above with
    | nil =>
      have hlink : f.link id = .absent := h
      rw [parent?, hlink]
      rfl
    | cons parent rest =>
      obtain ⟨hlink, hrest⟩ := h
      rw [parent?, hlink]
      show parent :: f.climb limit (f.parent? parent) = _
      rw [ih hrest, List.take_succ_cons]

theorem link_of_lt {id : ElementId} {above : List ElementId} (h : f.Lineage id above) {limit : Nat}
    (hlt : limit < above.length) :
    ∃ parent, f.link ((above.take limit).getLast?.getD id) = .element parent := by
  induction above generalizing id limit with
  | nil => exact absurd hlt (Nat.not_lt_zero limit)
  | cons parent rest ih =>
    obtain ⟨hlink, hrest⟩ := h
    cases limit with
    | zero => exact ⟨parent, hlink⟩
    | succ limit =>
      rw [List.take_succ_cons, List.getLast?_cons]
      exact ih hrest (Nat.lt_of_succ_lt_succ hlt)

theorem link_of_le {id : ElementId} {above : List ElementId} (h : f.Lineage id above) {limit : Nat}
    (hle : above.length ≤ limit) :
    f.link ((above.take limit).getLast?.getD id) = .absent := by
  rw [List.take_of_length_le hle]
  induction above generalizing id limit with
  | nil => exact h
  | cons parent rest ih =>
    rw [List.getLast?_cons]
    exact ih h.2 (Nat.le_refl rest.length)

theorem beyond_lineage {id : ElementId} {above : List ElementId} (h : f.Lineage id above) :
    f.beyond id (above.take ancestorLimit) =
      if ancestorLimit < above.length then .report (.walkCut (f.tagOf id)) else pure () := by
  rw [beyond]
  by_cases hlt : ancestorLimit < above.length
  · obtain ⟨parent, hparent⟩ := link_of_lt h hlt
    rw [hparent, if_pos hlt]
  · rw [link_of_le h (Nat.le_of_not_lt hlt), if_neg hlt]

theorem isVerbatim_eq {id : ElementId} {above : List ElementId} (h : f.Lineage id above) :
    f.isVerbatim id = verbatimOf (f.tagOf id) (above.map f.isMarked) (f.isMarked id) := by
  have hany : (above.take ancestorLimit).any f.isMarked =
      ((above.map f.isMarked).take ancestorLimit).any (fun mark => mark) := by
    rw [← List.map_take, List.any_map]
    rfl
  rw [isVerbatim, inheritsMark, ancestors, climb_lineage h, beyond_lineage h, verbatimOf, hany,
    List.length_map]
  cases ((above.map f.isMarked).take ancestorLimit).any (fun mark => mark) with
  | true => rfl
  | false =>
    by_cases hlt : ancestorLimit < above.length
    · rw [if_pos hlt, if_pos hlt]
      rfl
    · rw [if_neg hlt, if_neg hlt]
      rfl

end Forest

end Hypertext
