import Hypertext.Session.Query

/-! Walks up the parent links, in forests of any shape. A walk meets the first so many elements of
the chain of parents, also where the chain runs in a circle, and it reports if the chain goes on
after them. Whether the text of an element is written as it is depends on the marks of these
elements and on its own mark. The main statement is `walk_meets_first_ancestors`. -/
namespace Hypertext.Forest
set_option autoImplicit false

/-! ## The chain of parents -/

/-- The link that is read after so many steps up from an element. Only an element leads further. -/
def linkAbove (f : Forest) (id : ElementId) : Nat → ParentLink
  | 0 => f.link id
  | n + 1 =>
    match linkAbove f id n with
    | .element parent => f.link parent
    | _ => .absent

/-- The chain of parents, from the parent itself on. It ends with the first link that leads to no
element, or never. -/
def above? (f : Forest) (id : ElementId) (n : Nat) : Option ElementId :=
  match f.linkAbove id n with
  | .element parent => some parent
  | _ => none

/-- The chain comes to a choice, which is no element, before the limit on walks. -/
def MeetsChoice (f : Forest) (id : ElementId) (c : Choice) : Prop :=
  ∃ n < ancestorLimit, f.linkAbove id n = .choice c

/-- One of the elements that a walk meets has a text slot and is marked. -/
def MeetsMark (f : Forest) (id : ElementId) : Prop :=
  ∃ n < ancestorLimit, ∃ y e, f.above? id n = some y ∧ f.get? y = some e ∧ e.hasText = true ∧
    f.truth e.mark = true

variable {f : Forest} {id parent : ElementId}

theorem linkAbove_succ (h : f.link id = .element parent) (n : Nat) :
    f.linkAbove id (n + 1) = f.linkAbove parent n := by
  induction n with
  | zero => simp only [linkAbove, h]
  | succ n ih =>
    rw [linkAbove, ih]
    rfl

theorem linkAbove_eq_absent (h : ∀ parent, f.link id ≠ .element parent) (n : Nat) :
    f.linkAbove id (n + 1) = .absent := by
  induction n with
  | zero =>
    rw [linkAbove, linkAbove]
    split
    next parent link => exact absurd link (h parent)
    next => rfl
  | succ n ih => rw [linkAbove, ih]

theorem above?_succ (h : f.link id = .element parent) (n : Nat) :
    f.above? id (n + 1) = f.above? parent n := by
  rw [above?, linkAbove_succ h, above?]

theorem parent?_eq_some : f.parent? id = some parent ↔ f.link id = .element parent := by
  rw [parent?]
  split
  next p link => rw [link, Option.some.injEq, ParentLink.element.injEq]
  next none => exact ⟨(nomatch ·), fun link => absurd link (none parent)⟩

theorem above?_eq_none (h : f.parent? id = none) (n : Nat) : f.above? id n = none := by
  have none (parent : ElementId) : f.link id ≠ .element parent := fun link => by
    rw [parent?_eq_some.2 link] at h
    cases h
  rw [above?]
  cases n with
  | zero =>
    rw [linkAbove]
    split
    next parent link => exact absurd link (none parent)
    next => rfl
  | succ n => rw [linkAbove_eq_absent none]

/-! ## Climbing -/

/-- By induction on the limit: a step up leaves a chain that is one shorter. -/
theorem climb_getElem? (limit : Nat) (id : ElementId) (i : Nat) :
    (f.climb limit (f.parent? id))[i]? = if i < limit then f.above? id i else none := by
  induction limit generalizing id i with
  | zero => rw [climb, List.getElem?_nil, if_neg (Nat.not_lt_zero i)]
  | succ limit ih =>
    cases h : f.parent? id with
    | none =>
      rw [climb, List.getElem?_nil, above?_eq_none h]
      split <;> rfl
    | some parent =>
      have link := parent?_eq_some.1 h
      rw [climb]
      cases i with
      | zero => rw [List.getElem?_cons_zero, if_pos (Nat.succ_pos limit), above?, linkAbove, link]
      | succ i =>
        rw [List.getElem?_cons_succ, ih, above?_succ link]
        simp only [Nat.succ_lt_succ_iff]

theorem length_climb_le (limit : Nat) (next : Option ElementId) :
    (f.climb limit next).length ≤ limit := by
  induction limit generalizing next with
  | zero => exact Nat.le_refl 0
  | succ limit ih =>
    cases next with
    | none => exact Nat.zero_le _
    | some id => exact Nat.succ_le_succ (ih _)

/-- From the last one that a climb meets the chain goes on with the link after so many steps. -/
theorem link_last_climb (limit : Nat) (id : ElementId) :
    f.link ((f.climb limit (f.parent? id)).getLast?.getD id) =
      f.linkAbove id (f.climb limit (f.parent? id)).length := by
  induction limit generalizing id with
  | zero => rfl
  | succ limit ih =>
    cases h : f.parent? id with
    | none => rfl
    | some parent =>
      rw [climb, List.getLast?_cons, List.length_cons, linkAbove_succ (parent?_eq_some.1 h)]
      exact ih parent

theorem exists_mem_ancestors {p : ElementId → Prop} :
    (∃ y ∈ f.ancestors id, p y) ↔ ∃ n < ancestorLimit, ∃ y, f.above? id n = some y ∧ p y := by
  have at? (n : Nat) (y : ElementId) :
      (f.ancestors id)[n]? = some y ↔ n < ancestorLimit ∧ f.above? id n = some y := by
    rw [ancestors, climb_getElem?]
    split <;> simp [*]
  simp only [List.mem_iff_getElem?, at?]
  exact ⟨fun ⟨y, ⟨n, hn, hy⟩, hp⟩ => ⟨n, hn, y, hy, hp⟩,
    fun ⟨n, hn, y, hy, hp⟩ => ⟨y, ⟨n, hn, hy⟩, hp⟩⟩

theorem isMarked_iff : f.isMarked id = true ↔
    ∃ e, f.get? id = some e ∧ e.hasText = true ∧ f.truth e.mark = true := by
  rw [isMarked, Option.any_eq_true]
  simp only [Bool.and_eq_true]

theorem meetsMark_iff : f.MeetsMark id ↔ (f.ancestors id).any f.isMarked = true := by
  rw [List.any_eq_true, exists_mem_ancestors]
  simp only [MeetsMark, isMarked_iff]
  exact exists_congr fun n => and_congr_right fun _ => exists_congr fun y =>
    ⟨fun ⟨e, hy, h⟩ => ⟨hy, e, h⟩, fun ⟨hy, e, h⟩ => ⟨e, hy, h⟩⟩

instance (f : Forest) (id : ElementId) : Decidable (f.MeetsMark id) :=
  decidable_of_iff _ meetsMark_iff.symm

/-! ## The end of a walk -/

theorem linkAbove_add_of_ne {i : Nat} (h : ∀ parent, f.linkAbove id i ≠ .element parent) (n : Nat) :
    f.linkAbove id (i + 1 + n) = .absent := by
  induction n with
  | zero =>
    rw [Nat.add_zero, linkAbove]
    split
    next parent link => exact absurd link (h parent)
    next => rfl
  | succ n ih => rw [← Nat.add_assoc, linkAbove, ih]

/-- Before a link that is there the chain has elements only. -/
theorem exists_linkAbove {i n : Nat} (hn : f.linkAbove id n ≠ .absent) (hi : i < n) :
    ∃ parent, f.linkAbove id i = .element parent := by
  obtain ⟨k, rfl⟩ := Nat.exists_eq_add_of_lt hi
  rw [Nat.add_right_comm] at hn
  refine Classical.byContradiction fun none => hn ?_
  exact linkAbove_add_of_ne (fun parent link => none ⟨parent, link⟩) k

theorem lt_length_ancestors {i : Nat} :
    i < (f.ancestors id).length ↔
      i < ancestorLimit ∧ ∃ parent, f.linkAbove id i = .element parent := by
  rw [← Nat.not_le, ← List.getElem?_eq_none_iff, ancestors, climb_getElem?, above?]
  split
  next within =>
    split
    next parent link => simp [within, link]
    next none =>
      refine ⟨fun unmet => absurd rfl unmet, fun ⟨_, parent, link⟩ => ?_⟩
      exact absurd link (none parent)
  next beyond => simp [beyond]

/-- A walk ends at the limit, or at the first link that leads to no element. -/
theorem length_ancestors_cases (f : Forest) (id : ElementId) :
    (f.ancestors id).length = ancestorLimit ∨ (f.ancestors id).length < ancestorLimit ∧
      ∀ parent, f.linkAbove id (f.ancestors id).length ≠ .element parent := by
  obtain within | all := Nat.lt_or_eq_of_le (length_climb_le (f := f) ancestorLimit (f.parent? id))
  · refine .inr ⟨within, fun parent link => ?_⟩
    exact Nat.lt_irrefl _ (lt_length_ancestors.2 ⟨within, parent, link⟩)
  · exact .inl all

theorem length_ancestors_of_choice {n : Nat} {c : Choice} (hn : n ≤ ancestorLimit)
    (link : f.linkAbove id n = .choice c) : (f.ancestors id).length = n := by
  have present : f.linkAbove id n ≠ .absent := by
    rw [link]
    exact (nomatch ·)
  refine Nat.le_antisymm (Nat.le_of_not_lt fun longer => ?_) (Nat.le_of_not_lt fun shorter => ?_)
  · obtain ⟨-, parent, element⟩ := lt_length_ancestors.1 longer
    cases link.symm.trans element
  · have met := lt_length_ancestors.2
      ⟨Nat.lt_of_lt_of_le shorter hn, exists_linkAbove present shorter⟩
    exact Nat.lt_irrefl _ met

/-- Where no choice is met, a walk looks for nothing but the one element after the limit. -/
theorem beyond_of_free (free : ∀ c, ¬ f.MeetsChoice id c) :
    f.beyond id (f.ancestors id) =
      ⟨if f.linkAbove id ancestorLimit = .absent then #[] else #[.walkCut (f.tagOf id)], .ok ()⟩ := by
  rw [beyond, ancestors, link_last_climb, ← ancestors]
  obtain all | ⟨within, none⟩ := length_ancestors_cases f id
  · rw [all]
    cases f.linkAbove id ancestorLimit with
    | absent => rfl
    | element parent => rfl
    | choice c => rfl
  · have absent : f.linkAbove id ancestorLimit = .absent := by
      obtain ⟨k, hk⟩ := Nat.exists_eq_add_of_lt within
      rw [hk, Nat.add_right_comm]
      exact linkAbove_add_of_ne none k
    rw [absent, if_pos rfl]
    cases link : f.linkAbove id (f.ancestors id).length with
    | absent => rfl
    | element parent => exact absurd link (none parent)
    | choice c => exact absurd ⟨_, within, link⟩ (free c)

theorem beyond_of_choice {c : Choice} (met : f.MeetsChoice id c) :
    f.beyond id (f.ancestors id) = .fail (.nameMissing c.family "parent") := by
  obtain ⟨n, within, link⟩ := met
  have length := length_ancestors_of_choice (Nat.le_of_lt within) link
  rw [beyond, ancestors, link_last_climb, ← ancestors, length, link]
  exact if_pos within

theorem walk_of_free (free : ∀ c, ¬ f.MeetsChoice id c) :
    f.walk id = ⟨if f.linkAbove id ancestorLimit = .absent then #[] else #[.walkCut (f.tagOf id)],
      .ok (f.ancestors id)⟩ := by
  rw [walk, beyond_of_free free]
  show Account.mk (_ ++ #[]) _ = _
  rw [Array.append_empty]
  rfl

theorem walk_of_choice {c : Choice} (met : f.MeetsChoice id c) :
    f.walk id = .fail (.nameMissing c.family "parent") := by
  rw [walk, beyond_of_choice met]
  rfl

/-! ## Marks -/

theorem inheritsMark_of_meets (met : f.MeetsMark id) : f.inheritsMark id = pure true := by
  rw [inheritsMark, meetsMark_iff.1 met]
  rfl

/-- Where no mark is met, the walk goes to its end. -/
theorem inheritsMark_of_not_meets (unmet : ¬ f.MeetsMark id) :
    f.inheritsMark id = do
      let _ ← f.walk id
      return false := by
  rw [meetsMark_iff, Bool.not_eq_true] at unmet
  rw [inheritsMark, unmet, walk]
  obtain ⟨reports, fault | _⟩ := f.beyond id (f.ancestors id)
  · rfl
  · rfl

/-- What the walk of an element with a text slot tells: whether it is marked itself or meets a mark.
-/
theorem result_isVerbatim (free : ∀ c, ¬ f.MeetsChoice id c) :
    (f.isVerbatim id).result = .ok (decide (f.MeetsMark id) || f.isMarked id) := by
  by_cases met : f.MeetsMark id
  · rw [isVerbatim, inheritsMark_of_meets met, decide_eq_true met]
    rfl
  · rw [isVerbatim, inheritsMark_of_not_meets met, walk_of_free free, decide_eq_false met]
    rfl

theorem answer_verbatim {e : Element} (there : f.get? id = some e) :
    Query.verbatim.answer (.ref (.element id)) f =
      do return if ← f.inheritsMark id then .bool true else e.mark := by
  rw [Query.answer, Query.subject?, there]
  rfl

theorem truth_answer_verbatim {e : Element} (there : f.get? id = some e)
    (free : ∀ c, ¬ f.MeetsChoice id c) :
    ∃ v, (Query.verbatim.answer (.ref (.element id)) f).result = .ok v ∧
      (f.truth v = true ↔ f.truth e.mark = true ∨ f.MeetsMark id) := by
  rw [answer_verbatim there]
  by_cases met : f.MeetsMark id
  · rw [inheritsMark_of_meets met]
    exact ⟨.bool true, rfl, iff_of_true rfl (.inr met)⟩
  · rw [inheritsMark_of_not_meets met, walk_of_free free]
    exact ⟨e.mark, rfl, (or_iff_left met).symm⟩

/-- A walk up from an element meets the first elements of its chain of parents, up to the limit, and
it reports exactly if the chain has one more. (It fails at a choice, which is no element and has no
parent.) With a text slot, the text of the element is written as it is exactly if its own mark or
the mark of one of these elements says so, whatever stands between them. -/
theorem walk_meets_first_ancestors (f : Forest) (id : ElementId) :
    (∀ i, (f.ancestors id)[i]? = if i < ancestorLimit then f.above? id i else none) ∧
    ((∀ c, ¬ f.MeetsChoice id c) → f.walk id =
      ⟨if f.linkAbove id ancestorLimit = .absent then #[] else #[.walkCut (f.tagOf id)],
        .ok (f.ancestors id)⟩) ∧
    (∀ c, f.MeetsChoice id c → f.walk id = .fail (.nameMissing c.family "parent")) ∧
    (∀ e, f.get? id = some e → e.hasText = true →
      (f.MeetsMark id → Query.verbatim.answer (.ref (.element id)) f = pure (.bool true)) ∧
      (¬ f.MeetsMark id → Query.verbatim.answer (.ref (.element id)) f =
        do let _ ← f.walk id; return e.mark) ∧
      ((∀ c, ¬ f.MeetsChoice id c) →
        (∃ v, (Query.verbatim.answer (.ref (.element id)) f).result = .ok v ∧
          (f.truth v = true ↔ f.truth e.mark = true ∨ f.MeetsMark id)) ∧
        (f.isVerbatim id).result = .ok (decide (f.truth e.mark = true ∨ f.MeetsMark id)))) := by
  refine ⟨climb_getElem? ancestorLimit id, walk_of_free, fun c => walk_of_choice, ?_⟩
  intro e there hasText
  rw [answer_verbatim there]
  refine ⟨fun met => ?_, fun unmet => ?_, fun free => ⟨?_, ?_⟩⟩
  · rw [inheritsMark_of_meets met]
    rfl
  · rw [inheritsMark_of_not_meets unmet]
    obtain ⟨reports, fault | _⟩ := f.walk id <;> rfl
  · rw [← answer_verbatim there]
    exact truth_answer_verbatim there free
  · rw [result_isVerbatim free, isMarked, there, Option.any_some, hasText, Bool.true_and]
    rw [Bool.decide_or, Bool.decide_eq_true, Bool.or_comm]

/-- A paragraph and a list that are the parents of each other, both without a mark. -/
def circle : Forest where
  elements := #[
    some { kind := .catalog .p, tag := .text "p", parent := .element ⟨1⟩ },
    some { kind := .catalog .ul, tag := .text "ul", parent := .element ⟨0⟩ }]

theorem linkAbove_circle (n : Nat) : circle.linkAbove ⟨0⟩ n = .element ⟨(n + 1) % 2⟩ := by
  induction n with
  | zero => rfl
  | succ n ih =>
    rw [linkAbove, ih]
    obtain even | odd := Nat.mod_two_eq_zero_or_one n
    · have odd : (n + 1) % 2 = 1 := by omega
      have even : (n + 1 + 1) % 2 = 0 := by omega
      rw [odd, even]
      rfl
    · have even : (n + 1) % 2 = 0 := by omega
      have odd : (n + 1 + 1) % 2 = 1 := by omega
      rw [odd, even]
      rfl

theorem walk_meets_first_ancestors_of_circle :
    (circle.ancestors ⟨0⟩)[999]? = some ⟨0⟩ ∧ (circle.ancestors ⟨0⟩)[1000]? = none ∧
    circle.walk ⟨0⟩ = ⟨#[.walkCut (.text "p")], .ok (circle.ancestors ⟨0⟩)⟩ ∧
    ∃ v, (Query.verbatim.answer (.ref (.element ⟨0⟩)) circle).result = .ok v ∧
      circle.truth v = false := by
  obtain ⟨chain, free, -, text⟩ := walk_meets_first_ancestors circle ⟨0⟩
  have noChoice (c : Choice) : ¬ circle.MeetsChoice ⟨0⟩ c := fun ⟨n, _, link⟩ => by
    cases (linkAbove_circle n).symm.trans link
  have noMark : ¬ circle.MeetsMark ⟨0⟩ := by
    rintro ⟨n, -, y, e, above, there, -, mark⟩
    rw [above?, linkAbove_circle n, Option.some.injEq] at above
    subst above
    obtain parity | parity := Nat.mod_two_eq_zero_or_one (n + 1) <;>
      rw [parity] at there <;> cases there <;> cases mark
  refine ⟨?_, ?_, ?_, ?_⟩
  · rw [chain, if_pos (by decide), above?, linkAbove_circle]
  · rw [chain, if_neg (by decide)]
  · rw [free noChoice, linkAbove_circle, if_neg (nomatch ·)]
    rfl
  · obtain ⟨-, -, answers⟩ := text _ rfl rfl
    obtain ⟨⟨v, result, truth⟩, -⟩ := answers noChoice
    refine ⟨v, result, Bool.eq_false_iff.2 fun holds => ?_⟩
    obtain own | met := truth.1 holds
    · cases own
    · exact noMark met

end Hypertext.Forest
