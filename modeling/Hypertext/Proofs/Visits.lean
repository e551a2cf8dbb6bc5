import Mathlib.Data.List.Basic
import Hypertext.Render.Agreement

/-! The places of a tree and the visits that a walk makes there. The main statements are
`does_visits`, that the walk does exactly the visits of a tree and leaves the canvas of the
recursion, and `filter_visits`, that no place is entered or left twice. -/
namespace Hypertext
set_option autoImplicit false

/-- The way from a node to something that it holds. -/
inductive Place where
  | inside
  | child (i : Nat)
  deriving DecidableEq

/-- The way from a root down to a node. -/
abbrev Address := List Place

inductive Phase where
  | enter
  | textDone
  | exit
  deriving DecidableEq

def Frame.phase : Frame → Phase
  | .enter _ => .enter
  | .textDone => .textDone
  | .exit _ => .exit

/-- A frame that is done at an address. -/
structure Visit where
  address : Address
  frame : Frame

namespace Visit

def under (p : Place) (v : Visit) : Visit := { v with address := p :: v.address }

def isAt (a : Address) (phase : Phase) (v : Visit) : Bool :=
  decide (v.address = a ∧ v.frame.phase = phase)

theorem isAt_under (p : Place) (a : Address) (phase : Phase) (v : Visit) :
    (v.under p).isAt (p :: a) phase = v.isAt a phase :=
  decide_eq_decide.2 (by simp [under])

@[simp] theorem isAt_cons_root (p : Place) (a : Address) (phase : Phase) (frame : Frame) :
    isAt (p :: a) phase ⟨[], frame⟩ = false := by
  simp [isAt]

theorem filter_under (p : Place) (a : Address) (phase : Phase) (vs : List Visit) :
    (vs.map (under p)).filter (isAt (p :: a) phase) = (vs.filter (isAt a phase)).map (under p) := by
  rw [List.filter_map]
  congr 1
  exact List.filter_congr fun v _ => isAt_under p a phase v

theorem filter_eq_nil {a : Address} {phase : Phase} {vs : List Visit}
    (h : ∀ v ∈ vs, v.address ≠ a) : vs.filter (isAt a phase) = [] := by
  rw [List.filter_eq_nil_iff]
  intro v hv hat
  exact h v hv (of_decide_eq_true hat).1

theorem map_frame_under (p : Place) (vs : List Visit) :
    (vs.map (under p)).map frame = vs.map frame := by
  rw [List.map_map]
  rfl

end Visit

namespace Tree

/-- The node at an address. What has no markup is not gone into. -/
def at? : Tree → Address → Option Tree
  | t, [] => some t
  | .node x (some t) _, .inside :: a => if x.hasText then t.at? a else none
  | .node _ _ children, .child i :: a =>
    match children[i]? with
    | some t => t.at? a
    | none => none
  | _, _ => none

/-- The node at an address that begins with the place of a root. -/
def atAll? (ts : List Tree) : Address → Option Tree
  | .child i :: a => ts[i]?.bind (·.at? a)
  | _ => none

/-- The frame of a phase at a node, if it has this phase. -/
def frame? : Phase → Tree → Option Frame
  | .enter, t => some (.enter t)
  | .textDone, .node x (some _) _ => if x.hasText then some .textDone else none
  | .exit, .node x _ _ => some (.exit x)
  | _, _ => none

mutual

/-- The visits to a tree in their order: a node is entered, then come the element in its text slot
and its children, then it is left. -/
def visits : Tree → List Visit
  | .node x inside children =>
    ⟨[], .enter (.node x inside children)⟩ ::
      (visitsInside x inside ++ visitsFrom 0 children ++ [⟨[], .exit x⟩])
  | .bare what children => [⟨[], .enter (.bare what children)⟩]

def visitsInside (x : Face) : Option Tree → List Visit
  | none => []
  | some t => if x.hasText then (visits t).map (.under .inside) ++ [⟨[], .textDone⟩] else []

/-- The visits to trees whose places begin with an index. -/
def visitsFrom (i : Nat) : List Tree → List Visit
  | [] => []
  | t :: rest => (visits t).map (.under (.child i)) ++ visitsFrom (i + 1) rest

end

/-! ## No place is visited twice -/

theorem address_of_mem_visitsFrom {i : Nat} {ts : List Tree} {v : Visit}
    (h : v ∈ visitsFrom i ts) : ∃ j a, i ≤ j ∧ v.address = .child j :: a := by
  induction ts generalizing i with
  | nil => simp [visitsFrom] at h
  | cons t ts ih =>
    rw [visitsFrom, List.mem_append] at h
    obtain h | h := h
    · obtain ⟨w, _, rfl⟩ := List.mem_map.1 h
      exact ⟨i, w.address, Nat.le_refl i, rfl⟩
    · obtain ⟨j, a, hj, ha⟩ := ih h
      exact ⟨j, a, by omega, ha⟩

theorem address_of_mem_visitsInside {x : Face} {inside : Option Tree} {v : Visit}
    (h : v ∈ visitsInside x inside) : v.address = [] ∨ ∃ a, v.address = .inside :: a := by
  cases inside with
  | none => simp [visitsInside] at h
  | some t =>
    rw [visitsInside] at h
    split at h
    · obtain h | h := List.mem_append.1 h
      · obtain ⟨w, _, rfl⟩ := List.mem_map.1 h
        exact Or.inr ⟨w.address, rfl⟩
      · rw [List.mem_singleton.1 h]
        exact Or.inl rfl
    · simp at h

/-- What is done at an address in a phase, as a list of at most one visit. -/
def visit? (phase : Phase) (a : Address) (t : Option Tree) : List Visit :=
  (t.bind (frame? phase)).toList.map (⟨a, ·⟩)

theorem map_under_visit? (p : Place) (phase : Phase) (a : Address) (t : Option Tree) :
    (visit? phase a t).map (.under p) = visit? phase (p :: a) t := by
  simp [visit?, Visit.under]

mutual

/-- In each phase a node is visited at most once, and only where it is. -/
theorem filter_visits (t : Tree) (a : Address) (phase : Phase) :
    t.visits.filter (Visit.isAt a phase) = visit? phase a (t.at? a) := by
  match t with
  | .bare what children =>
    rw [visits]
    cases a with
    | nil => cases phase <;> rfl
    | cons p a => simp [at?, visit?]
  | .node x inside children =>
    rw [visits]
    match a with
    | [] =>
      have hfrom : (visitsFrom 0 children).filter (Visit.isAt [] phase) = [] := by
        refine Visit.filter_eq_nil fun v hv => ?_
        obtain ⟨j, a, _, ha⟩ := address_of_mem_visitsFrom hv
        simp [ha]
      have hinside := filter_inside_nil x inside phase
      rw [List.filter_cons, List.filter_append, List.filter_append, hfrom, hinside]
      cases phase with
      | enter => simp [Visit.isAt, Frame.phase, at?, visit?, frame?]
      | textDone =>
        obtain _ | t := inside
        · simp [Visit.isAt, Frame.phase, at?, visit?, frame?]
        · cases slot : x.hasText <;> simp [Visit.isAt, Frame.phase, at?, visit?, frame?, slot]
      | exit => simp [Visit.isAt, Frame.phase, at?, visit?, frame?]
    | .inside :: a =>
      have hfrom : (visitsFrom 0 children).filter (Visit.isAt (.inside :: a) phase) = [] := by
        refine Visit.filter_eq_nil fun v hv => ?_
        obtain ⟨j, a', _, ha⟩ := address_of_mem_visitsFrom hv
        simp [ha]
      rw [List.filter_cons, List.filter_append, List.filter_append, hfrom, filter_inside]
      cases inside with
      | none => simp [at?, visit?]
      | some t => simp [at?]
    | .child i :: a =>
      have hinside : (visitsInside x inside).filter (Visit.isAt (.child i :: a) phase) = [] := by
        refine Visit.filter_eq_nil fun v hv => ?_
        obtain ha | ⟨a', ha⟩ := address_of_mem_visitsInside hv <;> simp [ha]
      have hfrom := filter_visitsFrom children 0 i a phase
      rw [Nat.zero_add] at hfrom
      rw [List.filter_cons, List.filter_append, List.filter_append, hinside, hfrom]
      cases hchild : children[i]? <;> simp [at?, hchild]

/-- At its own address a node is visited for its text only to end it. -/
theorem filter_inside_nil (x : Face) (inside : Option Tree) (phase : Phase) :
    (visitsInside x inside).filter (Visit.isAt [] phase) =
      if phase = .textDone ∧ inside.isSome ∧ x.hasText then [⟨[], .textDone⟩] else [] := by
  match inside with
  | none => simp [visitsInside]
  | some t =>
    rw [visitsInside]
    cases x.hasText with
    | false => simp
    | true =>
      have hunder : (t.visits.map (Visit.under .inside)).filter (Visit.isAt [] phase) = [] := by
        refine Visit.filter_eq_nil fun v hv => ?_
        obtain ⟨w, _, rfl⟩ := List.mem_map.1 hv
        simp [Visit.under]
      rw [if_pos rfl, List.filter_append, hunder]
      cases phase <;> simp [Visit.isAt, Frame.phase]

theorem filter_inside (x : Face) (inside : Option Tree) (a : Address) (phase : Phase) :
    (visitsInside x inside).filter (Visit.isAt (.inside :: a) phase) =
      visit? phase (.inside :: a) (if x.hasText then inside.bind (·.at? a) else none) := by
  match inside with
  | none => simp [visitsInside, visit?]
  | some t =>
    rw [visitsInside]
    cases x.hasText with
    | false => simp [visit?]
    | true =>
      rw [if_pos rfl, List.filter_append, Visit.filter_under, filter_visits t a phase,
        map_under_visit?]
      simp

theorem filter_visitsFrom (ts : List Tree) (i k : Nat) (a : Address) (phase : Phase) :
    (visitsFrom i ts).filter (Visit.isAt (.child (i + k) :: a) phase) =
      visit? phase (.child (i + k) :: a) (ts[k]?.bind (·.at? a)) := by
  match ts with
  | [] => simp [visitsFrom, visit?]
  | t :: rest =>
    rw [visitsFrom, List.filter_append]
    cases k with
    | zero =>
      have hrest : (visitsFrom (i + 1) rest).filter (Visit.isAt (.child i :: a) phase) = [] := by
        refine Visit.filter_eq_nil fun v hv => ?_
        obtain ⟨j, a', hj, ha⟩ := address_of_mem_visitsFrom hv
        rw [ha]
        intro h
        have : j = i := by simpa using (List.cons.inj h).1
        omega
      rw [Nat.add_zero, hrest, Visit.filter_under, filter_visits t a phase, map_under_visit?]
      simp
    | succ k =>
      have hhead : (t.visits.map (Visit.under (.child i))).filter
          (Visit.isAt (.child (i + (k + 1)) :: a) phase) = [] := by
        refine Visit.filter_eq_nil fun v hv => ?_
        obtain ⟨w, _, rfl⟩ := List.mem_map.1 hv
        intro h
        have : i = i + (k + 1) := by simpa using (List.cons.inj h).1
        omega
      have htail := filter_visitsFrom rest (i + 1) k a phase
      rw [show i + 1 + k = i + (k + 1) by omega] at htail
      rw [hhead, htail]
      simp

end

def heldVisits : Tree → List Visit
  | .node x inside children => visitsInside x inside ++ visitsFrom 0 children
  | .bare _ children => visitsFrom 0 children

theorem filter_heldVisits (x : Face) (inside : Option Tree) (children : List Tree) (p : Place)
    (a : Address) (phase : Phase) :
    (heldVisits (.node x inside children)).filter (Visit.isAt (p :: a) phase) =
      visit? phase (p :: a) ((Tree.node x inside children).at? (p :: a)) := by
  rw [← filter_visits, visits, heldVisits]
  simp

/-- Each root and what is below it is visited as in a tree of its own. -/
theorem filter_visitsAll (ts : List Tree) (a : Address) (phase : Phase) :
    (visitsFrom 0 ts).filter (Visit.isAt a phase) = visit? phase a (atAll? ts a) := by
  match a with
  | [] =>
    refine Visit.filter_eq_nil fun v hv => ?_
    obtain ⟨j, a, _, ha⟩ := address_of_mem_visitsFrom hv
    simp [ha]
  | .inside :: a =>
    refine Visit.filter_eq_nil fun v hv => ?_
    obtain ⟨j, a', _, ha⟩ := address_of_mem_visitsFrom hv
    simp [ha]
  | .child k :: a =>
    have h := filter_visitsFrom ts 0 k a phase
    rwa [Nat.zero_add] at h

end Tree

/-! ## The walk does the visits -/

namespace Walk

/-- Doing frames from the top of a stack, one after the other, leads from a stack and a canvas to
others. -/
inductive Does (pretty : Bool) :
    List Frame → List Frame → Canvas → List Frame → Canvas → Prop where
  | refl (stack : List Frame) (c : Canvas) : Does pretty [] stack c stack c
  | step {frame : Frame} {rest done stack : List Frame} {c c' : Canvas}
      (next : Does pretty done ((step pretty c frame).1 ++ rest) (step pretty c frame).2 stack c') :
      Does pretty (frame :: done) (frame :: rest) c stack c'

variable {pretty : Bool}

theorem Does.trans {done done' s s' s'' : List Frame} {c c' c'' : Canvas}
    (first : Does pretty done s c s' c') (second : Does pretty done' s' c' s'' c'') :
    Does pretty (done ++ done') s c s'' c'' := by
  induction first with
  | refl => exact second
  | step _ ih => exact .step (ih second)

theorem does_textDone (rest : List Frame) (c : Canvas) :
    Does pretty [.textDone] (.textDone :: rest) c rest c.endText := .step (.refl _ _)

theorem does_exit (x : Face) (rest : List Frame) (c : Canvas) :
    Does pretty [.exit x] (.exit x :: rest) c rest (c.closeElement pretty x) := .step (.refl _ _)

mutual

/-- Whatever is pending below it, a tree is visited in full before the rest of the stack. -/
theorem does_visits (t : Tree) (rest : List Frame) (c : Canvas) :
    Does pretty (t.visits.map Visit.frame) (.enter t :: rest) c rest (t.draw pretty c) := by
  match t with
  | .bare what children =>
    rw [Tree.visits, Tree.draw]
    exact .step (.refl _ _)
  | .node x inside children =>
    rw [Tree.visits, Tree.draw, List.map_cons, List.map_append, List.map_append]
    refine .step ?_
    have htext := does_inside x inside (children.map .enter ++ .exit x :: rest)
      (c.openElement pretty x)
    have hchildren := does_visitsFrom 0 children (.exit x :: rest)
      (Tree.drawText pretty x inside (c.openElement pretty x))
    have h := (htext.trans hchildren).trans (does_exit x rest _)
    simpa [step, heldFrames, beginContent] using h

theorem does_inside (x : Face) (inside : Option Tree) (rest : List Frame) (c : Canvas) :
    Does pretty ((Tree.visitsInside x inside).map Visit.frame) (textFrames x inside ++ rest)
      (beginText x c inside) rest (Tree.drawText pretty x inside c) := by
  match inside with
  | none =>
    rw [Tree.visitsInside, Tree.drawText]
    exact .refl _ _
  | some t =>
    rw [Tree.visitsInside, Tree.drawText, textFrames, beginText]
    cases x.hasText with
    | false => exact .refl _ _
    | true =>
      rw [if_pos rfl, List.map_append, Visit.map_frame_under]
      exact (does_visits t (.textDone :: rest) c).trans (does_textDone rest _)

theorem does_visitsFrom (i : Nat) (ts : List Tree) (rest : List Frame) (c : Canvas) :
    Does pretty ((Tree.visitsFrom i ts).map Visit.frame) (ts.map .enter ++ rest) c rest
      (Tree.drawAll pretty ts c) := by
  match ts with
  | [] =>
    rw [Tree.visitsFrom, Tree.drawAll]
    exact .refl _ _
  | t :: ts =>
    rw [Tree.visitsFrom, Tree.drawAll, List.map_append, Visit.map_frame_under]
    exact (does_visits t _ c).trans (does_visitsFrom (i + 1) ts rest _)

end

/-- Without its own tags only what a node holds is visited. -/
theorem does_heldVisits (t : Tree) (c : Canvas) :
    Does pretty (t.heldVisits.map Visit.frame) (heldFrames t) (beginContent t c) []
      (t.drawInner pretty c) := by
  cases t with
  | node x inside children =>
    have htext : Does pretty _ _ _ _ _ := does_inside x inside (children.map .enter) c
    have hchildren : Does pretty _ _ _ _ _ :=
      does_visitsFrom 0 children [] (Tree.drawText pretty x inside c)
    rw [List.append_nil] at hchildren
    rw [Tree.heldVisits, List.map_append]
    exact htext.trans hchildren
  | bare what children =>
    have h : Does pretty _ _ _ _ _ := does_visitsFrom 0 children [] (c.refuseInner what)
    rw [List.append_nil] at h
    exact h

end Walk

end Hypertext
