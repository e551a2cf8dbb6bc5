import Mathlib.Data.List.Induction
import Hypertext.Proofs.Bracketing
import Hypertext.Proofs.Concatenation

/-! The level of a canvas. Entering an element raises it and leaving the element lowers it again,
any number of frames later, while ends of texts do nothing to it. So at every moment of a walk it is
the number of frames on the stack that leave an element, and an indentation is as deep as the
elements that enclose the place for which it is written. The main statement is
`level_counts_exits`. -/
namespace Hypertext
set_option autoImplicit false

/-! ## The level along a walk -/

namespace Frame

/-- What a frame adds to the level. -/
def rise : Frame → Int
  | .enter (.node ..) => 1
  | .exit _ => -1
  | .enter (.bare ..) | .textDone => 0

def leaves : Frame → Bool
  | .exit _ => true
  | .enter _ | .textDone => false

end Frame

namespace Walk

/-- The number of frames that leave an element. -/
def exits (stack : List Frame) : Nat := stack.countP Frame.leaves

/-- What some frames add to the level. -/
def rise : List Frame → Int
  | [] => 0
  | frame :: later => frame.rise + rise later

theorem rise_append (s t : List Frame) : rise (s ++ t) = rise s + rise t := by
  induction s with
  | nil => exact (Int.zero_add _).symm
  | cons frame s ih => rw [List.cons_append, rise, rise, ih, Int.add_assoc]

variable {pretty : Bool}

theorem exits_enter (ts : List Tree) : exits (ts.map .enter) = 0 := by
  rw [exits, List.countP_eq_zero]
  intro frame hframe
  obtain ⟨t, -, rfl⟩ := List.mem_map.1 hframe
  exact Bool.false_ne_true

/-- What a node holds is entered, and its text ended, but it is not left. -/
theorem exits_heldFrames (t : Tree) : exits (heldFrames t) = 0 := by
  cases t with
  | bare what children => exact exits_enter children
  | node x inside children =>
    have text : exits (textFrames x inside) = 0 := by
      unfold textFrames
      split
      · split <;> rfl
      · rfl
    rw [heldFrames, exits, List.countP_append]
    exact (congrArg₂ (· + ·) text (exits_enter children)).trans rfl

theorem level_beginContent (t : Tree) (c : Canvas) : (beginContent t c).level = c.level := by
  match t with
  | .bare .document _ | .bare (.value _) _ => rfl
  | .node _ (some _) _ => rfl
  | .node x none _ =>
    rw [beginContent, beginText]
    split <;> rfl

/-- Each frame keeps the level in step with the exits on the stack. Before an element is left there
is one at least, so that lowering the level takes one from it. -/
theorem level_step {frame : Frame} {rest : List Frame} {c : Canvas} {base : Nat}
    (h : c.level = base + exits (frame :: rest)) :
    ((step pretty c frame).2.level : Int) = c.level + frame.rise ∧
      (step pretty c frame).2.level = base + exits ((step pretty c frame).1 ++ rest) := by
  match frame with
  | .enter (.node x inside children) =>
    have level : (step pretty c (.enter (.node x inside children))).2.level = c.level + 1 := by
      rw [step, level_beginContent, Canvas.level_openElement]
    have scheduled : exits ((step pretty c (.enter (.node x inside children))).1 ++ rest) =
        exits rest + 1 := by
      rw [step, exits, List.append_assoc, List.countP_append]
      show exits (heldFrames (.node x inside children)) + _ = _
      rw [exits_heldFrames, Nat.zero_add]
      exact List.countP_cons_of_pos rfl
    have pending : exits (.enter (.node x inside children) :: rest) = exits rest :=
      List.countP_cons_of_neg Bool.false_ne_true
    rw [level, scheduled, h, pending]
    exact ⟨rfl, rfl⟩
  | .enter (.bare what children) => exact ⟨(Int.add_zero _).symm, h⟩
  | .textDone => exact ⟨(Int.add_zero _).symm, h⟩
  | .exit x =>
    have level : (step pretty c (.exit x)).2.level = c.level - 1 :=
      Canvas.level_closeElement c pretty x
    have pending : exits (.exit x :: rest) = exits rest + 1 := List.countP_cons_of_pos rfl
    rw [pending] at h
    rw [level, h]
    exact ⟨by simp [Frame.rise]; omega, rfl⟩

/-- By induction on the walk: at every moment the level is what the frames done have made of it, and
it exceeds that of the beginning by the exits that are pending. -/
theorem Does.level {done s s' : List Frame} {c c' : Canvas} {base : Nat}
    (does : Does pretty done s c s' c') (h : c.level = base + exits s) :
    (c'.level : Int) = c.level + rise done ∧ c'.level = base + exits s' := by
  induction does with
  | refl stack c => exact ⟨(Int.add_zero _).symm, h⟩
  | step _ ih =>
    obtain ⟨risen, counted⟩ := level_step h
    obtain ⟨later, counted⟩ := ih counted
    refine ⟨?_, counted⟩
    rw [later, risen, rise, Int.add_assoc]

theorem Does.head {frame : Frame} {later s s' : List Frame} {c c' : Canvas}
    (does : Does pretty (frame :: later) s c s' c') : ∃ rest, s = frame :: rest := by
  cases does
  exact ⟨_, rfl⟩

end Walk

/-! ## Indentations -/

def Fragment.depth? : Fragment → Option Nat
  | indentation level => some level
  | _ => none

namespace Canvas

/-- The levels of the indentations on a canvas. -/
def depths (c : Canvas) : List Nat := c.fragments.toList.filterMap Fragment.depth?

variable (c : Canvas) (pretty : Bool)

theorem depths_put (y : Fragment) : (c.put y).depths = c.depths ++ y.depth?.toList := by
  rw [depths, put, Array.toList_push, List.filterMap_append, depths]
  cases h : y.depth? <;> simp [h]

theorem depths_indent :
    (c.indent pretty).depths = c.depths ++ if pretty then [c.level] else [] := by
  cases pretty with
  | false => exact (List.append_nil _).symm
  | true =>
    have begun : (if c.lineStart then c else c.put .newline).depths = c.depths := by
      split
      · rfl
      · exact (depths_put c .newline).trans (List.append_nil _)
    have level : (if c.lineStart then c else c.put .newline).level = c.level := by
      split <;> rfl
    rw [indent, if_pos rfl]
    refine (depths_put (if c.lineStart then c else c.put .newline) _).trans ?_
    rw [begun, level]
    rfl

theorem depths_openElement (x : Face) : (c.openElement pretty x).depths =
    c.depths ++ if pretty && !x.isInline then [c.level] else [] := by
  have opened (d : Canvas) : ({ d with level := d.level + 1 }.put (.opening x)).depths = d.depths :=
    (depths_put { d with level := d.level + 1 } _).trans (List.append_nil _)
  rw [openElement, opened]
  cases pretty with
  | false => exact (List.append_nil _).symm
  | true =>
    cases x.isInline with
    | false => exact depths_indent c true
    | true => exact (List.append_nil _).symm

theorem depths_closed (x : Face) : (c.closed x).depths = c.depths := by
  rw [closed]
  split
  · rfl
  · exact (depths_put c _).trans (List.append_nil _)

theorem depths_closeElement (x : Face) : (c.closeElement pretty x).depths =
    c.depths ++ if pretty && c.lineStart then [c.level - 1] else [] := by
  cases pretty with
  | false =>
    rw [closeElement_compact, depths_closed]
    exact (List.append_nil _).symm
  | true =>
    have dedented : c.dedented.depths = c.depths ++ if c.lineStart then [c.level - 1] else [] := by
      rw [Canvas.dedented]
      split
      · exact depths_indent { c with level := c.level - 1 } true
      · exact (List.append_nil _).symm
    rw [closeElement_eq, Bool.true_and, ← dedented, ← depths_closed c.dedented x]
    split
    · rfl
    · exact (depths_put _ .newline).trans (List.append_nil _)

end Canvas

namespace Walk

variable {pretty : Bool}

/-- The levels of the indentations that doing a frame writes: of a block before its opening tag, and
of an element before its closing tag, if its line has not begun. -/
def indents (pretty : Bool) (c : Canvas) : Frame → List Nat
  | .enter (.node x _ _) => if pretty && !x.isInline then [c.level] else []
  | .exit _ => if pretty && c.lineStart then [c.level - 1] else []
  | .enter (.bare ..) | .textDone => []

theorem depths_beginContent (t : Tree) (c : Canvas) : (beginContent t c).depths = c.depths := by
  match t with
  | .bare .document _ => rfl
  | .bare (.value _) _ => exact (Canvas.depths_put c _).trans (List.append_nil _)
  | .node _ (some _) _ => rfl
  | .node x none _ =>
    rw [beginContent, beginText]
    split
    · exact (Canvas.depths_put c _).trans (List.append_nil _)
    · rfl

theorem depths_step (c : Canvas) (frame : Frame) :
    (step pretty c frame).2.depths = c.depths ++ indents pretty c frame := by
  match frame with
  | .enter (.node x inside children) =>
    rw [step, depths_beginContent, Canvas.depths_openElement, indents]
  | .enter (.bare what children) => exact Canvas.depths_put c _
  | .textDone => exact (List.append_nil _).symm
  | .exit x => exact Canvas.depths_closeElement c pretty x

end Walk

/-! ## Visits at their level -/

namespace Visit

/-- The level at which an address is visited in a walk from its root: one for each element above,
and once the element at the address is entered, one for this element. -/
def level (v : Visit) : Int := v.address.length + if v.frame.phase = .enter then 0 else 1

theorem level_under (p : Place) (v : Visit) : (v.under p).level = v.level + 1 := by
  show ((v.address.length : Int) + 1) + _ = _
  rw [Int.add_right_comm]
  rfl

/-- Each visit is made at its level, from some level on. -/
def Levelled : Int → List Visit → Prop
  | _, [] => True
  | n, v :: rest => v.level = n ∧ Levelled (n + v.frame.rise) rest

theorem levelled_append {n : Int} {vs ws : List Visit} :
    Levelled n (vs ++ ws) ↔ Levelled n vs ∧ Levelled (n + Walk.rise (vs.map frame)) ws := by
  induction vs generalizing n with
  | nil => simp [Levelled, Walk.rise]
  | cons v vs ih =>
    rw [List.cons_append, Levelled, ih, Levelled, and_assoc, Int.add_assoc]
    rfl

theorem levelled_under {n : Int} {vs : List Visit} (p : Place) (h : Levelled n vs) :
    Levelled (n + 1) (vs.map (under p)) := by
  induction vs generalizing n with
  | nil => trivial
  | cons v vs ih =>
    have later := ih h.2
    rw [Int.add_right_comm] at later
    exact ⟨(level_under p v).trans (congrArg (· + 1) h.1), later⟩

/-- The level of a visit is what the frames before it have added. -/
theorem Levelled.split {n : Int} {before after : List Visit} {v : Visit}
    (h : Levelled n (before ++ v :: after)) : v.level = n + Walk.rise (before.map frame) :=
  (levelled_append.1 h).2.1

/-- An indentation is as deep as its visit has places above it, from the level on at which the walk
begins. A closing tag stands one level higher than what its element holds. -/
theorem indents_of_level {pretty : Bool} {v : Visit} {rest : List Frame} {c : Canvas} {depth : Nat}
    (here : v.level = depth + c.level) (exits : c.level = Walk.exits (v.frame :: rest)) :
    ∀ n ∈ Walk.indents pretty c v.frame, n = v.address.length - depth := by
  obtain ⟨a, frame⟩ := v
  intro n hn
  match frame with
  | .enter (.node x _ _) =>
    have here : (a.length : Int) + 0 = depth + c.level := here
    rw [Walk.indents] at hn
    split at hn
    · rw [List.mem_singleton.1 hn]
      show c.level = a.length - depth
      omega
    · cases hn
  | .exit x =>
    have here : (a.length : Int) + 1 = depth + c.level := here
    have pending : c.level = Walk.exits rest + 1 := exits.trans (List.countP_cons_of_pos rfl)
    rw [Walk.indents] at hn
    split at hn
    · rw [List.mem_singleton.1 hn]
      show c.level - 1 = a.length - depth
      omega
    · cases hn
  | .enter (.bare ..) | .textDone => cases hn

end Visit

namespace Tree

open Visit (Levelled levelled_append levelled_under)

mutual

/-- A tree is left at the level at which it is entered. -/
theorem levelled_visits (t : Tree) :
    Levelled 0 t.visits ∧ Walk.rise (t.visits.map Visit.frame) = 0 := by
  match t with
  | .bare _ _ => exact ⟨⟨rfl, trivial⟩, rfl⟩
  | .node x inside children =>
    obtain ⟨text, textRise⟩ := levelled_visitsInside x inside
    obtain ⟨held, heldRise⟩ := levelled_visitsFrom 0 children
    rw [visits]
    refine ⟨⟨rfl, ?_⟩, ?_⟩
    · rw [levelled_append, levelled_append, List.map_append, Walk.rise_append, textRise, heldRise]
      exact ⟨⟨text, held⟩, rfl, trivial⟩
    · show 1 + Walk.rise (List.map Visit.frame _) = 0
      rw [List.map_append, List.map_append, Walk.rise_append, Walk.rise_append, textRise, heldRise]
      rfl

theorem levelled_visitsInside (x : Face) (inside : Option Tree) :
    Levelled 1 (visitsInside x inside) ∧
      Walk.rise ((visitsInside x inside).map Visit.frame) = 0 := by
  match inside with
  | none => exact ⟨trivial, rfl⟩
  | some t =>
    obtain ⟨levelled, rise⟩ := levelled_visits t
    rw [visitsInside]
    split
    · rw [levelled_append, List.map_append, Visit.map_frame_under, Walk.rise_append, rise]
      exact ⟨⟨levelled_under .inside levelled, rfl, trivial⟩, rfl⟩
    · exact ⟨trivial, rfl⟩

theorem levelled_visitsFrom (i : Nat) (ts : List Tree) :
    Levelled 1 (visitsFrom i ts) ∧ Walk.rise ((visitsFrom i ts).map Visit.frame) = 0 := by
  match ts with
  | [] => exact ⟨trivial, rfl⟩
  | t :: rest =>
    obtain ⟨levelled, rise⟩ := levelled_visits t
    obtain ⟨later, laterRise⟩ := levelled_visitsFrom (i + 1) rest
    rw [visitsFrom, levelled_append, List.map_append, Visit.map_frame_under, Walk.rise_append, rise,
      laterRise]
    exact ⟨⟨levelled_under (.child i) levelled, later⟩, rfl⟩

end

/-- What a tree holds is visited from one level on, since its root has been entered. -/
theorem levelled_heldVisits (t : Tree) : Levelled 1 t.heldVisits := by
  match t with
  | .bare _ children => exact (levelled_visitsFrom 0 children).1
  | .node x inside children =>
    obtain ⟨text, rise⟩ := levelled_visitsInside x inside
    rw [heldVisits, levelled_append, rise]
    exact ⟨text, (levelled_visitsFrom 0 children).1⟩

end Tree

/-! ## Enclosing elements -/

/-- Whether a visit enters something above an address. -/
def Visit.encloses (a : Address) (v : Visit) : Bool :=
  decide (v.frame.phase = .enter ∧ v.address <+: a ∧ v.address ≠ a)

namespace Tree

/-- Above what is found there is a node. -/
theorem at?_of_concat {t : Tree} {a : Address} {p : Place} (h : (t.at? (a ++ [p])).isSome) :
    (t.at? a).isSome := by
  induction a generalizing t with
  | nil => rfl
  | cons q a ih =>
    obtain ⟨u, found⟩ := Option.isSome_iff_exists.1 h
    match t with
    | .bare _ _ => simp [at?] at found
    | .node _ _ _ =>
      obtain ⟨held, there, found⟩ := at?_cons.1 found
      obtain ⟨above, hit⟩ := Option.isSome_iff_exists.1 (ih (Option.isSome_of_eq_some found))
      exact Option.isSome_iff_exists.2 ⟨above, at?_cons.2 ⟨held, there, hit⟩⟩

theorem at?_of_mem_visits {t : Tree} {v : Visit} (h : v ∈ t.visits) : (t.at? v.address).isSome := by
  have here : v ∈ t.visits.filter (Visit.isAt v.address v.frame.phase) :=
    List.mem_filter.2 ⟨h, decide_eq_true ⟨rfl, rfl⟩⟩
  rw [filter_visits] at here
  cases found : t.at? v.address with
  | some u => rfl
  | none =>
    rw [found] at here
    cases here

/-- What encloses a longer address enters what is at the shorter one or encloses it. -/
theorem countP_encloses_concat (vs : List Visit) (a : Address) (p : Place) :
    vs.countP (Visit.encloses (a ++ [p])) =
      (vs.filter (Visit.isAt a .enter)).length + vs.countP (Visit.encloses a) := by
  have longer (v : Visit) : v.encloses (a ++ [p]) = true ↔
      v.frame.phase = .enter ∧ v.address <+: a := by
    rw [Visit.encloses, decide_eq_true_iff, List.prefix_concat_iff]
    refine ⟨fun ⟨enters, above, ne⟩ => ⟨enters, above.resolve_left ne⟩,
      fun ⟨enters, above⟩ => ⟨enters, .inr above, fun same => ?_⟩⟩
    have short := above.length_le
    rw [same, List.length_append, List.length_singleton] at short
    omega
  have here : (vs.filter (Visit.isAt a .enter)).countP (Visit.encloses (a ++ [p])) =
      (vs.filter (Visit.isAt a .enter)).length := by
    rw [List.countP_eq_length]
    intro v hv
    obtain ⟨rfl, enters⟩ := of_decide_eq_true (List.mem_filter.1 hv).2
    exact (longer v).2 ⟨enters, List.prefix_rfl⟩
  have above : (vs.filter fun v => !v.isAt a .enter).countP (Visit.encloses (a ++ [p])) =
      vs.countP (Visit.encloses a) := by
    rw [List.countP_filter]
    refine List.countP_congr fun v _ => ?_
    rw [Bool.and_eq_true, longer]
    simp only [Visit.encloses, Visit.isAt, Bool.not_eq_true', decide_eq_false_iff_not,
      decide_eq_true_eq]
    exact ⟨fun ⟨⟨enters, above⟩, other⟩ => ⟨enters, above, fun same => other ⟨same, enters⟩⟩,
      fun ⟨enters, above, ne⟩ => ⟨⟨enters, above⟩, fun same => ne same.1⟩⟩
  rw [List.countP_eq_countP_filter_add vs _ (Visit.isAt a .enter), here, above]

/-- As many visits enclose an address as it has places above it. -/
theorem countP_encloses {t : Tree} {a : Address} (h : (t.at? a).isSome) :
    t.visits.countP (Visit.encloses a) = a.length := by
  induction a using List.reverseRecOn with
  | nil =>
    rw [List.length_nil, List.countP_eq_zero]
    intro v _ encloses
    obtain ⟨-, above, proper⟩ := of_decide_eq_true encloses
    exact proper (List.prefix_nil.1 above)
  | append_singleton a p ih =>
    have above := at?_of_concat h
    obtain ⟨u, hu⟩ := Option.isSome_iff_exists.1 above
    rw [countP_encloses_concat, ih above, filter_visits, hu, List.length_append, Nat.add_comm]
    rfl

/-- What a node holds is enclosed by this node too, which is not entered where its own tags are left
out. -/
theorem countP_encloses_heldVisits {x : Face} {inside : Option Tree} {children : List Tree}
    {v : Visit} (h : v ∈ (node x inside children).heldVisits) :
    (node x inside children).heldVisits.countP (Visit.encloses v.address) =
      v.address.length - 1 := by
  have whole : (node x inside children).visits = ⟨[], .enter (.node x inside children)⟩ ::
      ((node x inside children).heldVisits ++ [⟨[], .exit x⟩]) := rfl
  have count : (node x inside children).visits.countP (Visit.encloses v.address) =
      v.address.length := by
    refine countP_encloses (at?_of_mem_visits ?_)
    rw [whole]
    exact List.mem_cons_of_mem _ (List.mem_append_left _ h)
  have entry : Visit.encloses v.address ⟨[], .enter (.node x inside children)⟩ =
      decide (v.address ≠ []) :=
    decide_eq_decide.2 ⟨fun encloses => encloses.2.2.symm,
      fun proper => ⟨rfl, List.nil_prefix, proper.symm⟩⟩
  have last : [(⟨[], .exit x⟩ : Visit)].countP (Visit.encloses v.address) = 0 :=
    List.countP_eq_zero.2 (by simp [Visit.encloses, Frame.phase])
  rw [whole, List.countP_cons, List.countP_append, last, Nat.add_zero, entry] at count
  split at count
  next => omega
  next root =>
    have short : v.address.length = 0 := by simpa using root
    omega

end Tree

/-! ## Walks of a renderer -/

/-- The canvas after a walk through each of some roots. -/
def Walk.through (pretty : Bool) (ts : List Tree) : Canvas :=
  ts.foldl (fun c t => run pretty [.enter t] c) .empty

/-- One walk through all roots is a walk through each of them, one after the other. -/
theorem Tree.render_eq_through (pretty : Bool) (ts : List Tree) :
    render pretty ts = Walk.through pretty ts := by
  have draw (c : Canvas) :
      drawAll pretty ts c = ts.foldl (fun c t => Walk.run pretty [.enter t] c) c := by
    induction ts generalizing c with
    | nil => rfl
    | cons t ts ih => rw [drawAll, ih, List.foldl_cons, Walk.run_enter]
  rw [render_eq_drawAll, draw, Walk.through]

/-- A walk: the stack and the canvas that it starts with, and its visits in their order. -/
structure Course where
  stack : List Frame
  canvas : Canvas
  visits : List Visit

namespace Course

/-- Through a root, behind the roots before it. -/
def ofRoot (pretty : Bool) (before : List Tree) (t : Tree) : Course where
  stack := [.enter t]
  canvas := Walk.through pretty before
  visits := t.visits

/-- Through what a node holds, without its own tags. -/
def inside (t : Tree) : Course where
  stack := Walk.heldFrames t
  canvas := Walk.beginContent t .empty
  visits := t.heldVisits

/-- How many elements enclose a visit, of those that are entered. -/
def enclosing (w : Course) (v : Visit) : Nat := w.visits.countP (Visit.encloses v.address)

/-- What the level of the canvas tells in a walk. -/
structure TellsLevel (pretty : Bool) (w : Course) : Prop where
  /-- The walk makes its visits, and then nothing is left on the stack. -/
  ends : Walk.Does pretty (w.visits.map Visit.frame) w.stack w.canvas []
    (Walk.run pretty w.stack w.canvas)
  /-- At every moment it is the number of exits on the stack. It is made up of what the frames done
  have added and taken, with nothing cut off below zero. -/
  level : ∀ done stack c, Walk.Does pretty done w.stack w.canvas stack c →
    c.level = Walk.exits stack ∧ (c.level : Int) = Walk.rise done
  returns : ∀ done c, Walk.Does pretty done w.stack w.canvas [] c → c.level = w.canvas.level
  /-- Where a visit writes an indentation, its level is the number of elements around it. -/
  indents : ∀ before v after, w.visits = before ++ v :: after → ∃ rest c,
    Walk.Does pretty (before.map Visit.frame) w.stack w.canvas (v.frame :: rest) c ∧
    ∃ new, (Walk.step pretty c v.frame).2.depths = c.depths ++ new ∧
      ∀ n ∈ new, n = w.enclosing v

variable {pretty : Bool} {w : Course}

/-- A walk that starts with nothing open tells its level, if its visits are counted from the one at
which they begin and are enclosed by what is above them in the walk. -/
theorem tellsLevel {depth : Nat}
    (ends : Walk.Does pretty (w.visits.map Visit.frame) w.stack w.canvas []
      (Walk.run pretty w.stack w.canvas))
    (start : w.canvas.level = 0) (unleft : Walk.exits w.stack = 0)
    (levelled : Visit.Levelled depth w.visits)
    (count : ∀ v ∈ w.visits, w.enclosing v = v.address.length - depth) : w.TellsLevel pretty := by
  have level (done stack c) (does : Walk.Does pretty done w.stack w.canvas stack c) :
      c.level = Walk.exits stack ∧ (c.level : Int) = Walk.rise done := by
    have pending : w.canvas.level = 0 + Walk.exits w.stack := by rw [start, unleft]
    obtain ⟨rise, exits⟩ := does.level pending
    rw [start] at rise
    exact ⟨exits.trans (Nat.zero_add _), rise.trans (Int.zero_add _)⟩
  refine ⟨ends, level, fun done c does => ?_, fun before v after split => ?_⟩
  · rw [start, (level done [] c does).1]
    rfl
  · have whole := ends
    rw [split, List.map_append] at whole
    obtain ⟨stack, c, first, second⟩ := Walk.does_split whole
    obtain ⟨rest, rfl⟩ := second.head
    obtain ⟨exits, rise⟩ := level _ _ _ first
    have here : v.level = depth + c.level := by
      rw [rise]
      exact (split ▸ levelled).split
    have member : v ∈ w.visits := split ▸ List.mem_append_right before List.mem_cons_self
    refine ⟨rest, c, first, _, Walk.depths_step c v.frame, ?_⟩
    rw [count v member]
    exact v.indents_of_level here exits

theorem tellsLevel_ofRoot (pretty : Bool) (before : List Tree) (t : Tree) :
    (ofRoot pretty before t).TellsLevel pretty := by
  have start : (Walk.through pretty before).level = 0 := by
    rw [← Tree.render_eq_through, Tree.render_eq_drawAll, Tree.level_drawAll]
    rfl
  have levelled : Visit.Levelled (0 : Nat) (ofRoot pretty before t).visits :=
    (Tree.levelled_visits t).1
  refine tellsLevel ?_ start rfl levelled fun v hv =>
    Tree.countP_encloses (Tree.at?_of_mem_visits hv)
  have does : Walk.Does pretty _ _ _ _ _ := Walk.does_visits t [] (Walk.through pretty before)
  rwa [← Walk.run_enter] at does

theorem tellsLevel_inside (pretty : Bool) (x : Face) (content : Option Tree)
    (children : List Tree) : (inside (.node x content children)).TellsLevel pretty := by
  have unleft : Walk.exits (inside (.node x content children)).stack = 0 :=
    Walk.exits_heldFrames (.node x content children)
  have levelled : Visit.Levelled (1 : Nat) (inside (.node x content children)).visits :=
    Tree.levelled_heldVisits (.node x content children)
  refine tellsLevel ?_ (Walk.level_beginContent _ _) unleft levelled fun v hv =>
    Tree.countP_encloses_heldVisits hv
  have does : Walk.Does pretty _ _ _ _ _ :=
    Walk.does_heldVisits (.node x content children) .empty
  rwa [← Tree.renderInner_eq_drawInner] at does

end Course

/-- At every moment of every walk that a renderer makes through a root or through what an element
holds, laid out or not, the level of the canvas is the number of exits on the stack. So it is never
cut off at zero, the walk ends at the level at which it starts, and every indentation is the unit
once for each element that encloses the place in this walk. -/
theorem Renderer.level_counts_exits (f : Forest) (r : Renderer) :
    ((∀ v ∈ r.roots, f.AcyclicBelow v) →
      f.UnfoldsAll r.roots (f.trees r.roots) ∧
      Renderer.render f r = (do
        .report (.rendering r.roots.length r.pretty)
        (Walk.through (f.truth r.pretty) (f.trees r.roots)).compose (.ofValue f r.indent)) ∧
      ∀ before t after, f.trees r.roots = before ++ t :: after →
        (Course.ofRoot (f.truth r.pretty) before t).TellsLevel (f.truth r.pretty)) ∧
    (∀ id e, f.get? id = some e → f.AcyclicFrom [.element id] →
      ∃ t, f.Unfolds (.ref (.element id)) t ∧
        Renderer.renderInner f r (.ref (.element id)) =
          (Walk.run (f.truth r.pretty) (Course.inside t).stack (Course.inside t).canvas).compose
            (.ofValue f r.indent) ∧
        (Course.inside t).TellsLevel (f.truth r.pretty)) ∧
    ∀ unit level, Indentation.ofValue f (.text unit) level =
      .ok (.text (String.join (List.replicate level unit))) := by
  refine ⟨fun acyclic => ⟨Forest.unfoldsAll_trees r.roots acyclic, ?_, fun before t _ _ =>
    Course.tellsLevel_ofRoot _ before t⟩, fun id e there acyclic => ?_, fun unit level => ?_⟩
  · rw [← Tree.render_eq_through]
    rfl
  · have tree := Forest.tree?_element there acyclic
    have below : f.AcyclicBelow (.ref (.element id)) := fun _ h => Option.some.inj h ▸ acyclic
    refine ⟨_, Forest.unfolds_of_tree? below tree, ?_, Course.tellsLevel_inside _ _ _ _⟩
    rw [Renderer.renderInner, Forest.drawnInside, tree]
    rfl
  · rw [← Markup.repeated_eq_join]
    rfl

/-- A paragraph whose text is an inline element with a block inside. -/
def Forest.wrapped : Forest where
  elements := #[
    some { kind := .catalog .p, tag := .text "p", content := .ref (.element ⟨1⟩) },
    some { kind := .catalog .b, tag := .text "b", children := [.ref (.element ⟨2⟩)] },
    some { kind := .catalog .div, tag := .text "div", children := [.ref (.element ⟨3⟩)] },
    some { kind := .catalog .li, tag := .text "li", content := .text "x" }]

theorem Forest.wrapped_acyclic : Forest.wrapped.Acyclic :=
  Forest.acyclic_of_rank_domain Forest.diamondRank (by decide)

/-- Both the holder of the text and the inline element count. -/
theorem Renderer.level_counts_exits_of_wrapped :
    (∀ v ∈ [Value.ref (Ref.element ⟨0⟩)], Forest.wrapped.AcyclicBelow v) ∧
    (∃ t, Forest.wrapped.trees [.ref (.element ⟨0⟩)] = [t] ∧
      (Course.ofRoot true [] t).TellsLevel true) ∧
    (∃ t, Forest.wrapped.Unfolds (.ref (.element ⟨1⟩)) t ∧ (Course.inside t).TellsLevel true) ∧
    (Renderer.render Forest.wrapped ⟨[.ref (.element ⟨0⟩)], .bool true, .text "  "⟩).result =
      .ok "<p><b>\n    <div>\n      <li>x</li>\n    </div>\n  </b></p>\n" := by
  have acyclic : ∀ v ∈ [Value.ref (Ref.element ⟨0⟩)], Forest.wrapped.AcyclicBelow v :=
    fun _ _ _ _ => Forest.wrapped_acyclic.acyclicFrom _
  obtain ⟨outer, inner, -⟩ := Renderer.level_counts_exits Forest.wrapped
    ⟨[.ref (.element ⟨0⟩)], .bool true, .text "  "⟩
  obtain ⟨-, -, walks⟩ := outer acyclic
  obtain ⟨t, unfolds, -, held⟩ := inner ⟨1⟩ _ rfl (Forest.wrapped_acyclic.acyclicFrom _)
  have there : Forest.wrapped.get? ⟨0⟩ = some _ := rfl
  obtain ⟨content, children, tree, -⟩ := Forest.wrapped_acyclic.unfolds there
  obtain ⟨root, whole⟩ : ∃ root, Forest.wrapped.trees [.ref (.element ⟨0⟩)] = [root] :=
    ⟨_, by rw [Forest.trees, List.filterMap_cons, tree, List.filterMap_nil]⟩
  exact ⟨acyclic, ⟨root, whole, walks [] root [] whole⟩, ⟨t, unfolds, held⟩, by decide +kernel⟩

end Hypertext
