import Hypertext.Render.Canvas

/-! Rendering by a walk over frames that are still to be done, so that depth costs no recursion. A
frame enters a node, marks the end of a text that is an element, or leaves a node; entering
writes the opening tag and the text at once and schedules the rest. What has no markup is refused
where it is entered. -/
namespace Hypertext
set_option autoImplicit false

inductive Frame where
  | enter (t : Tree)
  | textDone
  | exit (x : Face)

namespace Walk

/-- The frames of a text that is an element; any other text needs none. -/
def textFrames (x : Face) : Option Tree → List Frame
  | some t => if x.hasText then [.enter t, .textDone] else []
  | none => []

/-- A text that is no element is written at once. -/
def beginText (x : Face) (c : Canvas) : Option Tree → Canvas
  | some _ => c
  | none => if x.hasText then c.writeText x else c

def heldFrames : Tree → List Frame
  | .node x inside children => textFrames x inside ++ children.map .enter
  | .bare _ children => children.map .enter

def beginContent : Tree → Canvas → Canvas
  | .node x inside _, c => beginText x c inside
  | .bare what _, c => c.refuseInner what

/-- Does one frame: what it schedules, and the canvas after it. -/
def step (pretty : Bool) (c : Canvas) : Frame → List Frame × Canvas
  | .enter (.node x inside children) =>
    (heldFrames (.node x inside children) ++ [.exit x],
      beginContent (.node x inside children) (c.openElement pretty x))
  | .enter (.bare what _) => ([], c.refuse pretty what)
  | .textDone => ([], c.endText)
  | .exit x => ([], c.closeElement pretty x)

/-! ## The walk ends -/

def weight : Frame → Nat
  | .enter t => 3 * t.size
  | .textDone => 1
  | .exit _ => 1

def weightAll : List Frame → Nat
  | [] => 0
  | frame :: rest => weight frame + weightAll rest

theorem weightAll_append (s t : List Frame) : weightAll (s ++ t) = weightAll s + weightAll t := by
  induction s with
  | nil => simp [weightAll]
  | cons frame s ih => simp only [List.cons_append, weightAll, ih]; omega

theorem weightAll_enter (ts : List Tree) : weightAll (ts.map .enter) = 3 * Tree.sizeAll ts := by
  induction ts with
  | nil => rfl
  | cons t ts ih =>
    simp only [List.map_cons, weightAll, weight, Tree.sizeAll, ih]
    omega

theorem weightAll_step_lt (pretty : Bool) (c : Canvas) (frame : Frame) :
    weightAll (step pretty c frame).1 < weight frame := by
  cases frame with
  | textDone => simp [step, weightAll, weight]
  | exit x => simp [step, weightAll, weight]
  | enter t =>
    obtain ⟨x, inside, children⟩ | ⟨what, children⟩ := t
    case bare => simp [step, weightAll, weight, Tree.size]
    have htext : weightAll (textFrames x inside) ≤ 3 * Tree.sizeInside inside + 1 := by
      unfold textFrames
      split
      · split <;> simp [weightAll, weight, Tree.sizeInside]
      · simp [weightAll]
    simp only [step, heldFrames, weightAll_append, weightAll_enter, weightAll, weight, Tree.size]
    omega

def run (pretty : Bool) : List Frame → Canvas → Canvas
  | [], c => c
  | frame :: rest, c =>
    run pretty ((step pretty c frame).1 ++ rest) (step pretty c frame).2
termination_by frames => weightAll frames
decreasing_by
  rw [weightAll_append]
  have := weightAll_step_lt pretty c frame
  simp only [weightAll]
  omega

end Walk

namespace Tree

def render (pretty : Bool) (roots : List Tree) : Canvas :=
  Walk.run pretty (roots.map .enter) .empty

def renderInner (pretty : Bool) (t : Tree) : Canvas :=
  Walk.run pretty (Walk.heldFrames t) (Walk.beginContent t .empty)

def compact (roots : List Tree) : String := (render false roots).text ""

end Tree

end Hypertext
