import Hypertext.Render.Layout
import Hypertext.Render.Walk

/-! The walk over frames and the recursion on the tree write the same canvas. The main statement is
`render_eq_drawAll`: for any roots, rendering is drawing the roots in order. -/
namespace Hypertext
set_option autoImplicit false

namespace Walk

variable (pretty : Bool)

/-! ## Frames are done one after the other -/

theorem run_nil (c : Canvas) : run pretty [] c = c := by rw [run]

theorem run_cons (frame : Frame) (rest : List Frame) (c : Canvas) :
    run pretty (frame :: rest) c =
      run pretty ((step pretty c frame).1 ++ rest) (step pretty c frame).2 := by
  rw [run]

/-- Frames that come later do not change what earlier ones do. -/
theorem run_append (s t : List Frame) (c : Canvas) :
    run pretty (s ++ t) c = run pretty t (run pretty s c) := by
  fun_induction run pretty s c with
  | case1 c => rfl
  | case2 frame rest c ih => rw [List.cons_append, run_cons, ← List.append_assoc, ih]

theorem run_singleton_textDone (c : Canvas) : run pretty [.textDone] c = c.endText := by
  rw [run_cons, show step pretty c .textDone = ([], c.endText) from rfl]
  exact run_nil pretty _

theorem run_singleton_exit (x : Face) (c : Canvas) :
    run pretty [.exit x] c = c.closeElement pretty x := by
  rw [run_cons, show step pretty c (.exit x) = ([], c.closeElement pretty x) from rfl]
  exact run_nil pretty _

/-! ## A node -/

/-- What entering a node schedules is its content and then its closing tag. -/
theorem run_singleton_enter (x : Face) (inside : Option Tree) (children : List Tree) (c : Canvas) :
    run pretty [.enter (.node x inside children)] c =
      (run pretty (heldFrames (.node x inside children))
        (beginContent (.node x inside children) (c.openElement pretty x))).closeElement
          pretty x := by
  rw [run_cons, List.append_nil, step, run_append, run_singleton_exit]

theorem run_singleton_enter_bare (what : Bare) (children : List Tree) (c : Canvas) :
    run pretty [.enter (.bare what children)] c = c.refuse pretty what := by
  rw [run_cons, List.append_nil, step, run_nil]

theorem run_heldFrames (x : Face) (inside : Option Tree) (children : List Tree) (c : Canvas) :
    run pretty (heldFrames (.node x inside children)) (beginContent (.node x inside children) c) =
      run pretty (children.map .enter)
        (run pretty (textFrames x inside) (beginText x c inside)) := by
  rw [heldFrames, run_append, beginContent]

mutual

theorem run_enter (t : Tree) (c : Canvas) : run pretty [.enter t] c = t.draw pretty c := by
  match t with
  | .node x inside children =>
    rw [run_singleton_enter, run_heldFrames, run_text x inside, run_children children, Tree.draw]
  | .bare what children => rw [run_singleton_enter_bare, Tree.draw]

theorem run_text (x : Face) (inside : Option Tree) (c : Canvas) :
    run pretty (textFrames x inside) (beginText x c inside) =
      Tree.drawText pretty x inside c := by
  match inside with
  | none => exact run_nil pretty _
  | some t =>
    rw [textFrames, beginText, Tree.drawText]
    split
    · rw [show [Frame.enter t, .textDone] = [.enter t] ++ [.textDone] from rfl, run_append,
        run_enter t, run_singleton_textDone]
    · exact run_nil pretty c

theorem run_children (ts : List Tree) (c : Canvas) :
    run pretty (ts.map .enter) c = Tree.drawAll pretty ts c := by
  match ts with
  | [] => exact run_nil pretty c
  | t :: rest =>
    rw [List.map_cons, ← List.singleton_append, run_append, run_enter t, run_children rest,
      Tree.drawAll]

end

end Walk

namespace Tree

theorem render_eq_drawAll (pretty : Bool) (roots : List Tree) :
    render pretty roots = drawAll pretty roots .empty :=
  Walk.run_children pretty roots .empty

theorem renderInner_eq_drawInner (pretty : Bool) (t : Tree) :
    renderInner pretty t = drawInner pretty t .empty := by
  cases t with
  | node x inside children =>
    rw [renderInner, Walk.run_heldFrames, Walk.run_text, Walk.run_children, drawInner]
  | bare what children =>
    rw [renderInner, Walk.heldFrames, Walk.beginContent, Walk.run_children, drawInner]

end Tree

end Hypertext
