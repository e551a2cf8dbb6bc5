import Hypertext.Proofs.Lines

/-! Roots one after the other. All roots of a render share one canvas, but of what one of them has
written only the depth and the mark of a line start reach the next. The depth is that of before, and
in pretty output the mark tells a block from an inline element, whatever either holds; compact
output asks for neither. The main statement is `render_append`. -/
namespace Hypertext
set_option autoImplicit false

/-! ## The state after an element -/

namespace Canvas

variable (c : Canvas) (pretty : Bool) (x : Face)

theorem level_indent : (c.indent pretty).level = c.level := by
  cases pretty with
  | false => rfl
  | true =>
    rw [indent, if_pos rfl]
    split <;> rfl

theorem level_openElement : (c.openElement pretty x).level = c.level + 1 := by
  have indented : (if pretty && !x.isInline then c.indent pretty else c).level = c.level := by
    split
    · exact level_indent c pretty
    · rfl
  exact congrArg (· + 1) indented

theorem level_dedented : c.dedented.level = c.level - 1 := by
  rw [dedented]
  split
  · exact level_indent { c with level := c.level - 1 } true
  · rfl

theorem level_closed : (c.closed x).level = c.level := by
  rw [closed]
  split <;> rfl

/-- Compact output closes an element without layout. -/
theorem closeElement_compact :
    c.closeElement false x = closed { c with level := c.level - 1 } x := by
  have undented : (if c.lineStart then indent { c with level := c.level - 1 } false
      else { c with level := c.level - 1 }) = { c with level := c.level - 1 } := by
    split <;> rfl
  rw [closeElement, undented, Bool.and_false, Bool.false_and, if_neg Bool.false_ne_true, closed]

theorem level_closeElement : (c.closeElement pretty x).level = c.level - 1 := by
  cases pretty with
  | false =>
    rw [closeElement_compact]
    exact level_closed { c with level := c.level - 1 } x
  | true =>
    rw [closeElement_eq]
    have closed := (c.dedented.level_closed x).trans c.level_dedented
    split <;> exact closed

theorem lineStart_closed : (c.closed x).lineStart = c.lineStart := by
  rw [closed]
  split <;> rfl

/-- A block ends its line, and an inline element leaves it begun. -/
theorem lineStart_closeElement : (c.closeElement true x).lineStart = !x.isInline := by
  rw [closeElement_eq]
  cases x.isInline with
  | false => rfl
  | true => exact (c.dedented.lineStart_closed x).trans (congrArg (·.start) (line_dedented "" c))

end Canvas

namespace Tree

mutual

/-- What is opened below a canvas is closed again. -/
theorem level_draw (pretty : Bool) (t : Tree) (c : Canvas) : (t.draw pretty c).level = c.level := by
  match t with
  | .bare what children => rfl
  | .node x inside children =>
    rw [draw, Canvas.level_closeElement, level_drawAll pretty children,
      level_drawText pretty x inside, Canvas.level_openElement, Nat.add_sub_cancel]

theorem level_drawText (pretty : Bool) (x : Face) (inside : Option Tree) (c : Canvas) :
    (drawText pretty x inside c).level = c.level := by
  match inside with
  | none =>
    rw [drawText]
    split <;> rfl
  | some t =>
    rw [drawText]
    split
    · exact level_draw pretty t c
    · rfl

theorem level_drawAll (pretty : Bool) (ts : List Tree) (c : Canvas) :
    (drawAll pretty ts c).level = c.level := by
  match ts with
  | [] => rfl
  | t :: rest => rw [drawAll, level_drawAll pretty rest, level_draw pretty t]

end

/-- Nothing that an element holds has a say in this. -/
theorem lineStart_draw (x : Face) (inside : Option Tree) (children : List Tree) (c : Canvas) :
    ((node x inside children).draw true c).lineStart = !x.isInline := by
  rw [draw, Canvas.lineStart_closeElement]

end Tree

/-! ## Behind what is written already -/

namespace Canvas

/-- The canvas with other fragments before its own. -/
def behind (written : Array Fragment) (c : Canvas) : Canvas :=
  { c with fragments := written ++ c.fragments }

variable (written : Array Fragment) (c : Canvas) (pretty : Bool) (x : Face)

@[simp] theorem lineStart_behind : (c.behind written).lineStart = c.lineStart := rfl

theorem put_behind (y : Fragment) : (c.behind written).put y = (c.put y).behind written := by
  simp [behind, put]

theorem indent_behind : (c.behind written).indent pretty = (c.indent pretty).behind written := by
  cases pretty with
  | false => rfl
  | true =>
    rw [indent, if_pos rfl, indent, if_pos rfl, lineStart_behind]
    cases c.lineStart with
    | true => exact congrArg endText (put_behind written c (.indentation c.level))
    | false =>
      have broken := put_behind written (c.put .newline) (.indentation c.level)
      rw [← put_behind] at broken
      exact congrArg endText broken

theorem openElement_behind :
    (c.behind written).openElement pretty x = (c.openElement pretty x).behind written := by
  have opened (c : Canvas) : { c.behind written with level := c.level + 1 }.put (.opening x) =
      ({ c with level := c.level + 1 }.put (.opening x)).behind written :=
    put_behind written { c with level := c.level + 1 } (.opening x)
  rw [openElement, openElement, ← opened]
  split
  · rw [indent_behind]
    rfl
  · rfl

theorem writeText_behind : (c.behind written).writeText x = (c.writeText x).behind written :=
  congrArg endText (put_behind written c (.content x))

theorem closed_behind : (c.behind written).closed x = (c.closed x).behind written := by
  rw [closed, closed]
  split
  · rfl
  · exact put_behind written c _

theorem dedented_behind : (c.behind written).dedented = c.dedented.behind written := by
  rw [dedented, dedented, lineStart_behind]
  split
  · exact indent_behind written { c with level := c.level - 1 } true
  · rfl

theorem closeElement_behind :
    (c.behind written).closeElement pretty x = (c.closeElement pretty x).behind written := by
  cases pretty with
  | false =>
    rw [closeElement_compact, closeElement_compact]
    exact closed_behind written { c with level := c.level - 1 } x
  | true =>
    rw [closeElement_eq, closeElement_eq, dedented_behind, closed_behind, put_behind]
    split <;> rfl

end Canvas

namespace Tree

variable (written : Array Fragment) (pretty : Bool)

mutual

/-- What is drawn does not depend on what is written before it. -/
theorem draw_behind (t : Tree) (c : Canvas) :
    t.draw pretty (c.behind written) = (t.draw pretty c).behind written := by
  match t with
  | .bare what children => exact c.put_behind written _
  | .node x inside children =>
    rw [draw, Canvas.openElement_behind, drawText_behind x inside, drawAll_behind children,
      Canvas.closeElement_behind, draw]

theorem drawText_behind (x : Face) (inside : Option Tree) (c : Canvas) :
    drawText pretty x inside (c.behind written) = (drawText pretty x inside c).behind written := by
  match inside with
  | none =>
    rw [drawText, drawText]
    split
    · exact c.writeText_behind written x
    · rfl
  | some t =>
    rw [drawText, drawText]
    split
    · rw [draw_behind t c]
      rfl
    · rfl

theorem drawAll_behind (ts : List Tree) (c : Canvas) :
    drawAll pretty ts (c.behind written) = (drawAll pretty ts c).behind written := by
  match ts with
  | [] => rfl
  | t :: rest => rw [drawAll, draw_behind t, drawAll_behind rest, drawAll]

end

/-! ## Trees one after the other -/

theorem drawAll_append (ts us : List Tree) (c : Canvas) :
    drawAll pretty (ts ++ us) c = drawAll pretty us (drawAll pretty ts c) := by
  induction ts generalizing c with
  | nil => rfl
  | cons t ts ih => rw [List.cons_append, drawAll, ih, drawAll]

theorem wordsAll_append (ts us : List Tree) : wordsAll (ts ++ us) = wordsAll ts ++ wordsAll us := by
  induction ts with
  | nil => rfl
  | cons t ts ih => rw [List.cons_append, wordsAll, ih, wordsAll, List.append_assoc]

/-- Trees that leave the start of a line leave the canvas as they have met it, but for what they have
written. -/
theorem fragments_render_append {ts : List Tree} (us : List Tree)
    (start : (render pretty ts).lineStart = true) :
    (render pretty (ts ++ us)).fragments.toList =
      (render pretty ts).fragments.toList ++ (render pretty us).fragments.toList := by
  rw [render_eq_drawAll] at start
  rw [render_eq_drawAll, render_eq_drawAll, render_eq_drawAll, drawAll_append]
  have level := level_drawAll pretty ts .empty
  have met : drawAll pretty ts .empty =
      Canvas.empty.behind (drawAll pretty ts .empty).fragments := by
    generalize drawAll pretty ts .empty = c at start level
    obtain ⟨fragments, _, _⟩ := c
    cases start
    cases level
    simp [Canvas.behind, Canvas.empty]
  rw [met, drawAll_behind, ← met]
  simp [Canvas.behind]

end Tree

/-! ## Renderers -/

/-- Only layout asks for the unit of indentation. -/
theorem Canvas.compose_of_words {c : Canvas} (words : ∀ x ∈ c.fragments.toList, x.isLayout = false)
    (indent indent' : Indentation) : c.compose indent = c.compose indent' := by
  have part (x : Fragment) (hx : x ∈ c.fragments.toList) : x.part indent = x.part indent' := by
    have word := words x hx
    cases x with
    | newline | indentation _ => cases word
    | opening _ | closing _ | content _ | refusal _ => rfl
  have fold : Account.fold (fun parts x => return Part.push parts (← x.part indent)) #[]
      c.fragments.toList =
      (Account.fold (fun parts x => return Part.push parts (← x.part indent')) #[]
        c.fragments.toList : Reading (Array Part)) := by
    refine List.foldl_ext _ _ _ fun account x hx => ?_
    simp only [part x hx]
  rw [compose, compose, fold]

theorem Tree.fragments_render_compact (ts : List Tree) :
    (render false ts).fragments.toList = wordsAll ts := by
  rw [render_eq_drawAll, fragments_drawAll]
  rfl

theorem Tree.isLayout_render_compact (ts : List Tree) :
    ∀ x ∈ (render false ts).fragments.toList, x.isLayout = false := by
  rw [fragments_render_compact]
  exact isLayout_wordsAll ts

/-- The last of some values is unfolded last. -/
theorem Forest.trees_concat {f : Forest} {id : ElementId} {e : Element} (there : f.get? id = some e)
    (acyclic : f.AcyclicFrom [.element id]) (before : List Datum) :
    f.trees (before ++ [.ref (.element id)]) =
      f.trees before ++ [.node (f.face id e) (f.insideOf e) (f.trees e.children)] := by
  rw [trees, List.filterMap_append, ← trees, ← trees, trees_cons, tree?_element there acyclic]
  rfl

/-- A value that is an element that is there, and a block. -/
def Forest.IsBlock (f : Forest) (v : Datum) : Prop :=
  ∃ id e, v = .ref (.element id) ∧ f.get? id = some e ∧ Tag.isInline e.tag = false

namespace Renderer

variable {f : Forest}

/-- Compact output is the words of its trees, whatever its unit of indentation is. -/
theorem result_render_compact (roots : List Datum) (unit : Datum) :
    (Renderer.render f ⟨roots, .bool false, unit⟩).result =
      Fragment.joined "" (Tree.wordsAll (f.trees roots)) := by
  rw [Renderer.render, Account.result_bind]
  show ((Tree.render false (f.trees roots)).compose (.ofValue f unit)).result = _
  rw [Canvas.compose_of_words (Tree.isLayout_render_compact _) _ (.ofText ""),
    Canvas.result_compose, Tree.fragments_render_compact]

/-- Behind a block a line starts. -/
theorem lineStart_render {roots : List Datum} (acyclic : ∀ v ∈ roots, f.AcyclicBelow v)
    (block : roots = [] ∨ ∃ v, roots.getLast? = some v ∧ f.IsBlock v) :
    (Tree.render true (f.trees roots)).lineStart = true := by
  obtain rfl | ⟨v, last, id, e, rfl, there, block⟩ := block
  · rw [Tree.render_eq_drawAll]
    rfl
  · obtain ⟨before, rfl⟩ := List.getLast?_eq_some_iff.1 last
    rw [Forest.trees_concat there (acyclic _ (List.mem_concat_self ..) _ rfl),
      Tree.render_eq_drawAll, Tree.drawAll_append, Tree.drawAll, Tree.drawAll,
      Tree.lineStart_draw, show (f.face id e).isInline = false from block]
    rfl

/-- The text of some roots is the text of the first ones and then that of the others: always in
compact output, and in pretty output if the first ones are none or end with a block. For an element
takes the walk from any canvas to one at the same depth, at the start of a line exactly if the
element is a block. -/
theorem render_append (f : Forest) (xs ys : List Datum)
    (acyclic : ∀ v ∈ xs ++ ys, f.AcyclicBelow v) :
    (∀ unit : Datum, (Renderer.render f ⟨xs ++ ys, .bool false, unit⟩).result = do
      return (← (Renderer.render f ⟨xs, .bool false, unit⟩).result) ++
        (← (Renderer.render f ⟨ys, .bool false, unit⟩).result)) ∧
    ((xs = [] ∨ ∃ v, xs.getLast? = some v ∧ f.IsBlock v) → ∀ unit : String,
      (Renderer.render f ⟨xs ++ ys, .bool true, .text unit⟩).result = do
        return (← (Renderer.render f ⟨xs, .bool true, .text unit⟩).result) ++
          (← (Renderer.render f ⟨ys, .bool true, .text unit⟩).result)) ∧
    (∀ id e, f.get? id = some e → f.AcyclicFrom [.element id] →
      ∃ t, f.tree? (.ref (.element id)) = some t ∧ f.Unfolds (.ref (.element id)) t ∧
        ∀ rest c, ∃ c', Walk.Does true (t.visits.map Visit.frame) (.enter t :: rest) c rest c' ∧
          c'.level = c.level ∧ c'.lineStart = !Tag.isInline e.tag) ∧
    (f.Throughout (fun id e => (f.face id e).IsAnswered) (xs ++ ys) → ∀ pretty (unit : String),
      ∃ s t, (Renderer.render f ⟨xs, .bool pretty, .text unit⟩).result = .ok s ∧
        (Renderer.render f ⟨ys, .bool pretty, .text unit⟩).result = .ok t) := by
  have trees : f.trees (xs ++ ys) = f.trees xs ++ f.trees ys := List.filterMap_append
  refine ⟨fun unit => ?_, fun block unit => ?_, fun id e there acyclic => ?_, fun answered => ?_⟩
  · rw [result_render_compact, trees, Tree.wordsAll_append, Fragment.joined_append,
      result_render_compact, result_render_compact]
  · have start := lineStart_render (fun v hv => acyclic v (List.mem_append_left ys hv)) block
    rw [result_render, trees, Tree.fragments_render_append true (f.trees ys) start,
      Fragment.joined_append, result_render, result_render]
  · have tree := Forest.tree?_element there acyclic
    have below : f.AcyclicBelow (.ref (.element id)) := by
      rintro r ⟨⟩
      exact acyclic
    exact ⟨_, tree, Forest.unfolds_of_tree? below tree, fun rest c =>
      ⟨_, Walk.does_visits _ rest c, Tree.level_draw true _ c, Tree.lineStart_draw _ _ _ c⟩⟩
  · intro pretty unit
    have reads (roots : List Datum) (part : ∀ v ∈ roots, v ∈ xs ++ ys) :
        ∃ s, (Renderer.render f ⟨roots, .bool pretty, .text unit⟩).result = .ok s := by
      have unfolds := Forest.unfoldsAll_trees roots fun v hv => acyclic v (part v hv)
      have faces := unfolds.all fun v hv => answered v (part v hv)
      exact exists_render (faces.imp fun x _ ⟨_, _, _, own, face, _⟩ => face ▸ own) pretty unit
    obtain ⟨s, first⟩ := reads xs fun _ => List.mem_append_left ys
    obtain ⟨t, second⟩ := reads ys fun _ => List.mem_append_right xs
    exact ⟨s, t, first, second⟩

/-- A span and then a list, and the line of the list. -/
theorem render_append_of_stray :
    (∀ v ∈ [Value.ref (Ref.element ⟨2⟩), .ref (.element ⟨0⟩)] ++ [.ref (.element ⟨1⟩)],
      Forest.stray.AcyclicBelow v) ∧
    Forest.stray.IsBlock (.ref (.element ⟨0⟩)) ∧
    (Renderer.render Forest.stray ⟨[.ref (.element ⟨2⟩), .ref (.element ⟨0⟩), .ref (.element ⟨1⟩)],
      .bool true, .text "  "⟩).result =
        .ok ("<span></span>\n<ul>\n  <li>x</li>\n<span>  </span></ul>\n" ++ "<li>x</li>\n") := by
  have acyclic : ∀ v ∈ [Value.ref (Ref.element ⟨2⟩), .ref (.element ⟨0⟩)] ++ [.ref (.element ⟨1⟩)],
      Forest.stray.AcyclicBelow v := fun _ _ _ _ => Forest.stray_acyclic.acyclicFrom _
  have block : Forest.stray.IsBlock (.ref (.element ⟨0⟩)) := ⟨⟨0⟩, _, rfl, rfl, by decide⟩
  obtain ⟨-, pretty, -, -⟩ := render_append Forest.stray _ _ acyclic
  exact ⟨acyclic, block, (pretty (.inr ⟨_, rfl, block⟩) "  ").trans (by decide +kernel)⟩

end Renderer

end Hypertext
