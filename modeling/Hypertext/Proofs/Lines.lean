import Hypertext.Proofs.PrettyPrinting

/-! Where layout is written. An indentation belongs to the start of a line and a line break to its
end, but the mark that a canvas keeps of a line start is wrong after the opening tag of an inline
element, which leaves it on, and after a block in a text slot, which is taken for the beginning of a
line. What a canvas takes its line for and whether the line is blank are followed frame by frame,
and the layout is in its place exactly if no frame meets a line that it is wrong about. The main
statement is `layout_in_place_iff`. -/
namespace Hypertext
set_option autoImplicit false

/-! ## Lines of a text -/

namespace Text

/-- Nothing is written on the last line of a text. -/
def endsLine (s : String) : Bool := s.toList.getLast?.all (· == '\n')

theorem endsLine_append (s t : String) :
    endsLine (s ++ t) = if t = "" then endsLine s else endsLine t := by
  split
  next h => rw [h, String.append_empty]
  next h =>
    have nonempty : t.toList ≠ [] := fun h' => h (String.toList_eq_nil_iff.1 h')
    rw [endsLine, String.toList_append, List.getLast?_append_of_ne_nil _ nonempty, endsLine]

theorem endsLine_eq_false {s : String} (nonempty : s ≠ "") (oneLine : '\n' ∉ s.toList) :
    endsLine s = false := by
  have nonempty : s.toList ≠ [] := fun h => nonempty (String.toList_eq_nil_iff.1 h)
  rw [endsLine, List.getLast?_eq_some_getLast nonempty, Option.all_some, beq_eq_false_iff_ne]
  exact fun h => oneLine (h ▸ List.getLast_mem nonempty)

end Text

/-! ## Layout in its place -/

/-- Whether a fragment may stand after others: an indentation on a blank line, a line break after
something. An empty indentation is none. -/
def Fragment.Stands (unit : String) (before : List Fragment) : Fragment → Prop
  | indentation level =>
    Markup.repeated unit level = "" ∨ Text.endsLine (String.join (before.map (text unit))) = true
  | newline => Text.endsLine (String.join (before.map (text unit))) = false
  | _ => True

/-- Every fragment of a canvas stands in its place. -/
def Canvas.InPlace (unit : String) (c : Canvas) : Prop :=
  ∀ before x after, c.fragments.toList = before ++ x :: after → x.Stands unit before

/-- What is being written: how many elements are open, whether the canvas takes the line for a new
one, and whether nothing is written on it. -/
structure Line where
  level : Nat := 0
  start : Bool := true
  blank : Bool := true
  deriving DecidableEq, Repr

def Canvas.line (unit : String) (c : Canvas) : Line :=
  ⟨c.level, c.lineStart, Text.endsLine (c.text unit)⟩

namespace Canvas

variable {unit : String} {c : Canvas} {x : Fragment}

theorem inPlace_empty (unit : String) : InPlace unit .empty :=
  fun before x after h => absurd h.symm (by simp [empty])

theorem inPlace_put : (c.put x).InPlace unit ↔
    c.InPlace unit ∧ x.Stands unit c.fragments.toList := by
  have pushed : (c.put x).fragments.toList = c.fragments.toList ++ [x] := Array.toList_push
  constructor
  · intro h
    refine ⟨fun before y after split => h before y (after ++ [x]) ?_, h _ x [] pushed⟩
    rw [pushed, split, List.append_assoc, List.cons_append]
  · rintro ⟨h, last⟩ before y after split
    rw [pushed] at split
    obtain rfl | ⟨after, z, rfl⟩ := after.eq_nil_or_concat
    · obtain ⟨rfl, same⟩ := List.append_inj' split rfl
      cases same
      exact last
    · rw [List.concat_eq_append, ← List.cons_append, ← List.append_assoc] at split
      exact h before y after (List.append_inj' split rfl).1

theorem stands_indentation {level : Nat} :
    (Fragment.indentation level).Stands unit c.fragments.toList ↔
      Markup.repeated unit level = "" ∨ (c.line unit).blank = true := by
  rw [Fragment.Stands, line, text_eq_join]

theorem stands_newline :
    Fragment.newline.Stands unit c.fragments.toList ↔ (c.line unit).blank = false := by
  rw [Fragment.Stands, line, text_eq_join]

theorem blank_put : ((c.put x).line unit).blank =
    if x.text unit = "" then (c.line unit).blank else Text.endsLine (x.text unit) := by
  rw [line, text_put, Text.endsLine_append]
  rfl

end Canvas

/-! ## Tags and texts -/

/-- What is written of an element has no line break. -/
structure Face.IsOneLine (x : Face) : Prop where
  tag : '\n' ∉ x.tag.text.toList
  attributes : '\n' ∉ x.attributes.toList
  content : '\n' ∉ x.content.text.toList

namespace Fragment

variable {x : Face}

theorem endsLine_opening (unit : String) (oneLine : x.IsOneLine) :
    text unit (opening x) ≠ "" ∧ Text.endsLine (text unit (opening x)) = false := by
  have nonempty : text unit (opening x) ≠ "" := by
    rw [text, Markup.openingTag]
    split <;> simp [← String.toList_inj]
  refine ⟨nonempty, Text.endsLine_eq_false nonempty ?_⟩
  rw [text, Markup.openingTag]
  split <;> simp [String.toList_append, oneLine.tag, oneLine.attributes]

theorem endsLine_closing (unit : String) (oneLine : x.IsOneLine) :
    text unit (closing x) ≠ "" ∧ Text.endsLine (text unit (closing x)) = false := by
  have nonempty : text unit (closing x) ≠ "" := by
    rw [text, Markup.closingTag]
    simp [← String.toList_inj]
  refine ⟨nonempty, Text.endsLine_eq_false nonempty ?_⟩
  rw [text, Markup.closingTag]
  simp [String.toList_append, oneLine.tag]

end Fragment

/-! ## Steps -/

namespace Line

variable (unit : String)

/-- Whether a line is blank after an indentation. -/
def indented (level : Nat) (blank : Bool) : Bool :=
  if Markup.repeated unit level = "" then blank else Text.endsLine (Markup.repeated unit level)

/-- Whether the line is blank before the closing tag of an element. -/
def blankAtExit (l : Line) : Bool :=
  if l.start then indented unit (l.level - 1) l.blank else l.blank

/-- The line after a frame. -/
def after (l : Line) : Frame → Line
  | .enter (.node x inside _) =>
    ⟨l.level + 1, l.start && x.isInline && !(x.hasText && inside.isNone), false⟩
  | .enter (.bare _ _) => l
  | .textDone => { l with start := false }
  | .exit x =>
    if x.isInline then ⟨l.level - 1, false, x.isVoid && l.blankAtExit unit⟩
    else ⟨l.level - 1, true, true⟩

/-- Whether the layout of a frame is in its place. A block breaks a line that is taken for a begun
one, and indents itself. A closing tag is indented on what is taken for a new line, and after a
block the line ends. -/
def fits (l : Line) : Frame → Bool
  | .enter (.node x _ _) =>
    x.isInline || if l.start then Markup.repeated unit l.level == "" || l.blank else !l.blank
  | .exit x =>
    (!l.start || Markup.repeated unit (l.level - 1) == "" || l.blank) &&
      (x.isInline || !(x.isVoid && l.blankAtExit unit))
  | _ => true

end Line

namespace Canvas

variable {unit : String} {c : Canvas} {x : Face}

theorem blank_put_newline : ((c.put .newline).line unit).blank = true := by
  rw [blank_put, Fragment.text, if_neg (by decide)]
  decide

theorem line_indent (unit : String) (c : Canvas) : (c.indent true).line unit =
    ⟨c.level, false, Line.indented unit c.level (!c.lineStart || (c.line unit).blank)⟩ := by
  rw [indent, if_pos rfl]
  cases start : c.lineStart with
  | true =>
    show Line.mk c.level false ((c.put (.indentation c.level)).line unit).blank = _
    rw [blank_put]
    rfl
  | false =>
    show Line.mk c.level false (((c.put .newline).put (.indentation c.level)).line unit).blank = _
    rw [blank_put, blank_put_newline]
    rfl

theorem inPlace_indent (c : Canvas) : (c.indent true).InPlace unit ↔ c.InPlace unit ∧
    (if c.lineStart then Markup.repeated unit c.level == "" || (c.line unit).blank
      else !(c.line unit).blank) = true := by
  rw [indent, if_pos rfl]
  cases start : c.lineStart with
  | true =>
    show (c.put (.indentation c.level)).InPlace unit ↔ _
    rw [inPlace_put, stands_indentation]
    simp
  | false =>
    show ((c.put .newline).put (.indentation c.level)).InPlace unit ↔ _
    rw [inPlace_put, stands_indentation, blank_put_newline, inPlace_put, stands_newline]
    simp

/-- A tag is written on its line whatever the line was before. -/
theorem blank_put_opening (oneLine : x.IsOneLine) :
    ((c.put (.opening x)).line unit).blank = false := by
  obtain ⟨nonempty, ends⟩ := Fragment.endsLine_opening unit oneLine
  rw [blank_put, if_neg nonempty, ends]

theorem blank_put_closing (oneLine : x.IsOneLine) :
    ((c.put (.closing x)).line unit).blank = false := by
  obtain ⟨nonempty, ends⟩ := Fragment.endsLine_closing unit oneLine
  rw [blank_put, if_neg nonempty, ends]

theorem line_openElement (unit : String) (c : Canvas) (oneLine : x.IsOneLine) :
    (c.openElement true x).line unit = ⟨c.level + 1, c.lineStart && x.isInline, false⟩ := by
  have opened (d : Canvas) : ({ d with level := d.level + 1 }.put (.opening x)).line unit =
      ⟨d.level + 1, d.lineStart, false⟩ := by
    rw [← blank_put_opening (c := { d with level := d.level + 1 }) oneLine]
    rfl
  rw [openElement, opened]
  cases x.isInline with
  | true => rw [Bool.and_true]; rfl
  | false =>
    have indented := line_indent unit c
    rw [Bool.and_false]
    exact congrArg₂ (Line.mk · · false) (congrArg (·.level + 1) indented)
      (congrArg (·.start) indented)

theorem inPlace_openElement (c : Canvas) (x : Face) : (c.openElement true x).InPlace unit ↔
    c.InPlace unit ∧ (x.isInline ||
      if c.lineStart then Markup.repeated unit c.level == "" || (c.line unit).blank
      else !(c.line unit).blank) = true := by
  have opened (d : Canvas) : ({ d with level := d.level + 1 }.put (.opening x)).InPlace unit ↔
      d.InPlace unit := by
    rw [inPlace_put]
    exact and_iff_left trivial
  rw [openElement, opened]
  cases x.isInline with
  | true => simp
  | false =>
    rw [Bool.false_or, ← inPlace_indent]
    rfl

/-- A text on one line leaves the line as blank as it is only if it is empty. -/
theorem line_writeText (unit : String) (c : Canvas) (oneLine : x.IsOneLine) :
    (c.writeText x).line unit = ⟨c.level, false, (c.line unit).blank && x.content.text == ""⟩ := by
  show Line.mk c.level false ((c.put (.content x)).line unit).blank = _
  rw [blank_put, Fragment.text]
  by_cases none : x.content.text = ""
  · simp [none]
  · simp [none, Text.endsLine_eq_false none oneLine.content]

theorem inPlace_writeText (c : Canvas) (x : Face) :
    (c.writeText x).InPlace unit ↔ c.InPlace unit :=
  inPlace_put.trans (and_iff_left trivial)

/-! ### Closing tags -/

/-- Before the closing tag: one level less, and an indentation on what is taken for a new line. -/
def dedented (c : Canvas) : Canvas :=
  if c.lineStart then indent { c with level := c.level - 1 } true
  else { c with level := c.level - 1 }

theorem line_dedented (unit : String) (c : Canvas) :
    c.dedented.line unit = ⟨c.level - 1, false, (c.line unit).blankAtExit unit⟩ := by
  rw [dedented, Line.blankAtExit, show (c.line unit).start = c.lineStart from rfl]
  cases start : c.lineStart with
  | true =>
    rw [if_pos rfl, line_indent, if_pos rfl]
    rfl
  | false =>
    rw [if_neg Bool.false_ne_true, if_neg Bool.false_ne_true]
    rfl

theorem inPlace_dedented (c : Canvas) : c.dedented.InPlace unit ↔ c.InPlace unit ∧
    (!c.lineStart || Markup.repeated unit (c.level - 1) == "" || (c.line unit).blank) = true := by
  rw [dedented]
  cases start : c.lineStart with
  | true =>
    rw [if_pos rfl, inPlace_indent]
    rfl
  | false => exact (and_iff_left rfl).symm

/-- The closing tag, which void elements do not have. -/
def closed (c : Canvas) (x : Face) : Canvas := if x.isVoid then c else c.put (.closing x)

theorem line_closed (unit : String) (c : Canvas) (oneLine : x.IsOneLine) : (c.closed x).line unit =
    { c.line unit with blank := x.isVoid && (c.line unit).blank } := by
  rw [closed]
  cases x.isVoid with
  | true => rfl
  | false =>
    rw [if_neg Bool.false_ne_true, Bool.false_and, ← blank_put_closing (c := c) oneLine]
    rfl

theorem inPlace_closed (c : Canvas) (x : Face) : (c.closed x).InPlace unit ↔ c.InPlace unit := by
  rw [closed]
  split
  · rfl
  · exact inPlace_put.trans (and_iff_left trivial)

theorem closeElement_eq (c : Canvas) (x : Face) : c.closeElement true x =
    if x.isInline then c.dedented.closed x
    else { (c.dedented.closed x).put .newline with lineStart := true } := by
  have begun : (c.dedented.closed x).lineStart = false := by
    have still : (c.dedented.closed x).lineStart = c.dedented.lineStart := by
      rw [closed]
      split <;> rfl
    rw [still]
    exact congrArg (·.start) (line_dedented "" c)
  show (if !x.isInline && true && !(c.dedented.closed x).lineStart then _ else _) = _
  rw [begun]
  cases x.isInline <;> rfl

theorem line_closeElement (oneLine : x.IsOneLine) : (c.closeElement true x).line unit =
    if x.isInline then ⟨c.level - 1, false, x.isVoid && (c.line unit).blankAtExit unit⟩
    else ⟨c.level - 1, true, true⟩ := by
  have closed := line_closed unit c.dedented oneLine
  rw [line_dedented unit] at closed
  rw [closeElement_eq]
  cases x.isInline with
  | true => exact closed
  | false =>
    show Line.mk (c.dedented.closed x).level true
      (((c.dedented.closed x).put .newline).line unit).blank = _
    rw [blank_put_newline]
    exact congrArg (Line.mk · true true) (congrArg (·.level) closed)

theorem inPlace_closeElement (oneLine : x.IsOneLine) : (c.closeElement true x).InPlace unit ↔
    c.InPlace unit ∧
      ((!c.lineStart || Markup.repeated unit (c.level - 1) == "" || (c.line unit).blank) &&
        (x.isInline || !(x.isVoid && (c.line unit).blankAtExit unit))) = true := by
  rw [Bool.and_eq_true, ← and_assoc, ← inPlace_dedented, ← inPlace_closed c.dedented x,
    closeElement_eq]
  cases x.isInline with
  | true => simp
  | false =>
    show ((c.dedented.closed x).put .newline).InPlace unit ↔ _
    rw [inPlace_put, stands_newline, line_closed unit _ oneLine, line_dedented, Bool.false_or,
      Bool.not_eq_true']

end Canvas

/-! ## Frames -/

/-- What is written of the element of a frame has no line break. -/
def Frame.IsOneLine : Frame → Prop
  | .enter (.node x _ _) | .exit x => x.IsOneLine
  | .enter (.bare _ _) | .textDone => True

namespace Walk

/-- The canvas after a frame. -/
def after (c : Canvas) (frame : Frame) : Canvas := (step true c frame).2

variable {unit : String} {c : Canvas} {frame : Frame}

/-- Each frame moves the line on. -/
theorem line_after (oneLine : frame.IsOneLine) :
    (after c frame).line unit = (c.line unit).after unit frame := by
  match frame with
  | .enter (.node x inside children) =>
    have opened := Canvas.line_openElement unit c oneLine
    show (beginText x (c.openElement true x) inside).line unit =
      ⟨c.level + 1, c.lineStart && x.isInline && !(x.hasText && inside.isNone), false⟩
    cases inside with
    | some t => simpa [beginText] using opened
    | none =>
      cases text : x.hasText with
      | false => simpa [beginText, text] using opened
      | true =>
        have written := Canvas.line_writeText unit (c.openElement true x) oneLine
        rw [opened, Bool.false_and, show (c.openElement true x).level = c.level + 1 from
          congrArg (·.level) opened] at written
        simpa [beginText, text] using written
  | .enter (.bare what _) =>
    show Line.mk c.level c.lineStart ((c.refuse true what).line unit).blank = c.line unit
    rw [Canvas.refuse, Canvas.blank_put]
    rfl
  | .textDone => rfl
  | .exit x => exact Canvas.line_closeElement oneLine

/-- The layout that a frame adds is in its place if the line fits it. -/
theorem inPlace_after (oneLine : frame.IsOneLine) : (after c frame).InPlace unit ↔
    c.InPlace unit ∧ (c.line unit).fits unit frame = true := by
  match frame with
  | .enter (.node x inside children) =>
    refine Iff.trans ?_ (Canvas.inPlace_openElement c x)
    show (beginText x (c.openElement true x) inside).InPlace unit ↔ _
    cases inside with
    | some t => rfl
    | none =>
      rw [beginText]
      split
      · exact Canvas.inPlace_writeText _ x
      · rfl
  | .enter (.bare what _) => exact Canvas.inPlace_put.trans (by simp [Fragment.Stands, Line.fits])
  | .textDone => exact (and_iff_left rfl).symm
  | .exit x => exact Canvas.inPlace_closeElement oneLine

/-! ## Walks -/

variable {done : List Frame} {s s' : List Frame} {c' : Canvas}

/-- What a walk does to the canvas depends on the frames alone. -/
theorem eq_foldl_of_does (does : Does true done s c s' c') : c' = done.foldl after c := by
  induction does with
  | refl _ _ => rfl
  | step _ ih => exact ih

/-- Every beginning of a walk leads to some frames that are still to be done. -/
theorem does_split {pretty : Bool} {before later : List Frame}
    (does : Does pretty (before ++ later) s c s' c') :
    ∃ stack d, Does pretty before s c stack d ∧ Does pretty later stack d s' c' := by
  induction before generalizing s c with
  | nil => exact ⟨s, c, .refl s c, does⟩
  | cons frame before ih =>
    cases does with
    | step next =>
      obtain ⟨stack, d, first, second⟩ := ih next
      exact ⟨stack, d, .step first, second⟩

end Walk

namespace Line

variable {unit : String} {l : Line} {c : Canvas} {frames more : List Frame}

/-- The line after some frames. -/
def run (unit : String) (l : Line) (frames : List Frame) : Line := frames.foldl (after unit) l

/-- Whether the line fits each frame. -/
def fitsAll (unit : String) : Line → List Frame → Bool
  | _, [] => true
  | l, frame :: rest => l.fits unit frame && fitsAll unit (l.after unit frame) rest

theorem run_append : l.run unit (frames ++ more) = (l.run unit frames).run unit more :=
  List.foldl_append

theorem fitsAll_append : l.fitsAll unit (frames ++ more) =
    (l.fitsAll unit frames && (l.run unit frames).fitsAll unit more) := by
  induction frames generalizing l with
  | nil => rfl
  | cons frame frames ih =>
    rw [List.cons_append, fitsAll, ih, fitsAll, Bool.and_assoc]
    rfl

theorem line_foldl (oneLine : ∀ frame ∈ frames, frame.IsOneLine) (c : Canvas) :
    (frames.foldl Walk.after c).line unit = (c.line unit).run unit frames := by
  induction frames generalizing c with
  | nil => rfl
  | cons frame frames ih =>
    obtain ⟨first, rest⟩ := List.forall_mem_cons.1 oneLine
    rw [List.foldl_cons, ih rest, Walk.line_after first]
    rfl

/-- By induction on the frames: each one adds layout in its place exactly if the line fits it. -/
theorem inPlace_foldl (oneLine : ∀ frame ∈ frames, frame.IsOneLine) (c : Canvas) :
    (frames.foldl Walk.after c).InPlace unit ↔
      c.InPlace unit ∧ (c.line unit).fitsAll unit frames = true := by
  induction frames generalizing c with
  | nil => exact (and_iff_left rfl).symm
  | cons frame frames ih =>
    obtain ⟨first, rest⟩ := List.forall_mem_cons.1 oneLine
    rw [List.foldl_cons, ih rest, Walk.inPlace_after first, Walk.line_after first, fitsAll,
      Bool.and_eq_true, and_assoc]

end Line

/-! ## Trees -/

namespace Tree

/-- The frames of trees in the order in which a walk does them. -/
def frames (ts : List Tree) : List Frame := (visitsFrom 0 ts).map Visit.frame

mutual

theorem oneLine_visits {t : Tree} (h : t.All fun x _ => x.IsOneLine) :
    ∀ frame ∈ t.visits.map Visit.frame, frame.IsOneLine := by
  match t with
  | .bare _ _ => exact h.elim
  | .node x inside children =>
    obtain ⟨own, text, held⟩ := h
    simp only [visits, List.map_cons, List.map_append, List.map_nil, List.forall_mem_cons,
      List.forall_mem_append]
    exact ⟨own, ⟨oneLine_visitsInside text, oneLine_visitsFrom 0 held⟩, own, fun _ h => nomatch h⟩

theorem oneLine_visitsInside {x : Face} {inside : Option Tree}
    (h : AllInside (fun x _ => x.IsOneLine) inside) :
    ∀ frame ∈ (visitsInside x inside).map Visit.frame, frame.IsOneLine := by
  match inside with
  | none => exact fun _ h => nomatch h
  | some t =>
    rw [visitsInside]
    split
    · rw [List.map_append, Visit.map_frame_under, List.forall_mem_append]
      exact ⟨oneLine_visits (t := t) h, List.forall_mem_cons.2 ⟨trivial, fun _ h => nomatch h⟩⟩
    · exact fun _ h => nomatch h

theorem oneLine_visitsFrom {ts : List Tree} (i : Nat) (h : AllFrom (fun x _ => x.IsOneLine) ts) :
    ∀ frame ∈ (visitsFrom i ts).map Visit.frame, frame.IsOneLine := by
  match ts with
  | [] => exact fun _ h => nomatch h
  | t :: rest =>
    rw [visitsFrom, List.map_append, Visit.map_frame_under, List.forall_mem_append]
    exact ⟨oneLine_visits h.1, oneLine_visitsFrom (i + 1) h.2⟩

end

def isInline : Tree → Bool
  | .node x _ _ => x.isInline
  | .bare _ _ => false

mutual

/-- Elements whose layout is in its place on a line that starts or does not. Where a line starts, an
inline element has a text of its own; an element in a text slot is inline; and void elements hold no
elements. -/
def Tidy (start : Bool) : Tree → Prop
  | .node x inside children =>
    (start = true → x.isInline = true → x.hasText = true ∧ inside = none) ∧
      (x.isVoid = true → inside = none ∧ children = []) ∧ TidyInside inside ∧ TidyAll false children
  | .bare _ _ => False

def TidyInside : Option Tree → Prop
  | none => True
  | some t => t.isInline = true ∧ Tidy false t

/-- A line starts after each block. -/
def TidyAll (start : Bool) : List Tree → Prop
  | [] => True
  | t :: rest => Tidy start t ∧ TidyAll (!t.isInline) rest

end

variable {unit : String}

mutual

/-- A tidy element is met on a line that the canvas is right about, and leaves one. -/
theorem Tidy.run {start : Bool} {t : Tree} (tidy : t.Tidy start) (level : Nat) :
    Line.fitsAll unit ⟨level, start, start⟩ (t.visits.map Visit.frame) = true ∧
      Line.run unit ⟨level, start, start⟩ (t.visits.map Visit.frame) =
        ⟨level, !t.isInline, !t.isInline⟩ := by
  match t with
  | .bare _ _ => exact tidy.elim
  | .node x inside children =>
    obtain ⟨own, void, text, held⟩ := tidy
    have opened : (Line.mk level start start).after unit (.enter (.node x inside children)) =
        ⟨level + 1, false, false⟩ := by
      cases start with
      | false => rfl
      | true =>
        cases inline : x.isInline with
        | false => simp [Line.after, inline]
        | true =>
          obtain ⟨slot, rfl⟩ := own rfl inline
          simp [Line.after, slot]
    have entered :
        (Line.mk level start start).fits unit (.enter (.node x inside children)) = true := by
      cases start <;> simp [Line.fits]
    obtain ⟨fitsText, runText⟩ := TidyInside.run x text (level + 1)
    obtain ⟨fitsHeld, b, runHeld⟩ := TidyAll.run 0 held (level + 1)
    -- a void element holds nothing, so that its line has begun with its tag
    have begun : (x.isVoid && (Line.mk (level + 1) b b).blankAtExit unit) = false := by
      cases isVoid : x.isVoid with
      | false => rfl
      | true =>
        obtain ⟨-, rfl⟩ := void isVoid
        obtain rfl : false = b := congrArg (·.start) runHeld
        rfl
    have left : (Line.mk (level + 1) b b).fits unit (.exit x) = true := by
      rw [Line.fits, begun]
      cases b <;> simp
    have closed : (Line.mk (level + 1) b b).after unit (.exit x) =
        ⟨level, !x.isInline, !x.isInline⟩ := by
      rw [Line.after, begun]
      cases x.isInline <;> rfl
    rw [visits, List.map_cons, List.map_append, List.map_append, Line.fitsAll, entered, opened,
      Line.fitsAll_append, Line.fitsAll_append, Line.run_append, fitsText, runText, fitsHeld,
      runHeld]
    refine ⟨?_, ?_⟩
    · show (Line.fits unit _ (.exit x) && true) = true
      rw [left]
      rfl
    · show ((Line.mk level start start).after unit (.enter (.node x inside children))).run unit _ = _
      rw [opened, Line.run_append, Line.run_append, runText, runHeld]
      exact closed

theorem TidyInside.run (x : Face) {inside : Option Tree} (tidy : TidyInside inside) (level : Nat) :
    Line.fitsAll unit ⟨level, false, false⟩ ((visitsInside x inside).map Visit.frame) = true ∧
      Line.run unit ⟨level, false, false⟩ ((visitsInside x inside).map Visit.frame) =
        ⟨level, false, false⟩ := by
  match inside with
  | none => exact ⟨rfl, rfl⟩
  | some t =>
    obtain ⟨inline, tidy⟩ := tidy
    obtain ⟨fits, run⟩ := Tidy.run tidy level
    rw [visitsInside]
    split
    · rw [inline] at run
      rw [List.map_append, Visit.map_frame_under, Line.fitsAll_append, Line.run_append, fits, run]
      exact ⟨rfl, rfl⟩
    · exact ⟨rfl, rfl⟩

theorem TidyAll.run {start : Bool} (i : Nat) {ts : List Tree} (tidy : TidyAll start ts)
    (level : Nat) :
    Line.fitsAll unit ⟨level, start, start⟩ ((visitsFrom i ts).map Visit.frame) = true ∧
      ∃ b, Line.run unit ⟨level, start, start⟩ ((visitsFrom i ts).map Visit.frame) =
        ⟨level, b, b⟩ := by
  match ts with
  | [] => exact ⟨rfl, start, rfl⟩
  | t :: rest =>
    obtain ⟨first, later⟩ := tidy
    obtain ⟨fits, run⟩ := Tidy.run first level
    obtain ⟨fitsLater, b, runLater⟩ := TidyAll.run (i + 1) later level
    rw [visitsFrom, List.map_append, Visit.map_frame_under, Line.fitsAll_append, Line.run_append,
      fits, run]
    exact ⟨fitsLater, b, runLater⟩

end

end Tree

/-! ## Renderers -/

theorem Fragment.joined_eq_ok {unit : String} {xs : List Fragment} {out : String}
    (h : joined unit xs = .ok out) : out = String.join (xs.map (text unit)) :=
  Except.ok.inj (h.symm.trans (joined_eq_text unit xs (isAnswered_of_joined h)))

namespace Renderer

/-- Where what is written of each element has no line break, the line of the canvas can be told at
every moment of the walk, and the layout is in its place exactly if that line fits each frame. It
does for tidy trees. What comes out is the text of the canvas. -/
theorem layout_in_place_iff (f : Forest) (roots : List Datum) (unit : String)
    (acyclic : ∀ v ∈ roots, f.AcyclicBelow v)
    (oneLine : f.Throughout (fun id e => (f.face id e).IsOneLine) roots) :
    (∀ before later, Tree.frames (f.trees roots) = before ++ later → ∃ stack c,
      Walk.Does true before ((f.trees roots).map .enter) .empty stack c ∧
      Walk.Does true later stack c [] (Tree.render true (f.trees roots)) ∧
      c.line unit = Line.run unit {} before) ∧
    ((Tree.render true (f.trees roots)).InPlace unit ↔
      Line.fitsAll unit {} (Tree.frames (f.trees roots)) = true) ∧
    (Tree.TidyAll true (f.trees roots) → (Tree.render true (f.trees roots)).InPlace unit) ∧
    ∀ out, (Renderer.render f ⟨roots, .bool true, .text unit⟩).result = .ok out →
      out = (Tree.render true (f.trees roots)).text unit := by
  have faces : Tree.AllFrom (fun x _ => x.IsOneLine) (f.trees roots) :=
    ((Forest.unfoldsAll_trees roots acyclic).all oneLine).imp fun x _ ⟨_, _, _, own, face, _⟩ =>
      face ▸ own
  have frames : ∀ frame ∈ Tree.frames (f.trees roots), frame.IsOneLine :=
    Tree.oneLine_visitsFrom 0 faces
  have does : Walk.Does true (Tree.frames (f.trees roots)) ((f.trees roots).map .enter) .empty []
      (Tree.render true (f.trees roots)) := by
    have does : Walk.Does true _ _ _ _ _ := Walk.does_visitsFrom 0 (f.trees roots) [] .empty
    rwa [List.append_nil, ← Tree.render_eq_drawAll] at does
  have inPlace : (Tree.render true (f.trees roots)).InPlace unit ↔
      Line.fitsAll unit {} (Tree.frames (f.trees roots)) = true := by
    rw [Walk.eq_foldl_of_does does, Line.inPlace_foldl frames]
    exact and_iff_right (Canvas.inPlace_empty unit)
  refine ⟨fun before later split => ?_, inPlace, fun tidy => ?_, fun out read => ?_⟩
  · rw [split] at does
    obtain ⟨stack, c, first, second⟩ := Walk.does_split does
    refine ⟨stack, c, first, second, ?_⟩
    have begun : ∀ frame ∈ before, frame.IsOneLine := fun frame h =>
      frames frame (split ▸ List.mem_append_left later h)
    rw [Walk.eq_foldl_of_does first, Line.line_foldl begun]
    rfl
  · exact inPlace.2 (tidy.run 0 0).1
  · rw [result_render] at read
    rw [Fragment.joined_eq_ok read, Canvas.text_eq_join]

end Renderer

/-- A list with a line and a span, which has no text slot. -/
def Forest.stray : Forest where
  elements := #[
    some { kind := .catalog .ul, tag := .text "ul",
           children := [.ref (.element ⟨1⟩), .ref (.element ⟨2⟩)] },
    some { kind := .catalog .li, tag := .text "li", content := .text "x" },
    some { kind := .catalog .span, tag := .text "span" }]

theorem Forest.stray_acyclic : Forest.stray.Acyclic :=
  Forest.acyclic_of_rank_domain Forest.diamondRank (by decide)

theorem Forest.stray_oneLine :
    stray.Throughout (fun id e => (stray.face id e).IsOneLine) [.ref (.element ⟨0⟩)] := by
  refine throughout_of_forall [⟨0⟩] fun id e there => ?_
  match id with
  | ⟨0⟩ =>
    cases there
    exact ⟨⟨by decide, by decide, by decide⟩, by simp⟩
  | ⟨1⟩ =>
    cases there
    exact ⟨⟨by decide, by decide, by decide⟩, by simp⟩
  | ⟨2⟩ =>
    cases there
    exact ⟨⟨by decide, by decide, by decide⟩, by simp⟩
  | ⟨i + 3⟩ => simp [get?, stray] at there

/-- The span is entered where a line starts, and its closing tag is indented behind its opening tag.
-/
theorem Renderer.layout_in_place_iff_of_stray :
    ¬ (Tree.render true (Forest.stray.trees [.ref (.element ⟨0⟩)])).InPlace "  " ∧
    (Renderer.render Forest.stray ⟨[.ref (.element ⟨0⟩)], .bool true, .text "  "⟩).result =
      .ok "<ul>\n  <li>x</li>\n<span>  </span></ul>\n" := by
  obtain ⟨-, inPlace, -, -⟩ := Renderer.layout_in_place_iff Forest.stray [.ref (.element ⟨0⟩)] "  "
    (fun _ _ _ _ => Forest.stray_acyclic.acyclicFrom _) Forest.stray_oneLine
  refine ⟨fun h => ?_, by decide +kernel⟩
  exact absurd (inPlace.1 h) (by decide)

end Hypertext
