import Hypertext.Proofs.Rendering
import Hypertext.Proofs.Throughout

/-! Pretty output is compact output with layout between its fragments. Whatever the line-start
flags of two runs are, both write the words of a tree in one order. The main steps are
`Tree.words_render`, on fragments, and `Fragment.joined_dropBlanks`, on their texts. -/
namespace Hypertext
set_option autoImplicit false

/-! ## Words -/

def Canvas.words (c : Canvas) : List Fragment := c.fragments.toList.filter (!·.isLayout)

namespace Tree

mutual

/-- What a tree writes whatever the layout. A node without markup is refused for its tag. -/
def words : Tree → List Fragment
  | .node x inside children =>
    .opening x :: (wordsText x inside ++ wordsAll children ++ if x.isVoid then [] else [.closing x])
  | .bare what _ => [.refusal (.nameMissing what.type "tag_name")]

def wordsText (x : Face) : Option Tree → List Fragment
  | none => if x.hasText then [.content x] else []
  | some t => if x.hasText then words t else []

def wordsAll : List Tree → List Fragment
  | [] => []
  | t :: rest => words t ++ wordsAll rest

end

end Tree

namespace Tree

mutual

theorem isLayout_words (t : Tree) : ∀ y ∈ t.words, y.isLayout = false := by
  match t with
  | .bare what children =>
    intro y hy
    rw [List.mem_singleton.1 hy]
    rfl
  | .node x inside children =>
    intro y hy
    rw [words, List.mem_cons, List.mem_append, List.mem_append] at hy
    obtain rfl | (hy | hy) | hy := hy
    · rfl
    · exact isLayout_wordsText x inside y hy
    · exact isLayout_wordsAll children y hy
    · split at hy
      · cases hy
      · rw [List.mem_singleton.1 hy]
        rfl

theorem isLayout_wordsText (x : Face) (inside : Option Tree) :
    ∀ y ∈ wordsText x inside, y.isLayout = false := by
  intro y hy
  match inside with
  | none =>
    rw [wordsText] at hy
    split at hy
    · rw [List.mem_singleton.1 hy]
      rfl
    · cases hy
  | some t =>
    rw [wordsText] at hy
    split at hy
    · exact isLayout_words t y hy
    · cases hy

theorem isLayout_wordsAll (ts : List Tree) : ∀ y ∈ wordsAll ts, y.isLayout = false := by
  match ts with
  | [] => exact fun y hy => absurd hy List.not_mem_nil
  | t :: rest => exact List.forall_mem_append.2 ⟨isLayout_words t, isLayout_wordsAll rest⟩

end

end Tree

/-! ## Words that can be read -/

def Face.IsAnswered (x : Face) : Prop :=
  (∃ s, x.tag.result = .ok s) ∧ ∃ s, x.content.result = .ok s

namespace Tree

/-- What all that a node writes by itself has. A text is written where no element stands. -/
def WritesOnly (P : Fragment → Prop) (x : Face) (inside : Option Tree) : Prop :=
  P (.opening x) ∧ P (.closing x) ∧ (inside = none → x.hasText = true → P (.content x))

variable {P : Fragment → Prop}

mutual

theorem forall_words (t : Tree) (h : t.All (WritesOnly P)) : ∀ y ∈ t.words, P y := by
  match t with
  | .bare _ _ => exact h.elim
  | .node x inside children =>
    obtain ⟨hx, hinside, hchildren⟩ := h
    intro y hy
    rw [words, List.mem_cons, List.mem_append, List.mem_append] at hy
    obtain rfl | (hy | hy) | hy := hy
    · exact hx.1
    · exact forall_wordsText x inside hx hinside y hy
    · exact forall_wordsAll children hchildren y hy
    · split at hy
      · cases hy
      · rw [List.mem_singleton.1 hy]
        exact hx.2.1

theorem forall_wordsText (x : Face) (inside : Option Tree) (hx : WritesOnly P x inside)
    (h : AllInside (WritesOnly P) inside) : ∀ y ∈ wordsText x inside, P y := by
  match inside with
  | none =>
    intro y hy
    rw [wordsText] at hy
    split at hy
    next slot =>
      rw [List.mem_singleton.1 hy]
      exact hx.2.2 rfl slot
    next => cases hy
  | some t =>
    intro y hy
    rw [wordsText] at hy
    split at hy
    · exact forall_words t h y hy
    · cases hy

theorem forall_wordsAll (ts : List Tree) (h : AllFrom (WritesOnly P) ts) :
    ∀ y ∈ wordsAll ts, P y := by
  match ts with
  | [] => exact fun y hy => absurd hy List.not_mem_nil
  | t :: rest =>
    intro y hy
    obtain hy | hy := List.mem_append.1 hy
    · exact forall_words t h.1 y hy
    · exact forall_wordsAll rest h.2 y hy

end

/-- Whether what stands in a text slot is shown, and what is written there otherwise has a property. -/
def ShowsOnly (P : Fragment → Prop) (x : Face) (inside : Option Tree) : Prop :=
  inside = none → x.hasText = true → P (.content x)

mutual

/-- What all that is written has, the texts of the nodes have. -/
theorem showsOnly_of_words {t : Tree} (shown : t.All fun x inside => inside ≠ none →
    x.hasText = true) (h : ∀ y ∈ t.words, P y) : t.All (ShowsOnly P) := by
  match t with
  | .bare _ _ => exact shown
  | .node x inside children =>
    rw [words, List.forall_mem_cons, List.forall_mem_append, List.forall_mem_append] at h
    refine ⟨fun none slot => h.2.1.1 _ ?_, showsOnly_of_wordsText shown.1 shown.2.1 h.2.1.1,
      showsOnly_of_wordsAll shown.2.2 h.2.1.2⟩
    rw [none, wordsText, if_pos slot]
    exact List.mem_cons_self

theorem showsOnly_of_wordsText {x : Face} {inside : Option Tree}
    (here : inside ≠ none → x.hasText = true)
    (shown : AllInside (fun x inside => inside ≠ none → x.hasText = true) inside)
    (h : ∀ y ∈ wordsText x inside, P y) : AllInside (ShowsOnly P) inside := by
  match inside with
  | none => trivial
  | some t =>
    rw [wordsText, if_pos (here (nomatch ·))] at h
    exact showsOnly_of_words shown h

theorem showsOnly_of_wordsAll {ts : List Tree}
    (shown : AllFrom (fun x inside => inside ≠ none → x.hasText = true) ts)
    (h : ∀ y ∈ wordsAll ts, P y) : AllFrom (ShowsOnly P) ts := by
  match ts with
  | [] => trivial
  | t :: rest =>
    rw [wordsAll, List.forall_mem_append] at h
    exact ⟨showsOnly_of_words shown.1 h.1, showsOnly_of_wordsAll shown.2 h.2⟩

end

theorem isAnswered_wordsAll {ts : List Tree} (h : AllFrom (fun x _ => x.IsAnswered) ts) :
    ∀ y ∈ wordsAll ts, y.IsAnswered :=
  forall_wordsAll ts (h.imp fun _ _ hx => ⟨hx.1, hx.1, fun _ _ => hx.2⟩)

end Tree

/-- Layout can always be spelled, so that only the words count. -/
theorem Canvas.isAnswered_of_words {c : Canvas} (h : ∀ x ∈ c.words, x.IsAnswered) :
    ∀ x ∈ c.fragments, x.IsAnswered := by
  intro x hx
  cases hlayout : x.isLayout with
  | true =>
    cases x with
    | newline | indentation _ => trivial
    | opening _ | closing _ | content _ | refusal _ => cases hlayout
  | false => exact h x (List.mem_filter.2 ⟨by simpa using hx, by rw [hlayout]; rfl⟩)

/-! ## Pretty steps -/

namespace Canvas

theorem words_put (c : Canvas) (x : Fragment) (h : x.isLayout = false) :
    (c.put x).words = c.words ++ [x] := by
  simp [put, words, h]

theorem words_put_layout (c : Canvas) (x : Fragment) (h : x.isLayout = true) :
    (c.put x).words = c.words := by
  simp [put, words, h]

theorem words_indent (c : Canvas) (pretty : Bool) : (c.indent pretty).words = c.words := by
  cases pretty with
  | false => rfl
  | true =>
    have broken : (if c.lineStart then c else c.put .newline).words = c.words := by
      split
      · rfl
      · exact words_put_layout c .newline rfl
    exact (words_put_layout (if c.lineStart then c else c.put .newline) _ rfl).trans broken

theorem words_openElement (c : Canvas) (pretty : Bool) (x : Face) :
    (c.openElement pretty x).words = c.words ++ [.opening x] := by
  have broken : (if pretty && !x.isInline then c.indent pretty else c).words = c.words := by
    split
    · exact words_indent c pretty
    · rfl
  rw [openElement, words_put _ _ rfl]
  exact congrArg (· ++ _) broken

theorem words_writeText (c : Canvas) (x : Face) : (c.writeText x).words = c.words ++ [.content x] :=
  words_put c _ rfl

theorem words_endText (c : Canvas) : c.endText.words = c.words := rfl

theorem words_closeElement (c : Canvas) (pretty : Bool) (x : Face) :
    (c.closeElement pretty x).words = c.words ++ if x.isVoid then [] else [.closing x] := by
  -- the line break after a closing tag is layout too
  have last (c : Canvas) : (if !x.isInline && pretty && !c.lineStart then
      { c.put .newline with lineStart := true } else c).words = c.words := by
    split
    · exact words_put_layout c _ rfl
    · rfl
  have closing (c : Canvas) : (if x.isVoid then c else c.put (.closing x)).words =
      c.words ++ if x.isVoid then [] else [.closing x] := by
    split
    · rw [List.append_nil]
    · exact words_put c _ rfl
  have first (c : Canvas) : (if c.lineStart then c.indent pretty else c).words = c.words := by
    split
    · exact words_indent c pretty
    · rfl
  rw [closeElement]
  refine (last _).trans ((closing _).trans ?_)
  exact congrArg (· ++ _) (first { c with level := c.level - 1 })

end Canvas

namespace Tree

variable {p : Face → Option Tree → Prop}

mutual

/-- Drawing adds the words of a tree to those of the canvas, whatever its state. -/
theorem words_draw (pretty : Bool) (t : Tree) (h : t.All p) (c : Canvas) :
    (t.draw pretty c).words = c.words ++ t.words := by
  match t with
  | .bare what children => exact h.elim
  | .node x inside children =>
    obtain ⟨_, hinside, hchildren⟩ := h
    rw [draw, Canvas.words_closeElement, words_drawAll pretty children hchildren,
      words_drawText pretty x inside hinside, Canvas.words_openElement, words]
    simp only [List.append_assoc, List.cons_append, List.nil_append]

theorem words_drawText (pretty : Bool) (x : Face) (inside : Option Tree) (h : AllInside p inside)
    (c : Canvas) : (drawText pretty x inside c).words = c.words ++ wordsText x inside := by
  match inside with
  | none =>
    rw [drawText, wordsText]
    split
    · exact Canvas.words_writeText c x
    · rw [List.append_nil]
  | some t =>
    rw [drawText, wordsText]
    split
    · rw [Canvas.words_endText]
      exact words_draw pretty t h c
    · rw [List.append_nil]

theorem words_drawAll (pretty : Bool) (ts : List Tree) (h : AllFrom p ts) (c : Canvas) :
    (drawAll pretty ts c).words = c.words ++ wordsAll ts := by
  match ts with
  | [] => rw [drawAll, wordsAll, List.append_nil]
  | t :: rest =>
    rw [drawAll, words_drawAll pretty rest h.2, words_draw pretty t h.1, wordsAll,
      List.append_assoc]

end

end Tree

/-! ## Compact steps write no layout -/

namespace Canvas

theorem fragments_openElement (c : Canvas) (x : Face) :
    (c.openElement false x).fragments = c.fragments.push (.opening x) := rfl

theorem fragments_closeElement (c : Canvas) (x : Face) :
    (c.closeElement false x).fragments.toList =
      c.fragments.toList ++ if x.isVoid then [] else [.closing x] := by
  have first (c : Canvas) : (if c.lineStart then c.indent false else c) = c := by
    split
    · rfl
    · rfl
  have same (c : Canvas) : (if !x.isInline && false && !c.lineStart then
      { c.put .newline with lineStart := true } else c) = c := by
    rw [Bool.and_false, Bool.false_and, if_neg Bool.false_ne_true]
  rw [closeElement]
  refine (congrArg (·.fragments.toList) (same _)).trans ?_
  rw [first]
  split
  · rw [List.append_nil]
  · exact Array.toList_push

end Canvas

namespace Tree

mutual

theorem fragments_draw (t : Tree) (c : Canvas) :
    (t.draw false c).fragments.toList = c.fragments.toList ++ t.words := by
  match t with
  | .bare what children =>
    rw [draw, words]
    simp [Canvas.refuse, Canvas.put]
  | .node x inside children =>
    rw [draw, Canvas.fragments_closeElement, fragments_drawAll children,
      fragments_drawText x inside, Canvas.fragments_openElement, words]
    simp

theorem fragments_drawText (x : Face) (inside : Option Tree) (c : Canvas) :
    (drawText false x inside c).fragments.toList = c.fragments.toList ++ wordsText x inside := by
  match inside with
  | none =>
    rw [drawText, wordsText]
    split
    · simp [Canvas.writeText, Canvas.endText, Canvas.put]
    · rw [List.append_nil]
  | some t =>
    rw [drawText, wordsText]
    split
    · exact fragments_draw t c
    · rw [List.append_nil]

theorem fragments_drawAll (ts : List Tree) (c : Canvas) :
    (drawAll false ts c).fragments.toList = c.fragments.toList ++ wordsAll ts := by
  match ts with
  | [] => rw [drawAll, wordsAll, List.append_nil]
  | t :: rest => rw [drawAll, fragments_drawAll rest, fragments_draw t, wordsAll, List.append_assoc]

end

theorem words_render_eq_wordsAll {p : Face → Option Tree → Prop} {ts : List Tree}
    (h : AllFrom p ts) (pretty : Bool) : (render pretty ts).words = wordsAll ts := by
  rw [render_eq_drawAll, words_drawAll pretty ts h]
  rfl

theorem isAnswered_render {ts : List Tree} (h : AllFrom (fun x _ => x.IsAnswered) ts)
    (pretty : Bool) : ∀ x ∈ (render pretty ts).fragments, x.IsAnswered := by
  refine Canvas.isAnswered_of_words ?_
  rw [words_render_eq_wordsAll h]
  exact isAnswered_wordsAll h

/-- Without its layout, pretty output is compact output. -/
theorem words_render {p : Face → Option Tree → Prop} {ts : List Tree} (h : AllFrom p ts) :
    (render true ts).words = (render false ts).fragments.toList := by
  rw [render_eq_drawAll, render_eq_drawAll, words_drawAll true ts h, fragments_drawAll]
  rfl

end Tree

/-! ## Blanks -/

namespace Text

def dropBlanks (s : String) : String := String.ofList (s.toList.filter (!isBlank ·))

theorem dropBlanks_append (s t : String) : dropBlanks (s ++ t) = dropBlanks s ++ dropBlanks t := by
  rw [dropBlanks, String.toList_append, List.filter_append, String.ofList_append]
  rfl

theorem dropBlanks_eq_empty {s : String} (h : ∀ c ∈ s.toList, isBlank c = true) :
    dropBlanks s = "" := by
  have hnil : s.toList.filter (!isBlank ·) = [] :=
    List.filter_eq_nil_iff.2 fun c hc => by simp [h c hc]
  rw [dropBlanks, hnil]

/-- Trimming takes only blanks away. -/
theorem dropBlanks_trimEnd (s : String) : dropBlanks (trimEnd s) = dropBlanks s := by
  have drop (cs : List Char) : (cs.dropWhile isBlank).filter (!isBlank ·) =
      cs.filter (!isBlank ·) := by
    induction cs with
    | nil => rfl
    | cons c cs ih =>
      rw [List.dropWhile_cons, List.filter_cons]
      cases hc : isBlank c with
      | true => simpa using ih
      | false => simp [hc]
  rw [dropBlanks, trimEnd, String.toList_ofList, trimEndChars, List.filter_reverse, drop,
    ← List.filter_reverse, List.reverse_reverse]
  rfl

theorem dropBlanks_repeated {unit : String} (blank : ∀ c ∈ unit.toList, isBlank c = true)
    (level : Nat) : dropBlanks (Markup.repeated unit level) = "" := by
  rw [Markup.repeated_eq_join]
  induction level with
  | zero => rfl
  | succ level ih =>
    rw [List.replicate_succ, String.join_cons, dropBlanks_append, dropBlanks_eq_empty blank, ih]
    rfl

end Text

namespace Fragment

theorem spelling_of_isLayout {unit : String} (blank : ∀ c ∈ unit.toList, Text.isBlank c = true)
    {x : Fragment} (h : x.isLayout = true) :
    ∃ s, x.spelling unit = .ok s ∧ Text.dropBlanks s = "" := by
  cases x with
  | newline => exact ⟨"\n", rfl, by decide⟩
  | indentation level => exact ⟨_, rfl, Text.dropBlanks_repeated blank level⟩
  | opening _ | closing _ | content _ | refusal _ => cases h

/-- Apart from blanks, layout adds nothing to a text. -/
theorem joined_dropBlanks {unit : String} (blank : ∀ c ∈ unit.toList, Text.isBlank c = true)
    (xs : List Fragment) : (joined unit xs).map Text.dropBlanks =
      (joined unit (xs.filter (!·.isLayout))).map Text.dropBlanks := by
  have cons (x : Fragment) (rest : List Fragment) : (joined unit (x :: rest)).map Text.dropBlanks =
      (do return Text.dropBlanks (← x.spelling unit) ++
        (← (joined unit rest).map Text.dropBlanks)) := by
    rw [joined]
    cases x.spelling unit with
    | error fault => rfl
    | ok s =>
      cases joined unit rest with
      | error fault => rfl
      | ok t => exact congrArg Except.ok (Text.dropBlanks_append s t)
  induction xs with
  | nil => rfl
  | cons x xs ih =>
    rw [cons, ih, List.filter_cons]
    cases hx : x.isLayout with
    | false =>
      rw [← cons]
      rfl
    | true =>
      obtain ⟨s, hs, hblank⟩ := spelling_of_isLayout blank hx
      rw [hs]
      show (do return Text.dropBlanks s ++ (← (joined unit _).map Text.dropBlanks)) = _
      rw [hblank, Bool.not_true, if_neg Bool.false_ne_true]
      cases joined unit (xs.filter (!·.isLayout)) with
      | error fault => rfl
      | ok t => exact congrArg Except.ok (String.empty_append (s := Text.dropBlanks t))

end Fragment

/-! ## Renderers and documents -/

namespace Renderer

variable {f : Forest}

theorem result_render (roots : List Datum) (pretty : Bool) (unit : String) :
    (Renderer.render f ⟨roots, .bool pretty, .text unit⟩).result =
      Fragment.joined unit (Tree.render pretty (f.trees roots)).fragments.toList := by
  rw [Renderer.render, Account.result_bind]
  exact Canvas.result_compose _ unit

/-- Where every word can be read the text of the canvas is the answer. -/
theorem result_render_text {roots : List Datum}
    (h : Tree.AllFrom (fun x _ => x.IsAnswered) (f.trees roots)) (pretty : Bool) (unit : String) :
    (Renderer.render f ⟨roots, .bool pretty, .text unit⟩).result =
      .ok ((Tree.render pretty (f.trees roots)).text unit) := by
  rw [Renderer.render, Account.result_bind]
  exact Canvas.result_compose_text _ unit (Tree.isAnswered_render h pretty)

theorem exists_render {roots : List Datum}
    (h : Tree.AllFrom (fun x _ => x.IsAnswered) (f.trees roots)) (pretty : Bool) (unit : String) :
    ∃ s, (Renderer.render f ⟨roots, .bool pretty, .text unit⟩).result = .ok s :=
  ⟨_, result_render_text h pretty unit⟩

end Renderer

namespace Forest

variable {f : Forest}

theorem result_renderDocument {settings : Settings} {unit : String}
    (hunit : settings.indent = .text unit) (id : DocumentId) (pretty : Bool) :
    (f.renderDocument settings id (.bool pretty)).result =
      (Fragment.joined unit (Tree.render pretty (f.trees (f.rootsOf id))).fragments.toList).map
        Text.trimEnd := by
  rw [← Renderer.result_render, renderDocument, Account.result_map, Renderer.make, hunit]
  rfl

/-- Pretty output without its layout is compact output, fragment by fragment, and these fragments
are what the renderers spell. So the two texts of a document differ in blanks alone, if its unit of
indentation is blank: either both have the same text without blanks or both have the same fault. -/
theorem pretty_eq_compact_of_layout_dropped (f : Forest) :
    (∀ (roots : List Datum) (unit : String), (∀ v ∈ roots, f.AcyclicBelow v) →
      f.Throughout (fun _ _ => True) roots →
      (Tree.render true (f.trees roots)).fragments.toList.filter (!·.isLayout) =
          (Tree.render false (f.trees roots)).fragments.toList ∧
        ∀ pretty, (Renderer.render f ⟨roots, .bool pretty, .text unit⟩).result =
          Fragment.joined unit (Tree.render pretty (f.trees roots)).fragments.toList) ∧
    ∀ (id : DocumentId) (settings : Settings) (unit : String), f.AcyclicFrom [.document id] →
      f.Throughout (fun _ _ => True) (f.rootsOf id) → settings.indent = .text unit →
      (∀ c ∈ unit.toList, Text.isBlank c = true) →
      (f.renderDocument settings id (.bool true)).result.map Text.dropBlanks =
        (f.renderDocument settings id (.bool false)).result.map Text.dropBlanks := by
  have words (roots : List Datum) (acyclic : ∀ v ∈ roots, f.AcyclicBelow v)
      (elements : f.Throughout (fun _ _ => True) roots) :
      (Tree.render true (f.trees roots)).words =
        (Tree.render false (f.trees roots)).fragments.toList :=
    Tree.words_render ((unfoldsAll_trees roots acyclic).all elements)
  refine ⟨?_, ?_⟩
  · intro roots unit acyclic elements
    exact ⟨words roots acyclic elements, fun pretty => Renderer.result_render roots pretty unit⟩
  · intro id settings unit acyclic elements hunit blank
    have trimmed (result : Except Fault String) :
        (result.map Text.trimEnd).map Text.dropBlanks = result.map Text.dropBlanks := by
      cases result with
      | error fault => rfl
      | ok s => exact congrArg Except.ok (Text.dropBlanks_trimEnd s)
    rw [result_renderDocument hunit, result_renderDocument hunit, trimmed, trimmed,
      Fragment.joined_dropBlanks blank, ← words _ acyclic.root elements]
    rfl

theorem diamond_throughout :
    diamond.Throughout (fun _ _ => True) [.ref (.element ⟨0⟩)] := by
  refine throughout_of_forall [⟨0⟩] fun id e there => ⟨trivial, ?_⟩
  have hmem := mem_of_get? there
  simp only [diamond, List.mem_toArray, List.mem_cons, Option.some.injEq, List.not_mem_nil,
    or_false] at hmem
  obtain rfl | rfl | rfl := hmem
  · simp
  · simp
  · simp

theorem pretty_eq_compact_of_diamond :
    (Tree.render true (diamond.trees [.ref (.element ⟨0⟩)])).fragments.toList.filter
        (!·.isLayout) =
      (Tree.render false (diamond.trees [.ref (.element ⟨0⟩)])).fragments.toList ∧
    (diamond.renderDocument ⟨.null, .text "\t"⟩ ⟨0⟩ (.bool true)).result.map Text.dropBlanks =
      (diamond.renderDocument ⟨.null, .text "\t"⟩ ⟨0⟩ (.bool false)).result.map
        Text.dropBlanks := by
  have h := pretty_eq_compact_of_layout_dropped diamond
  refine ⟨(h.1 _ "" (fun _ _ _ _ => diamond_acyclic.acyclicFrom _) diamond_throughout).1, ?_⟩
  have blank : ∀ c ∈ "\t".toList, Text.isBlank c = true := List.all_eq_true.1 (by decide)
  exact h.2 ⟨0⟩ _ "\t" (diamond_acyclic.acyclicFrom _) diamond_throughout rfl blank

end Forest

end Hypertext
