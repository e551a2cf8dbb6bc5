import Hypertext.Proofs.Faces
import Hypertext.Proofs.Outcome

/-! Forests in which no element is marked. Whatever is rendered there, in whatever layout, is put
together from one piece for each fragment, and the piece of a text is the text escaped. The main
statement is `Forest.Unmarked.escapes`. -/
namespace Hypertext
set_option autoImplicit false

theorem Account.result_map_eq_ok {ε α β : Type} {g : α → β} {account : Account ε α} {b : β}
    (h : (g <$> account).result = .ok b) : ∃ a, account.result = .ok a ∧ b = g a := by
  rw [result_map] at h
  cases answer : account.result with
  | error fault =>
    rw [answer] at h
    cases h
  | ok a =>
    rw [answer] at h
    exact ⟨a, rfl, (Except.ok.inj h).symm⟩

/-! ## The pieces of an output -/

namespace Part

theorem join_eq_ok {index : Nat} {before out : String} {parts : List Part}
    (h : join index before parts = .ok out) :
    ∃ texts, parts = texts.map text ∧ out = before ++ String.join texts := by
  induction parts generalizing index before with
  | nil =>
    refine ⟨[], rfl, ?_⟩
    rw [← Except.ok.inj h]
    simp
  | cons part parts ih =>
    cases part with
    | other type => cases h
    | text s =>
      obtain ⟨texts, rfl, rfl⟩ := ih h
      exact ⟨s :: texts, rfl, by rw [String.join_cons, String.append_assoc]⟩

/-- If only texts are there once something is put there, it is a text, and so is what was there. -/
theorem push_eq_texts {parts : Array Part} {part : Part} {texts : List String}
    (h : (push parts part).toList = texts.map text) :
    ∃ s before, part = text s ∧ parts.toList = before.map text ∧
      String.join texts = String.join before ++ s := by
  cases part with
  | text s =>
    rw [push] at h
    split at h
    next blank => exact ⟨s, texts, rfl, h, by rw [blank, String.append_empty]⟩
    next =>
      rw [Array.toList_push] at h
      obtain ⟨before, last, rfl, hbefore, hlast⟩ := List.append_eq_map_iff.1 h
      obtain ⟨s', rfl, hs⟩ := List.map_eq_singleton_iff.1 hlast
      obtain rfl : s' = s := text.inj hs
      exact ⟨s', before, rfl, hbefore.symm, by simp [String.join_append]⟩
  | other type =>
    rw [push, Array.toList_push] at h
    obtain ⟨before, last, rfl, -, hlast⟩ := List.append_eq_map_iff.1 h
    obtain ⟨s', -, hs⟩ := List.map_eq_singleton_iff.1 hlast
    cases hs

end Part

/-- The pieces of some fragments: each is the text that its fragment is read as. -/
def Fragment.Pieces (indent : Indentation) : List Fragment → List String → Prop :=
  List.Forall₂ fun x piece => (x.part indent).result = .ok (.text piece)

theorem Fragment.Pieces.exists_of_mem {indent : Indentation} {xs : List Fragment}
    {pieces : List String} (h : Pieces indent xs pieces) {x : Fragment} (mem : x ∈ xs) :
    ∃ piece, (x.part indent).result = .ok (.text piece) := by
  induction h with
  | nil => cases mem
  | cons first _ ih =>
    obtain rfl | mem := List.mem_cons.1 mem
    · exact ⟨_, first⟩
    · exact ih mem

theorem Fragment.pieces_of_foldlM {indent : Indentation} {xs : List Fragment} {parts all : Array Part}
    (h : xs.foldlM (fun parts x => (do
      return Part.push parts (← x.part indent) : Reading (Array Part)).result) parts = .ok all)
    {texts : List String} (hall : all.toList = texts.map .text) :
    ∃ before pieces, parts.toList = before.map .text ∧ Pieces indent xs pieces ∧
      String.join texts = String.join before ++ String.join pieces := by
  induction xs generalizing parts with
  | nil =>
    obtain rfl : parts = all := Except.ok.inj h
    exact ⟨texts, [], hall, .nil, by simp⟩
  | cons x xs ih =>
    rw [List.foldlM_cons, Account.result_bind] at h
    cases hx : (x.part indent).result with
    | error fault =>
      rw [hx] at h
      cases h
    | ok part =>
      rw [hx] at h
      obtain ⟨before, pieces, hbefore, hpieces, joined⟩ := ih h
      obtain ⟨s, before', rfl, hbefore', joined'⟩ := Part.push_eq_texts hbefore
      refine ⟨before', s :: pieces, hbefore', .cons hx hpieces, ?_⟩
      rw [joined, joined', String.join_cons, String.append_assoc]

/-- An output is put together from the pieces of its fragments. -/
theorem Canvas.pieces_of_compose {c : Canvas} {indent : Indentation} {out : String}
    (h : (c.compose indent).result = .ok out) :
    ∃ pieces, Fragment.Pieces indent c.fragments.toList pieces ∧ out = String.join pieces := by
  rw [compose, Account.result_bind, Account.result_fold] at h
  cases folded : c.fragments.toList.foldlM (fun parts x => (do
      return Part.push parts (← x.part indent) : Reading (Array Part)).result) #[] with
  | error fault =>
    rw [folded] at h
    cases h
  | ok all =>
    rw [folded] at h
    obtain ⟨texts, hall, rfl⟩ := Part.join_eq_ok h
    obtain ⟨before, pieces, hbefore, hpieces, joined⟩ := Fragment.pieces_of_foldlM folded hall
    obtain rfl : before = [] := List.map_eq_nil_iff.1 hbefore.symm
    exact ⟨pieces, hpieces, by rw [joined]; simp⟩

/-! ## Texts that are escaped -/

/-- An output has the texts of some faces, in order. It is put together from one piece for each
fragment of a canvas, and the piece of a text is the text escaped. -/
structure Canvas.Escapes (c : Canvas) (indent : Indentation) (texts : List Face) (out : String) :
    Prop where
  contents : c.contents = texts
  written : ∃ pieces, Fragment.Pieces indent c.fragments.toList pieces ∧ out = String.join pieces
  escaped : ∀ x s, .content x ∈ c.fragments → x.element.content.erased = .text s →
    (Fragment.part indent (.content x)).result = .ok (.text (Text.escape s))

/-- The same for a render of trees. -/
def Tree.Escapes (pretty : Bool) (ts : List Tree) (indent : Indentation) (out : String) : Prop :=
  (render pretty ts).Escapes indent (textsAll ts) out

/-- The same for a render of what stands within a tree. -/
def Tree.EscapesInner (t : Tree) (pretty : Bool) (indent : Indentation) (out : String) : Prop :=
  (renderInner pretty t).Escapes indent t.innerTexts out

namespace Forest

variable {f : Forest} {id : ElementId} {x : Face}

/-- No own mark counts as true. -/
def Unmarked (f : Forest) : Prop := ∀ id e, f.get? id = some e → e.hasText = true →
  f.truth e.mark = false

theorem Unmarked.isMarked (unmarked : f.Unmarked) (id : ElementId) : f.isMarked id = false := by
  rw [Forest.isMarked]
  cases there : f.get? id with
  | none => rfl
  | some e =>
    cases text : e.hasText with
    | false => simp [text]
    | true => simp [text, unmarked id e there text]

/-- Where nothing is marked, nothing is inherited either. -/
theorem Unmarked.isVerbatim (unmarked : f.Unmarked) {b : Bool}
    (h : (f.isVerbatim id).result = .ok b) : b = false := by
  have above : (f.ancestors id).any f.isMarked = false :=
    List.any_eq_false.2 fun y _ => by simp [unmarked.isMarked y]
  rw [Forest.isVerbatim, inheritsMark] at h
  simp only [above, unmarked.isMarked id, Account.result_bind, Bool.false_eq_true, if_false,
    Bool.or_false] at h
  cases beyond : (f.beyond id (f.ancestors id)).result with
  | error fault =>
    rw [beyond] at h
    cases h
  | ok _ =>
    rw [beyond] at h
    exact (Except.ok.inj h).symm

/-- Where nothing is marked, a text is written escaped. -/
theorem Unmarked.written_text (unmarked : f.Unmarked) {textOfRef : Ref → Reading String} {v : Datum}
    {s out : String} (text : v.erased = .text s) (h : (f.written id textOfRef v).result = .ok out) :
    out = Text.escape s := by
  fun_induction f.written id textOfRef v with
  | case1 | case3 | case5 => cases text
  | case2 =>
    cases text
    exact (Except.ok.inj h).symm
  | case4 s' =>
    cases text
    rw [Account.result_bind] at h
    cases verbatim : (f.isVerbatim id).result with
    | error fault =>
      rw [verbatim] at h
      cases h
    | ok b =>
      obtain rfl := unmarked.isVerbatim verbatim
      rw [verbatim] at h
      exact (Except.ok.inj h).symm
  | case6 _ _ ih => exact ih text h
  | case7 v _ _ _ plain _ unmade =>
    cases v with
    | scalar a =>
      cases text
      exact absurd rfl (plain s)
    | made o w => exact absurd rfl (unmade o w)
    | ref _ | list _ | record _ | renderer _ _ _ => cases text

theorem Unmarked.face_text (unmarked : f.Unmarked) (face : f.IsFace x) (slot : x.hasText = true)
    {s out : String} (text : x.element.content.erased = .text s) (h : x.content.result = .ok out) :
    out = Text.escape s := by
  obtain ⟨id, e, depth, -, rfl⟩ := face
  have slot : e.hasText = true := slot
  rw [faceOf, if_pos slot] at h
  exact unmarked.written_text text h

/-- Where nothing is marked, a canvas of faces of the forest has its texts written escaped. -/
theorem Unmarked.canvas (unmarked : f.Unmarked) {c : Canvas} {indent : Indentation}
    {texts : List Face} {out : String} (contents : c.contents = texts)
    (faces : ∀ x ∈ texts, f.IsFace x ∧ x.hasText = true) (h : (c.compose indent).result = .ok out) :
    c.Escapes indent texts out where
  contents := contents
  written := c.pieces_of_compose h
  escaped x s mem text := by
    obtain ⟨face, slot⟩ := faces x (contents ▸ Canvas.mem_contents mem)
    obtain ⟨pieces, hpieces, -⟩ := c.pieces_of_compose h
    obtain ⟨piece, read⟩ := Fragment.Pieces.exists_of_mem hpieces (Array.mem_toList_iff.2 mem)
    rw [read]
    rw [Fragment.part, Account.result_bind] at read
    cases answer : x.content.result with
    | error fault =>
      rw [answer] at read
      cases read
    | ok out =>
      rw [answer] at read
      cases read
      rw [unmarked.face_text face slot text answer]

/-! ## Renders -/

/-- Whatever is rendered of a forest has its texts escaped. -/
structure EscapesAll (f : Forest) : Prop where
  html : ∀ id out, (f.html id).result = .ok out →
    Tree.Escapes false (f.trees [.ref (.element id)]) (.ofText "") out
  innerHtml : ∀ id t out, f.tree? (.ref (.element id)) = some t → (f.innerHtml id).result = .ok out →
    t.EscapesInner false (.ofText "") out
  documentText : ∀ id out, (f.textOfRef (.document id)).result = .ok out →
    ∃ whole, out = Text.trimEnd whole ∧ Tree.Escapes false (f.trees (f.rootsOf id)) (.ofText "") whole
  renderDocument : ∀ settings id pretty out,
    (f.renderDocument settings id pretty).result = .ok out →
      ∃ whole, out = Text.trimEnd whole ∧
        Tree.Escapes (f.truth (prettyFor settings pretty)) (f.trees (f.rootsOf id))
          (.ofValue f settings.indent) whole
  render : ∀ (r : Renderer) out, (r.render f).result = .ok out →
    Tree.Escapes (f.truth r.pretty) (f.trees r.roots) (.ofValue f r.indent) out
  renderInner : ∀ (r : Renderer) v t out, f.tree? v = some t → (r.renderInner f v).result = .ok out →
    t.EscapesInner (f.truth r.pretty) (.ofValue f r.indent) out
  /-- An element or document whose markup stands in for a tag or a text. -/
  within : ∀ (depth : Nat) (vs : List Datum) out, (Tree.html (vs.filterMap (f.treeWithin depth))).result = .ok out →
    Tree.Escapes false (vs.filterMap (f.treeWithin depth)) (.ofText "") out

theorem Unmarked.escapes_render (unmarked : f.Unmarked) {depth : Nat} {vs : List Datum} {pretty : Bool}
    {indent : Indentation} {out : String}
    (h : ((Tree.render pretty (vs.filterMap (f.treeWithin depth))).compose indent).result = .ok out) :
    Tree.Escapes pretty (vs.filterMap (f.treeWithin depth)) indent out :=
  unmarked.canvas (Tree.contents_render ..)
    (fun _ hx => (Tree.mem_facesAll_of_mem_textsAll hx).imp_left isFace_of_mem_filterMap) h

theorem Unmarked.escapes_inner (unmarked : f.Unmarked) {v : Datum} {t : Tree} (tree : f.tree? v = some t)
    {pretty : Bool} {indent : Indentation} {out : String}
    (h : ((f.drawnInside pretty v).compose indent).result = .ok out) :
    t.EscapesInner pretty indent out := by
  rw [drawnInside, tree, Option.map_some, Option.getD_some] at h
  exact unmarked.canvas (Tree.contents_renderInner ..)
    (fun _ hx => (Tree.mem_faces_of_mem_innerTexts hx).imp_left (isFace_of_mem tree)) h

theorem Unmarked.escapes_html (unmarked : f.Unmarked) {depth : Nat} {vs : List Datum} {out : String}
    (h : (Tree.html (vs.filterMap (f.treeWithin depth))).result = .ok out) :
    Tree.Escapes false (vs.filterMap (f.treeWithin depth)) (.ofText "") out :=
  unmarked.escapes_render h

/-- Where nothing is marked, every text in every render is written escaped. -/
theorem Unmarked.escapes (unmarked : f.Unmarked) : f.EscapesAll where
  html _ _ h := unmarked.escapes_html h
  innerHtml _ _ _ tree h := unmarked.escapes_inner tree h
  documentText id out h := by
    obtain ⟨whole, told, rfl⟩ := Account.result_map_eq_ok h
    exact ⟨whole, rfl, unmarked.escapes_html told⟩
  renderDocument settings id pretty out h := by
    obtain ⟨whole, told, rfl⟩ := Account.result_map_eq_ok h
    exact ⟨whole, rfl, unmarked.escapes_render told⟩
  render _ _ h := unmarked.escapes_render h
  renderInner _ _ _ _ tree h := unmarked.escapes_inner tree h
  within _ _ _ h := unmarked.escapes_html h

end Forest

end Hypertext
