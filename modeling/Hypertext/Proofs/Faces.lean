import Hypertext.Payload.Write
import Hypertext.Proofs.PrettyPrinting
import Hypertext.Proofs.References

/-! The faces in a tree. Each is the face of an element of the forest that was unfolded, only these have
their texts written, and a payload refers to nothing that their elements do not hold. -/
namespace Hypertext
set_option autoImplicit false

/-! ## Faces -/

namespace Tree

mutual

/-- The faces of all nodes. -/
def faces : Tree → List Face
  | .node x inside children => x :: facesInside inside ++ facesAll children
  | .bare _ children => facesAll children

def facesInside : Option Tree → List Face
  | none => []
  | some t => faces t

def facesAll : List Tree → List Face
  | [] => []
  | t :: rest => faces t ++ facesAll rest

end

variable {x : Face}

theorem mem_facesAll_iff {ts : List Tree} : x ∈ facesAll ts ↔ ∃ t ∈ ts, x ∈ t.faces := by
  induction ts with
  | nil => simp [facesAll]
  | cons t ts ih => simp [facesAll, ih]

end Tree

namespace Forest

variable {f : Forest} {x : Face}

/-- A face is the face of an element, whose other texts come from trees of some depth. -/
def IsFace (f : Forest) (x : Face) : Prop :=
  ∃ id e depth, f.get? id = some e ∧
    x = f.faceOf id e (f.textOfRefBy (·.filterMap (f.treeWithin depth)))

theorem isFace_of_mem {depth : Nat} {v : Datum} {t : Tree} (unfolds : f.treeWithin depth v = some t)
    (mem : x ∈ t.faces) : f.IsFace x := by
  induction depth generalizing v t with
  | zero => cases unfolds
  | succ depth ih =>
    have below : ∀ vs : List Datum, x ∈ Tree.facesAll (vs.filterMap (f.treeWithin depth)) →
        f.IsFace x := by
      intro vs hx
      obtain ⟨u, hu, hx⟩ := Tree.mem_facesAll_iff.1 hx
      obtain ⟨w, -, hw⟩ := List.mem_filterMap.1 hu
      exact ih hw hx
    match v with
    | .ref (.element id) =>
      rw [treeWithin] at unfolds
      obtain ⟨e, there, node⟩ := Option.bind_eq_some_iff.1 unfolds
      obtain rfl := Option.some.inj node
      obtain hx | hx := List.mem_append.1 mem
      · obtain rfl | hx := List.mem_cons.1 hx
        · exact ⟨id, e, depth, there, rfl⟩
        · split at hx
          · cases inside : f.treeWithin depth e.content with
            | none =>
              rw [inside] at hx
              cases hx
            | some u =>
              rw [inside] at hx
              exact ih inside hx
          · cases hx
      · exact below e.children hx
    | .ref (.document d) =>
      rw [treeWithin] at unfolds
      obtain rfl := Option.some.inj unfolds
      exact below (f.rootsOf d) mem
    | .scalar _ | .list _ | .record _ | .renderer .. | .made _ _ =>
      simp only [treeWithin] at unfolds
      obtain rfl := Option.some.inj unfolds
      cases mem

theorem isFace_of_mem_filterMap {depth : Nat} {vs : List Datum}
    (mem : x ∈ Tree.facesAll (vs.filterMap (f.treeWithin depth))) : f.IsFace x := by
  obtain ⟨t, ht, hx⟩ := Tree.mem_facesAll_iff.1 mem
  obtain ⟨v, -, hv⟩ := List.mem_filterMap.1 ht
  exact isFace_of_mem hv hx

end Forest

/-! ## Texts that are written -/

namespace Tree

mutual

/-- The faces whose texts a tree writes, in order. An element in a text slot stands for the text. -/
def texts : Tree → List Face
  | .node x inside children => textsInside x inside ++ textsAll children
  | .bare _ _ => []

def textsInside (x : Face) : Option Tree → List Face
  | none => if x.hasText then [x] else []
  | some t => if x.hasText then texts t else []

def textsAll : List Tree → List Face
  | [] => []
  | t :: rest => texts t ++ textsAll rest

end

/-- The same for what stands within a tree without its own tags. -/
def innerTexts : Tree → List Face
  | .node x inside children => textsInside x inside ++ textsAll children
  | .bare _ children => textsAll children

variable {x : Face}

mutual

theorem mem_faces_of_mem_texts {t : Tree} (mem : x ∈ t.texts) : x ∈ t.faces ∧ x.hasText = true := by
  match t with
  | .bare _ _ => cases mem
  | .node y inside children =>
    obtain mem | mem := List.mem_append.1 mem
    · exact (mem_faces_of_mem_textsInside mem).imp_left (List.mem_append_left _)
    · exact (mem_facesAll_of_mem_textsAll mem).imp_left (List.mem_append_right _)

theorem mem_faces_of_mem_textsInside {y : Face} {inside : Option Tree}
    (mem : x ∈ textsInside y inside) : x ∈ y :: facesInside inside ∧ x.hasText = true := by
  match inside with
  | none =>
    rw [textsInside] at mem
    split at mem
    next text =>
      obtain rfl := List.mem_singleton.1 mem
      exact ⟨List.mem_cons_self, text⟩
    next => cases mem
  | some t =>
    rw [textsInside] at mem
    split at mem
    · exact (mem_faces_of_mem_texts (t := t) mem).imp_left (List.mem_cons_of_mem y)
    · cases mem

theorem mem_facesAll_of_mem_textsAll {ts : List Tree} (mem : x ∈ textsAll ts) :
    x ∈ facesAll ts ∧ x.hasText = true := by
  match ts with
  | [] => cases mem
  | t :: rest =>
    obtain mem | mem := List.mem_append.1 mem
    · exact (mem_faces_of_mem_texts mem).imp_left (List.mem_append_left _)
    · exact (mem_facesAll_of_mem_textsAll mem).imp_left (List.mem_append_right _)

end

theorem mem_faces_of_mem_innerTexts {t : Tree} (mem : x ∈ t.innerTexts) :
    x ∈ t.faces ∧ x.hasText = true := by
  match t with
  | .node _ _ _ => exact mem_faces_of_mem_texts mem
  | .bare _ _ => exact mem_facesAll_of_mem_textsAll mem

end Tree

def Fragment.face? : Fragment → Option Face
  | content x => some x
  | _ => none

namespace Canvas

/-- The faces whose texts stand on a canvas, in order. -/
def contents (c : Canvas) : List Face := c.words.filterMap Fragment.face?

theorem mem_contents {c : Canvas} {x : Face} (mem : .content x ∈ c.fragments) : x ∈ c.contents := by
  have written : .content x ∈ c.words :=
    List.mem_filter.2 ⟨Array.mem_toList_iff.2 mem, rfl⟩
  exact List.mem_filterMap.2 ⟨.content x, written, rfl⟩

theorem contents_of_words {c c' : Canvas} {ys : List Fragment} (h : c'.words = c.words ++ ys) :
    c'.contents = c.contents ++ ys.filterMap Fragment.face? := by
  rw [contents, contents, h, List.filterMap_append]

theorem contents_openElement (c : Canvas) (pretty : Bool) (x : Face) :
    (c.openElement pretty x).contents = c.contents :=
  (contents_of_words (words_openElement c pretty x)).trans (List.append_nil _)

theorem contents_closeElement (c : Canvas) (pretty : Bool) (x : Face) :
    (c.closeElement pretty x).contents = c.contents := by
  refine (contents_of_words (words_closeElement c pretty x)).trans ?_
  split
  · exact List.append_nil _
  · exact List.append_nil _

theorem contents_refusal (c : Canvas) (fault : Fault) : (c.put (.refusal fault)).contents = c.contents :=
  (contents_of_words (words_put c _ rfl)).trans (List.append_nil _)

end Canvas

namespace Tree

mutual

/-- Drawing adds the texts of a tree to those of the canvas, whatever its state and the layout. -/
theorem contents_draw (pretty : Bool) (t : Tree) (c : Canvas) :
    (t.draw pretty c).contents = c.contents ++ t.texts := by
  match t with
  | .node x inside children =>
    rw [draw, Canvas.contents_closeElement, contents_drawAll, contents_drawText,
      Canvas.contents_openElement, texts, List.append_assoc]
  | .bare what children =>
    rw [draw, Canvas.refuse, Canvas.contents_refusal, texts, List.append_nil]

theorem contents_drawText (pretty : Bool) (x : Face) (inside : Option Tree) (c : Canvas) :
    (drawText pretty x inside c).contents = c.contents ++ textsInside x inside := by
  match inside with
  | none =>
    rw [drawText, textsInside]
    split
    · exact Canvas.contents_of_words (Canvas.words_writeText c x)
    · rw [List.append_nil]
  | some t =>
    rw [drawText, textsInside]
    split
    · exact contents_draw pretty t c
    · rw [List.append_nil]

theorem contents_drawAll (pretty : Bool) (ts : List Tree) (c : Canvas) :
    (drawAll pretty ts c).contents = c.contents ++ textsAll ts := by
  match ts with
  | [] => rw [drawAll, textsAll, List.append_nil]
  | t :: rest => rw [drawAll, contents_drawAll, contents_draw, textsAll, List.append_assoc]

end

theorem contents_render (pretty : Bool) (ts : List Tree) :
    (render pretty ts).contents = textsAll ts := by
  rw [render_eq_drawAll, contents_drawAll]
  rfl

theorem contents_renderInner (pretty : Bool) (t : Tree) :
    (renderInner pretty t).contents = t.innerTexts := by
  rw [renderInner_eq_drawInner]
  match t with
  | .node x inside children =>
    rw [drawInner, contents_drawAll, contents_drawText]
    rfl
  | .bare .document children =>
    rw [drawInner, contents_drawAll]
    rfl
  | .bare (.value type) children =>
    rw [drawInner, contents_drawAll, Canvas.refuseInner, Canvas.contents_refusal]
    rfl

end Tree

/-! ## Payloads -/

namespace Face

theorem refs_attributesPayload (x : Face) : x.attributesPayload.refs = [] := by
  show Value.refsList _ = []
  induction x.element.attributes.toList with
  | nil => rfl
  | cons a rest ih => exact ih

/-- What is not spelled refers to nothing. -/
theorem refs_contentPayload (x : Face) : x.contentPayload.refs = [] := by
  rw [contentPayload]
  split
  · rfl
  next plain =>
    refine List.eq_nil_iff_forall_not_mem.2 fun r hr => ?_
    rw [← Value.mem_refs_erased] at hr
    unfold isSpelled at plain
    split at plain
    · rw [‹x.element.content.erased = _›] at hr; cases hr
    · rw [‹x.element.content.erased = _›] at hr; cases hr
    · rw [‹x.element.content.erased = _›] at hr; cases hr
    · rw [‹x.element.content.erased = _›] at hr; cases hr
    · rw [‹x.element.content.erased = _›] at hr; cases hr
    · exact absurd rfl plain

end Face

namespace Tree

variable {r : Ref}

mutual

theorem mem_refs_payload {t : Tree} (mem : r ∈ t.payload.refs) :
    ∃ x ∈ t.faces, r ∈ x.element.tag.refs ++ x.element.mark.refs := by
  match t with
  | .node x inside children =>
    have own : r ∈ x.element.tag.refs ++ x.element.mark.refs →
        ∃ y ∈ (node x inside children).faces, r ∈ y.element.tag.refs ++ y.element.mark.refs :=
      fun mem => ⟨x, List.mem_append_left _ List.mem_cons_self, mem⟩
    rw [payload] at mem
    obtain ⟨field, hfield, mem⟩ := Value.mem_refsFields_iff.1 mem
    obtain hfield | hfield := List.mem_append.1 hfield
    · simp only [List.mem_cons, List.not_mem_nil, or_false] at hfield
      obtain rfl | rfl | rfl | rfl := hfield
      · cases mem
      · exact own (List.mem_append_left _ mem)
      · rw [Face.refs_attributesPayload] at mem
        cases mem
      · obtain ⟨y, hy, mem⟩ := mem_refs_payloads mem
        exact ⟨y, List.mem_append_right _ hy, mem⟩
    · split at hfield
      · simp only [List.mem_cons, List.not_mem_nil, or_false] at hfield
        obtain rfl | rfl := hfield
        · obtain ⟨y, hy, mem⟩ := mem_refs_textPayload mem
          exact ⟨y, List.mem_append_left _ (List.mem_cons_of_mem _ hy), mem⟩
        · exact own (List.mem_append_right _ mem)
      · cases hfield
  | .bare .document children =>
    rw [payload] at mem
    exact mem_refs_payloads (by simpa [Value.refs, Value.refsFields] using mem)
  | .bare (.value _) _ =>
    rw [payload] at mem
    cases mem

theorem mem_refs_textPayload {x : Face} {inside : Option Tree} (mem : r ∈ (textPayload x inside).refs) :
    ∃ y ∈ facesInside inside, r ∈ y.element.tag.refs ++ y.element.mark.refs := by
  match inside with
  | none =>
    rw [textPayload, Face.refs_contentPayload] at mem
    cases mem
  | some t => exact mem_refs_payload (t := t) mem

theorem mem_refs_payloads {ts : List Tree} (mem : r ∈ Value.refsList (payloads ts)) :
    ∃ x ∈ facesAll ts, r ∈ x.element.tag.refs ++ x.element.mark.refs := by
  match ts with
  | [] => cases mem
  | t :: rest =>
    obtain mem | mem := List.mem_append.1 mem
    · obtain ⟨x, hx, mem⟩ := mem_refs_payload mem
      exact ⟨x, List.mem_append_left _ hx, mem⟩
    · obtain ⟨x, hx, mem⟩ := mem_refs_payloads mem
      exact ⟨x, List.mem_append_right _ hx, mem⟩

end

end Tree

/-- A payload refers to nothing but what the elements of a forest hold. -/
theorem Forest.mem_held_of_payload {f : Forest} {r s : Ref} {v : Datum}
    (answer : (f.payload r).result = .ok v) (mem : s ∈ v.refs) : ∃ id, s ∈ f.held (.element id) := by
  simp only [payload, Account.result_bind] at answer
  cases told : (Tree.spellingsAll (f.trees [.ref r])).result with
  | error fault =>
    rw [told] at answer
    cases answer
  | ok _ =>
    rw [told] at answer
    obtain rfl := Except.ok.inj answer
    cases head : (f.trees [.ref r]).head? with
    | none =>
      rw [head] at mem
      cases mem
    | some t =>
      rw [head] at mem
      obtain ⟨x, hx, mem⟩ := Tree.mem_refs_payload (t := t) mem
      obtain ⟨w, -, hw⟩ := List.mem_filterMap.1 (List.mem_of_head? head)
      obtain ⟨id, e, depth, there, rfl⟩ := isFace_of_mem hw hx
      refine ⟨id, ?_⟩
      rw [held, there]
      have mem : s ∈ e.tag.refs ++ e.mark.refs := mem
      simp only [List.mem_append] at mem ⊢
      obtain mem | mem := mem
      · exact .inl (.inr (.inl (.inr mem)))
      · exact .inl (.inr (.inl (.inl (.inr mem))))

end Hypertext
