import Hypertext.Attributes.Lemmas
import Hypertext.Construction
import Hypertext.Forest.Lemmas
import Hypertext.Value.Origin

/-! Plans: elements with all that they hold, apart from identities. A plan says what can be told of
a tree of elements from outside; `Forest.HasTree` says that a forest holds such a tree, where each
element is held once and is linked to its holder. -/
namespace Hypertext
set_option autoImplicit false

/-- Whether payloads know a kind and it goes with a tag: the one that it fixes, or any text that is
not empty. -/
def Kind.Fits : Kind → String → Prop
  | .catalog c, tag => tag = c.tag
  | .generic _, tag => tag ≠ ""
  | .heading, _ => False

/-- Whether a payload stores a scalar as it is. -/
def Scalar.IsPlain : Scalar → Prop
  | .choice _ => False
  | _ => True

/-- What is written on one element. Its text counts where no element stands in the slot. -/
structure ElementLabel where
  kind : Kind
  tag : String
  attributes : Attributes
  text : Scalar
  mark : Bool
  fits : kind.Fits tag
  distinct : attributes.Distinct
  plain : text.IsPlain

/-- Whether payloads know the kind of an element and its tag, its attributes have distinct keys and
its mark is a truth value. Its text may be anything. -/
structure Element.IsKnown (e : Element) : Prop where
  tag : ∃ tag, e.tag = .text tag ∧ e.kind.Fits tag
  distinct : e.attributes.Distinct
  mark : e.hasText = true → ∃ b, e.mark = .bool b

/-- The label of an element, with any text that a payload stores as it is. -/
theorem Element.IsKnown.exists_label {e : Element} (known : e.IsKnown) {s : Scalar}
    (plain : s.IsPlain) :
    ∃ label : ElementLabel, e.kind = label.kind ∧ e.tag = .text label.tag ∧
      e.attributes = label.attributes ∧ label.text = s ∧
      (e.hasText = true → e.mark = .bool label.mark) := by
  obtain ⟨tag, htag, fits⟩ := known.tag
  obtain ⟨b, hb⟩ : ∃ b, e.hasText = true → e.mark = .bool b := by
    cases slot : e.hasText with
    | false => exact ⟨false, (nomatch ·)⟩
    | true =>
      obtain ⟨b, hb⟩ := known.mark slot
      exact ⟨b, fun _ => hb⟩
  exact ⟨⟨e.kind, tag, e.attributes, s, b, fits, known.distinct, plain⟩, rfl, htag, rfl, rfl, hb⟩

inductive Plan where
  | node (label : ElementLabel) (inside : Option Plan) (children : List Plan)

namespace Forest

mutual

/-- An element and what it holds are as planned. The identities are listed in the order in which
the elements are written out. -/
inductive Stores (f : Forest) : Plan → ElementId → List ElementId → Prop where
  | node {label : ElementLabel} {inside : Option Plan} {children : List Plan} {id : ElementId}
      {e : Element} {ids ids' : List ElementId} (there : f.get? id = some e)
      (kind : e.kind = label.kind) (tag : e.tag = .text label.tag)
      (attributes : e.attributes = label.attributes) (text : StoresText f id e label inside ids)
      (held : StoresAll f children e.children ids')
      (linked : ∀ child, .ref (.element child) ∈ e.children → f.link child = .element id) :
      Stores f (.node label inside children) id (id :: (ids ++ ids'))

inductive StoresText (f : Forest) :
    ElementId → Element → ElementLabel → Option Plan → List ElementId → Prop where
  | hidden {id : ElementId} {e : Element} {label : ElementLabel} (slot : e.hasText = false) :
      StoresText f id e label none []
  | scalar {id : ElementId} {e : Element} {label : ElementLabel} (slot : e.hasText = true)
      (content : e.content.erased = .scalar label.text) (mark : e.mark = .bool label.mark) :
      StoresText f id e label none []
  | element {id held : ElementId} {e : Element} {label : ElementLabel} {p : Plan}
      {ids : List ElementId} (slot : e.hasText = true) (content : e.content = .ref (.element held))
      (mark : e.mark = .bool label.mark) (inside : Stores f p held ids)
      (linked : f.link held = .element id) : StoresText f id e label (some p) ids

inductive StoresAll (f : Forest) : List Plan → List Datum → List ElementId → Prop where
  | nil : StoresAll f [] [] []
  | cons {p : Plan} {ps : List Plan} {id : ElementId} {vs : List Datum}
      {ids ids' : List ElementId} (head : Stores f p id ids) (tail : StoresAll f ps vs ids') :
      StoresAll f (p :: ps) (.ref (.element id) :: vs) (ids ++ ids')

end

/-- A tree of elements as planned below an element without a parent. Nothing is held twice. -/
def HasTree (f : Forest) (p : Plan) (root : ElementId) : Prop :=
  f.link root = .absent ∧ ∃ ids, f.Stores p root ids ∧ ids.Nodup

/-- A document with such trees, none of which has the document for a parent. -/
def HasTrees (f : Forest) (ps : List Plan) (d : DocumentId) : Prop :=
  f.isThere (.document d) = true ∧
    (∀ root, .ref (.element root) ∈ f.rootsOf d → f.link root = .absent) ∧
    ∃ ids, f.StoresAll ps (f.rootsOf d) ids ∧ ids.Nodup

variable {f g : Forest}

/-! ## Identities -/

theorem Stores.root_mem {p : Plan} {id : ElementId} {ids : List ElementId}
    (h : f.Stores p id ids) : id ∈ ids := by
  cases h with
  | node => exact List.mem_cons_self

theorem StoresAll.child_mem {ps : List Plan} {vs : List Datum} {ids : List ElementId}
    (h : f.StoresAll ps vs ids) {child : ElementId} (hchild : .ref (.element child) ∈ vs) :
    child ∈ ids := by
  match h with
  | .nil => exact absurd hchild List.not_mem_nil
  | .cons head tail =>
    rw [List.mem_append]
    obtain h | h := List.mem_cons.1 hchild
    · obtain rfl : child = _ := by simpa using h
      exact .inl head.root_mem
    · exact .inr (tail.child_mem h)

mutual

theorem Stores.there {p : Plan} {id : ElementId} {ids : List ElementId} (h : f.Stores p id ids) :
    ∀ i ∈ ids, ∃ e, f.get? i = some e := by
  match h with
  | .node there _ _ _ text held _ =>
    intro i hi
    obtain rfl | hi := List.mem_cons.1 hi
    · exact ⟨_, there⟩
    obtain hi | hi := List.mem_append.1 hi
    · exact StoresText.there text i hi
    · exact StoresAll.there held i hi

theorem StoresText.there {id : ElementId} {e : Element} {label : ElementLabel}
    {inside : Option Plan} {ids : List ElementId} (h : f.StoresText id e label inside ids) :
    ∀ i ∈ ids, ∃ e, f.get? i = some e := by
  match h with
  | .hidden _ | .scalar _ _ _ => exact fun i hi => absurd hi List.not_mem_nil
  | .element _ _ _ inside _ => exact Stores.there inside

theorem StoresAll.there {ps : List Plan} {vs : List Datum} {ids : List ElementId}
    (h : f.StoresAll ps vs ids) : ∀ i ∈ ids, ∃ e, f.get? i = some e := by
  match h with
  | .nil => exact fun i hi => absurd hi List.not_mem_nil
  | .cons head tail =>
    intro i hi
    obtain hi | hi := List.mem_append.1 hi
    · exact Stores.there head i hi
    · exact StoresAll.there tail i hi

end

/-! ## Lists -/

theorem StoresAll.length_eq {ps : List Plan} {vs : List Datum} {ids : List ElementId}
    (stores : f.StoresAll ps vs ids) : vs.length = ps.length := by
  match stores with
  | .nil => rfl
  | .cons _ tail => rw [List.length_cons, List.length_cons, tail.length_eq]

theorem StoresAll.append {ps ps' : List Plan} {vs vs' : List Datum} {ids ids' : List ElementId}
    (first : f.StoresAll ps vs ids) (second : f.StoresAll ps' vs' ids') :
    f.StoresAll (ps ++ ps') (vs ++ vs') (ids ++ ids') := by
  match first with
  | .nil => exact second
  | .cons head tail =>
    rw [List.append_assoc]
    exact .cons head (tail.append second)

/-! ## Other forests with the same elements -/

theorem link_eq_element {id parent : ElementId} {e : Element} (there : f.get? id = some e)
    (hparent : e.parent = .element parent) (alive : f.isAlive parent = true) :
    f.link id = .element parent := by
  have hlink : ((f.get? id).map (·.parent)).getD .absent = .element parent := by
    rw [there]
    exact hparent
  rw [link, hlink]
  exact if_pos alive

theorem link_eq_absent {id : ElementId} {e : Element} (there : f.get? id = some e)
    (hparent : e.parent = .absent) : f.link id = .absent := by
  have hlink : ((f.get? id).map (·.parent)).getD .absent = .absent := by
    rw [there]
    exact hparent
  rw [link, hlink]

/-- A link to a parent depends on the element and on whether the parent is there. -/
theorem link_congr {id parent : ElementId} (same : g.get? id = f.get? id)
    (there : ∃ e, g.get? parent = some e) (h : f.link id = .element parent) :
    g.link id = .element parent := by
  rw [link] at h ⊢
  rw [same]
  split at h
  next other hother =>
    split at h
    · obtain rfl : other = parent := by simpa using h
      obtain ⟨e, he⟩ := there
      exact if_pos (by simp [isAlive, he])
    · cases h
  next hother => exact absurd h (hother parent)

mutual

theorem Stores.congr {p : Plan} {id : ElementId} {ids : List ElementId} (h : f.Stores p id ids)
    (same : ∀ i ∈ ids, g.get? i = f.get? i) : g.Stores p id ids := by
  match h with
  | .node there kind tag attributes text held linked =>
    have hid := same _ List.mem_cons_self
    refine .node (hid.trans there) kind tag attributes
      (StoresText.congr text (fun i hi => same i (by simp [hi])) ⟨_, hid.trans there⟩)
      (StoresAll.congr held fun i hi => same i (by simp [hi])) fun child hchild => ?_
    exact link_congr (same child (by simp [held.child_mem hchild])) ⟨_, hid.trans there⟩
      (linked child hchild)

theorem StoresText.congr {id : ElementId} {e : Element} {label : ElementLabel}
    {inside : Option Plan} {ids : List ElementId} (h : f.StoresText id e label inside ids)
    (same : ∀ i ∈ ids, g.get? i = f.get? i) (holder : ∃ e, g.get? id = some e) :
    g.StoresText id e label inside ids := by
  match h with
  | .hidden slot => exact .hidden slot
  | .scalar slot content mark => exact .scalar slot content mark
  | .element slot content mark inside linked =>
    exact .element slot content mark (Stores.congr inside same)
      (link_congr (same _ inside.root_mem) holder linked)

theorem StoresAll.congr {ps : List Plan} {vs : List Datum} {ids : List ElementId}
    (h : f.StoresAll ps vs ids) (same : ∀ i ∈ ids, g.get? i = f.get? i) :
    g.StoresAll ps vs ids := by
  match h with
  | .nil => exact .nil
  | .cons head tail =>
    exact .cons (Stores.congr head fun i hi => same i (by simp [hi]))
      (StoresAll.congr tail fun i hi => same i (by simp [hi]))

end

/-- A text slot as planned depends on the kind, the content and the mark of its element. -/
theorem StoresText.of_eq {id : ElementId} {e e' : Element} {label : ElementLabel}
    {inside : Option Plan} {ids : List ElementId} (h : f.StoresText id e label inside ids)
    (kind : e'.kind = e.kind) (content : e'.content = e.content) (mark : e'.mark = e.mark) :
    f.StoresText id e' label inside ids := by
  have hslot : e'.hasText = e.hasText := congrArg Kind.hasText kind
  cases h with
  | hidden slot => exact .hidden (hslot.trans slot)
  | scalar slot hcontent hmark =>
    exact .scalar (hslot.trans slot) (content ▸ hcontent) (mark.trans hmark)
  | element slot hcontent hmark inside linked =>
    exact .element (hslot.trans slot) (content.trans hcontent) (mark.trans hmark) inside linked

theorem Stores.relink {p : Plan} {id : ElementId} {ids : List ElementId} (h : f.Stores p id ids)
    (nodup : ids.Nodup) (parent : ParentLink) : (f.setParent id parent).Stores p id ids := by
  cases h with
  | @node label inside children _ e idsText idsAll there kind tag attributes text held linked =>
    have hid : (f.setParent id parent).get? id = some { e with parent } := by
      rw [get?_setParent, if_pos rfl, there]
      rfl
    have hother : ∀ i, i ∈ idsText ++ idsAll → (f.setParent id parent).get? i = f.get? i := by
      intro i hi
      rw [get?_setParent, if_neg]
      rintro rfl
      exact (List.nodup_cons.1 nodup).1 hi
    refine .node hid kind tag attributes ?_
      (held.congr fun i hi => hother i (List.mem_append_right _ hi)) fun child hchild => ?_
    · have htext := text.congr (fun i hi => hother i (List.mem_append_left _ hi)) ⟨_, hid⟩
      exact htext.of_eq rfl rfl rfl
    · exact link_congr (hother child (List.mem_append_right _ (held.child_mem hchild))) ⟨_, hid⟩
        (linked child hchild)

end Forest

end Hypertext
