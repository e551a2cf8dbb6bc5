import Hypertext.Proofs.Outcome
import Hypertext.Proofs.Unfolding
import Hypertext.Proofs.Visits
import Hypertext.Render.Renderer

/-! Renderers on forests without circles. The walk over frames comes to its end, visits each place
of the unfolding once in each phase, and writes what the recursion on the unfolding writes. -/
namespace Hypertext
set_option autoImplicit false

/-- In each phase a place is visited once if it has this phase, and otherwise never. -/
def VisitedOnce (visits : List Visit) (below : Address → Prop) (find : Address → Option Tree) :
    Prop :=
  ∀ a phase, below a → visits.filter (Visit.isAt a phase) = Tree.visit? phase a (find a)

namespace Tree

theorem visitedOnce_visitsFrom (ts : List Tree) :
    VisitedOnce (visitsFrom 0 ts) (fun _ => True) (atAll? ts) :=
  fun a phase _ => filter_visitsAll ts a phase

theorem visitedOnce_heldVisits {t : Tree}
    (markup : ∃ x inside children, t = .node x inside children) :
    VisitedOnce t.heldVisits (· ≠ []) t.at? := by
  obtain ⟨x, inside, children, rfl⟩ := markup
  intro a phase ha
  cases a with
  | nil => exact absurd rfl ha
  | cons p a => exact filter_heldVisits x inside children p a phase

end Tree

namespace Forest

variable {f : Forest}

/-- An element that is there is the root of a node of its own. -/
theorem Acyclic.unfolds (acyclic : f.Acyclic) {id : ElementId} {e : Element}
    (there : f.get? id = some e) :
    ∃ inside children, f.tree? (.ref (.element id)) = some (.node (f.face id e) inside children) ∧
      f.Unfolds (.ref (.element id)) (.node (f.face id e) inside children) := by
  have htree := tree?_element there (acyclic.acyclicFrom _)
  have below : f.AcyclicBelow (.ref (.element id)) := fun _ _ => acyclic.acyclicFrom _
  exact ⟨_, _, htree, unfolds_of_tree? below htree⟩

/-- Steps that all go to a smaller number leave no circle. Only what is there goes on. -/
theorem acyclic_of_rank_domain (rank : Ref → Nat)
    (h : ∀ r ∈ f.domain, ∀ s ∈ f.shown r, rank s < rank r) : f.Acyclic := by
  refine acyclic_of_rank rank fun r s hs => h r (mem_domain ?_) s hs
  by_contra gone
  cases r with
  | element id =>
    have hnone : f.get? id = none := by simpa [isThere, isAlive] using gone
    simp [Shows, shown, hnone] at hs
  | document id =>
    have hnone : f.roots? id = none := by simpa [isThere] using gone
    simp [Shows, shown, rootsOf, hnone] at hs

end Forest

namespace Renderer

variable {f : Forest}

theorem render_eq_compose (roots : List Datum) (pretty : Bool) (unit : String) :
    Renderer.render f ⟨roots, .bool pretty, .text unit⟩ = (do
      .report (.rendering roots.length (.bool pretty))
      (Tree.drawAll pretty (f.trees roots) .empty).compose (.ofText unit)) := by
  rw [← Tree.render_eq_drawAll]
  rfl

theorem renderInner_eq_compose {on : Datum} {t : Tree} (tree : f.tree? on = some t)
    (roots : List Datum) (pretty : Bool) (unit : String) :
    Renderer.renderInner f ⟨roots, .bool pretty, .text unit⟩ on =
      (t.drawInner pretty .empty).compose (.ofText unit) := by
  rw [← Tree.renderInner_eq_drawInner]
  show (f.drawnInside pretty on).compose _ = _
  rw [Forest.drawnInside, tree]
  rfl

/-- Where nothing comes back to itself, the roots have one finite unfolding. From the frames of its
roots the walk comes to an empty stack and to the canvas of the recursion, it enters and leaves
each place once, and the renderer answers with what this canvas comes to. The same holds of what
an element holds, without its own tags. -/
theorem render_eq_recursion (f : Forest) (acyclic : f.Acyclic) (roots : List Datum)
    (pretty : Bool) (unit : String) :
    (∃ ts, f.UnfoldsAll roots ts ∧ (∀ us, f.UnfoldsAll roots us → us = ts) ∧
      Walk.Does pretty ((Tree.visitsFrom 0 ts).map Visit.frame) (ts.map .enter) .empty []
        (Tree.drawAll pretty ts .empty) ∧
      VisitedOnce (Tree.visitsFrom 0 ts) (fun _ => True) (Tree.atAll? ts) ∧
      Renderer.render f ⟨roots, .bool pretty, .text unit⟩ = (do
        .report (.rendering roots.length (.bool pretty))
        (Tree.drawAll pretty ts .empty).compose (.ofText unit)) ∧
      ((∀ x ∈ (Tree.drawAll pretty ts .empty).fragments, x.IsAnswered) →
        (Renderer.render f ⟨roots, .bool pretty, .text unit⟩).result =
          .ok ((Tree.drawAll pretty ts .empty).text unit))) ∧
    ∀ id e, f.get? id = some e → ∃ t, f.Unfolds (.ref (.element id)) t ∧
      Walk.Does pretty (t.heldVisits.map Visit.frame) (Walk.heldFrames t)
        (Walk.beginContent t .empty) [] (t.drawInner pretty .empty) ∧
      VisitedOnce t.heldVisits (· ≠ []) t.at? ∧
      Renderer.renderInner f ⟨roots, .bool pretty, .text unit⟩ (.ref (.element id)) =
        (t.drawInner pretty .empty).compose (.ofText unit) ∧
      ((∀ x ∈ (t.drawInner pretty .empty).fragments, x.IsAnswered) →
        (Renderer.renderInner f ⟨roots, .bool pretty, .text unit⟩ (.ref (.element id))).result =
          .ok ((t.drawInner pretty .empty).text unit)) := by
  refine ⟨⟨f.trees roots, ?_, ?_, ?_, Tree.visitedOnce_visitsFrom _, render_eq_compose .., ?_⟩, ?_⟩
  · exact Forest.unfoldsAll_trees roots fun _ _ _ _ => acyclic.acyclicFrom _
  · exact fun us hus => hus.unique (Forest.unfoldsAll_trees roots fun _ _ _ _ =>
      acyclic.acyclicFrom _)
  · have h : Walk.Does pretty _ _ _ _ _ := Walk.does_visitsFrom 0 (f.trees roots) [] .empty
    rwa [List.append_nil] at h
  · intro answered
    rw [render_eq_compose, Account.result_bind]
    exact Canvas.result_compose_text _ unit answered
  · intro id e there
    obtain ⟨inside, children, htree, hunfolds⟩ := acyclic.unfolds there
    have hinner := renderInner_eq_compose htree roots pretty unit
    refine ⟨_, hunfolds, Walk.does_heldVisits _ _, Tree.visitedOnce_heldVisits ⟨_, _, _, rfl⟩,
      hinner, fun answered => ?_⟩
    rw [hinner]
    exact Canvas.result_compose_text _ unit answered

end Renderer

/-- A list that holds one paragraph twice, with an element for a text. -/
def Forest.diamond : Forest where
  elements := #[
    some { kind := .catalog .ul, tag := .text "ul",
           children := [.ref (.element ⟨1⟩), .ref (.element ⟨1⟩)] },
    some { kind := .catalog .p, tag := .text "p", parent := .element ⟨2⟩,
           content := .ref (.element ⟨2⟩) },
    some { kind := .catalog .b, tag := .text "b", content := .text "<" }]
  documents := #[some [.ref (.element ⟨0⟩)]]

def Forest.diamondRank : Ref → Nat
  | .element id => 3 - id.index
  | .document _ => 4

theorem Forest.diamond_acyclic : Forest.diamond.Acyclic :=
  Forest.acyclic_of_rank_domain Forest.diamondRank (by decide)

/-- A paragraph with a scalar for a text. -/
def Forest.paragraph (text : Scalar) : Forest where
  elements := #[some { kind := .catalog .p, tag := .text "p", content := .scalar text }]

theorem Forest.paragraph_acyclic (text : Scalar) : (paragraph text).Acyclic :=
  Forest.acyclic_of_rank_domain (fun _ => 0) fun r hr s shown => by
    obtain rfl := List.mem_singleton.1 hr
    exact absurd shown List.not_mem_nil

theorem Renderer.render_diamond_eq_recursion :
    Forest.diamond.Acyclic ∧ ∃ ts, Forest.diamond.UnfoldsAll [.ref (.element ⟨0⟩)] ts ∧
      Walk.Does true ((Tree.visitsFrom 0 ts).map Visit.frame) (ts.map .enter) .empty []
        (Tree.drawAll true ts .empty) := by
  have h := Renderer.render_eq_recursion Forest.diamond Forest.diamond_acyclic
    [.ref (.element ⟨0⟩)] true "  "
  obtain ⟨⟨ts, unfolds, _, does, _⟩, _⟩ := h
  exact ⟨Forest.diamond_acyclic, ts, unfolds, does⟩

example : (Renderer.render Forest.diamond ⟨[.ref (.element ⟨0⟩)], .bool false, .text ""⟩).result =
    .ok "<ul><p><b>&lt;</b></p><p><b>&lt;</b></p></ul>" := by cbv

end Hypertext
