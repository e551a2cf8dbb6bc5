import Mathlib.Data.List.Induction
import Hypertext.Proofs.Rebuilding
import Hypertext.Proofs.Verbatim

/-! Where the elements of a tree that was read come from. A payload becomes a proper tree: one element
for each node, held at one place and linked to its holder, and text is written as it is below the nodes
that say so. The main statement is `Payload.node_rebuilds`. -/
namespace Hypertext.Payload
set_option autoImplicit false

open Hypertext.Action (Runs)
open Forest (linkTo)

variable {f g : Forest} {v : Datum} {made : Path → Ref} {x : ElementId} {e : Element}

/-- A payload has become a tree. The node at each path has become what `made` tells, an object of its
own, and nothing else is new. Below the root each element is held at one place more than before it was
there, and is linked to its holder; the root is held at none. Up to the limit on walks, text is written
as it is where some node on the way from the root says so, and nowhere else. -/
structure Rebuilds (f g : Forest) (v : Datum) (made : Path → Ref) : Prop where
  old : GrowsAt f g (made [])
  new : ∀ r, g.isThere r = true ∧ f.isThere r = false ↔
    ∃ p, (at? v p).isSome = true ∧ made p = r
  distinct : ∀ p q, (at? v p).isSome = true → (at? v q).isSome = true → made p = made q → p = q
  node : ∀ p n, at? v p = some n → Mirrors g n (made p) fun turn => made (p ++ [turn])
  held : ∀ p turn, (at? v (p ++ [turn])).isSome = true →
    ∃ x home, made (p ++ [turn]) = .element x ∧ turn.place? (made p) = some home ∧
      (∀ place, g.Stands x place ↔ place = home ∨ f.Stands x place) ∧ g.link x = linkTo (made p)
  root : ∀ x, made [] = .element x → g.link x = .absent ∧ ∀ place, g.Stands x place ↔ f.Stands x place
  verbatim : ∀ p x, (at? v p).isSome = true → made p = .element x →
    ∃ above, g.Lineage x above ∧ (above.length ≤ ancestorLimit →
      ∃ b, (g.isVerbatim x).result = .ok b ∧
        (b = true ↔ ∃ q n, q <+: p ∧ at? v q = some n ∧ isMarked n = true))

theorem exists_at {p : Path} {turn : Turn} (h : (at? v (p ++ [turn])).isSome = true) :
    ∃ n, at? v p = some n ∧ (below? n turn).isSome = true := by
  rw [at?_append] at h
  cases hn : at? v p with
  | none => rw [hn] at h; cases h
  | some n => exact ⟨n, rfl, by rwa [hn] at h⟩

namespace Whole

variable (whole : Whole f g v made)
include whole

theorem linked {p : Path} {turn : Turn} (h : (at? v (p ++ [turn])).isSome = true) :
    ∃ x e, made (p ++ [turn]) = .element x ∧ g.get? x = some e ∧ e.parent = linkTo (made p) := by
  obtain ⟨n, hn, below⟩ := exists_at h
  exact (whole.node p n hn).linked turn below

theorem isThere {p : Path} (h : (at? v p).isSome = true) : g.isThere (made p) = true := by
  obtain ⟨n, hn⟩ := Option.isSome_iff_exists.1 h
  exact (whole.node p n hn).there

/-- Documents are nobody's children. -/
theorem eq_nil_of_document {p : Path} {d : DocumentId} (h : (at? v p).isSome = true)
    (document : made p = .document d) : p = [] := by
  cases p using List.reverseRecOn with
  | nil => rfl
  | append_singleton p turn =>
    obtain ⟨x, e, hx, -⟩ := whole.linked h
    cases document.symm.trans hx

/-! ## New and old -/

theorem isThere_old {r : Ref} (there : f.isThere r = true) : made [] ≠ r := by
  rintro rfl
  rw [whole.fresh] at there
  cases there

theorem isThere_made {p : Path} (h : (at? v p).isSome = true) : f.isThere (made p) = false := by
  cases hp : made p with
  | element x => exact isAlive_of_new ((whole.numbers x).2 ⟨p, h, hp⟩).1
  | document d =>
    rw [← hp, whole.eq_nil_of_document h hp]
    exact whole.fresh

theorem exists_made {r : Ref} (there : g.isThere r = true) (fresh : f.isThere r = false) :
    ∃ p, (at? v p).isSome = true ∧ made p = r := by
  cases r with
  | element x =>
    obtain ⟨e, he⟩ := Option.isSome_iff_exists.1 there
    by_cases hx : f.elements.size ≤ x.index
    · exact (whole.numbers x).1 ⟨hx, Forest.index_lt he⟩
    · by_cases root : made [] = .element x
      · exact ⟨[], rfl, root⟩
      · have same := whole.grows.same x (Nat.lt_of_not_le hx) root
        rw [Forest.isThere, Forest.isAlive, ← same, he] at fresh
        cases fresh
  | document d =>
    by_cases root : made [] = .document d
    · exact ⟨[], rfl, root⟩
    · rw [Forest.isThere, whole.grows.roots d root] at there
      rw [Forest.isThere, there] at fresh
      cases fresh

/-! ## Places -/

theorem childrenOf_old {h : Ref} (there : f.isThere h = true) : g.childrenOf h = f.childrenOf h := by
  have hne := whole.isThere_old there
  cases h with
  | element id =>
    obtain ⟨e, he⟩ := Option.isSome_iff_exists.1 there
    rw [Forest.childrenOf, Forest.childrenOf, whole.grows.same id (Forest.index_lt he) hne]
  | document d =>
    rw [Forest.childrenOf, Forest.childrenOf, Forest.rootsOf, Forest.rootsOf,
      whole.grows.roots d hne]

theorem stands_of_old {place : Forest.Place} (stands : f.Stands x place) : g.Stands x place := by
  cases place with
  | child h i =>
    have there := Forest.isThere_of_mem_childrenOf (List.mem_of_getElem? stands)
    rw [Forest.Stands, whole.childrenOf_old there]
    exact stands
  | text id =>
    obtain ⟨e, he, stands⟩ := stands
    have alive : f.isThere (.element id) = true := by
      rw [Forest.isThere, Forest.isAlive, he]
      rfl
    have same := whole.grows.same id (Forest.index_lt he) (whole.isThere_old alive)
    exact ⟨e, same.trans he, stands⟩

/-- What is held now was held before, or it is held by what is new. -/
theorem stands_cases {place : Forest.Place} (stands : g.Stands x place) :
    f.Stands x place ∨ ∃ p turn, (at? v (p ++ [turn])).isSome = true ∧
      turn.place? (made p) = some place ∧ made (p ++ [turn]) = .element x := by
  -- a place belongs to a holder, which is old or new
  have new {h : Ref} (turn : Turn) (there : g.isThere h = true) (fresh : f.isThere h = false)
      (hplace : turn.place? h = some place) : ∃ p turn, (at? v (p ++ [turn])).isSome = true ∧
        turn.place? (made p) = some place ∧ made (p ++ [turn]) = .element x := by
    obtain ⟨p, hp, rfl⟩ := whole.exists_made there fresh
    obtain ⟨n, hn⟩ := Option.isSome_iff_exists.1 hp
    obtain ⟨below, hx⟩ := ((whole.node p n hn).has turn x).1 ⟨place, hplace, stands⟩
    exact ⟨p, turn, by rwa [at?_append, hn], hplace, hx⟩
  cases place with
  | child h i =>
    have there := Forest.isThere_of_mem_childrenOf (List.mem_of_getElem? stands)
    cases fresh : f.isThere h with
    | false => exact .inr (new (.child i) there fresh rfl)
    | true =>
      rw [Forest.Stands, whole.childrenOf_old fresh] at stands
      exact .inl stands
  | text id =>
    obtain ⟨e, he, slot, content⟩ := stands
    have there : g.isThere (.element id) = true := by
      rw [Forest.isThere, Forest.isAlive, he]
      rfl
    cases fresh : f.isThere (.element id) with
    | false => exact .inr (new .text there fresh rfl)
    | true =>
      obtain ⟨e', he'⟩ := Option.isSome_iff_exists.1 fresh
      have same := whole.grows.same id (Forest.index_lt he') (whole.isThere_old fresh)
      exact .inl ⟨e, same.symm.trans he, slot, content⟩

theorem link_eq {p : Path} {turn : Turn} (h : (at? v (p ++ [turn])).isSome = true)
    (hx : made (p ++ [turn]) = .element x) : g.link x = linkTo (made p) := by
  obtain ⟨y, e, hy, he, parent⟩ := whole.linked h
  obtain rfl := Ref.element.inj (hy.symm.trans hx)
  obtain ⟨n, hn, -⟩ := exists_at h
  have there := (whole.node p n hn).there
  cases hp : made p with
  | element id =>
    rw [hp] at parent there
    exact Forest.link_eq_element he parent there
  | document d =>
    rw [hp] at parent
    exact Forest.link_eq_absent he parent

theorem link_root (hx : made [] = .element x) : g.link x = .absent := by
  obtain ⟨e, he, parent⟩ := whole.unlinked x hx
  exact Forest.link_eq_absent he parent

/-! ## Marks -/

theorem isMarked_eq {p : Path} {n : Datum} (hn : at? v p = some n) (hx : made p = .element x) :
    g.isMarked x = isMarked n := by
  obtain ⟨e, he, kind, mark⟩ := (whole.node p n hn).label x hx
  have slot : hasText n = e.hasText := by
    rw [hasText, kind]
    rfl
  rw [Forest.isMarked, he]
  show (e.hasText && g.truth e.mark) = isMarked n
  cases h : e.hasText with
  | true =>
    rw [mark h]
    rfl
  | false => rw [isMarked, slot.trans h, Bool.false_and, Bool.false_and]

theorem isMarked_of_document {d : DocumentId} (root : made [] = .document d) : isMarked v = false := by
  have kind := (whole.node [] v rfl).document d root
  rw [isMarked, hasText, kind]
  rfl

/-- The elements above that of a node are those of the nodes above it, by induction on the path from
the root. -/
theorem exists_lineage {p : Path} {n : Datum} (hn : at? v p = some n) (hx : made p = .element x) :
    ∃ above, g.Lineage x above ∧ ((g.isMarked x || above.any g.isMarked) = true ↔
      ∃ q n, q <+: p ∧ at? v q = some n ∧ isMarked n = true) := by
  induction p using List.reverseRecOn generalizing x n with
  | nil =>
    refine ⟨[], whole.link_root hx, ?_⟩
    simp [whole.isMarked_eq hn hx, ← Option.some.inj hn, at?]
  | append_singleton p turn ih =>
    have h := isSome_of_eq hn
    obtain ⟨n', hn', -⟩ := exists_at h
    have link := whole.link_eq h hx
    -- a node above is the last one or stands above that
    have marked : (∃ q n, q <+: p ++ [turn] ∧ at? v q = some n ∧ isMarked n = true) ↔
        isMarked n = true ∨ ∃ q n, q <+: p ∧ at? v q = some n ∧ isMarked n = true := by
      simp [List.prefix_concat_iff, or_and_right, exists_or, hn]
    rw [marked]
    cases hp : made p with
    | element y =>
      obtain ⟨above, lineage, iff⟩ := ih hn' hp
      rw [hp] at link
      refine ⟨y :: above, ⟨link, lineage⟩, ?_⟩
      rw [← iff, List.any_cons, Bool.or_eq_true, whole.isMarked_eq hn hx]
    | document d =>
      obtain rfl := whole.eq_nil_of_document (isSome_of_eq hn') hp
      rw [hp] at link
      refine ⟨[], link, ?_⟩
      simp [whole.isMarked_eq hn hx, at?, whole.isMarked_of_document hp]

theorem verbatim {p : Path} (h : (at? v p).isSome = true) (hx : made p = .element x) :
    ∃ above, g.Lineage x above ∧ (above.length ≤ ancestorLimit →
      ∃ b, (g.isVerbatim x).result = .ok b ∧
        (b = true ↔ ∃ q n, q <+: p ∧ at? v q = some n ∧ isMarked n = true)) := by
  obtain ⟨n, hn⟩ := Option.isSome_iff_exists.1 h
  obtain ⟨above, lineage, iff⟩ := whole.exists_lineage hn hx
  refine ⟨above, lineage, fun within => ⟨g.isMarked x || above.any g.isMarked, ?_, iff⟩⟩
  have all : (above.map g.isMarked).take ancestorLimit = above.map g.isMarked :=
    List.take_of_length_le (by rwa [List.length_map])
  have marks : (above.map g.isMarked).any (fun mark => mark) = above.any g.isMarked := by
    rw [List.any_map]
    rfl
  rw [Forest.isVerbatim_eq lineage, verbatimOf, all, marks, List.length_map,
    if_neg (Nat.not_lt.2 within)]
  cases above.any g.isMarked with
  | true =>
    rw [Bool.or_true]
    rfl
  | false =>
    rw [Bool.or_false]
    rfl

/-! ## The whole tree -/

theorem rebuilds : Rebuilds f g v made where
  old := whole.grows
  new r := ⟨fun ⟨there, fresh⟩ => whole.exists_made there fresh, by
    rintro ⟨p, hp, rfl⟩
    exact ⟨whole.isThere hp, whole.isThere_made hp⟩⟩
  distinct := whole.distinct
  node := whole.node
  held p turn h := by
    obtain ⟨x, e, hx, -⟩ := whole.linked h
    obtain ⟨n, hn, below⟩ := exists_at h
    obtain ⟨home, hhome, stands⟩ := ((whole.node p n hn).has turn x).2 ⟨below, hx⟩
    refine ⟨x, home, hx, hhome, fun place => ⟨fun hplace => ?_, ?_⟩, whole.link_eq h hx⟩
    · obtain old | ⟨q, turn', h', hplace, hx'⟩ := whole.stands_cases hplace
      · exact .inr old
      · obtain ⟨rfl, same⟩ := List.append_inj' (whole.distinct _ _ h' h (hx'.trans hx.symm)) rfl
        obtain rfl := List.singleton_inj.1 same
        exact .inl (Option.some.inj (hplace.symm.trans hhome))
    · rintro (rfl | old)
      · exact stands
      · exact whole.stands_of_old old
  root x hx := by
    refine ⟨whole.link_root hx, fun place => ⟨fun hplace => ?_, whole.stands_of_old⟩⟩
    obtain old | ⟨q, turn, h, -, hx'⟩ := whole.stands_cases hplace
    · exact old
    · have same := whole.distinct _ [] h rfl (hx'.trans hx.symm)
      exact absurd same (by simp)
  verbatim p x := whole.verbatim

end Whole

/-- Whatever data without references are read, they become a proper tree of new elements. -/
theorem node_rebuilds {v : Datum} (plain : v.refs = []) {r : Ref} {s s' : Store}
    (runs : Runs (node v) s r s') : ∃ made, made [] = r ∧ Rebuilds s.forest s'.forest v made := by
  obtain ⟨made, root, whole⟩ := whole_of_runs plain runs
  exact ⟨made, root, whole.rebuilds⟩

/-- A paragraph whose text is a bold element, written as it is. -/
def signedParagraph : Datum :=
  .record [("_type", .text "P"), ("unsafe", .bool true), ("text", .record [("_type", .text "B")])]

theorem signedParagraph_isElement : IsElement signedParagraph := by
  have bold : IsElement (.record [("_type", .text "B")]) :=
    .record rfl rfl (nomatch ·) rfl (fun _ h => nomatch h) (fun _ _ h => nomatch h) rfl
      fun _ h => nomatch h
  refine .record rfl rfl (nomatch ·) rfl (fun _ h => nomatch h) (fun _ w hw _ => ?_) rfl
    fun _ h => nomatch h
  obtain rfl := Option.some.inj hw
  exact bold

/-- The bold element has no mark of its own, and the paragraph's counts for it. -/
theorem node_rebuilds_of_signedParagraph : signedParagraph.refs = [] ∧
    ∃ r s' made, Runs (node signedParagraph) {} r s' ∧ made [] = r ∧
      Rebuilds {} s'.forest signedParagraph made ∧
      ∃ x, made [.text] = .element x ∧ (s'.forest.isVerbatim x).result = .ok true := by
  obtain ⟨id, s', runs⟩ := alwaysReads_of_isElement signedParagraph_isElement rfl {}
  obtain ⟨made, root, rebuilds⟩ := node_rebuilds (v := signedParagraph) rfl runs
  refine ⟨rfl, _, s', made, runs, root, rebuilds, ?_⟩
  obtain ⟨x, -, hx, -, -, link⟩ := rebuilds.held [] .text rfl
  obtain ⟨top, -⟩ := rebuilds.root id root
  obtain ⟨above, lineage, flag⟩ := rebuilds.verbatim [.text] x rfl hx
  rw [root] at link
  have one : above.length ≤ 1 := by
    match above, lineage with
    | [], _ => exact Nat.zero_le 1
    | [_], _ => exact Nat.le_refl 1
    | y :: z :: _, ⟨hy, hz, _⟩ =>
      obtain rfl : id = y := ParentLink.element.inj (link.symm.trans hy)
      cases top.symm.trans hz
  obtain ⟨b, hb, iff⟩ := flag (Nat.le_trans one (by decide))
  rw [iff.2 ⟨[], signedParagraph, List.nil_prefix, rfl, by decide⟩] at hb
  exact ⟨x, hx, hb⟩

end Hypertext.Payload
