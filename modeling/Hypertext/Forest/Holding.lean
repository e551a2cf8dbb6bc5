import Hypertext.Forest

/-! Who holds whom, and what becomes of elements and documents that nobody holds. What has lost its
last holder is released at once, together with what it alone held; what holds itself in a circle
stays until a collection finds that nothing reaches it. -/
namespace Hypertext
set_option autoImplicit false

/-- One slot for each reference: the even ones for elements, the odd ones for documents. -/
def Ref.slot : Ref → Nat
  | .element id => 2 * id.index
  | .document id => 2 * id.index + 1

theorem Ref.slot_inj {r s : Ref} : r.slot = s.slot ↔ r = s := by
  refine ⟨fun h => ?_, fun h => h ▸ rfl⟩
  obtain ⟨⟨i⟩⟩ | ⟨⟨i⟩⟩ := r <;> obtain ⟨⟨j⟩⟩ | ⟨⟨j⟩⟩ := s <;> simp only [slot] at h <;> grind

namespace Forest

def slots (f : Forest) : Nat := 2 * max f.elements.size f.documents.size

/-- What an element or document holds; an element with a style holds itself. -/
def held (f : Forest) : Ref → List Ref
  | .element id =>
    match f.get? id with
    | none => []
    | some e =>
      Value.refsList e.children
        ++ (e.content.refs ++ e.mark.refs ++ e.tag.refs ++ Value.refsFields e.undeclared)
        ++ if e.styled then [.element id] else []
  | .document id => Value.refsList (f.rootsOf id)

def domain (f : Forest) : List Ref :=
  ((List.range f.elements.size).map (Ref.element ⟨·⟩)
    ++ (List.range f.documents.size).map (Ref.document ⟨·⟩)).filter f.isThere

def flags (size : Nat) (refs : List Ref) : Array Bool :=
  refs.foldl (fun flags r => flags.setIfInBounds r.slot true) (Array.replicate size false)

/-! ## Collection -/

theorem count_set_lt {unseen : Array Bool} {i : Nat} (h : i < unseen.size)
    (hi : unseen[i] = true) : (unseen.set i false).count true < unseen.count true := by
  have hpos : 0 < unseen.count true := Array.count_pos_iff.2 (hi ▸ Array.getElem_mem h)
  rw [Array.count_set h, hi, if_pos (by decide), if_neg (by decide)]
  omega

/-- What can be reached from `pending` within `unseen`, after what is found already. Each step
either passes over a reference or takes it out of `unseen`. -/
def gather (f : Forest) (unseen : Array Bool) (found pending : List Ref) : List Ref :=
  match pending with
  | [] => found
  | r :: pending =>
    if h : r.slot < unseen.size then
      if unseen[r.slot] then
        gather f (unseen.set r.slot false) (r :: found) (f.held r ++ pending)
      else gather f unseen found pending
    else gather f unseen found pending
termination_by (unseen.count true, pending.length)
decreasing_by
  · exact Prod.Lex.left _ _ (count_set_lt h ‹_›)
  · exact Prod.Lex.right _ (by simp)
  · exact Prod.Lex.right _ (by simp)

def reachable (f : Forest) (roots : List Ref) : List Ref :=
  f.gather (flags f.slots f.domain) [] roots

/-- Empties the slots for which a test fails. -/
def keep (f : Forest) (test : Ref → Bool) : Forest where
  elements := f.elements.mapIdx fun i e => if test (.element ⟨i⟩) then e else none
  documents := f.documents.mapIdx fun i roots => if test (.document ⟨i⟩) then roots else none

def keepOnly (f : Forest) (refs : List Ref) : Forest :=
  let kept := flags f.slots refs
  f.keep fun r => kept[r.slot]?.getD false

def collect (f : Forest) (roots : List Ref) : Forest := f.keepOnly (f.reachable roots)

/-! ## Release -/

/-- One holder more for each of some references. -/
def hold (counts : Array Nat) (refs : List Ref) : Array Nat :=
  refs.foldl (fun counts r => counts.modify r.slot (· + 1)) counts

/-- For each slot, how many times it is held: from outside, or by what is there. -/
def holdings (f : Forest) (given : List Ref) : Array Nat :=
  f.domain.foldl (fun counts r => hold counts (f.held r)) (hold (Array.replicate f.slots 0) given)

/-- One holder less for a reference; without any it waits to be released. -/
def unhold (state : Array Nat × List Ref) (r : Ref) : Array Nat × List Ref :=
  let (counts, waiting) := state
  let left := counts[r.slot]?.getD 0 - 1
  (counts.setIfInBounds r.slot left, if left = 0 then r :: waiting else waiting)

/-- What waits and what is released with it, after what is released already. Each slot waits once at
most, so the number of slots suffices as fuel. -/
def release (f : Forest) : Nat → Array Nat → List Ref → List Ref → List Ref
  | 0, _, released, _ => released
  | _ + 1, _, released, [] => released
  | fuel + 1, counts, released, r :: waiting =>
    let (counts, waiting) := (f.held r).foldl unhold (counts, waiting)
    release f fuel counts (r :: released) waiting

/-- What ends with its last holder, where the roots are held from outside. -/
def unheld (f : Forest) (roots : List Ref) : List Ref :=
  let counts := f.holdings roots
  f.release (f.slots + 1) counts [] (f.domain.filter fun r => counts[r.slot]?.getD 0 == 0)

def without (f : Forest) (refs : List Ref) : Forest :=
  let gone := flags f.slots refs
  f.keep fun r => !gone[r.slot]?.getD false

/-- Drops everything that nothing holds any more. -/
def settle (f : Forest) (roots : List Ref) : Forest :=
  match f.unheld roots with
  | [] => f
  | gone => f.without gone

end Forest

end Hypertext
