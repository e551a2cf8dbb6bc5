import Hypertext.Proofs.PrettyPrinting

/-! Tags as brackets. Each tag that is written belongs to one place where an element is held. The
tags of a place enclose exactly the tags of what is below it, void elements are never closed, and
without them the tags are a balanced word. The main statement is `Renderer.tags_well_bracketed`. -/
namespace Hypertext
set_option autoImplicit false

/-! ## Tags that are written -/

def Fragment.isTag : Fragment → Bool
  | opening _ | closing _ => true
  | _ => false

/-- The tags that doing a frame writes. -/
def Frame.tags : Frame → List Fragment
  | .enter (.node x _ _) => [.opening x]
  | .exit x => if x.isVoid then [] else [.closing x]
  | .enter (.bare ..) | .textDone => []

namespace Canvas

def tags (c : Canvas) : List Fragment := c.fragments.toList.filter Fragment.isTag

theorem tags_eq_filter_words (c : Canvas) : c.tags = c.words.filter Fragment.isTag := by
  rw [tags, words, List.filter_filter]
  refine List.filter_congr fun x _ => ?_
  cases x <;> rfl

theorem tags_of_words {c c' : Canvas} {xs : List Fragment} (h : c'.words = c.words ++ xs) :
    c'.tags = c.tags ++ xs.filter Fragment.isTag := by
  rw [tags_eq_filter_words, tags_eq_filter_words, h, List.filter_append]

end Canvas

namespace Walk

variable {pretty : Bool}

theorem tags_beginText (x : Face) (c : Canvas) (inside : Option Tree) :
    (beginText x c inside).tags = c.tags := by
  unfold beginText
  split
  · rfl
  · split
    · exact (Canvas.tags_of_words (Canvas.words_writeText c x)).trans (List.append_nil _)
    · rfl

theorem tags_step (c : Canvas) (frame : Frame) :
    (step pretty c frame).2.tags = c.tags ++ frame.tags := by
  match frame with
  | .enter (.node x inside children) =>
    have opened := Canvas.tags_of_words (Canvas.words_openElement c pretty x)
    exact (tags_beginText x _ inside).trans opened
  | .enter (.bare what children) => exact Canvas.tags_of_words (Canvas.words_put c _ rfl)
  | .textDone => exact (List.append_nil _).symm
  | .exit x =>
    refine (Canvas.tags_of_words (Canvas.words_closeElement c pretty x)).trans ?_
    rw [Frame.tags]
    split <;> rfl

/-- A run writes the tags of its frames, in the order in which these are done. -/
theorem Does.tags {done s s' : List Frame} {c c' : Canvas} (h : Does pretty done s c s' c') :
    c'.tags = c.tags ++ done.flatMap Frame.tags := by
  induction h with
  | refl => exact (List.append_nil _).symm
  | step _ ih => rw [ih, tags_step, List.flatMap_cons, List.append_assoc]

end Walk

/-! ## Brackets -/

/-- An opening or a closing tag, of the element at an address. -/
structure Bracket where
  address : Address
  face : Face
  closes : Bool

namespace Bracket

def fragment (b : Bracket) : Fragment := if b.closes then .closing b.face else .opening b.face

def under (p : Place) (b : Bracket) : Bracket := { b with address := p :: b.address }

/-- The closing tag of an element, which a void one does not have. -/
def closing (a : Address) (x : Face) : List Bracket := if x.isVoid then [] else [⟨a, x, true⟩]

theorem map_under_closing (p : Place) (a : Address) (x : Face) :
    (closing a x).map (under p) = closing (p :: a) x := by
  unfold closing
  split <;> rfl

end Bracket

def Visit.brackets (v : Visit) : List Bracket :=
  match v.frame with
  | .enter (.node x _ _) => [⟨v.address, x, false⟩]
  | .exit x => Bracket.closing v.address x
  | .enter (.bare ..) | .textDone => []

theorem Visit.map_fragment_brackets (v : Visit) : v.brackets.map Bracket.fragment = v.frame.tags := by
  obtain ⟨a, (⟨x, inside, children⟩ | ⟨what, children⟩) | _ | x⟩ := v
  · rfl
  · rfl
  · rfl
  · show (Bracket.closing a x).map _ = if x.isVoid then [] else [Fragment.closing x]
    rw [Bracket.closing]
    split <;> rfl

theorem Visit.brackets_under (p : Place) (v : Visit) :
    (v.under p).brackets = v.brackets.map (Bracket.under p) := by
  obtain ⟨a, (⟨x, inside, children⟩ | ⟨what, children⟩) | _ | x⟩ := v
  · rfl
  · rfl
  · rfl
  · exact (Bracket.map_under_closing p a x).symm

namespace Tree

def brackets (t : Tree) : List Bracket := t.visits.flatMap Visit.brackets

/-- The brackets of trees, each below its place. -/
def bracketsOf (held : List (Place × Tree)) : List Bracket :=
  held.flatMap fun (p, t) => t.brackets.map (Bracket.under p)

/-- Trees with their places among the children of a node, counted from an index. -/
def placed (i : Nat) : List Tree → List (Place × Tree)
  | [] => []
  | t :: rest => (.child i, t) :: placed (i + 1) rest

/-- All that a node holds, with its places. -/
def holdings (x : Face) (inside : Option Tree) (children : List Tree) : List (Place × Tree) :=
  (if x.hasText then inside.toList.map (.inside, ·) else []) ++ placed 0 children

theorem flatMap_brackets_under (p : Place) (vs : List Visit) :
    (vs.map (Visit.under p)).flatMap Visit.brackets =
      (vs.flatMap Visit.brackets).map (Bracket.under p) := by
  rw [List.flatMap_map, List.map_flatMap]
  exact congrArg (vs.flatMap ·) (funext fun v => v.brackets_under p)

theorem flatMap_brackets_visitsFrom (i : Nat) (ts : List Tree) :
    (visitsFrom i ts).flatMap Visit.brackets = bracketsOf (placed i ts) := by
  induction ts generalizing i with
  | nil => rfl
  | cons t ts ih =>
    rw [visitsFrom, List.flatMap_append, flatMap_brackets_under, ih]
    rfl

theorem brackets_node (x : Face) (inside : Option Tree) (children : List Tree) :
    (node x inside children).brackets =
      ⟨[], x, false⟩ :: (bracketsOf (holdings x inside children) ++ Bracket.closing [] x) := by
  have htext : (visitsInside x inside).flatMap Visit.brackets =
      bracketsOf (if x.hasText then inside.toList.map (.inside, ·) else []) := by
    cases inside with
    | none =>
      rw [visitsInside]
      split <;> rfl
    | some t =>
      rw [visitsInside]
      split
      · rw [List.flatMap_append, flatMap_brackets_under]
        rfl
      · rfl
  rw [brackets, visits, List.flatMap_cons, List.flatMap_append, List.flatMap_append, htext,
    flatMap_brackets_visitsFrom, holdings, bracketsOf, bracketsOf, bracketsOf, List.flatMap_append,
    List.flatMap_singleton]
  rfl

/-! ## Places and addresses -/

theorem mem_placed {i : Nat} {ts : List Tree} {p : Place} {t : Tree} :
    (p, t) ∈ placed i ts ↔ ∃ k, p = .child (i + k) ∧ ts[k]? = some t := by
  induction ts generalizing i with
  | nil => simp [placed]
  | cons u ts ih =>
    rw [placed, List.mem_cons, ih]
    constructor
    · rintro (h | ⟨k, rfl, hk⟩)
      · obtain ⟨rfl, rfl⟩ := Prod.mk.inj h
        exact ⟨0, rfl, rfl⟩
      · exact ⟨k + 1, by rw [Nat.add_assoc, Nat.add_comm 1], hk⟩
    · rintro ⟨_ | k, rfl, hk⟩
      · exact .inl (by rw [Option.some.inj hk, Nat.add_zero])
      · exact .inr ⟨k, by rw [Nat.add_assoc, Nat.add_comm 1], hk⟩

/-- Induction on a tree: on all that a node holds. -/
theorem induct {P : Tree → Prop}
    (node : ∀ x inside children, (∀ p t, (p, t) ∈ holdings x inside children → P t) →
      P (.node x inside children))
    (bare : ∀ what children, P (.bare what children)) (t : Tree) : P t := by
  match t with
  | .bare what children => exact bare what children
  | .node x none children =>
    refine node x none children fun p t held => ?_
    rw [holdings, List.mem_append, mem_placed] at held
    obtain held | ⟨k, -, hk⟩ := held
    · simp at held
    · have child := List.mem_of_getElem? hk
      exact induct node bare t
  | .node x (some u) children =>
    refine node x (some u) children fun p t held => ?_
    rw [holdings, List.mem_append, mem_placed] at held
    obtain held | ⟨k, -, hk⟩ := held
    · have here : t = u := by
        split at held
        · exact (Prod.mk.inj (List.mem_singleton.1 held)).2
        · cases held
      exact here ▸ induct node bare u
    · have child := List.mem_of_getElem? hk
      exact induct node bare t

/-- The node at an address is found by way of what is held at its first place. -/
theorem at?_cons {x : Face} {inside : Option Tree} {children : List Tree} {p : Place} {a : Address}
    {u : Tree} : (node x inside children).at? (p :: a) = some u ↔
      ∃ t, (p, t) ∈ holdings x inside children ∧ t.at? a = some u := by
  rw [holdings]
  simp only [List.mem_append, mem_placed, Nat.zero_add]
  cases p with
  | inside =>
    cases inside with
    | none => simp [at?]
    | some t => cases slot : x.hasText <;> simp [at?, slot]
  | child i => cases hchild : children[i]? <;> cases x.hasText <;> simp [at?, hchild]

theorem atAll?_cons {ts : List Tree} {p : Place} {a : Address} {u : Tree} :
    atAll? ts (p :: a) = some u ↔ ∃ t, (p, t) ∈ placed 0 ts ∧ t.at? a = some u := by
  simp only [mem_placed, Nat.zero_add]
  cases p with
  | inside => simp [atAll?]
  | child i => cases hchild : ts[i]? <;> simp [atAll?, hchild]

theorem mem_bracketsOf {held : List (Place × Tree)} {b : Bracket} : b ∈ bracketsOf held ↔
    ∃ p t b', (p, t) ∈ held ∧ b' ∈ t.brackets ∧ b = b'.under p := by
  rw [bracketsOf, List.mem_flatMap]
  constructor
  · rintro ⟨⟨p, t⟩, held, hb⟩
    obtain ⟨b', hb', rfl⟩ := List.mem_map.1 hb
    exact ⟨p, t, b', held, hb', rfl⟩
  · rintro ⟨p, t, b', held, hb', rfl⟩
    exact ⟨(p, t), held, List.mem_map.2 ⟨b', hb', rfl⟩⟩

/-! ## What has brackets -/

/-- Each bracket is one of the element at its address, and a closing one is not of a void element. -/
def IsBracketOf (find : Address → Option Tree) (b : Bracket) : Prop :=
  (∃ inside children, find b.address = some (.node b.face inside children)) ∧
    (b.closes = true → b.face.isVoid = false)

theorem isBracketOf_of_mem (t : Tree) : ∀ b ∈ t.brackets, IsBracketOf t.at? b := by
  induction t using induct with
  | bare what children => exact fun b hb => absurd hb List.not_mem_nil
  | node x inside children ih =>
    intro b hb
    rw [brackets_node, List.mem_cons, List.mem_append, mem_bracketsOf] at hb
    obtain rfl | ⟨p, t, b', held, hb', rfl⟩ | hb := hb
    · exact ⟨⟨inside, children, rfl⟩, (nomatch ·)⟩
    · obtain ⟨⟨inside', children', hat⟩, void⟩ := ih p t held b' hb'
      exact ⟨⟨inside', children', at?_cons.2 ⟨t, held, hat⟩⟩, void⟩
    · rw [Bracket.closing] at hb
      split at hb
      · cases hb
      next notVoid =>
        rw [List.mem_singleton.1 hb]
        exact ⟨⟨inside, children, rfl⟩, fun _ => by simpa using notVoid⟩

theorem isBracketOf_of_mem_roots {ts : List Tree} :
    ∀ b ∈ bracketsOf (placed 0 ts), IsBracketOf (atAll? ts) b := by
  intro b hb
  obtain ⟨p, t, b', held, hb', rfl⟩ := mem_bracketsOf.1 hb
  obtain ⟨⟨inside, children, hat⟩, void⟩ := isBracketOf_of_mem t b' hb'
  exact ⟨⟨inside, children, atAll?_cons.2 ⟨t, held, hat⟩⟩, void⟩

end Tree

/-! ## The order of openings -/

/-- The text slot comes before the children. -/
def Place.rank : Place → Nat
  | inside => 0
  | child i => i + 1

/-- The order of a walk that enters a node before what it holds. -/
def Address.Before (a b : Address) : Prop := a.map Place.rank < b.map Place.rank

theorem Address.before_cons {p : Place} {a b : Address} (h : a.Before b) :
    Address.Before (p :: a) (p :: b) :=
  List.cons_lt_cons_iff.2 (.inr ⟨rfl, h⟩)

theorem Address.before_of_rank_lt {p q : Place} (h : p.rank < q.rank) (a b : Address) :
    Address.Before (p :: a) (q :: b) :=
  List.cons_lt_cons_iff.2 (.inl h)

namespace Tree

/-- Places in their order. -/
def InPlace (held : List (Place × Tree)) : Prop := held.Pairwise (·.1.rank < ·.1.rank)

theorem inPlace_placed (i : Nat) (ts : List Tree) : InPlace (placed i ts) := by
  induction ts generalizing i with
  | nil => exact .nil
  | cons t ts ih =>
    refine List.pairwise_cons.2 ⟨fun (p, u) hu => ?_, ih (i + 1)⟩
    obtain ⟨k, rfl, -⟩ := mem_placed.1 hu
    show i + 1 < i + 1 + k + 1
    omega

theorem inPlace_holdings (x : Face) (inside : Option Tree) (children : List Tree) :
    InPlace (holdings x inside children) := by
  refine List.pairwise_append.2 ⟨?_, inPlace_placed 0 children, fun (p, t) ht (q, u) hu => ?_⟩
  · split
    · cases inside with
      | none => exact .nil
      | some t => exact List.pairwise_singleton _ _
    · exact .nil
  · obtain ⟨k, rfl, -⟩ := mem_placed.1 hu
    split at ht
    · obtain ⟨_, -, h⟩ := List.mem_map.1 ht
      obtain rfl := (Prod.mk.inj h).1
      exact Nat.succ_pos _
    · cases ht

/-- The openings in the order of their addresses. -/
def Preordered (bs : List Bracket) : Prop :=
  (bs.filter (!·.closes)).Pairwise (·.address.Before ·.address)

theorem preordered_bracketsOf {held : List (Place × Tree)} (inPlace : InPlace held)
    (h : ∀ p t, (p, t) ∈ held → Preordered t.brackets) : Preordered (bracketsOf held) := by
  induction held with
  | nil => exact .nil
  | cons head held ih =>
    obtain ⟨p, t⟩ := head
    obtain ⟨first, rest⟩ := List.pairwise_cons.1 inPlace
    have htail := ih rest fun q u hu => h q u (List.mem_cons_of_mem _ hu)
    have hhead : Preordered (t.brackets.map (Bracket.under p)) := by
      rw [Preordered, List.filter_map]
      exact List.pairwise_map.2 ((h p t List.mem_cons_self).imp Address.before_cons)
    rw [bracketsOf, List.flatMap_cons, Preordered, List.filter_append]
    refine List.pairwise_append.2 ⟨hhead, htail, fun b hb c hc => ?_⟩
    obtain ⟨b', -, rfl⟩ := List.mem_map.1 (List.mem_of_mem_filter hb)
    obtain ⟨q, u, c', hu, -, rfl⟩ := mem_bracketsOf.1 (List.mem_of_mem_filter hc)
    exact Address.before_of_rank_lt (first _ hu) _ _

theorem preordered_brackets (t : Tree) : Preordered t.brackets := by
  induction t using induct with
  | bare what children => exact .nil
  | node x inside children ih =>
    have held := preordered_bracketsOf (inPlace_holdings x inside children) ih
    have closed : (Bracket.closing [] x).filter (!·.closes) = [] := by
      rw [Bracket.closing]
      split <;> rfl
    rw [brackets_node, Preordered, List.filter_cons, List.filter_append, closed, List.append_nil]
    refine List.pairwise_cons.2 ⟨fun b hb => ?_, held⟩
    obtain ⟨p, t, b', -, -, rfl⟩ := mem_bracketsOf.1 (List.mem_of_mem_filter hb)
    exact List.nil_lt_cons _ _

/-! ## Enclosing -/

/-- The tags of an address enclose the brackets below this address, and only them. -/
def Encloses (bs : List Bracket) (a : Address) (x : Face) : Prop :=
  ∃ before within after,
    bs = before ++ ⟨a, x, false⟩ :: (within ++ Bracket.closing a x ++ after) ∧
    (∀ b ∈ within, a <+: b.address ∧ b.address ≠ a) ∧ ∀ b ∈ before ++ after, ¬ a <+: b.address

theorem Encloses.under {bs : List Bracket} {a : Address} {x : Face} (h : Encloses bs a x)
    (p : Place) : Encloses (bs.map (Bracket.under p)) (p :: a) x := by
  obtain ⟨before, within, after, rfl, below, apart⟩ := h
  refine ⟨before.map (Bracket.under p), within.map (Bracket.under p), after.map (Bracket.under p),
    ?_, fun b hb => ?_, fun b hb => ?_⟩
  · simp only [List.map_append, List.map_cons, Bracket.map_under_closing]
    rfl
  · obtain ⟨b', hb', rfl⟩ := List.mem_map.1 hb
    obtain ⟨start, proper⟩ := below b' hb'
    exact ⟨List.cons_prefix_cons.2 ⟨rfl, start⟩, fun heq => proper (List.cons.inj heq).2⟩
  · rw [← List.map_append] at hb
    obtain ⟨b', hb', rfl⟩ := List.mem_map.1 hb
    exact fun start => apart b' hb' (List.cons_prefix_cons.1 start).2

theorem Encloses.between {bs : List Bracket} {a : Address} {x : Face} (h : Encloses bs a x)
    {first last : List Bracket} (apart : ∀ b ∈ first ++ last, ¬ a <+: b.address) :
    Encloses (first ++ bs ++ last) a x := by
  obtain ⟨before, within, after, rfl, below, apart'⟩ := h
  refine ⟨first ++ before, within, after ++ last, by simp, below, fun b hb => ?_⟩
  simp only [List.mem_append] at hb apart apart'
  grind

theorem encloses_bracketsOf {held : List (Place × Tree)} (inPlace : InPlace held) {p : Place}
    {t : Tree} (mem : (p, t) ∈ held) {a : Address} {x : Face} (h : Encloses t.brackets a x) :
    Encloses (bracketsOf held) (p :: a) x := by
  obtain ⟨first, last, rfl⟩ := List.append_of_mem mem
  have apart : ∀ b ∈ bracketsOf first ++ bracketsOf last, ¬ (p :: a) <+: b.address := by
    obtain ⟨-, hlast, hfirst⟩ := List.pairwise_append.1 inPlace
    intro b hb start
    obtain hb | hb := List.mem_append.1 hb
    · obtain ⟨q, u, b', hu, -, rfl⟩ := mem_bracketsOf.1 hb
      obtain rfl := (List.cons_prefix_cons.1 start).1
      exact Nat.lt_irrefl _ (hfirst _ hu (p, t) List.mem_cons_self)
    · obtain ⟨q, u, b', hu, -, rfl⟩ := mem_bracketsOf.1 hb
      obtain rfl := (List.cons_prefix_cons.1 start).1
      exact Nat.lt_irrefl _ ((List.pairwise_cons.1 hlast).1 (p, u) hu)
  have hsplit : bracketsOf (first ++ (p, t) :: last) =
      bracketsOf first ++ t.brackets.map (Bracket.under p) ++ bracketsOf last := by
    simp only [bracketsOf, List.flatMap_append, List.flatMap_cons, List.append_assoc]
  rw [hsplit]
  exact (h.under p).between apart

theorem encloses_of_at? (t : Tree) : ∀ (a : Address) (x : Face) (inside : Option Tree)
    (children : List Tree), t.at? a = some (.node x inside children) →
      Encloses t.brackets a x := by
  induction t using induct with
  | bare what children =>
    intro a x inside children h
    cases a <;> simp [at?] at h
  | node x inside children ih =>
    intro a y inside' children' h
    rw [brackets_node]
    cases a with
    | nil =>
      obtain ⟨rfl, -⟩ := by simpa [at?] using h
      refine ⟨[], bracketsOf (holdings x inside children), [], by simp, fun b hb => ?_, by simp⟩
      obtain ⟨p, u, b', -, -, rfl⟩ := mem_bracketsOf.1 hb
      exact ⟨List.nil_prefix, List.cons_ne_nil _ _⟩
    | cons p a =>
      obtain ⟨t, held, hat⟩ := at?_cons.1 h
      have within := encloses_bracketsOf (inPlace_holdings x inside children) held
        (ih p t held a y inside' children' hat)
      suffices apart : ∀ b ∈ [⟨[], x, false⟩] ++ Bracket.closing [] x, ¬ p :: a <+: b.address from
        within.between apart
      intro b hb start
      have root : b.address = [] := by
        rw [Bracket.closing] at hb
        split at hb
        · rw [List.mem_singleton.1 hb]
        · obtain rfl | rfl : b = ⟨[], x, false⟩ ∨ b = ⟨[], x, true⟩ := by simpa using hb
          · rfl
          · rfl
      rw [root] at start
      exact List.cons_ne_nil _ _ (List.prefix_nil.1 start)

/-! ## Balance -/

/-- Each opening has its closing, and between the two everything is balanced too. -/
inductive Balanced : List Bracket → Prop where
  | nil : Balanced []
  | pair {a : Address} {x : Face} {within after : List Bracket} (inner : Balanced within)
      (next : Balanced after) : Balanced (⟨a, x, false⟩ :: (within ++ ⟨a, x, true⟩ :: after))

theorem Balanced.append {bs cs : List Bracket} (first : Balanced bs) (second : Balanced cs) :
    Balanced (bs ++ cs) := by
  induction first with
  | nil => exact second
  | pair inner _ _ ih =>
    rw [List.cons_append, List.append_assoc, List.cons_append]
    exact .pair inner ih

theorem Balanced.under {bs : List Bracket} (h : Balanced bs) (p : Place) :
    Balanced (bs.map (Bracket.under p)) := by
  induction h with
  | nil => exact .nil
  | pair _ _ ihInner ihNext =>
    rw [List.map_cons, List.map_append, List.map_cons]
    exact .pair ihInner ihNext

theorem balanced_bracketsOf {held : List (Place × Tree)}
    (h : ∀ p t, (p, t) ∈ held → Balanced (t.brackets.filter (!·.face.isVoid))) :
    Balanced ((bracketsOf held).filter (!·.face.isVoid)) := by
  induction held with
  | nil => exact .nil
  | cons head held ih =>
    obtain ⟨p, t⟩ := head
    have hhead := (h p t List.mem_cons_self).under p
    have htail := ih fun q u hu => h q u (List.mem_cons_of_mem _ hu)
    rw [bracketsOf, List.flatMap_cons, List.filter_append, List.filter_map]
    exact hhead.append htail

theorem balanced_brackets (t : Tree) : Balanced (t.brackets.filter (!·.face.isVoid)) := by
  induction t using induct with
  | bare what children => exact .nil
  | node x inside children ih =>
    have held := balanced_bracketsOf ih
    rw [brackets_node, Bracket.closing, List.filter_cons, List.filter_append]
    cases void : x.isVoid with
    | true => simpa [void] using held
    | false => simpa [void] using held.pair (a := []) (x := x) .nil

/-- Each place where an element is held has its tags: an opening one in the order of the walk, and,
if the element is not void, a closing one after everything that is held below and before anything
else. Apart from void elements the tags are balanced. -/
structure WellBracketed (ts : List Tree) (bs : List Bracket) : Prop where
  bracket : ∀ b ∈ bs, IsBracketOf (atAll? ts) b
  preordered : Preordered bs
  encloses : ∀ a x inside children, atAll? ts a = some (.node x inside children) → Encloses bs a x
  balanced : Balanced (bs.filter (!·.face.isVoid))

theorem wellBracketed_roots (ts : List Tree) : WellBracketed ts (bracketsOf (placed 0 ts)) where
  bracket := isBracketOf_of_mem_roots
  preordered := preordered_bracketsOf (inPlace_placed 0 ts) fun _ t _ => preordered_brackets t
  encloses := by
    intro a x inside children h
    cases a with
    | nil => cases h
    | cons p a =>
      obtain ⟨t, held, hat⟩ := atAll?_cons.1 h
      exact encloses_bracketsOf (inPlace_placed 0 ts) held (encloses_of_at? t a x inside children hat)
  balanced := balanced_bracketsOf fun _ t _ => balanced_brackets t

theorem tags_render (pretty : Bool) (ts : List Tree) :
    (render pretty ts).tags = (bracketsOf (placed 0 ts)).map Bracket.fragment := by
  have does : Walk.Does pretty _ _ _ _ _ := Walk.does_visitsFrom 0 ts [] .empty
  rw [render_eq_drawAll, does.tags, ← flatMap_brackets_visitsFrom, List.flatMap_map,
    List.map_flatMap]
  exact congrArg ((visitsFrom 0 ts).flatMap ·) (funext fun v => v.map_fragment_brackets.symm)

end Tree

/-- A renderer writes the canvas of its roots' unfolding, laid out or not and whatever its unit of
indentation is, and the tags on this canvas are well bracketed. -/
theorem Renderer.tags_well_bracketed (f : Forest) (r : Renderer)
    (acyclic : ∀ v ∈ r.roots, f.AcyclicBelow v) :
    ∃ ts bs, f.UnfoldsAll r.roots ts ∧
      Renderer.render f r = (do
        .report (.rendering r.roots.length r.pretty)
        (Tree.render (f.truth r.pretty) ts).compose (.ofValue f r.indent)) ∧
      (Tree.render (f.truth r.pretty) ts).tags = bs.map Bracket.fragment ∧
      Tree.WellBracketed ts bs :=
  ⟨f.trees r.roots, _, Forest.unfoldsAll_trees r.roots acyclic, rfl, Tree.tags_render _ _,
    Tree.wellBracketed_roots _⟩

/-- A line break with a text and a paragraph that it holds twice. -/
def Forest.brokenLine : Forest where
  elements := #[
    some { kind := .catalog .br, tag := .text "br", content := .text "<",
           children := [.ref (.element ⟨1⟩), .ref (.element ⟨1⟩)] },
    some { kind := .catalog .p, tag := .text "p", content := .ref (.element ⟨2⟩) },
    some { kind := .catalog .img, tag := .text "img" }]

theorem Forest.brokenLine_acyclic : Forest.brokenLine.Acyclic :=
  Forest.acyclic_of_rank_domain Forest.diamondRank (by decide)

theorem Renderer.tags_well_bracketed_of_brokenLine :
    (∀ v ∈ [Value.ref (.element ⟨0⟩)], Forest.brokenLine.AcyclicBelow v) ∧
      ∃ ts bs, Forest.brokenLine.UnfoldsAll [.ref (.element ⟨0⟩)] ts ∧
        (Tree.render true ts).tags = bs.map Bracket.fragment ∧ Tree.WellBracketed ts bs := by
  have acyclic : ∀ v ∈ [Value.ref (.element ⟨0⟩)], Forest.brokenLine.AcyclicBelow v :=
    fun _ _ _ _ => Forest.brokenLine_acyclic.acyclicFrom _
  obtain ⟨ts, bs, unfolds, -, tags, well⟩ := Renderer.tags_well_bracketed Forest.brokenLine
    ⟨[.ref (.element ⟨0⟩)], .bool true, .text "  "⟩ acyclic
  exact ⟨acyclic, ts, bs, unfolds, tags, well⟩

example : (Renderer.render Forest.brokenLine
    ⟨[.ref (.element ⟨0⟩)], .bool false, .text ""⟩).result =
      .ok "<br>&lt;<p><img></p><p><img></p>" := by cbv

end Hypertext
