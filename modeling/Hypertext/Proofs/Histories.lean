import Hypertext.Attributes.Call
import Hypertext.Proofs.SetAlgebra

/-! Histories of a collection of attributes. What a collection holds after any calls is told from the
calls alone, by a ledger: for each key its value and when the key got it. A collection lists its pairs
in the order of these times. The main statement is `after_follows_history`. -/
namespace Hypertext.Attributes
set_option autoImplicit false

/-! ## The ledger of a history -/

/-- A value of a key, and how many calls came before the one that gave the key this value. -/
structure Entry where
  value : String
  since : Nat
  deriving DecidableEq, Repr

abbrev Ledger := String → Option Entry

namespace Ledger

def drop (ledger : Ledger) (key : String) : Ledger :=
  fun other => if other = key then none else ledger other

/-- Writing the value that a key has already is no change, so the time stays as well. -/
def put (ledger : Ledger) (key value : String) (now : Nat) : Ledger :=
  if (ledger key).map (·.value) = some value then ledger
  else fun other => if other = key then some ⟨value, now⟩ else ledger other

/-- No key among these got its value earlier. -/
def isOldest (ledger : Ledger) (keys : List String) (key : String) : Bool :=
  (ledger key).any fun e => keys.all fun other => (ledger other).all fun d => e.since ≤ d.since

end Ledger

variable {ρ : Type}

/-- What a value writes: a choice writes its value, and null takes the attribute out. -/
def written? : Value ρ → Option String
  | .text s => some s
  | .choice c => some c.value
  | .null => none
  | v => Attribute.valueOf? v

namespace Call

/-- The key that a call is about. -/
def key? : Call ρ → Option String
  | .set key _ | .assign key _ | .get key _ | .getItem key | .deleteItem key | .remove key => some key
  | .add pair | .discard pair | .containsPair pair => some pair.key
  | .contains _ | .pop | .clear | .size | .nonempty | .render | .literal => none

/-- What a call enters into a ledger, where these are the keys that earlier calls were about. -/
def enter (now : Nat) (keys : List String) (ledger : Ledger) : Call ρ → Ledger
  | .set key value | .assign key value =>
    match written? value with
    | none => ledger.drop key
    | some value => ledger.put key value now
  | .add pair => ledger.put pair.key pair.value now
  | .remove key | .deleteItem key => ledger.drop key
  | .discard pair =>
    if (ledger pair.key).map (·.value) = some pair.value then ledger.drop pair.key else ledger
  | .pop => fun key => if ledger.isOldest keys key then none else ledger key
  | .clear => fun _ => none
  | .get .. | .getItem _ | .containsPair _ | .contains _ | .size | .nonempty | .render
  | .literal => ledger

/-- A call fails that reads or deletes a key without a value, or takes a pair out of none. -/
inductive Fails (ledger : Ledger) : Call ρ → Fault → Prop
  | getItem {key : String} : ledger key = none → Fails ledger (.getItem key) (.keyMissing key)
  | deleteItem {key : String} : ledger key = none → Fails ledger (.deleteItem key) (.keyMissing key)
  | pop : (∀ key, ledger key = none) → Fails ledger .pop .collectionEmpty

/-- These calls answer whether they changed anything. -/
def reportsChange : Call ρ → Bool
  | .set .. | .add _ | .remove _ => true
  | _ => false

end Call

/-- The collection after calls on an empty one. The latest call stands first. -/
def after : List (Call ρ) → Attributes
  | [] => empty
  | call :: earlier => (call.run (after earlier)).2

/-- The ledger of calls, of which the latest stands first. -/
def ledgerOf : List (Call ρ) → Ledger
  | [] => fun _ => none
  | call :: earlier =>
    call.enter earlier.length (earlier.filterMap Call.key?) (ledgerOf earlier)

/-- The collection is what the ledger says before this time. -/
structure Recounts (c : Attributes) (ledger : Ledger) (now : Nat) : Prop where
  distinct : c.Distinct
  mem : ∀ a, a ∈ c.toList ↔ ∃ t, ledger a.key = some ⟨a.value, t⟩
  past : ∀ key e, ledger key = some e → e.since < now
  ordered : c.toList.Pairwise fun a b =>
    ∀ d e, ledger a.key = some d → ledger b.key = some e → d.since < e.since

variable {c : Attributes} {ledger : Ledger} {now : Nat} {a : Attribute} {key : String} {e : Entry}

/-! ## Entries of changed ledgers -/

theorem drop_eq_some_iff {other : String} :
    ledger.drop key other = some e ↔ other ≠ key ∧ ledger other = some e := by
  by_cases h : other = key <;> simp [Ledger.drop, h]

theorem put_of_same {value : String} (h : (ledger key).map (·.value) = some value) :
    ledger.put key value now = ledger := by rw [Ledger.put, if_pos h]

theorem put_eq_some_iff {value : String} (h : (ledger key).map (·.value) ≠ some value)
    {other : String} : ledger.put key value now other = some e ↔
      (other = key ∧ e = ⟨value, now⟩) ∨ ledger.drop key other = some e := by
  rw [Ledger.put, if_neg h, drop_eq_some_iff]
  by_cases hkey : other = key
  · simp [hkey, eq_comm]
  · simp [hkey]

/-! ## Steps -/

theorem run_contains (c : Attributes) (item : Value ρ) : ((Call.contains item).run c).2 = c := by
  cases item with
  | scalar s => cases s <;> rfl
  | list | record | ref | renderer | made => rfl

theorem recounts_empty (now : Nat) : Recounts empty (fun _ => none) now where
  distinct := List.nodup_nil
  mem a := by simp [empty]
  past _ _ he := by cases he
  ordered := List.Pairwise.nil

namespace Recounts

theorem entry (h : Recounts c ledger now) (ha : a ∈ c.toList) :
    ∃ t, ledger a.key = some ⟨a.value, t⟩ := (h.mem a).1 ha

theorem pair_mem (h : Recounts c ledger now) (he : ledger key = some e) :
    ⟨key, e.value⟩ ∈ c.toList := (h.mem ⟨key, e.value⟩).2 ⟨e.since, he⟩

theorem value_iff (h : Recounts c ledger now) :
    (ledger a.key).map (·.value) = some a.value ↔ a ∈ c.toList := by
  rw [Option.map_eq_some_iff, h.mem]
  constructor
  · rintro ⟨⟨value, t⟩, he, rfl⟩
    exact ⟨t, he⟩
  · rintro ⟨t, he⟩
    exact ⟨_, he, rfl⟩

theorem find?_none_iff (h : Recounts c ledger now) : c.find? key = none ↔ ledger key = none := by
  rw [find?_eq_none_iff]
  constructor
  · intro absent
    refine Option.eq_none_iff_forall_ne_some.2 fun e he => ?_
    exact absent _ (h.pair_mem he) rfl
  · rintro absent a ha rfl
    obtain ⟨t, he⟩ := h.entry ha
    rw [absent] at he
    cases he

theorem toList_eq_nil_iff (h : Recounts c ledger now) :
    c.toList = [] ↔ ∀ key, ledger key = none := by
  constructor
  · intro none key
    rw [← h.find?_none_iff, find?, none]
    rfl
  · intro absent
    refine List.eq_nil_iff_forall_not_mem.2 fun a ha => ?_
    obtain ⟨t, he⟩ := h.entry ha
    rw [absent a.key] at he
    cases he

theorem get?_eq (h : Recounts c ledger now) : c.get? key = (ledger key).map (·.value) := by
  rw [get?]
  cases he : ledger key with
  | none =>
    rw [h.find?_none_iff.2 he]
    rfl
  | some e =>
    rw [(find?_eq_some_iff h.distinct).2 ⟨h.pair_mem he, rfl⟩]
    rfl

theorem mono (h : Recounts c ledger now) {later : Nat} (hle : now ≤ later) :
    Recounts c ledger later where
  distinct := h.distinct
  mem := h.mem
  past key e he := Nat.lt_of_lt_of_le (h.past key e he) hle
  ordered := h.ordered

theorem drop (h : Recounts c ledger now) (key : String) :
    Recounts (c.erase key) (ledger.drop key) now where
  distinct := distinct_erase h.distinct key
  mem a := by
    simp only [erase, List.mem_filter, bne_iff_ne, h.mem, drop_eq_some_iff, exists_and_left,
      and_comm]
  past other e he := h.past other e (drop_eq_some_iff.1 he).2
  ordered := by
    refine (h.ordered.filter _).imp fun hab d e hd he => ?_
    exact hab d e (drop_eq_some_iff.1 hd).2 (drop_eq_some_iff.1 he).2

/-- A new value comes last, since its time is the latest. -/
theorem put (h : Recounts c ledger now) (a : Attribute) :
    Recounts (c.add a) (ledger.put a.key a.value now) (now + 1) := by
  by_cases ha : a ∈ c.toList
  · rw [add_of_mem h.distinct ha, put_of_same (h.value_iff.2 ha)]
    exact h.mono (Nat.le_succ now)
  have hnew : (ledger a.key).map (·.value) ≠ some a.value := fun same => ha (h.value_iff.1 same)
  have hdrop := h.drop a.key
  have htoList : (c.add a).toList = (c.erase a.key).toList ++ [a] := toList_add_of_notMem h.distinct ha
  have hother : ∀ b ∈ (c.erase a.key).toList, b.key ≠ a.key := by
    intro b hb
    obtain ⟨t, he⟩ := hdrop.entry hb
    exact (drop_eq_some_iff.1 he).1
  refine ⟨distinct_add h.distinct a, fun b => ?_, fun key e he => ?_, ?_⟩
  · simp only [htoList, List.mem_append, List.mem_singleton, hdrop.mem, put_eq_some_iff hnew]
    constructor
    · rintro (⟨t, he⟩ | rfl)
      · exact ⟨t, .inr he⟩
      · exact ⟨now, .inl ⟨rfl, rfl⟩⟩
    · rintro ⟨t, ⟨hkey, he⟩ | he⟩
      · obtain ⟨hvalue, -⟩ := Entry.mk.inj he
        obtain ⟨key, value⟩ := b
        subst hkey hvalue
        exact .inr rfl
      · exact .inl ⟨t, he⟩
  · rcases (put_eq_some_iff hnew).1 he with ⟨-, rfl⟩ | he
    · exact Nat.lt_succ_self now
    · exact Nat.lt_succ_of_lt (hdrop.past key e he)
  · rw [htoList, List.pairwise_append]
    refine ⟨?_, List.pairwise_singleton _ a, fun b hb x hx d e hd he => ?_⟩
    · refine hdrop.ordered.imp_of_mem fun {x y} hx hy hxy d e hd he => ?_
      rcases (put_eq_some_iff hnew).1 hd with ⟨hkey, -⟩ | hd
      · exact absurd hkey (hother x hx)
      rcases (put_eq_some_iff hnew).1 he with ⟨hkey, -⟩ | he
      · exact absurd hkey (hother y hy)
      exact hxy d e hd he
    · obtain rfl := List.mem_singleton.1 hx
      rcases (put_eq_some_iff hnew).1 hd with ⟨hkey, -⟩ | hd
      · exact absurd hkey (hother b hb)
      rcases (put_eq_some_iff hnew).1 he with ⟨-, rfl⟩ | he
      · exact hdrop.past b.key d hd
      · exact absurd rfl (drop_eq_some_iff.1 he).1

theorem write (h : Recounts c ledger now) (key : String) (value : Value ρ) :
    Recounts (c.write key (Attribute.valueOf? value)) ((Call.set key value).enter now [] ledger)
      (now + 1) := by
  have hvalue : Attribute.valueOf? value = written? value := by
    unfold written?
    split <;> rfl
  rw [hvalue, Call.enter]
  cases written? value with
  | none => exact (h.drop key).mono (Nat.le_succ now)
  | some text => exact h.put ⟨key, text⟩

theorem discard (h : Recounts c ledger now) (a : Attribute) : Recounts (c.discard a)
    (if (ledger a.key).map (·.value) = some a.value then ledger.drop a.key else ledger) now := by
  rw [Attributes.discard]
  by_cases ha : a ∈ c.toList
  · rw [if_pos ((has_iff_mem h.distinct).2 ha), if_pos (h.value_iff.2 ha)]
    exact h.drop a.key
  · rw [if_neg fun has => ha ((has_iff_mem h.distinct).1 has),
      if_neg fun same => ha (h.value_iff.1 same)]
    exact h

/-- The first pair is the one that is there for the longest time. -/
theorem isOldest_iff (h : Recounts c ledger now) {keys : List String}
    (known : ∀ key e, ledger key = some e → key ∈ keys) {rest : List Attribute}
    (first : c.toList = a :: rest) (key : String) :
    ledger.isOldest keys key = true ↔ key = a.key := by
  have hordered := h.ordered
  rw [first, List.pairwise_cons] at hordered
  obtain ⟨t, ha⟩ := h.entry (first ▸ List.mem_cons_self : a ∈ c.toList)
  simp only [Ledger.isOldest, Option.any_eq_true, List.all_eq_true, Option.all_eq_true,
    decide_eq_true_iff]
  constructor
  · rintro ⟨e, he, least⟩
    have hmem := h.pair_mem he
    rw [first, List.mem_cons] at hmem
    rcases hmem with hfirst | hrest
    · exact congrArg Attribute.key hfirst
    · have hlt := hordered.1 _ hrest _ e ha he
      have hle := least a.key (known _ _ ha) _ ha
      omega
  · rintro rfl
    refine ⟨_, ha, fun other _ d hd => ?_⟩
    have hmem := h.pair_mem hd
    rw [first, List.mem_cons] at hmem
    rcases hmem with rfl | hrest
    · exact Nat.le_of_eq (congrArg Entry.since (Option.some.inj (ha.symm.trans hd)))
    · exact Nat.le_of_lt (hordered.1 _ hrest _ d ha hd)

theorem toList_discard_first (h : Recounts c ledger now) {rest : List Attribute}
    (first : c.toList = a :: rest) : (c.discard a).toList = rest := by
  have ha : a ∈ c.toList := first ▸ List.mem_cons_self
  have hdistinct := h.distinct
  rw [Distinct, first, List.map_cons, List.nodup_cons] at hdistinct
  have hother : ∀ b ∈ rest, (b.key != a.key) = true := by
    intro b hb
    exact bne_iff_ne.2 fun same => hdistinct.1 (same ▸ List.mem_map_of_mem hb)
  rw [Attributes.discard, if_pos ((has_iff_mem h.distinct).2 ha), erase, first,
    List.filter_cons_of_neg (by simp), List.filter_eq_self.2 hother]

theorem pop (h : Recounts c ledger now) {keys : List String}
    (known : ∀ key e, ledger key = some e → key ∈ keys) :
    Recounts ((Call.pop : Call ρ).run c).2 ((Call.pop : Call ρ).enter now keys ledger) now := by
  rw [Call.run, Call.enter, pop?]
  cases first : c.toList with
  | nil =>
    have hnone := h.toList_eq_nil_iff.1 first
    have hledger : (fun key => if ledger.isOldest keys key then none else ledger key) = ledger := by
      funext key
      rw [hnone key, ite_self]
    rw [hledger]
    exact h
  | cons a rest =>
    have ha : a ∈ c.toList := first ▸ List.mem_cons_self
    have hledger : (fun key => if ledger.isOldest keys key then none else ledger key) =
        ledger.drop a.key := by
      funext key
      simp only [Ledger.drop, h.isOldest_iff known first]
    have hdiscard := h.discard a
    rw [if_pos (h.value_iff.2 ha)] at hdiscard
    rw [hledger]
    exact hdiscard

/-- One call takes the collection and its ledger along. -/
theorem step (h : Recounts c ledger now) {keys : List String}
    (known : ∀ key e, ledger key = some e → key ∈ keys) (call : Call ρ) :
    Recounts (call.run c).2 (call.enter now keys ledger) (now + 1) := by
  have later : now ≤ now + 1 := Nat.le_succ now
  cases call with
  | set key value => exact h.write key value
  | assign key value => exact h.write key value
  | get key fallback =>
    rw [Call.run]
    split <;> exact h.mono later
  | getItem key =>
    rw [Call.run]
    split <;> exact h.mono later
  | deleteItem key =>
    rw [Call.run, Call.enter]
    split
    · exact (h.drop key).mono later
    · next absent =>
      have hnone : ledger key = none := by
        rw [← h.find?_none_iff]
        simpa [hasKey] using absent
      have hledger : ledger.drop key = ledger := by
        funext other
        rw [Ledger.drop]
        split
        · next same => rw [same, hnone]
        · rfl
      rw [hledger]
      exact h.mono later
  | remove key => exact (h.drop key).mono later
  | add pair => exact h.put pair
  | discard pair => exact (h.discard pair).mono later
  | pop => exact (h.pop known).mono later
  | clear => exact recounts_empty _
  | contains item =>
    rw [run_contains]
    exact h.mono later
  | containsPair | size | nonempty | render | literal => exact h.mono later

end Recounts

/-! ## Runs -/

/-- Only a key that a call was about has an entry. -/
theorem known_of_entry (history : List (Call ρ)) (key : String) (e : Entry)
    (he : ledgerOf history key = some e) : key ∈ history.filterMap Call.key? := by
  induction history generalizing key e with
  | nil => cases he
  | cons call earlier ih =>
    have before : ledgerOf earlier key = some e →
        key ∈ (call :: earlier).filterMap Call.key? := by
      intro he
      rw [List.filterMap_cons]
      split
      · exact ih key e he
      · exact List.mem_cons_of_mem _ (ih key e he)
    have dropped : ∀ {other : String}, (ledgerOf earlier).drop other key = some e →
        key ∈ (call :: earlier).filterMap Call.key? :=
      fun he => before (drop_eq_some_iff.1 he).2
    have written : ∀ {other value : String}, call.key? = some other →
        (ledgerOf earlier).put other value earlier.length key = some e →
        key ∈ (call :: earlier).filterMap Call.key? := by
      intro other value about he
      by_cases same : (ledgerOf earlier other).map (·.value) = some value
      · rw [put_of_same same] at he
        exact before he
      · rcases (put_eq_some_iff same).1 he with ⟨rfl, -⟩ | he
        · rw [List.filterMap_cons_some about]
          exact List.mem_cons_self
        · exact dropped he
    rw [ledgerOf] at he
    cases call with
    | set other value | assign other value =>
      cases text : written? value with
      | none =>
        simp only [Call.enter, text] at he
        exact dropped he
      | some text' =>
        simp only [Call.enter, text] at he
        exact written rfl he
    | add pair => exact written rfl he
    | remove other | deleteItem other => exact dropped he
    | discard pair =>
      rw [Call.enter] at he
      split at he
      · exact dropped he
      · exact before he
    | pop =>
      simp only [Call.enter] at he
      split at he
      · cases he
      · exact before he
    | clear => cases he
    | get | getItem | containsPair | contains | size | nonempty | render | literal =>
      exact before he

theorem recounts_after (history : List (Call ρ)) :
    Recounts (after history) (ledgerOf history) history.length := by
  induction history with
  | nil => exact recounts_empty 0
  | cons call earlier ih => exact ih.step (known_of_entry earlier) call

/-! ## What one call does -/

theorem hasKey_iff : c.hasKey key = true ↔ c.erase key ≠ c := by
  have hself : c.erase key = c ↔ c.find? key = none := by
    rw [find?_eq_none_iff]
    constructor
    · intro same a ha
      rw [← same, erase, List.mem_filter, bne_iff_ne] at ha
      exact ha.2
    · intro absent
      have hfilter := List.filter_eq_self.2 fun a ha => bne_iff_ne.2 (absent a ha)
      exact congrArg mk hfilter
  rw [Ne, hself, hasKey, Option.isSome_iff_ne_none]

theorem not_has_iff : (!c.has a) = true ↔ c.add a ≠ c := by
  rw [Bool.not_eq_true']
  constructor
  · intro absent same
    have hfind := find?_add c a a.key
    rw [same, if_pos rfl] at hfind
    rw [has_iff.2 hfind] at absent
    cases absent
  · intro changed
    by_contra present
    rw [Bool.not_eq_false] at present
    exact changed (if_pos present)

theorem changes_iff (value : Option String) :
    c.changes key value = true ↔ c.write key value ≠ c := by
  cases value with
  | none => exact hasKey_iff
  | some value => exact not_has_iff

/-- The pairs of other keys stay, in their order. -/
theorem others_erase (c : Attributes) (key : String) :
    (c.erase key).toList.filter (·.key != key) = c.toList.filter (·.key != key) := by
  rw [erase, List.filter_filter]
  simp only [Bool.and_self]

theorem others_add (c : Attributes) (a : Attribute) :
    (c.add a).toList.filter (·.key != a.key) = c.toList.filter (·.key != a.key) := by
  rw [add]
  split
  · rfl
  · rw [List.filter_append, List.filter_cons_of_neg (by simp), List.filter_nil, List.append_nil]
    exact others_erase c a.key

theorem others_run (call : Call ρ) (about : call.key? = some key) :
    (call.run c).2.toList.filter (·.key != key) = c.toList.filter (·.key != key) := by
  have hwrite : ∀ value, (c.write key value).toList.filter (·.key != key) =
      c.toList.filter (·.key != key) := by
    intro value
    cases value with
    | none => exact others_erase c key
    | some value => exact others_add c ⟨key, value⟩
  cases call with
  | set other value | assign other value =>
    obtain rfl := Option.some.inj about
    exact hwrite _
  | get other fallback =>
    rw [Call.run]
    split <;> rfl
  | getItem other =>
    rw [Call.run]
    split <;> rfl
  | deleteItem other =>
    obtain rfl := Option.some.inj about
    rw [Call.run]
    split
    · exact others_erase c other
    · rfl
  | remove other =>
    obtain rfl := Option.some.inj about
    exact others_erase c other
  | add pair =>
    obtain rfl := Option.some.inj about
    exact others_add c pair
  | discard pair =>
    obtain rfl := Option.some.inj about
    rw [Call.run, Attributes.discard]
    split
    · exact others_erase c pair.key
    · rfl
  | containsPair pair => rfl
  | contains | pop | clear | size | nonempty | render | literal => cases about

theorem reported (call : Call ρ) (reports : call.reportsChange = true) :
    ∃ b, (call.run c).1 = .ok (.bool b) ∧ (b = true ↔ (call.run c).2 ≠ c) := by
  cases call with
  | set key value => exact ⟨_, rfl, changes_iff _⟩
  | add pair => exact ⟨_, rfl, not_has_iff⟩
  | remove key => exact ⟨_, rfl, hasKey_iff⟩
  | _ => cases reports

/-! ## Failures -/

theorem run_getItem (h : Recounts c ledger now) (key : String) :
    (Call.getItem key : Call ρ).run c = match ledger key with
      | some e => (.ok (.text e.value), c)
      | none => (.error (.keyMissing key), c) := by
  rw [Call.run, h.get?_eq]
  cases ledger key <;> rfl

theorem run_deleteItem (h : Recounts c ledger now) (key : String) :
    (Call.deleteItem key : Call ρ).run c = match ledger key with
      | some _ => (.ok .null, c.erase key)
      | none => (.error (.keyMissing key), c) := by
  have hkey : c.hasKey key = (ledger key).isSome := by
    rw [Bool.eq_iff_iff, hasKey, Option.isSome_iff_ne_none, Option.isSome_iff_ne_none, Ne, Ne,
      h.find?_none_iff]
  rw [Call.run, hkey]
  cases ledger key <;> rfl

theorem run_pop_cons (h : Recounts c ledger now) {rest : List Attribute}
    (first : c.toList = a :: rest) :
    (Call.pop : Call ρ).run c = (.ok (pairValue a), ⟨rest⟩) := by
  have hrest : c.discard a = ⟨rest⟩ := congrArg mk (h.toList_discard_first first)
  rw [Call.run, pop?, first, List.head?_cons, Option.map_some, hrest]

theorem run_pop_nil (none : c.toList = []) :
    (Call.pop : Call ρ).run c = (.error .collectionEmpty, c) := by
  rw [Call.run, pop?, none]
  rfl

/-- These calls have an answer whatever the collection holds. -/
theorem run_ok (c : Attributes) (call : Call ρ) : (∃ v, (call.run c).1 = .ok v) ∨
    (∃ key, call = .getItem key ∨ call = .deleteItem key) ∨ call = .pop := by
  cases call with
  | getItem key => exact .inr (.inl ⟨key, .inl rfl⟩)
  | deleteItem key => exact .inr (.inl ⟨key, .inr rfl⟩)
  | pop => exact .inr (.inr rfl)
  | get key fallback =>
    left
    rw [Call.run]
    split <;> exact ⟨_, rfl⟩
  | contains item =>
    left
    cases item with
    | scalar s => cases s <;> exact ⟨_, rfl⟩
    | list | record | ref | renderer | made => exact ⟨_, rfl⟩
  | set | assign | remove | add | discard | containsPair | clear | size | nonempty | render
  | literal => exact .inl ⟨_, rfl⟩

theorem fails_getItem_iff {fault : Fault} : (Call.getItem key : Call ρ).Fails ledger fault ↔
    ledger key = none ∧ fault = .keyMissing key := by
  constructor
  · intro fails
    cases fails with
    | getItem absent => exact ⟨absent, rfl⟩
  · rintro ⟨absent, rfl⟩
    exact .getItem absent

theorem fails_deleteItem_iff {fault : Fault} :
    (Call.deleteItem key : Call ρ).Fails ledger fault ↔
      ledger key = none ∧ fault = .keyMissing key := by
  constructor
  · intro fails
    cases fails with
    | deleteItem absent => exact ⟨absent, rfl⟩
  · rintro ⟨absent, rfl⟩
    exact .deleteItem absent

theorem fails_pop_iff {fault : Fault} : (Call.pop : Call ρ).Fails ledger fault ↔
    (∀ key, ledger key = none) ∧ fault = .collectionEmpty := by
  constructor
  · intro fails
    cases fails with
    | pop absent => exact ⟨absent, rfl⟩
  · rintro ⟨absent, rfl⟩
    exact .pop absent

/-- A call that fails does so for the one cause that it has, and changes nothing. -/
theorem run_error_iff (h : Recounts c ledger now) (call : Call ρ) (fault : Fault) :
    (call.run c).1 = .error fault ↔ call.Fails ledger fault := by
  rcases run_ok c call with ⟨v, hv⟩ | ⟨key, rfl | rfl⟩ | rfl
  · rw [hv]
    constructor
    · intro failed
      cases failed
    · intro fails
      cases fails with
      | getItem absent =>
        rw [run_getItem h, absent] at hv
        cases hv
      | deleteItem absent =>
        rw [run_deleteItem h, absent] at hv
        cases hv
      | pop absent =>
        rw [run_pop_nil (h.toList_eq_nil_iff.2 absent)] at hv
        cases hv
  · rw [run_getItem h, fails_getItem_iff]
    cases ledger key <;> simp [eq_comm]
  · rw [run_deleteItem h, fails_deleteItem_iff]
    cases ledger key <;> simp [eq_comm]
  · rw [fails_pop_iff, ← h.toList_eq_nil_iff]
    cases first : c.toList with
    | nil =>
      rw [run_pop_nil first]
      simp [eq_comm]
    | cons a rest =>
      rw [run_pop_cons h first]
      simp

theorem run_of_error (h : Recounts c ledger now) (call : Call ρ) {fault : Fault}
    (failed : (call.run c).1 = .error fault) : (call.run c).2 = c := by
  cases (run_error_iff h call fault).1 failed with
  | getItem absent => rw [run_getItem h, absent]
  | deleteItem absent => rw [run_deleteItem h, absent]
  | pop absent => rw [run_pop_nil (h.toList_eq_nil_iff.2 absent)]

/-- What a next call answers, and what it leaves. -/
structure Answers (c : Attributes) (ledger : Ledger) (call : Call ρ) : Prop where
  get : ∀ key fallback, call = .get key fallback →
    call.run c = (.ok ((ledger key).elim fallback fun e => .text e.value), c)
  getItem : ∀ key e, call = .getItem key → ledger key = some e →
    call.run c = (.ok (.text e.value), c)
  render : call = .render → call.run c =
    (.ok (.text (" ".intercalate (c.toList.map fun a => a.key ++ "=\"" ++ a.value ++ "\""))), c)
  pop : call = .pop → ∀ a rest, c.toList = a :: rest →
    call.run c = (.ok (pairValue a), ⟨rest⟩)
  reports : call.reportsChange = true →
    ∃ b, (call.run c).1 = .ok (.bool b) ∧ (b = true ↔ (call.run c).2 ≠ c)
  others : ∀ key, call.key? = some key →
    (call.run c).2.toList.filter (·.key != key) = c.toList.filter (·.key != key)
  fails : ∀ fault, (call.run c).1 = .error fault ↔ call.Fails ledger fault
  kept : ∀ fault, (call.run c).1 = .error fault → (call.run c).2 = c

/-- A collection always is what its history says: it holds the value of the last write of each key
that is still in force, in the order of the writes that changed something, and each next call answers
by that. -/
theorem after_follows_history (history : List (Call ρ)) :
    Recounts (after history) (ledgerOf history) history.length ∧
      (∀ key, (after history).get? key = (ledgerOf history key).map (·.value)) ∧
      ∀ call : Call ρ, Answers (after history) (ledgerOf history) call := by
  have recounts := recounts_after history
  refine ⟨recounts, fun key => recounts.get?_eq, fun call => ?_⟩
  exact {
    get := by
      rintro key fallback rfl
      rw [Call.run, recounts.get?_eq]
      cases ledgerOf history key <;> rfl
    getItem := by
      rintro key e rfl he
      rw [run_getItem recounts, he]
    render := by
      rintro rfl
      rfl
    pop := by
      rintro rfl a rest first
      exact run_pop_cons recounts first
    reports := reported call
    others := fun key about => others_run call about
    fails := run_error_iff recounts call
    kept := fun fault failed => run_of_error recounts call failed }

/-- Writing a new value moves a key to the end, and writing the same value again does not. -/
example : (after ([.set "b" (.text "2"), .set "a" (.text "3"), .set "b" (.text "2"),
    .set "a" (.text "1")] : List (Call Nat))).toList = [⟨"b", "2"⟩, ⟨"a", "3"⟩] := by decide

end Hypertext.Attributes
