import Hypertext.Proofs.Moments
import Hypertext.Proofs.Upkeep

/-! Programs that only build: documents, builders of catalog entries, scopes that write a text as
it is or have settings of their own, texts, and a child that was built for an element and goes on
to its text slot. Each of their steps keeps the agreement of the forest with its deeds. -/
namespace Hypertext
set_option autoImplicit false

/-! ## Programs that build -/

/-- A new document, a new element without positional items and with a text that is no element, or a
scope that makes nothing. -/
inductive Opening.Builds : Opening → Prop
  | build {parent : String} {entry : Catalog} {given : Given} (items : given.items = [])
    (text : ∀ t, (.text, t) ∈ given.named → t.ref? = none) : Builds (.build parent entry given)
  | document : Builds .document
  | verbatim {on : String} : Builds (.verbatim on)
  | settings {fields : List (String × Term)} : Builds (.settings fields)

theorem Opening.builds_plain {parent : String} {entry : Catalog} :
    Builds (.build parent entry {}) :=
  .build rfl (nomatch ·, ·)

theorem Opening.builds_text {parent : String} {entry : Catalog} {text : String} :
    Builds (.build parent entry { named := [(.text, .text text)] }) := by
  refine .build rfl fun t ht => ?_
  cases List.mem_singleton.1 ht
  rfl

mutual

/-- The names of registers that a step binds or drops. -/
def Step.names : Step → List String
  | .command (.drop names) name => names ++ name.toList
  | .command _ name => name.toList
  | .brief _ name => name.toList
  | .scope _ name block => name.toList ++ namesAll block

def Step.namesAll : List Step → List String
  | [] => []
  | step :: rest => step.names ++ namesAll rest

end

/-- The names of the parent and of the new element, where a step builds one and names it. -/
def Step.builds? : Step → Option (String × String)
  | .brief (.build parent _ _) name | .scope (.build parent _ _) name _ => name.map (parent, ·)
  | _ => none

mutual

inductive IsBuilding : Step → Prop
  | brief {o : Opening} {name : Option String} (builds : o.Builds) : IsBuilding (.brief o name)
  | scope {o : Opening} {name : Option String} {block : List Step} (builds : o.Builds)
    (within : AreBuilding block) : IsBuilding (.scope o name block)
  | text {on : String} {t : Term} {name : Option String} (plain : t.ref? = none) :
    IsBuilding (.command (.set on .text t) name)
  | drop {names : List String} {name : Option String} : IsBuilding (.command (.drop names) name)
  | fail {message : String} {name : Option String} : IsBuilding (.command (.fail message) name)

inductive AreBuilding : List Step → Prop
  | nil : AreBuilding []
  | cons {step : Step} {rest : List Step} (first : IsBuilding step) (later : AreBuilding rest) :
    AreBuilding (step :: rest)
  /-- An element is built for a parent, and is then the text of this parent. -/
  | move {step : Step} {rest : List Step} {parent child : String} {name : Option String}
    (first : IsBuilding step) (builds : step.builds? = some (parent, child))
    (kept : parent ∉ step.names) (later : AreBuilding rest) :
    AreBuilding (step :: .command (.set parent .text (.ref (.register child))) name :: rest)

end

/-! ## Registers -/

namespace Registers

variable {g : Registers} {name other : String} {names : List String} {v : Datum}

theorem lookup_filter {α : Type} {l : List (String × α)} (p : String → Bool) (kept : p name = true) :
    (l.filter fun x => p x.1).lookup name = l.lookup name := by
  induction l with
  | nil => rfl
  | cons head rest ih =>
    obtain ⟨key, v⟩ := head
    rw [List.lookup_cons]
    by_cases same : name = key
    · subst same
      simp [kept]
    · have hne : (name == key) = false := by simpa using same
      rw [List.filter_cons, hne]
      split
      · rw [List.lookup_cons, hne]
        exact ih
      · exact ih

theorem get?_drop (kept : name ∉ names) : (g.drop names).get? name = g.get? name :=
  lookup_filter (fun x => !names.contains x) (by simpa using kept)

theorem get?_bind_self : (g.bind name v).get? name = some v := by
  rw [get?, bind, List.lookup_cons]
  simp

theorem get?_bind_of_ne (hne : name ≠ other) : (g.bind other v).get? name = g.get? name := by
  have hbeq : (name == other) = false := by simpa using hne
  rw [get?, bind, List.lookup_cons, hbeq]
  exact get?_drop (by simpa using hne)

end Registers

namespace Session

/-! ## The agreement of a session -/

/-- The new element of a scope, which is attached when the scope is left. -/
def Scope.child? : Scope → Option ElementId
  | .building _ (.ref (.element x)) => some x
  | _ => none

def pendings (running : List Running) : List ElementId := running.filterMap (·.scope.child?)

/-- A scope that builds does so for an older holder, and what a scope is about is held. -/
def Scope.Framed (held : List Ref) : Scope → Prop
  | .building parent child => ∃ x, child = .ref (.element x) ∧ .element x ∈ held ∧
      ∀ h, parent = .ref h → h ∈ held ∧ ∀ id, h = .element id → id.index < x.index
  | .document d => .document d ∈ held
  | .verbatim _ | .settings _ => True

/-- What a scope attaches to, or has made, is there. -/
def Scope.Alive (f : Forest) : Scope → Prop
  | .building parent _ => ∀ h, parent = .ref h → f.isThere h = true
  | .document d => f.isThere (.document d) = true
  | .verbatim _ | .settings _ => True

/-- The tree of a session agrees with what was done to build it, and elements and documents in its
registers are there. -/
structure Building (deeds : List Deed) (running : List Running) (s : Session) : Prop where
  orderly : s.forest.Orderly deeds (pendings running)
  registers : ∀ entry ∈ s.registers.toList, ∀ r, entry.2 = .ref r → s.forest.isThere r = true
  scopes : ∀ r ∈ running, r.scope.Alive s.forest

variable {deeds : List Deed} {running : List Running} {held : List Ref} {s s' : Session}
  {scope : Scope}

theorem Scope.Alive.mono {f g : Forest} (alive : scope.Alive f)
    (there : ∀ r, f.isThere r = true → g.isThere r = true) : scope.Alive g := by
  cases scope with
  | building parent child => exact fun h hparent => there h (alive h hparent)
  | document d => exact there _ alive
  | verbatim id => trivial
  | settings saved => trivial

theorem Scope.Framed.mono {held' : List Ref} (framed : scope.Framed held) (more : held ⊆ held') :
    scope.Framed held' := by
  cases scope with
  | building parent child =>
    obtain ⟨x, hchild, hx, holder⟩ := framed
    exact ⟨x, hchild, more hx, fun h hparent => ⟨more (holder h hparent).1, (holder h hparent).2⟩⟩
  | document d => exact more framed
  | verbatim id => trivial
  | settings saved => trivial

/-- The same registers, beside a forest in which nothing is missing that was there. -/
theorem Building.next {deeds' : List Deed} {running' : List Running}
    (building : Building deeds running s) (orderly : s'.forest.Orderly deeds' (pendings running'))
    (there : ∀ r, s.forest.isThere r = true → s'.forest.isThere r = true)
    (registers : s'.registers = s.registers) (scopes : ∀ r ∈ running', r.scope.Alive s'.forest) :
    Building deeds' running' s' := by
  refine ⟨orderly, fun entry hentry r hr => ?_, scopes⟩
  rw [registers] at hentry
  exact there r (building.registers entry hentry r hr)

theorem Building.of_view (building : Building deeds running s) (same : s'.view = s.view) :
    Building deeds running s' := by
  have forest : s'.forest = s.forest := congrArg View.forest same
  have registers : s'.registers = s.registers := congrArg View.registers same
  refine building.next (forest ▸ building.orderly) (fun r there => forest ▸ there) registers ?_
  rw [forest]
  exact building.scopes

theorem Building.sameShape (building : Building deeds running s)
    (same : s.forest.SameShape s'.forest) (registers : s'.registers = s.registers) :
    Building deeds running s' := by
  have there : ∀ r, s.forest.isThere r = true → s'.forest.isThere r = true := fun r there =>
    (same.changed.isThere r).trans there
  exact building.next (building.orderly.sameShape same) there registers
    fun r hr => (building.scopes r hr).mono there

/-- Nothing goes that a register or a running scope needs. -/
theorem Building.pruned {roots : List Ref} (building : Building deeds running s)
    (framed : ∀ r ∈ running, r.scope.Framed held) (pruned : s.forest.Pruned s'.forest roots)
    (registers : s'.registers = s.registers) (named : s.registers.refs ⊆ roots)
    (kept : held ⊆ roots) : Building deeds running s' := by
  have there : ∀ r ∈ held, s.forest.isThere r = true → s'.forest.isThere r = true :=
    fun r hr => pruned.root r (kept hr)
  refine ⟨building.orderly.pruned pruned fun x hx => ?_, fun entry hentry r hr => ?_,
    fun r hr => ?_⟩
  · obtain ⟨r, hr, hchild⟩ := List.mem_filterMap.1 hx
    have hframed := framed r hr
    cases hscope : r.scope with
    | building parent child =>
      rw [hscope] at hframed hchild
      obtain ⟨y, rfl, hy, -⟩ := hframed
      rw [← Option.some.inj hchild]
      exact kept hy
    | _ => rw [hscope] at hchild; cases hchild
  · rw [registers] at hentry
    refine pruned.root r (named (List.mem_flatMap.2 ⟨entry, hentry, ?_⟩))
      (building.registers entry hentry r hr)
    rw [hr]
    exact List.mem_singleton_self r
  · have hframed := framed r hr
    have alive := building.scopes r hr
    cases hscope : r.scope with
    | building parent child =>
      rw [hscope] at hframed alive
      obtain ⟨y, -, -, holder⟩ := hframed
      exact fun h hparent => there h (holder h hparent).1 (alive h hparent)
    | document d =>
      rw [hscope] at hframed alive
      exact there _ hframed alive
    | _ => trivial

theorem Building.settle (building : Building deeds running s)
    (framed : ∀ r ∈ running, r.scope.Framed held) : Building deeds running (s.settle held) :=
  building.pruned framed (s.forest.settle_pruned (s.refs ++ held)) rfl
    (fun _ hr => List.mem_append_left _ (List.mem_append_left _ hr))
    fun _ hr => List.mem_append_right _ hr

theorem Building.collect (building : Building deeds [] s) : Building deeds [] s.collect :=
  have framed : ∀ r ∈ ([] : List Running), r.scope.Framed [] := (nomatch ·, ·)
  building.pruned framed (s.forest.collect_pruned s.refs) rfl
    (fun _ hr => List.mem_append_left _ hr) fun _ hr => nomatch hr

/-! ## Binding -/

theorem get?_bind (s : Session) {name : Option String} (object : Option Datum) {other : String}
    (hne : other ∉ name.toList) : (s.bind name object).registers.get? other =
      s.registers.get? other := by
  cases name with
  | none => rfl
  | some name =>
    cases object with
    | none => rfl
    | some v => exact Registers.get?_bind_of_ne (by simpa using hne)

theorem Building.bind (building : Building deeds running s) (name : Option String)
    {object : Option Datum}
    (there : ∀ r, object = some (.ref r) → s.forest.isThere r = true) :
    Building deeds running (s.bind name object) := by
  have forest := s.forest_bind name object
  refine ⟨forest ▸ building.orderly, fun entry hentry r hr => ?_, forest ▸ building.scopes⟩
  rw [forest]
  cases name with
  | none => exact building.registers entry hentry r hr
  | some name =>
    cases object with
    | none => exact building.registers entry hentry r hr
    | some v =>
      obtain rfl | hentry := List.mem_cons.1 hentry
      · exact there r (congrArg some hr)
      · exact building.registers entry (List.mem_filter.1 hentry).1 r hr

theorem Building.enterBlock (building : Building deeds running s)
    (framed : ∀ r ∈ running, r.scope.Framed held) (name : Option String) {v : Datum}
    (there : ∀ r, v = .ref r → s.forest.isThere r = true) :
    Building deeds running (s.enterBlock held name v) := by
  cases name with
  | none => exact building
  | some name =>
    exact (building.bind (some name) fun r hr => there r (Option.some.inj hr)).settle framed

theorem get?_enterBlock (s : Session) {name : Option String} (v : Datum) {other : String}
    (hne : other ∉ name.toList) : (s.enterBlock held name v).registers.get? other =
      s.registers.get? other := by
  cases name with
  | none => rfl
  | some name => exact s.get?_bind (some v) hne

/-! ## New elements -/

theorem sameShape_setProperties (id : ElementId) (properties : List (Property × Datum))
    (f : Forest) :
    f.SameShape (properties.foldl (fun f (p, value) => f.setProperty id p value) f) := by
  induction properties generalizing f with
  | nil => exact .refl f
  | cons head rest ih =>
    obtain ⟨p, value⟩ := head
    exact (Forest.sameShape_setProperty id p value).trans (ih _)

/-- Without items a new element is as it was put in, but for its text and its attributes. -/
theorem construct_runs (c : Catalog) {args : Arguments} (items : args.items = [])
    (text : args.text.ref? = none) (store : Store) :
    ∃ g, Action.Runs (Action.construct (.catalog c) args) store
        (store.forest.insert { kind := .catalog c, tag := .text c.tag }).1
        { store with forest := g } ∧
      (store.forest.insert { kind := .catalog c, tag := .text c.tag }).2.SameShape g := by
  generalize hinsert : store.forest.insert { kind := .catalog c, tag := .text c.tag } = inserted
  obtain ⟨id, f⟩ := inserted
  have filled : f.SameShape (if (Kind.catalog c).hasText then f.setContent id args.text else f) := by
    split
    · exact Forest.sameShape_setContent id text
    · exact .refl f
  refine ⟨_, ?_, filled.trans (sameShape_setProperties id args.properties _)⟩
  rw [Action.construct, items]
  refine (Action.runs_forest store).bind ((Action.runs_pure _ store).bind
    ((Action.runs_insert _ store).bind ?_))
  rw [hinsert]
  exact (Action.runs_change _ _).bind ((Action.runs_pure () _).bind (Action.runs_pure id _))

/-- A builder that is refused changes nothing; else a new element waits. -/
theorem enter_build (parent : Datum) (entry : Catalog) (named : List Parameter) {args : Arguments}
    (items : args.items = []) (text : args.text.ref? = none) (s : Session) :
    (∃ fault, (enter (.build parent entry named args)).run s = (.error fault, s)) ∨
      ∃ e g, e.children = [] ∧ e.parent = .absent ∧ e.tag.ref? = none ∧ e.content.ref? = none ∧
        (s.forest.insert e).2.SameShape g ∧
        (enter (.build parent entry named args)).run s =
          (.ok (.building parent (.ref (.element (s.forest.insert e).1))),
            { s with store := { s.store with forest := g } }) := by
  rw [enter, Act.run_bind, construct]
  cases (Parameter.Maker.builder entry).refusal? named with
  | some fault => exact .inl ⟨fault, rfl⟩
  | none =>
    obtain ⟨g, runs, same⟩ := construct_runs entry items text s.store
    refine .inr ⟨{ kind := .catalog entry, tag := .text entry.tag }, g, rfl, rfl, rfl, rfl, same, ?_⟩
    have run := run_onStore (Action.construct (Parameter.Maker.builder entry).made args) s
    rw [Parameter.Maker.made, runs] at run
    simp only [Parameter.Maker.made]
    rw [run]
    rfl

/-! ## Opening a scope -/

/-- What is opened changes nothing that was there before. -/
structure Opens (deeds : List Deed) (running : List Running) (held : List Ref) (s : Session)
    (entrance : Entrance) (scope : Scope) (s' : Session) : Prop where
  framed : scope.Framed (entrance.refs ++ scope.refs ++ held)
  building : Building deeds (⟨s, scope⟩ :: running) s'
  registers : s'.registers = s.registers
  object : ∀ r, scope.object = .ref r → s'.forest.isThere r = true

/-- A term that is no reference makes none. -/
theorem ref?_make {ρ σ : Type} (f : ρ → Value σ) (o : Origin) {v : Value ρ} (plain : v.ref? = none) :
    (v.make f o).ref? = none := by
  match v with
  | .scalar s =>
    rw [Value.make, Value.makeScalar]
    split <;> rfl
  | .list items => rw [Value.make]; rfl
  | .record fields => rw [Value.make]; rfl
  | .renderer roots pretty indent => rw [Value.make]; rfl
  | .made o' v =>
    rw [Value.make]
    exact ref?_make f o (v := v) plain

theorem ref?_of_make {g : Registers} {o : Origin} {t : Term} {d : Datum} (plain : t.ref? = none)
    (made : g.make o t = .ok d) : d.ref? = none := by
  unfold Registers.make at made
  cases hcheck : g.check t.refs with
  | error fault => rw [hcheck] at made; cases made
  | ok checked =>
    rw [hcheck] at made
    cases made
    exact ref?_make g.object o plain

theorem quiet_build {v : View} (parent : String) (entry : Catalog) {given : Given}
    (items : given.items = []) (text : ∀ t, (.text, t) ∈ given.named → t.ref? = none) :
    Act.Quiet v (approach (.build parent entry given)) fun entrance => ∃ d args,
      entrance = .build d entry given.parameters args ∧ v.registers.get? parent = some d ∧
        args.items = [] ∧ args.text.ref? = none := by
  refine (quiet_valueAt parent).bind fun d hd => (quiet_arguments given).bind fun args hargs => ?_
  obtain ⟨named, rest, rfl, length, hnamed⟩ := hargs
  refine Act.Quiet.pure ⟨d, _, rfl, hd, ?_, ?_⟩
  · rw [items] at length
    exact List.length_eq_zero_iff.1 length.symm
  · have plain : ∀ d, named.lookup .text = some d → d.ref? = none := by
      generalize given.named = l at text hnamed
      induction hnamed with
      | nil => exact fun d h => nomatch h
      | @cons given taken _ _ related _ ih =>
        obtain ⟨p, t⟩ := given
        obtain ⟨q, w⟩ := taken
        obtain ⟨rfl, made⟩ := related
        intro d hd
        rw [List.lookup_cons] at hd
        split at hd
        next same =>
          obtain rfl : q = .text := (eq_of_beq same).symm
          obtain ⟨o, made⟩ := made rfl
          rw [← Option.some.inj hd]
          exact ref?_of_make (text t List.mem_cons_self) made
        next => exact ih (fun t ht => text t (List.mem_cons_of_mem _ ht)) d hd
    show ((named.lookup .text).getD (.text "")).ref? = none
    cases htext : named.lookup Parameter.text with
    | none => rfl
    | some d => exact plain d htext

theorem Building.get? (building : Building deeds running s) {name : String} {r : Ref}
    (bound : s.registers.get? name = some (.ref r)) : s.forest.isThere r = true := by
  obtain ⟨before, after, split, -⟩ := List.lookup_eq_some_iff.1 bound
  refine building.registers (name, .ref r) ?_ r rfl
  rw [split]
  exact List.mem_append_right _ List.mem_cons_self

/-- A new element waits in the scope that has made it. -/
theorem Building.insert (building : Building deeds running s) {before : Session} {parent : Datum}
    {e : Element} (childless : e.children = []) (unlinked : e.parent = .absent)
    (tag : e.tag.ref? = none) (content : e.content.ref? = none)
    (holder : ∀ h, parent = .ref h → s.forest.isThere h = true)
    (shape : (s.forest.insert e).2.SameShape s'.forest) (registers : s'.registers = s.registers) :
    Building deeds
      (⟨before, .building parent (.ref (.element (s.forest.insert e).1))⟩ :: running) s' := by
  have there : ∀ r, s.forest.isThere r = true → s'.forest.isThere r = true := fun r there =>
    (shape.changed.isThere r).trans ((Forest.grows_insert s.forest e).isThere there)
  refine building.next ?_ there registers fun r hr => ?_
  · exact (building.orderly.insert childless unlinked tag content).sameShape shape
  · obtain rfl | hr := List.mem_cons.1 hr
    · exact fun h hparent => there h (holder h hparent)
    · exact (building.scopes r hr).mono there

theorem isThere_new (f : Forest) (e : Element) :
    (f.insert e).2.isThere (.element (f.insert e).1) = true := by
  rw [Forest.isThere, Forest.isAlive, Forest.get?_insert, if_pos rfl]
  rfl

theorem opening_build (held : List Ref) (parent : String) (entry : Catalog) {given : Given}
    (items : given.items = []) (text : ∀ t, (.text, t) ∈ given.named → t.ref? = none)
    (building : Building deeds running s) :
    match (opening (.build parent entry given)).run s with
    | (.error _, s') => Building deeds running s'
    | (.ok (entrance, scope), s') => Opens deeds running held s entrance scope s' ∧
        ∃ d x, s.registers.get? parent = some d ∧ scope = .building d (.ref (.element x)) := by
  rw [run_opening]
  obtain ⟨same, answers⟩ := quiet_build parent entry items text s rfl
  generalize (approach (.build parent entry given)).run s = result at same answers ⊢
  obtain ⟨fault | entrance, s₁⟩ := result
  · exact building.of_view same
  obtain ⟨d, args, rfl, bound, items, text⟩ := answers entrance rfl
  have building₁ := building.of_view same
  have registers : s₁.registers = s.registers := congrArg View.registers same
  have holder : ∀ h, d = .ref h → s₁.forest.isThere h = true := by
    rintro h rfl
    have bound₁ : s₁.registers.get? parent = some (.ref h) := by
      rw [registers]
      exact bound
    exact building₁.get? bound₁
  simp only
  obtain ⟨fault, refused⟩ | ⟨e, g, childless, unlinked, tag, content, shape, entered⟩ :=
    enter_build d entry given.parameters items text s₁
  · rw [refused]
    exact building₁
  rw [entered]
  refine ⟨⟨⟨_, rfl, ?_, fun h hd => ⟨?_, ?_⟩⟩,
    building₁.insert childless unlinked tag content holder shape rfl, registers, ?_⟩,
    d, _, bound, rfl⟩
  · simp [Scope.refs, Scope.object, Value.refs]
  · subst hd
    simp [Entrance.refs, Value.refs]
  · rintro id rfl
    exact Forest.hasRoom_of_isThere (holder _ hd)
  · intro r hr
    obtain rfl : .element (s₁.forest.insert e).1 = r := by simpa [Scope.object] using hr
    exact (shape.changed.isThere _).trans (isThere_new s₁.forest e)

theorem opening_document (held : List Ref) (building : Building deeds running s) :
    match (opening .document).run s with
    | (.error _, s') => Building deeds running s'
    | (.ok (entrance, scope), s') => Opens deeds running held s entrance scope s' := by
  have run : (opening .document).run s = (.ok (.document, .document s.forest.insertDocument.1),
      { s with store := { s.store with forest := s.forest.insertDocument.2 } }) := rfl
  have there : ∀ r, s.forest.isThere r = true → s.forest.insertDocument.2.isThere r = true := by
    intro r alive
    cases r with
    | element id => exact alive
    | document d =>
      rw [Forest.isThere, Forest.roots?_insertDocument]
      split
      · rfl
      · exact alive
  have new : s.forest.insertDocument.2.isThere (.document s.forest.insertDocument.1) = true := by
    rw [Forest.isThere, Forest.roots?_insertDocument, if_pos rfl]
    rfl
  rw [run]
  refine ⟨?_, building.next building.orderly.insertDocument there rfl fun r hr => ?_, rfl, ?_⟩
  · show Ref.document _ ∈ _
    simp [Scope.refs, Scope.object, Value.refs]
  · obtain rfl | hr := List.mem_cons.1 hr
    · exact new
    · exact (building.scopes r hr).mono there
  · intro r hr
    obtain rfl : .document s.forest.insertDocument.1 = r := by simpa [Scope.object] using hr
    exact new

/-- A scope that makes nothing. -/
theorem Building.enter (building : Building deeds running s) {entrance : Entrance}
    (forest : s'.forest = s.forest) (registers : s'.registers = s.registers)
    (framed : scope.Framed (entrance.refs ++ scope.refs ++ held)) (none : scope.child? = none)
    (alive : scope.Alive s'.forest)
    (object : ∀ r, scope.object = .ref r → s'.forest.isThere r = true) :
    Opens deeds running held s entrance scope s' := by
  refine ⟨framed, building.next ?_ (fun r there => forest ▸ there) registers fun r hr => ?_,
    registers, object⟩
  · have same : pendings (⟨s, scope⟩ :: running) = pendings running := by
      simp [pendings, none]
    rw [forest, same]
    exact building.orderly
  · obtain rfl | hr := List.mem_cons.1 hr
    · exact alive
    · rw [forest]
      exact building.scopes r hr

/-- A scope that is opened may have a new element or document, which is there; what was there
before stays. -/
theorem opening_builds (held : List Ref) {o : Opening} (builds : o.Builds)
    (building : Building deeds running s) :
    match (opening o).run s with
    | (.error _, s') => Building deeds running s'
    | (.ok (entrance, scope), s') => Opens deeds running held s entrance scope s' := by
  cases builds with
  | @build parent entry given items text =>
    have opened := opening_build held parent entry items text building
    generalize (opening (.build parent entry given)).run s = result at opened ⊢
    obtain ⟨fault | ⟨entrance, scope⟩, s'⟩ := result
    · exact opened
    · exact opened.1
  | document => exact opening_document held building
  | @verbatim on =>
    rw [run_opening, approach, Act.run_bind]
    obtain ⟨same, answers⟩ := quiet_textElementAt on s rfl
    generalize (textElementAt on).run s = result at same answers ⊢
    obtain ⟨fault | id, s₁⟩ := result
    · exact building.of_view same
    · refine building.enter (congrArg View.forest same) (congrArg View.registers same) trivial rfl
        trivial fun r hr => ?_
      obtain rfl : .element id = r := by simpa [Scope.object] using hr
      rw [show s₁.forest = s.forest from congrArg View.forest same]
      exact building.get? (answers id rfl).1
  | @settings fields =>
    rw [run_opening, approach, Act.run_bind]
    obtain ⟨same, -⟩ := quiet_resolveFields fields s rfl
    generalize (resolveFields fields).run s = result at same ⊢
    obtain ⟨fault | fields, s₁⟩ := result
    · exact building.of_view same
    · have entered : (enter (.settings fields)).run s₁ = match Settings.ofArguments fields with
          | .error fault => (.error fault, s₁)
          | .ok settings => (.ok (.settings s₁.settings), { s₁ with settings }) := by
        rw [enter, Act.run_bind]
        cases Settings.ofArguments fields <;> rfl
      have approached : ∀ s : Session, (Pure.pure (Entrance.settings fields) : Act Entrance).run s =
          (Except.ok (Entrance.settings fields), s) := fun _ => rfl
      simp only [approached, entered]
      cases Settings.ofArguments fields with
      | error fault => exact building.of_view same
      | ok settings =>
        exact building.enter (congrArg View.forest same) (congrArg View.registers same) trivial rfl
          trivial (nomatch ·, ·)

/-! ## Leaving a scope -/

theorem leave_of_ref (h : Ref) (x : ElementId) (s : Session) :
    (leave (.building (.ref h) (.ref (.element x)))).run s =
      (.ok (), { s with store := { s.store with
        forest := s.forest.attach h (.ref (.element x)) } }) := by
  cases h <;> rfl

/-- An element that was not attached needs no place any more. -/
theorem Building.giveUp {r : Running} (building : Building deeds (r :: running) s) :
    Building deeds running s := by
  have orderly := building.orderly
  have fewer : (pendings running).Sublist (pendings (r :: running)) :=
    List.Sublist.filterMap _ (List.sublist_cons_self r running)
  refine ⟨⟨orderly.logged, orderly.children, orderly.linked, orderly.tag, orderly.slot,
    fun x hx => orderly.waiting x (fewer.subset hx), orderly.distinct.sublist fewer⟩,
    building.registers, fun r' hr => building.scopes r' (List.mem_cons_of_mem r hr)⟩

/-- At the end of a scope the new element gets its place, if there is something to attach it to. -/
theorem leave_builds {r : Running} (framed : r.scope.Framed held)
    (building : Building deeds (r :: running) s) :
    match (leave r.scope).run s with
    | (.error _, s') => Building deeds running s'
    | (.ok (), s') => Building (deeds ++ r.scope.deeds) running s' ∧ s'.registers = s.registers ∧
        ∀ v, r.scope.made? = some (.ref v) → s'.forest.isThere v = true := by
  obtain ⟨before, scope⟩ := r
  have rest := building.giveUp
  cases scope with
  | building parent child =>
    obtain ⟨x, rfl, -, holder⟩ := framed
    by_cases href : ∃ h, parent = .ref h
    · obtain ⟨h, rfl⟩ := href
      have there := building.scopes _ List.mem_cons_self h rfl
      have same := s.forest.changed_attach h x
      have alive : ∀ r, s.forest.isThere r = true →
          (s.forest.attach h (.ref (.element x))).isThere r = true := fun r there =>
        (same.isThere r).trans there
      rw [leave_of_ref]
      refine ⟨rest.next (building.orderly.attach there (holder h rfl).2) alive rfl fun r hr =>
        (rest.scopes r hr).mono alive, rfl, fun v hv => ?_⟩
      obtain rfl : .element x = v := by simpa [Scope.made?] using hv
      obtain ⟨⟨e, hx, -⟩, -⟩ := building.orderly.waiting x List.mem_cons_self
      exact alive _ (Forest.isThere_element.2 ⟨e, hx⟩)
    · have refused : ∃ fault, (leave (.building parent (.ref (.element x)))).run s =
          (.error fault, s) := by
        cases parent with
        | ref h => exact absurd ⟨h, rfl⟩ href
        | _ => exact ⟨_, rfl⟩
      obtain ⟨fault, refused⟩ := refused
      rw [refused]
      exact rest
  | document d =>
    show Building (deeds ++ []) running s ∧ _
    rw [List.append_nil]
    refine ⟨rest, rfl, fun v hv => ?_⟩
    obtain rfl : .document d = v := by simpa [Scope.made?] using hv
    exact building.scopes _ List.mem_cons_self
  | verbatim id =>
    have same := Forest.sameShape_setMark (f := s.forest) id (.bool true)
    refine ⟨?_, rfl, (nomatch ·, ·)⟩
    show Building (deeds ++ []) running _
    rw [List.append_nil]
    exact rest.sameShape same rfl
  | settings saved =>
    refine ⟨?_, rfl, (nomatch ·, ·)⟩
    show Building (deeds ++ []) running _
    rw [List.append_nil]
    exact rest.next rest.orderly (fun _ there => there) rfl rest.scopes

/-! ## Commands -/

/-- Setting a text fails and changes nothing, or a choice takes it, or the text of an element is
set. -/
theorem run_setText (on : String) (t : Term) (s : Session) :
    ∃ s', ((∃ fault, (runCommand (.set on .text t)).run s = (.error fault, s')) ∧ s'.view = s.view) ∨
      (runCommand (.set on .text t)).run s = (.ok .null, s') ∧
        ((∃ c, s.registers.get? on = some (.choice c)) ∧ s'.view = s.view ∨
        ∃ id o d, s.registers.get? on = some (.ref (.element id)) ∧ s.registers.make o t = .ok d ∧
          s'.forest = s.forest.setContent id d ∧ s'.registers = s.registers) := by
  rw [runCommand, Act.run_bind]
  obtain ⟨same, answers⟩ := quiet_valueAt on s rfl
  generalize (valueAt on).run s = result at same answers ⊢
  obtain ⟨fault | holder, s₁⟩ := result
  · exact ⟨s₁, .inl ⟨⟨fault, rfl⟩, same⟩⟩
  have bound := answers holder rfl
  simp only [Act.run_bind, settingValue]
  obtain ⟨same', answers⟩ := quiet_make (v := s.view) t s₁ same
  generalize (make t).run s₁ = result at same' answers ⊢
  obtain ⟨fault | d, s₂⟩ := result
  · exact ⟨s₂, .inl ⟨⟨fault, rfl⟩, same'⟩⟩
  obtain ⟨o, made⟩ := answers d rfl
  cases holder with
  | ref r =>
    cases r with
    | element id =>
      refine ⟨_, .inr ⟨rfl, .inr ⟨id, o, d, bound, made, ?_, ?_⟩⟩⟩
      · exact congrArg (fun v => v.forest.setContent id d) same'
      · exact congrArg View.registers same'
    | document d => exact ⟨s₂, .inl ⟨⟨_, rfl⟩, same'⟩⟩
  | scalar x =>
    cases x with
    | choice c => exact ⟨s₂, .inr ⟨rfl, .inl ⟨⟨c, bound⟩, same'⟩⟩⟩
    | _ => exact ⟨s₂, .inl ⟨⟨_, rfl⟩, same'⟩⟩
  | _ => exact ⟨s₂, .inl ⟨⟨_, rfl⟩, same'⟩⟩

end Session

end Hypertext
