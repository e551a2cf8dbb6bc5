import Hypertext.Proofs.Commands
import Hypertext.Proofs.Histories

/-! Changes of a forest, and the commands that make them. Whatever a command does to a forest, it does by
operations of a few kinds, one after the other, and where it fails it has done some of them. So what all
operations keep all commands maintain. Ordinary commands make elements of the catalog only, mark them by
truth values, set no parent and read no payload; they maintain what ordinary operations keep. The main
statements are `maintains_of_ordinary` and `maintains_runCommand`. -/
namespace Hypertext
set_option autoImplicit false

/-- One change of a forest. -/
inductive Operation where
  | create (kind : Kind) (tag : Datum)
  | createDocument
  | add (holder : Ref) (child : Datum)
  | attach (holder : Ref) (child : Datum)
  | remove (holder : Ref) (child : Datum)
  | setText (id : ElementId) (content : Datum)
  | setMark (id : ElementId) (mark : Datum)
  | setProperty (id : ElementId) (p : Property) (value : Datum)
  | setParent (id : ElementId) (link : ParentLink)
  | rewrite (id : ElementId) (change : Attributes → Attributes)
  | askStyle (id : ElementId)

namespace Operation

def apply (f : Forest) : Operation → Forest
  | create kind tag => (f.insert { kind, tag }).2
  | createDocument => f.insertDocument.2
  | add holder child => f.add holder child
  | attach holder child => f.attach holder child
  | remove holder child => f.remove holder child
  | setText id content => f.setContent id content
  | setMark id mark => f.setMark id mark
  | setProperty id p value => f.setProperty id p value
  | setParent id link => f.setParent id link
  | rewrite id change => f.setAttributes id (change (f.attributesOf id))
  | askStyle id => f.setStyled id

/-- An operation after which elements are of the catalog, have a truth value for a mark, no choice for a
parent, and each attribute once, if they were so before. -/
def IsOrdinary : Operation → Prop
  | create kind tag => ∃ c, kind = .catalog c ∧ tag = .text c.tag
  | setMark _ mark => ∃ b, mark = .bool b
  | setParent _ link => ∀ c, link ≠ .choice c
  | rewrite _ change => ∀ c : Attributes, c.Distinct → (change c).Distinct
  | _ => True

end Operation

/-- A command that makes elements of the catalog only, sets truth values for marks and no parents, and
reads no payload. -/
def Command.IsOrdinary : Command → Prop
  | .create kind _ | .chain _ kind _ _ => ∃ c, kind = .catalog c
  | .set _ .mark value => ∃ b, value = .bool b
  | .set _ .parent _ | .readPayload _ | .readJson _ | .copy _ _ => False
  | _ => True

namespace Forest

/-- A property of forests that ordinary operations keep, and that stays when what nobody holds goes. -/
structure IsKept (P : Forest → Prop) : Prop where
  apply : ∀ (f : Forest) (op : Operation), op.IsOrdinary → P f → P (op.apply f)
  pruned : ∀ {f g : Forest} {roots : List Ref}, f.Pruned g roots → P f → P g

/-- One that any operation keeps. -/
structure IsAlwaysKept (P : Forest → Prop) : Prop where
  apply : ∀ (f : Forest) (op : Operation), P f → P (op.apply f)
  pruned : ∀ {f g : Forest} {roots : List Ref}, f.Pruned g roots → P f → P g

variable {P : Forest → Prop}

theorem IsAlwaysKept.isKept (kept : IsAlwaysKept P) : IsKept P where
  apply f op _ := kept.apply f op
  pruned := kept.pruned

end Forest

theorem Attributes.distinct_run {ρ : Type} {c : Attributes} (distinct : c.Distinct) (call : Call ρ) :
    (call.run c).2.Distinct := by
  cases call with
  | set key value | assign key value => exact distinct_write distinct key _
  | remove key => exact distinct_erase distinct key
  | add pair => exact distinct_add distinct pair
  | discard pair => exact distinct_discard distinct pair
  | clear => exact List.nodup_nil
  | deleteItem key =>
    rw [Call.run]
    split
    · exact distinct_erase distinct key
    · exact distinct
  | pop =>
    rw [Call.run, pop?]
    cases c.toList.head? with
    | none => exact distinct
    | some a => exact distinct_discard distinct a
  | get key _ | getItem key =>
    rw [Call.run]
    split
    · exact distinct
    · exact distinct
  | contains item =>
    rw [run_contains]
    exact distinct
  | containsPair _ | size | nonempty | render | literal => exact distinct

namespace Style

theorem distinct_set {ρ : Type} {c : Attributes} (distinct : c.Distinct) (name : String)
    (value : Value ρ) : (set c name value).Distinct := by
  rw [set]
  split
  · exact distinct
  · exact Attributes.distinct_write distinct _ _

/-- A write sets one declaration. -/
theorem Write.exists_of_apply {ρ : Type} {typeOfRef : ρ → String} {c c' : Attributes}
    {w : Write (Value ρ)} (h : w.apply typeOfRef c = .ok c') :
    ∃ (name : String) (value : Value ρ), c' = set c name value := by
  rw [apply] at h
  cases declared : w.declaration typeOfRef with
  | error fault =>
    rw [declared] at h
    cases h
  | ok declaration =>
    rw [declared] at h
    exact ⟨declaration.1, declaration.2, (Except.ok.inj h).symm⟩

end Style

variable {P : Forest → Prop} {α β : Type}

/-! ## Actions on a store -/

namespace Action

/-- Whether the action answers or fails, the forest has a property afterwards if it had it before. -/
def Maintains (P : Forest → Prop) (act : Action α) : Prop :=
  ∀ store : Store, P store.forest → P (act.run store).2.forest

theorem Maintains.bind {act : Action α} {next : α → Action β} (first : Maintains P act)
    (second : ∀ a, Maintains P (next a)) : Maintains P (act >>= next) := by
  intro store h
  have after := first store h
  rw [run_bind]
  generalize act.run store = result at after ⊢
  obtain ⟨fault | a, store'⟩ := result
  · exact after
  · exact second a store' after

theorem maintains_pure (a : α) : Maintains P (pure a) := fun _ h => h

theorem maintains_throw (fault : Fault) : Maintains P (throw fault : Action α) := fun _ h => h

theorem maintains_forest : Maintains P forest := fun _ h => h

theorem maintains_change {f : Forest → Forest} (h : ∀ forest, P forest → P (f forest)) :
    Maintains P (change f) := fun store => h store.forest

theorem maintains_liftM (e : Except Fault α) : Maintains P (liftM e : Action α) := by
  cases e with
  | error fault => exact maintains_throw fault
  | ok a => exact maintains_pure a

/-- What follows knows the value that was there. -/
theorem maintains_liftExcept {e : Except Fault α} {next : α → Action β}
    (h : ∀ a, e = .ok a → Maintains P (next a)) : Maintains P (liftExcept e >>= next) := by
  intro store before
  rw [run_bind]
  cases e with
  | error fault => exact before
  | ok a => exact h a rfl store before

theorem maintains_tell (reading : Forest → Reading α) : Maintains P (tell reading) := by
  intro store h
  rw [Session.forest_tell]
  exact h

theorem maintains_identified (v : Datum) : Maintains P (identified v) := by
  intro store h
  obtain ⟨w, store', runs, -, same⟩ := runs_identified v store
  rw [show (identified v).run store = _ from runs, same]
  exact h

section Kept

variable (kept : Forest.IsKept P)
include kept

theorem maintains_attach (holder : Ref) (child : Datum) : Maintains P (attach holder child) := by
  refine maintains_forest.bind fun _ => ?_
  split
  · exact maintains_throw _
  · exact maintains_change fun f => kept.apply f (.attach _ child) trivial

theorem maintains_attachAll (holder : Ref) (children : List Datum) :
    Maintains P (attachAll holder children) := by
  induction children with
  | nil => exact maintains_pure ()
  | cons child children ih => exact (maintains_attach kept holder child).bind fun _ => ih

/-- A new element: it is put in, then gets its text, its attributes and its items. -/
theorem maintains_construct (kind : Kind) (args : Arguments)
    (creates : ∀ (f : Forest) tag, kind.tagFor f args.tag = .ok tag →
      ∀ g, P g → P (g.insert { kind, tag }).2) : Maintains P (construct kind args) := by
  have properties : ∀ (id : ElementId) (given : List (Property × Datum)) (f : Forest), P f →
      P (given.foldl (fun f pair => f.setProperty id pair.1 pair.2) f) := by
    intro id given
    induction given with
    | nil => exact fun _ h => h
    | cons head rest ih =>
      exact fun f h => ih _ (kept.apply f (.setProperty id head.1 head.2) trivial h)
  intro store h
  refine maintains_liftExcept (fun tag htag => ?_) store h
  have inserted : Maintains P (insert { kind, tag }) := fun store =>
    creates _ tag htag store.forest
  refine inserted.bind fun id => ?_
  refine (maintains_change fun f h => properties id args.properties _ ?_).bind fun _ =>
    (maintains_attachAll kept (.element id) args.items).bind fun _ => maintains_pure id
  split
  · exact kept.apply f (.setText id args.text) trivial h
  · exact h

/-- The tag of the catalog is fixed. -/
theorem maintains_construct_catalog (c : Catalog) (args : Arguments) :
    Maintains P (construct (.catalog c) args) := by
  refine maintains_construct kept _ args fun f tag htag g => ?_
  obtain rfl : .text c.tag = tag := Except.ok.inj htag
  exact kept.apply g (.create (.catalog c) (.text c.tag)) ⟨c, rfl, rfl⟩

theorem maintains_insertDocument : Maintains P insertDocument := fun store =>
  kept.apply store.forest .createDocument trivial

end Kept

theorem maintains_construct_any (kept : Forest.IsAlwaysKept P) (kind : Kind) (args : Arguments) :
    Maintains P (construct kind args) :=
  maintains_construct kept.isKept kind args fun _ tag _ g => kept.apply g (.create kind tag)

end Action

/-! ## Payloads -/

namespace Payload

open Hypertext.Action

variable (kept : Forest.IsAlwaysKept P) {fields : Fields}
include kept

theorem maintains_newElement (type : String) (fields : Fields) :
    Maintains P (newElement type fields) := by
  rw [newElement]
  split
  · exact maintains_throw _
  · refine maintains_forest.bind fun f => ?_
    have made := maintains_construct_any kept ‹Kind›
      { tag := ((fields.lookup "tag_name").getD .null).erased }
    split
    · exact (maintains_throw _).bind fun _ => made
    · exact made

theorem maintains_readAttributes (type : String) (id : ElementId) (pairs : List Datum) :
    Maintains P (readAttributes type id pairs) := by
  induction pairs with
  | nil => exact maintains_pure ()
  | cons pair pairs ih =>
    rw [readAttributes]
    exact maintains_forest.bind fun f => (maintains_liftM _).bind fun a =>
      (maintains_change fun g => kept.apply g (.rewrite id (·.add a))).bind fun _ => ih

omit kept in
theorem maintains_elementOnly (r : Ref) : Maintains P (elementOnly r) := by
  cases r with
  | element id => exact maintains_pure id
  | document _ => exact maintains_throw _

theorem maintains_attachAll (holder : Ref) {items : List Datum}
    (read : ∀ w ∈ items, Maintains P (node w)) : Maintains P (attachAll holder items) := by
  induction items with
  | nil =>
    rw [attachAll]
    exact maintains_pure ()
  | cons w items ih =>
    rw [attachAll]
    refine (read w List.mem_cons_self).bind fun r => (maintains_elementOnly r).bind fun child =>
      (maintains_change fun f => kept.apply f (.attach holder (.ref (.element child)))).bind
        fun _ => ih fun w hw => read w (List.mem_cons_of_mem _ hw)

theorem maintains_children (type : String) (holder : Ref)
    (read : ∀ w ∈ childrenOf (.record fields), Maintains P (node w)) :
    Maintains P (children type holder fields) := by
  rw [children_eq]
  refine maintains_forest.bind fun f => ?_
  split
  next items hitems =>
    have listed : childrenOf (.record fields) = items := by
      show (listed? fields "children").getD [] = items
      rw [listField_eq_ok_iff.1 hitems]
      rfl
    exact maintains_attachAll kept holder (listed ▸ read)
  next => exact maintains_throw _

theorem maintains_textSlot (id : ElementId)
    (read : ∀ w, fields.lookup "text" = some w → Maintains P (node w)) :
    Maintains P (textSlot id fields) := by
  have filled : ∀ v, Maintains P (change (·.setContent id v)) := fun v =>
    maintains_change fun f => kept.apply f (.setText id v)
  rw [textSlot_eq]
  split
  next => exact filled _
  next w hw =>
    split
    · exact (read w hw).bind fun r => (maintains_elementOnly r).bind fun held => filled _
    · exact (maintains_identified w).bind fun content => filled content

theorem maintains_elementHead (type : String)
    (read : ∀ w, fields.lookup "text" = some w → Maintains P (node w)) :
    Maintains P (elementHead type fields) := by
  rw [elementHead_eq]
  refine (maintains_tell _).bind fun _ => (maintains_newElement kept type fields).bind fun id =>
    maintains_forest.bind fun f => (maintains_liftM _).bind fun pairs =>
    (maintains_readAttributes kept type id pairs).bind fun _ => ?_
  rw [fillSlot]
  refine maintains_forest.bind fun g => ?_
  split
  · exact (maintains_textSlot kept id read).bind fun _ =>
      (maintains_change fun f => kept.apply f (.setMark id _)).bind fun _ => maintains_pure id
  · exact maintains_pure id

theorem maintains_record (text : ∀ w, fields.lookup "text" = some w → Maintains P (node w))
    (held : ∀ w ∈ childrenOf (.record fields), Maintains P (node w)) :
    Maintains P (node (.record fields)) := by
  rw [node]
  refine maintains_forest.bind fun f => (maintains_liftM _).bind fun type => ?_
  split
  · exact (maintains_insertDocument kept.isKept).bind fun d =>
      (maintains_children kept type _ held).bind fun _ => maintains_pure _
  · exact (maintains_elementHead kept type text).bind fun id =>
      (maintains_children kept type _ held).bind fun _ => maintains_pure _

/-- By induction on the size of the payload. -/
theorem maintains_node (v : Datum) : Maintains P (node v) := by
  match v with
  | .made o v =>
    rw [node_made]
    exact maintains_node v
  | .record fields =>
    exact maintains_record kept (fun w hw => maintains_node w) fun w hw => maintains_node w
  | .scalar _ | .list _ | .ref _ | .renderer .. =>
    simp only [node]
    exact maintains_forest.bind fun f => maintains_throw _
termination_by sizeOf v
decreasing_by
  · rw [Value.made.sizeOf_spec]
    omega
  · have := Value.sizeOf_lookup_lt hw
    rw [Value.record.sizeOf_spec]
    omega
  · exact (mem_lower (v := .record fields) (List.mem_append_right _ hw)).1

theorem maintains_nodeOfJson (limits : Limits) (text : String) :
    Maintains P (nodeOfJson limits text) := by
  rw [nodeOfJson]
  split
  · exact maintains_throw _
  · exact maintains_node kept _

end Payload

namespace Session

/-! ## Actions of a session -/

namespace Act

def Maintains (P : Forest → Prop) (act : Act α) : Prop :=
  ∀ s : Session, P s.forest → P (act.run s).2.forest

theorem Maintains.bind {act : Act α} {next : α → Act β} (first : Maintains P act)
    (second : ∀ a, Maintains P (next a)) : Maintains P (act >>= next) := by
  intro s h
  have after := first s h
  rw [run_bind]
  generalize act.run s = result at after ⊢
  obtain ⟨fault | a, s'⟩ := result
  · exact after
  · exact second a s' after

theorem Quiet.maintains {act : Act α} {Q : View → α → Prop} (quiet : ∀ v, Quiet v act (Q v)) :
    Maintains P act := by
  intro s h
  have same : (act.run s).2.forest = s.forest := congrArg View.forest (quiet s.view s rfl).1
  rw [same]
  exact h

/-- What follows knows what is true of the answer. -/
theorem Quiet.maintains_bind {act : Act α} {next : α → Act β} {Q : View → α → Prop}
    (quiet : ∀ v, Quiet v act (Q v)) (second : ∀ v a, Q v a → Maintains P (next a)) :
    Maintains P (act >>= next) := by
  intro s h
  obtain ⟨same, answers⟩ := quiet s.view s rfl
  rw [run_bind]
  generalize act.run s = result at same answers ⊢
  obtain ⟨answer, s'⟩ := result
  have after : P s'.forest := by
    rw [show s'.forest = s.forest from congrArg View.forest same]
    exact h
  cases answer with
  | error fault => exact after
  | ok a => exact second s.view a (answers a rfl) s' after

theorem maintains_pure (a : α) : Maintains P (pure a : Act α) := fun _ h => h

theorem maintains_throw (fault : Fault) : Maintains P (throw fault : Act α) := fun _ h => h

theorem maintains_liftExcept (e : Except Fault α) : Maintains P (liftExcept e) := by
  cases e with
  | error fault => exact maintains_throw fault
  | ok a => exact maintains_pure a

theorem maintains_onStore {act : Action α} (maintains : Action.Maintains P act) :
    Maintains P (onStore act) := by
  intro s h
  rw [run_onStore]
  exact maintains s.store h

theorem maintains_change {f : Forest → Forest} (h : ∀ forest, P forest → P (f forest)) :
    Maintains P (change f) := maintains_onStore (Action.maintains_change h)

theorem maintains_get {next : Session → Act α} (h : ∀ s, Maintains P (next s)) :
    Maintains P (MonadState.get >>= next) := fun s => h s s

end Act

open Act

theorem maintains_described (v : Datum) : Maintains P (described v) :=
  Quiet.maintains fun _ => quiet_described v

theorem maintains_refuse (v : Datum) (asked : String) : Maintains P (refuse (α := α) v asked) :=
  Quiet.maintains fun _ => quiet_refuse (P := fun _ => True) v asked

theorem maintains_told {reading : Forest → Reading α} (result : α → β) :
    Maintains P (do return result (← tell reading)) :=
  Quiet.maintains_bind (fun _ => quiet_tell _) fun _ _ _ => maintains_pure _

theorem maintains_renderDocument (id : DocumentId) (pretty : Datum) :
    Maintains P (renderDocument id pretty) :=
  maintains_get fun _ => maintains_told _

theorem quiet_settingValue (t : Term) (setting : Setting) (v : View) :
    Quiet v (settingValue t setting) fun d => setting = .mark → v.registers.resolve t = .ok d := by
  cases setting with
  | text => exact (quiet_make t).weaken fun d _ h => by cases h
  | mark | parent | property p => exact (quiet_resolve t).weaken fun d hd _ => hd

theorem maintains_set (on : String) (setting : Setting) (value : Term)
    (assigned : ∀ (g : Registers) (id : ElementId) (d : Datum),
      (setting = .mark → g.resolve value = .ok d) → Maintains P (assign id d setting)) :
    Maintains P (runCommand (.set on setting value)) := by
  refine Quiet.maintains_bind (fun v => quiet_valueAt on) fun _ holder _ =>
    Quiet.maintains_bind (quiet_settingValue value setting) fun v d hd => ?_
  split
  · exact maintains_throw _
  · exact maintains_pure _
  · exact (assigned v.registers _ d hd).bind fun _ => maintains_pure _
  · exact (maintains_refuse _ _).bind fun _ => maintains_pure _

theorem maintains_construct (maker : Parameter.Maker) (named : List Parameter) (args : Arguments)
    (made : Action.Maintains P (Action.construct maker.made args)) :
    Maintains P (construct maker named args) := by
  rw [construct]
  split
  · exact maintains_throw _
  · exact maintains_onStore made

theorem maintains_create (kind : Kind) (given : Given)
    (made : ∀ args, Action.Maintains P (Action.construct kind args)) :
    Maintains P (runCommand (.create kind given)) :=
  Quiet.maintains_bind (fun _ => quiet_arguments given) fun _ args _ =>
    (maintains_construct (.kind kind) _ args (made args)).bind fun _ => maintains_described _

section Ordinary

variable (kept : Forest.IsKept P)
include kept

theorem maintains_setContent (id : ElementId) (v : Datum) : Maintains P (change (·.setContent id v)) :=
  maintains_change fun f => kept.apply f (.setText id v) trivial

theorem maintains_attach (holder : Ref) (child : Datum) :
    Maintains P (onStore (Action.attach holder child)) :=
  maintains_onStore (Action.maintains_attach kept holder child)

theorem maintains_chainFrom (kind : Kind) (link : Link)
    (made : ∀ args, Action.Maintains P (Action.construct kind args)) (count : Nat) (v : Datum) :
    Maintains P (chainFrom kind link count v) := by
  induction count generalizing v with
  | zero =>
    rw [chainFrom]
    exact maintains_pure v
  | succ count ih =>
    rw [chainFrom.eq_def]
    refine (maintains_onStore (made {})).bind fun next => ?_
    split
    · exact (maintains_attach kept _ _).bind fun _ => ih _
    · exact (maintains_refuse _ _).bind fun _ => ih _
    · exact (maintains_setContent kept _ _).bind fun _ => ih _
    · exact (maintains_refuse _ _).bind fun _ => ih _

theorem maintains_chain (start : String) (kind : Kind) (count : Nat) (link : Link)
    (made : ∀ args, Action.Maintains P (Action.construct kind args)) :
    Maintains P (runCommand (.chain start kind count link)) :=
  Quiet.maintains_bind (fun _ => quiet_valueAt start) fun _ v _ =>
    (maintains_chainFrom kept kind link made count v).bind fun _ => maintains_described _

/-- Attributes that are set in the forest from which they were taken. -/
theorem maintains_rewrite {id : ElementId} {found : Session → Except Fault α}
    {attributes : Session → α → Attributes} {last : Session → α → Act β}
    (rewrites : ∀ s a, found s = .ok a → ∃ change, (Operation.rewrite id change).IsOrdinary ∧
      attributes s a = change (s.forest.attributesOf id))
    (later : ∀ s a, Maintains P (last s a)) :
    Maintains P (do
      let s ← get
      let a ← liftExcept (found s)
      change (·.setAttributes id (attributes s a))
      last s a) := by
  intro s h
  show P ((liftExcept (found s) >>= fun a => change (·.setAttributes id (attributes s a)) >>=
    fun _ => last s a).run s).2.forest
  rw [run_bind]
  cases there : found s with
  | error fault => exact h
  | ok a =>
    obtain ⟨change, ordinary, same⟩ := rewrites s a there
    have after : P (s.forest.setAttributes id (attributes s a)) :=
      same ▸ kept.apply s.forest (.rewrite id change) ordinary h
    exact later s a { s with store.forest := s.forest.setAttributes id (attributes s a) } after

theorem maintains_callAttributes (id : ElementId) (call : Attributes.Call Symbol) :
    Maintains P (callAttributes id call) :=
  maintains_rewrite kept (fun _ call _ => ⟨fun c => (call.run c).2,
    fun _ distinct => Attributes.distinct_run distinct call, rfl⟩) fun _ _ => maintains_liftExcept _

/-- The same for a call whose target is found first. -/
theorem maintains_attributes (on asked : String) (call : Attributes.Call Symbol) :
    Maintains P (do return Result.plain (← callAttributes (← elementAt on asked) call)) :=
  Quiet.maintains_bind (fun _ => quiet_elementAt on asked) fun _ id _ =>
    (maintains_callAttributes kept id call).bind fun _ => maintains_pure _

theorem maintains_setStyled (id : ElementId) : Maintains P (change (·.setStyled id)) :=
  maintains_change fun f => kept.apply f (.askStyle id) trivial

theorem maintains_writeStyle (id : ElementId) (write : Style.Write Term) :
    Maintains P (writeStyle id write) := by
  have rest : ∀ write : Style.Write Datum, Maintains P (do
      let f := (← get).forest
      let attributes ← liftExcept (write.apply f.typeOfRef (f.attributesOf id))
      change (·.setAttributes id attributes)
      return Style.text attributes) := by
    intro write
    refine maintains_rewrite kept (fun s a applied => ?_) fun _ a => maintains_pure (Style.text a)
    obtain ⟨name, value, rfl⟩ := Style.Write.exists_of_apply applied
    exact ⟨fun c => Style.set c name value, fun _ distinct => Style.distinct_set distinct name value,
      rfl⟩
  have told : ∀ d : Datum, Maintains P (spelled d) := fun d =>
    Quiet.maintains fun _ => quiet_spelled d
  have passed : ∀ write : Style.Write Datum, Maintains P (pure write : Act (Style.Write Datum)) :=
    fun write => maintains_pure write
  refine (maintains_setStyled kept id).bind fun _ =>
    Quiet.maintains_bind (fun _ => quiet_mapM_resolve write) fun _ write _ => ?_
  split
  · exact (told _).bind fun _ => (passed _).bind fun _ => rest _
  · exact (told _).bind fun _ => (passed _).bind fun _ => rest _
  · exact (told _).bind fun _ => (passed _).bind fun _ => rest _
  · exact (passed _).bind fun _ => rest _

theorem maintains_get (on : String) (query : Query) : Maintains P (runCommand (.get on query)) := by
  refine Quiet.maintains_bind (fun _ => quiet_valueAt on) fun _ d _ => ?_
  split
  · exact (maintains_setStyled kept _).bind fun _ => maintains_told _
  · exact (maintains_pure ()).bind fun _ => maintains_told _

/-- What ordinary operations keep an ordinary command maintains. -/
theorem maintains_of_ordinary {c : Command} (ordinary : c.IsOrdinary) : Maintains P (runCommand c) := by
  match c with
  | .create kind given =>
    obtain ⟨c, rfl⟩ := ordinary
    exact maintains_create _ given (Action.maintains_construct_catalog kept c)
  | .createDocument given =>
    refine Quiet.maintains_bind (fun _ => quiet_arguments given) fun _ _ _ => ?_
    split
    · exact maintains_throw _
    · exact (maintains_onStore (Action.maintains_insertDocument kept)).bind fun _ =>
        maintains_described _
  | .chain start kind count link =>
    obtain ⟨c, rfl⟩ := ordinary
    exact maintains_chain kept start _ count link (Action.maintains_construct_catalog kept c)
  | .bind value =>
    exact Quiet.maintains_bind (fun _ => quiet_make value) fun _ _ _ => maintains_pure _
  | .child on index =>
    refine Act.maintains_get fun s => Quiet.maintains_bind (fun _ => quiet_refAt on _) fun _ r _ => ?_
    exact (maintains_liftExcept _).bind fun _ => maintains_described _
  | .textOf on =>
    exact Quiet.maintains_bind (fun _ => quiet_elementAt on _) fun _ _ _ =>
      Quiet.maintains_bind (fun _ => quiet_tell _) fun _ _ _ => maintains_described _
  | .drop names => exact fun _ h => h
  | .fail message => exact maintains_throw _
  | .add on child =>
    refine Quiet.maintains_bind (fun _ => quiet_refAt on _) fun _ holder _ =>
      Quiet.maintains_bind (fun _ => quiet_valueAt child) fun _ d _ => ?_
    exact (maintains_change fun f => kept.apply f (.add holder d) trivial).bind fun _ =>
      maintains_pure _
  | .remove on child =>
    refine Quiet.maintains_bind (fun _ => quiet_refAt on _) fun _ holder _ =>
      Quiet.maintains_bind (fun _ => quiet_valueAt child) fun _ d _ => Act.maintains_get fun _ => ?_
    exact (maintains_change fun f => kept.apply f (.remove holder d) trivial).bind fun _ =>
      maintains_pure _
  | .attach on child =>
    refine Quiet.maintains_bind (fun _ => quiet_refAt on _) fun _ holder _ =>
      Quiet.maintains_bind (fun _ => quiet_valueAt child) fun _ d _ => ?_
    exact (maintains_attach kept holder d).bind fun _ => maintains_pure _
  | .set on setting value =>
    refine maintains_set on setting value fun g id d resolved => ?_
    cases setting with
    | text => exact maintains_setContent kept id d
    | mark =>
      obtain ⟨b, rfl⟩ := ordinary
      obtain rfl : .bool b = d := Except.ok.inj (resolved rfl)
      exact maintains_change fun f => kept.apply f (.setMark id (.bool b)) ⟨b, rfl⟩
    | parent => exact ordinary.elim
    | property p => exact maintains_change fun f => kept.apply f (.setProperty id p d) trivial
  | .setVerbatim on text =>
    refine Quiet.maintains_bind (fun _ => quiet_textElementAt on) fun _ id _ =>
      Quiet.maintains_bind (fun _ => quiet_make text) fun _ d _ => ?_
    refine (maintains_change fun f h => ?_).bind fun _ => maintains_pure _
    exact kept.apply _ (.setMark id (.bool true)) ⟨true, rfl⟩
      (kept.apply f (.setText id d) trivial h)
  | .attribute on call | .attributes on call => exact maintains_attributes kept on _ call
  | .getStyle on name =>
    exact Quiet.maintains_bind (fun _ => quiet_elementAt on _) fun _ id _ =>
      (maintains_setStyled kept id).bind fun _ => Act.maintains_get fun _ => maintains_pure _
  | .writeStyle on write =>
    exact Quiet.maintains_bind (fun _ => quiet_elementAt on _) fun _ id _ =>
      (maintains_writeStyle kept id write).bind fun _ => maintains_pure _
  | .get on query => exact maintains_get kept on query
  | .render on pretty =>
    exact Quiet.maintains_bind (fun _ => quiet_documentAt on _) fun _ id _ =>
      Quiet.maintains_bind (fun _ => quiet_resolve pretty) fun _ d _ => maintains_renderDocument id d
  | .renderer roots pretty indent =>
    refine Maintains.bind (Quiet.maintains fun _ => Quiet.mapM fun name _ => quiet_valueAt name)
      fun roots => Act.maintains_get fun s => ?_
    refine Quiet.maintains_bind (fun _ => quiet_resolve pretty) fun _ pretty _ =>
      Quiet.maintains_bind (fun _ => quiet_resolve indent) fun _ indent _ => ?_
    exact (maintains_onStore (Action.maintains_identified _)).bind fun _ => maintains_pure _
  | .run on =>
    refine Quiet.maintains_bind (fun _ => quiet_valueAt on) fun _ d _ => ?_
    split
    · exact maintains_renderDocument _ _
    · exact Quiet.maintains_bind (fun _ => quiet_rendererAt on _) fun _ _ _ => maintains_told _
  | .runInner on element =>
    exact Quiet.maintains_bind (fun _ => quiet_rendererAt on _) fun _ _ _ =>
      Quiet.maintains_bind (fun _ => quiet_valueAt element) fun _ _ _ => maintains_told _
  | .setSettings fields =>
    exact Quiet.maintains_bind (fun _ => quiet_resolveFields fields) fun _ _ _ =>
      (maintains_liftExcept _).bind fun _ => fun _ h => h
  | .loadSettings fields =>
    refine Act.maintains_get fun s => Quiet.maintains_bind (fun _ => quiet_resolveFields fields)
      fun _ _ _ => ?_
    exact (maintains_liftExcept _).bind fun _ => fun _ h => h
  | .resetSettings | .getSettings | .journal => exact fun _ h => h
  | .payload on =>
    exact Quiet.maintains_bind (fun _ => quiet_refAt on _) fun _ _ _ => maintains_told _
  | .json on indent =>
    exact Quiet.maintains_bind (fun _ => quiet_valueAt on) fun _ d _ =>
      Quiet.maintains_bind (fun _ => quiet_resolve indent) fun _ indent _ =>
      Quiet.maintains_bind (fun _ => quiet_refOf d _) fun _ r _ =>
      Act.maintains_get fun s => maintains_told _

end Ordinary

/-! ## All commands -/

section Always

variable (kept : Forest.IsAlwaysKept P)
include kept

theorem maintains_assign (id : ElementId) (d : Datum) (setting : Setting) :
    Maintains P (assign id d setting) := by
  cases setting with
  | text => exact maintains_setContent kept.isKept id d
  | mark => exact maintains_change fun f => kept.apply f (.setMark id d)
  | parent =>
    exact Act.maintains_get fun s => (maintains_liftExcept _).bind fun link =>
      maintains_change fun f => kept.apply f (.setParent id link)
  | property p => exact maintains_change fun f => kept.apply f (.setProperty id p d)

omit kept in
theorem maintains_readNode {act : Action Ref} (read : Action.Maintains P act) :
    Maintains P (readNode act) :=
  (maintains_onStore read).bind fun _ => maintains_described _

/-- What all operations keep any command maintains. -/
theorem maintains_runCommand (c : Command) : Maintains P (runCommand c) := by
  by_cases ordinary : c.IsOrdinary
  · exact maintains_of_ordinary kept.isKept ordinary
  have made := Action.maintains_construct_any kept
  cases c with
  | create kind given => exact maintains_create kind given (made kind)
  | chain start kind count link => exact maintains_chain kept.isKept start kind count link (made kind)
  | set on setting value =>
    exact maintains_set on setting value fun _ id d _ => maintains_assign kept id d setting
  | readPayload data =>
    exact Quiet.maintains_bind (fun _ => quiet_make data) fun _ d _ =>
      maintains_readNode (Payload.maintains_node kept d)
  | readJson text =>
    exact Act.maintains_get fun s => maintains_readNode (Payload.maintains_nodeOfJson kept _ text)
  | copy on byJson =>
    cases byJson with
    | true =>
      exact Quiet.maintains_bind (fun _ => quiet_refAt on _) fun _ r _ => Act.maintains_get fun s =>
        Quiet.maintains_bind (fun _ => quiet_tell _) fun _ text _ =>
        maintains_readNode (Payload.maintains_nodeOfJson kept _ text)
    | false =>
      exact Quiet.maintains_bind (fun _ => quiet_refAt on _) fun _ r _ =>
        Quiet.maintains_bind (fun _ => quiet_tell _) fun _ v _ =>
        maintains_readNode (Payload.maintains_node kept v)
  | _ => exact absurd trivial ordinary

end Always

end Session

end Hypertext
