import Hypertext.Proofs.Unwinding

/-! Actions of a session that keep its settings and are blind to the difference between some: under
either of them they answer the same and do the same to all else. Where the relation is equality that
only says that the settings are kept. The main statement is `blind_runCommand`. -/
namespace Hypertext.Session
set_option autoImplicit false

/-- The same session with other settings. -/
def under (s : Session) (settings : Settings) : Session := { s with settings }

/-- An action keeps the settings, and does the same under settings that are related to them. -/
def Act.Blind {α : Type} (R : Settings → Settings → Prop) (act : Act α) : Prop :=
  ∀ (s : Session) (b : Settings), R s.settings b → (act.run s).2.settings = s.settings ∧
    act.run (s.under b) = ((act.run s).1, (act.run s).2.under b)

/-- Whatever an action answers has a property. -/
def Act.Answers {α : Type} (act : Act α) (P : α → Prop) : Prop :=
  ∀ s a, (act.run s).1 = .ok a → P a

variable {α β γ : Type} {R : Settings → Settings → Prop}

namespace Act.Answers

theorem pure {P : α → Prop} {a : α} (h : P a) : Answers (Pure.pure a) P :=
  fun _ _ answer => Except.ok.inj answer ▸ h

theorem andThen {P : α → Prop} {Q : β → Prop} {act : Act α} {next : α → Act β}
    (first : Answers act P) (second : ∀ a, P a → Answers (next a) Q) : Answers (act >>= next) Q := by
  intro s b answer
  have answered := first s
  rw [run_bind] at answer
  generalize act.run s = result at answered answer
  obtain ⟨fault | a, s'⟩ := result
  · cases answer
  · exact second a (answered a rfl) s' b answer

theorem bind {Q : β → Prop} {act : Act α} {next : α → Act β} (h : ∀ a, Answers (next a) Q) :
    Answers (act >>= next) Q := andThen (P := fun _ => True) (fun _ _ _ => trivial) fun a _ => h a

end Act.Answers

namespace Act.Blind

/-! ## Rules -/

theorem pure (a : α) : Blind R (Pure.pure a) := fun _ _ _ => ⟨rfl, rfl⟩

theorem throw (fault : Fault) : Blind R (MonadExcept.throw fault : Act α) :=
  fun _ _ _ => ⟨rfl, rfl⟩

/-- What follows an action needs to be blind after what it answers. -/
theorem bind_answers {P : α → Prop} {act : Act α} {next : α → Act β} (first : Blind R act)
    (answers : Answers act P) (second : ∀ a, P a → Blind R (next a)) :
    Blind R (act >>= next) := by
  intro s b related
  obtain ⟨kept, same⟩ := first s b related
  have answered := answers s
  rw [run_bind, run_bind, same]
  generalize act.run s = result at kept answered ⊢
  obtain ⟨fault | a, s'⟩ := result
  · exact ⟨kept, rfl⟩
  · have related' : R s'.settings b := by rwa [show s'.settings = s.settings from kept]
    obtain ⟨kept', same'⟩ := second a (answered a rfl) s' b related'
    exact ⟨kept'.trans kept, same'⟩

theorem bind {act : Act α} {next : α → Act β} (first : Blind R act)
    (second : ∀ a, Blind R (next a)) : Blind R (act >>= next) :=
  first.bind_answers (P := fun _ => True) (fun _ _ _ => trivial) fun a _ => second a

/-- What is read of the session is the same under either settings. -/
theorem get {next : Session → Act β}
    (same : ∀ (s : Session) (b : Settings), R s.settings b → next (s.under b) = next s)
    (h : ∀ s, Blind R (next s)) : Blind R (MonadState.get >>= next) := by
  intro s b related
  refine ⟨(h s s b related).1, ?_⟩
  show (next (s.under b)).run (s.under b) = _
  rw [same s b related]
  exact (h s s b related).2

theorem modify (f : Session → Session) (kept : ∀ s, (f s).settings = s.settings)
    (same : ∀ (s : Session) (b : Settings), f (s.under b) = (f s).under b) :
    Blind R (modify f : Act Unit) :=
  fun s b _ => ⟨kept s, congrArg (Except.ok (), ·) (same s b)⟩

theorem liftExcept (e : Except Fault α) : Blind R (Session.liftExcept e) := by
  cases e with
  | error fault => exact throw fault
  | ok a => exact pure a

/-- What is done to the store has nothing to do with the settings. -/
theorem onStore (act : Action α) : Blind R (Session.onStore act) := by
  intro s b _
  rw [run_onStore, run_onStore]
  exact ⟨rfl, rfl⟩

theorem mapM {act : γ → Act α} (l : List γ) (h : ∀ x, Blind R (act x)) : Blind R (l.mapM act) := by
  induction l with
  | nil => exact pure []
  | cons x l ih =>
    rw [List.mapM_cons]
    exact (h x).bind fun _ => ih.bind fun _ => pure _

theorem filterMapM {act : γ → Act (Option α)} (l : List γ) (h : ∀ x, Blind R (act x)) :
    Blind R (l.filterMapM act) := filterMapM_of_bind (fun act => Blind R act) pure bind h l

end Act.Blind

/-! ## Objects -/

open Act

theorem blind_tell (reading : Forest → Reading α) : Blind R (tell reading) := .onStore _

theorem blind_change (f : Forest → Forest) : Blind R (change f) := .onStore _

theorem blind_valueAt (name : String) : Blind R (valueAt name) :=
  .get (fun _ _ _ => rfl) fun _ => .liftExcept _

theorem blind_refuse (d : Datum) (asked : String) : Blind R (refuse (α := α) d asked) :=
  .get (fun _ _ _ => rfl) fun _ => .throw _

theorem blind_refOf (d : Datum) (asked : String) : Blind R (refOf d asked) := by
  unfold refOf
  split
  · exact .pure _
  · exact blind_refuse _ _

theorem blind_refAt (name asked : String) : Blind R (refAt name asked) :=
  (blind_valueAt name).bind fun d => blind_refOf d asked

theorem blind_elementAt (name asked : String) : Blind R (elementAt name asked) := by
  refine (blind_valueAt name).bind fun d => ?_
  split
  · exact .pure _
  · exact blind_refuse _ _

theorem blind_textElementAt (name : String) : Blind R (textElementAt name) := by
  refine (blind_elementAt name _).bind fun id => .get (fun _ _ _ => rfl) fun s => ?_
  split
  · exact .pure _
  · exact blind_refuse _ _

theorem blind_documentAt (name asked : String) : Blind R (documentAt name asked) := by
  refine (blind_valueAt name).bind fun d => ?_
  split
  · exact .pure _
  · exact blind_refuse _ _

theorem blind_rendererAt (name asked : String) : Blind R (rendererAt name asked) := by
  refine (blind_valueAt name).bind fun d => ?_
  split
  · exact .pure _
  · exact blind_refuse _ _

theorem blind_resolve (t : Term) : Blind R (resolve t) :=
  .get (fun _ _ _ => rfl) fun _ => .liftExcept _

theorem blind_make (t : Term) : Blind R (make t) :=
  (Blind.onStore _).bind fun _ => .get (fun _ _ _ => rfl) fun _ => .liftExcept _

theorem blind_resolveFields (fields : List (String × Term)) : Blind R (resolveFields fields) :=
  .mapM fields fun _ => (blind_resolve _).bind fun _ => .pure _

theorem blind_arguments (given : Given) : Blind R (arguments given) := by
  refine (Blind.mapM _ blind_make).bind fun items => ?_
  refine (Blind.mapM _ fun field => ?_).bind fun named => .pure _
  obtain ⟨p, t⟩ := field
  by_cases text : p = .text
  · simp only [if_pos text]
    exact (blind_make t).bind fun _ => .pure _
  · simp only [if_neg text]
    exact (blind_resolve t).bind fun _ => .pure _

theorem blind_watch (names : List String) : Blind R (watch names) := by
  refine .get (fun _ _ _ => rfl) fun s => .filterMapM names fun name => ?_
  split
  · exact .pure _
  · exact (blind_tell _).bind fun _ => .pure _

theorem blind_described (d : Datum) : Blind R (described d) :=
  .get (fun _ _ _ => rfl) fun _ => (Blind.liftExcept _).bind fun _ => .pure _

/-! ## Elements -/

theorem blind_construct (maker : Parameter.Maker) (named : List Parameter) (args : Arguments) :
    Blind R (construct maker named args) := by
  unfold construct
  split
  · exact .throw _
  · exact .onStore _

theorem blind_chainFrom (kind : Kind) (link : Link) (count : Nat) (d : Datum) :
    Blind R (chainFrom kind link count d) := by
  induction count generalizing d with
  | zero => exact .pure d
  | succ count ih =>
    rw [chainFrom]
    refine (Blind.onStore _).bind fun id => ?_
    split
    · exact (Blind.onStore _).bind fun _ => ih _
    · exact (blind_refuse _ _).bind fun _ => ih _
    · exact (blind_change _).bind fun _ => ih _
    · exact (blind_refuse _ _).bind fun _ => ih _

theorem blind_settingValue (t : Term) (setting : Setting) : Blind R (settingValue t setting) := by
  cases setting with
  | text => exact blind_make t
  | _ => exact blind_resolve t

theorem blind_assign (id : ElementId) (d : Datum) (setting : Setting) :
    Blind R (assign id d setting) := by
  cases setting with
  | parent =>
    exact .get (fun _ _ _ => rfl) fun _ => (Blind.liftExcept _).bind fun _ => blind_change _
  | _ => exact blind_change _

theorem blind_callAttributes (id : ElementId) (call : Attributes.Call Symbol) :
    Blind R (callAttributes id call) :=
  .get (fun _ _ _ => rfl) fun _ => (Blind.liftExcept _).bind fun _ =>
    (blind_change _).bind fun _ => .liftExcept _

theorem blind_spelled (d : Datum) : Blind R (spelled d) := by
  cases d with
  | ref r => exact (blind_tell _).bind fun _ => .pure _
  | scalar s =>
    rw [spelled]
    split
    · exact .throw _
    · exact .pure _
  | _ => exact .get (fun _ _ _ => rfl) fun _ => (Blind.liftExcept _).bind fun _ => .pure _

theorem blind_mapM_resolve (write : Style.Write Term) : Blind R (write.mapM resolve) := by
  cases write with
  | strikethrough => exact .pure _
  | _ => exact (blind_resolve _).bind fun _ => .pure _

theorem blind_writeStyle (id : ElementId) (write : Style.Write Term) :
    Blind R (writeStyle id write) := by
  refine (blind_change _).bind fun _ => (blind_mapM_resolve write).bind fun write => ?_
  have rest : ∀ write : Style.Write Datum, Blind R (do
      let f := (← get).forest
      let attributes ← liftExcept (write.apply f.typeOfRef (f.attributesOf id))
      change (·.setAttributes id attributes)
      return Style.text attributes) := fun write =>
    .get (fun _ _ _ => rfl) fun _ => (Blind.liftExcept _).bind fun _ =>
      (blind_change _).bind fun _ => .pure _
  split
  · exact (blind_spelled _).bind fun _ => (Blind.pure _).bind fun _ => rest _
  · exact (blind_spelled _).bind fun _ => (Blind.pure _).bind fun _ => rest _
  · exact (blind_spelled _).bind fun _ => (Blind.pure _).bind fun _ => rest _
  · exact (Blind.pure _).bind fun _ => rest _

theorem blind_readNode (act : Action Ref) : Blind R (readNode act) :=
  (Blind.onStore _).bind fun _ => blind_described _

/-! ## Commands -/

/-- The commands that read the settings. -/
def ReadsSettings : Command → Prop
  | .render .. | .renderer .. | .run _ | .getSettings => True
  | _ => False

/-- The commands that put other settings in place. -/
def PutsSettings : Command → Prop
  | .setSettings _ | .loadSettings _ | .resetSettings => True
  | _ => False

theorem blind_set (on : String) (setting : Setting) (value : Term) :
    Blind R (runCommand (.set on setting value)) := by
  refine (blind_valueAt on).bind fun holder => (blind_settingValue value setting).bind fun d => ?_
  split
  · exact (Blind.throw _).bind fun _ => .pure _
  · exact .pure Result.null
  · exact (blind_assign _ _ _).bind fun _ => .pure _
  · exact (blind_refuse _ _).bind fun _ => .pure _

theorem blind_get (on : String) (query : Query) : Blind R (runCommand (.get on query)) := by
  refine (blind_valueAt on).bind fun d => ?_
  split
  · exact (blind_change _).bind fun _ => (blind_tell _).bind fun _ => .pure _
  · exact (blind_tell _).bind fun _ => .pure _

/-- A render of a document, whose text is the same under settings that are related. -/
theorem blind_renderDocument {id : DocumentId} {pretty : Datum}
    (same : ∀ (f : Forest) (a b : Settings), R a b →
      f.renderDocument a id pretty = f.renderDocument b id pretty) :
    Blind R (renderDocument id pretty) := by
  refine .get (fun s b related => ?_) fun _ => (blind_tell _).bind fun _ => .pure _
  have told : (fun f : Forest => f.renderDocument (s.under b).settings id pretty) =
      fun f => f.renderDocument s.settings id pretty :=
    funext fun f => (same f s.settings b related).symm
  simp only [told]

theorem blind_runCommand {c : Command} (reads : ¬ ReadsSettings c) (puts : ¬ PutsSettings c) :
    Blind R (runCommand c) := by
  match c with
  | .create kind given =>
    exact (blind_arguments given).bind fun _ => (blind_construct _ _ _).bind fun _ =>
      blind_described _
  | .createDocument given =>
    refine (blind_arguments given).bind fun _ => ?_
    split
    · exact .throw _
    · exact (Blind.onStore _).bind fun _ => blind_described _
  | .chain start kind count link =>
    exact (blind_valueAt start).bind fun _ => (blind_chainFrom _ _ _ _).bind fun _ =>
      blind_described _
  | .bind value => exact (blind_make value).bind fun _ => .pure _
  | .child on index =>
    exact .get (fun _ _ _ => rfl) fun _ => (blind_refAt on _).bind fun _ =>
      (Blind.liftExcept _).bind fun _ => blind_described _
  | .textOf on =>
    exact (blind_elementAt on _).bind fun _ => (blind_tell _).bind fun _ => blind_described _
  | .drop names =>
    exact (Blind.modify (fun s => { s with registers := s.registers.drop names }) (fun _ => rfl)
      fun _ _ => rfl).bind fun _ => .pure _
  | .fail message => exact .throw _
  | .add on child | .attach on child =>
    exact (blind_refAt on _).bind fun _ => (blind_valueAt child).bind fun _ =>
      (Blind.onStore _).bind fun _ => .pure _
  | .remove on child =>
    exact (blind_refAt on _).bind fun _ => (blind_valueAt child).bind fun _ =>
      .get (fun _ _ _ => rfl) fun _ => (blind_change _).bind fun _ => .pure _
  | .set on setting value => exact blind_set on setting value
  | .setVerbatim on text =>
    exact (blind_textElementAt on).bind fun _ => (blind_make text).bind fun _ =>
      (blind_change _).bind fun _ => .pure _
  | .attribute on call | .attributes on call =>
    exact (blind_elementAt on _).bind fun _ => (blind_callAttributes _ call).bind fun _ => .pure _
  | .getStyle on name =>
    exact (blind_elementAt on _).bind fun _ => (blind_change _).bind fun _ =>
      .get (fun _ _ _ => rfl) fun _ => .pure _
  | .writeStyle on write =>
    exact (blind_elementAt on _).bind fun _ => (blind_writeStyle _ write).bind fun _ => .pure _
  | .get on query => exact blind_get on query
  | .render .. | .renderer .. | .run _ | .getSettings => exact absurd trivial reads
  | .setSettings _ | .loadSettings _ | .resetSettings => exact absurd trivial puts
  | .runInner on name =>
    exact (blind_rendererAt on _).bind fun _ => (blind_valueAt name).bind fun _ =>
      (blind_tell _).bind fun _ => .pure _
  | .payload on => exact (blind_refAt on _).bind fun _ => (blind_tell _).bind fun _ => .pure _
  | .json on indent =>
    exact (blind_valueAt on).bind fun d => (blind_resolve indent).bind fun _ =>
      (blind_refOf d _).bind fun _ => .get (fun _ _ _ => rfl) fun _ =>
        (blind_tell _).bind fun _ => .pure _
  | .readPayload data => exact (blind_make data).bind fun _ => blind_readNode _
  | .readJson text => exact .get (fun _ _ _ => rfl) fun _ => blind_readNode _
  | .copy on true =>
    exact (blind_refAt on _).bind fun _ => .get (fun _ _ _ => rfl) fun _ =>
      (blind_tell _).bind fun _ => blind_readNode _
  | .copy on false =>
    exact (blind_refAt on _).bind fun _ => (blind_tell _).bind fun _ => blind_readNode _
  | .journal =>
    exact .get (fun _ _ _ => rfl) fun _ =>
      (Blind.modify (fun s => { s with store.journal := #[] }) (fun _ => rfl)
        fun _ _ => rfl).bind fun _ => .pure _

/-- Commands that read the settings keep them as well. -/
theorem keeps_runCommand {c : Command} (puts : ¬ PutsSettings c) (s : Session) :
    ((runCommand c).run s).2.settings = s.settings := by
  have document : ∀ id pretty, Blind Eq (renderDocument id pretty) := fun id pretty =>
    blind_renderDocument fun f a b same => by rw [same]
  have kept : Blind Eq (runCommand c) := by
    by_cases reads : ReadsSettings c
    · match c with
      | .render on pretty =>
        exact (blind_documentAt on _).bind fun _ => (blind_resolve pretty).bind fun _ =>
          document _ _
      | .renderer roots pretty indent =>
        refine (Blind.mapM _ blind_valueAt).bind fun roots => .get (fun s b same => ?_) fun _ =>
          (blind_resolve pretty).bind fun _ => (blind_resolve indent).bind fun _ =>
            (Blind.onStore _).bind fun _ => .pure _
        subst same
        rfl
      | .run on =>
        refine (blind_valueAt on).bind fun d => ?_
        split
        · exact document _ _
        · exact (blind_rendererAt on _).bind fun _ => (blind_tell _).bind fun _ => .pure _
      | .getSettings =>
        refine .get (fun s b same => ?_) fun _ => .pure _
        subst same
        rfl
    · exact blind_runCommand reads puts
  exact (kept s s.settings rfl).1

/-! ## Scopes -/

/-- An opening of a scope without settings of its own. -/
def IsPlain : Opening → Prop
  | .settings _ => False
  | _ => True

def Entrance.IsPlain : Entrance → Prop
  | settings _ => False
  | _ => True

theorem answers_approach {o : Opening} (plain : IsPlain o) :
    Answers (approach o) Entrance.IsPlain := by
  cases o with
  | build | place => exact .bind fun _ => .bind fun _ => .pure trivial
  | document => exact .pure trivial
  | verbatim => exact .bind fun _ => .pure trivial
  | settings fields => exact plain.elim

theorem answers_enter {entrance : Entrance} (plain : entrance.IsPlain) :
    Answers (enter entrance) fun scope => scope.saved? = none := by
  cases entrance with
  | build | document => exact .bind fun _ => .pure rfl
  | place | verbatim => exact .pure rfl
  | settings fields => exact plain.elim

theorem answers_opening {o : Opening} (plain : IsPlain o) :
    Answers (opening o) fun (_, scope) => scope.saved? = none :=
  (answers_approach plain).andThen fun _ entered =>
    (answers_enter entered).andThen fun _ none => .pure none

theorem blind_approach (o : Opening) : Blind R (approach o) := by
  cases o with
  | build parent entry given =>
    exact (blind_valueAt parent).bind fun _ => (blind_arguments given).bind fun _ => .pure _
  | place parent element =>
    exact (blind_valueAt parent).bind fun _ => (blind_make element).bind fun _ => .pure _
  | document => exact .pure _
  | verbatim on => exact (blind_textElementAt on).bind fun _ => .pure _
  | settings fields => exact (blind_resolveFields fields).bind fun _ => .pure _

theorem blind_enter {entrance : Entrance} (plain : entrance.IsPlain) :
    Blind R (enter entrance) := by
  cases entrance with
  | build parent entry named args => exact (blind_construct _ _ _).bind fun _ => .pure _
  | document => exact (Blind.onStore _).bind fun _ => .pure _
  | place | verbatim => exact .pure _
  | settings fields => exact plain.elim

theorem blind_opening {o : Opening} (plain : IsPlain o) : Blind R (opening o) :=
  (blind_approach o).bind_answers (answers_approach plain) fun _ entered =>
    (blind_enter entered).bind fun _ => .pure _

theorem blind_leave {scope : Scope} (plain : scope.saved? = none) : Blind R (leave scope) := by
  cases scope with
  | building parent child =>
    show Blind R (attach parent child)
    unfold attach
    split
    · exact .onStore _
    · exact blind_refuse _ _
  | document => exact .pure _
  | verbatim => exact blind_change _
  | settings saved => cases plain

end Hypertext.Session
