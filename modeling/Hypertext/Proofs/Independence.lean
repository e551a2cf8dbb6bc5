import Hypertext.Proofs.Endings
import Hypertext.Proofs.Overrides

/-! What is written does not depend on the settings: compact output never does, pretty output only on
the unit of indentation, and a renderer once it is made keeps the unit that it has. So two runs under
different settings answer alike, step by step, unless a step reads what is different. The main
statement is `output_independent_of_settings`. -/
namespace Hypertext
set_option autoImplicit false

/-! ## Compact output -/

namespace Tree

theorem isLayout_drawInner (t : Tree) :
    ∀ x ∈ (drawInner false t .empty).fragments.toList, x.isLayout = false := by
  cases t with
  | node x inside children =>
    rw [drawInner, fragments_drawAll, fragments_drawText]
    exact List.forall_mem_append.2 ⟨isLayout_wordsText x inside, isLayout_wordsAll children⟩
  | bare what children =>
    rw [drawInner, fragments_drawAll]
    refine List.forall_mem_append.2 ⟨fun y hy => ?_, isLayout_wordsAll children⟩
    cases what with
    | document => cases hy
    | value type =>
      rw [List.mem_singleton.1 hy]
      rfl

end Tree

variable {f : Forest}

namespace Renderer

/-- Compact output has no indentation, so it asks for no unit of it. -/
theorem render_compact (roots : List Datum) (unit unit' : Datum) :
    render f ⟨roots, .bool false, unit⟩ = render f ⟨roots, .bool false, unit'⟩ := by
  rw [render, render]
  exact congrArg (_ >>= fun _ => ·)
    (Canvas.compose_of_words (Tree.isLayout_render_compact _) _ _)

theorem renderInner_compact (roots : List Datum) (unit on : Datum) :
    renderInner f ⟨roots, .bool false, unit⟩ on =
      (f.drawnInside false on).compose (.ofText "") := by
  refine Canvas.compose_of_words ?_ _ _
  rw [Forest.drawnInside]
  cases f.tree? on with
  | none => exact fun x hx => absurd hx List.not_mem_nil
  | some t =>
    rw [Option.map_some, Option.getD_some, Tree.renderInner_eq_drawInner]
    exact Tree.isLayout_drawInner t

end Renderer

namespace Forest

theorem renderDocument_compact (a b : Settings) (id : DocumentId) :
    f.renderDocument a id (.bool false) = f.renderDocument b id (.bool false) :=
  congrArg (Text.trimEnd <$> ·) (Renderer.render_compact (f.rootsOf id) a.indent b.indent)

theorem renderDocument_of_indent {a b : Settings} (same : a.indent = b.indent) (id : DocumentId)
    (pretty : Bool) :
    f.renderDocument a id (.bool pretty) = f.renderDocument b id (.bool pretty) := by
  simp only [renderDocument, Renderer.make, same]
  rfl

/-- The text of a document is its compact output. -/
theorem result_textOf_document (settings : Settings) (id : DocumentId) :
    (f.textOf (.ref (.document id))).result =
      (f.renderDocument settings id (.bool false)).result := by
  show (Text.trimEnd <$> Tree.html (f.trees (f.rootsOf id))).result = _
  rw [Account.result_map, Tree.result_html, joined_trees, result_renderDocument_compact]

theorem result_render_own (settings : Settings) (id : ElementId) :
    (Renderer.render f (Renderer.make settings [.ref (.element id)] (.bool false) .null)).result =
      (f.html id).result :=
  (Renderer.result_render_compact _ _).trans (result_html id).symm

end Forest

namespace Session

open Act

variable {R : Settings → Settings → Prop} {s s' : Session} {b : Settings} {held : List Ref}

/-! ## Renders -/

theorem resolve_scalar (x : Scalar) : resolve (.scalar x) = pure (.scalar x) := rfl

theorem blind_render {pretty : Bool}
    (same : ∀ (f : Forest) (id : DocumentId) (a b : Settings), R a b →
      f.renderDocument a id (.bool pretty) = f.renderDocument b id (.bool pretty)) (on : String) :
    Blind R (runCommand (.render on (.bool pretty))) := by
  refine (blind_documentAt on _).bind fun id => ?_
  rw [resolve_scalar, pure_bind]
  exact blind_renderDocument fun f => same f id

/-- A renderer with a unit of its own takes nothing from the settings. -/
theorem blind_renderer (roots : List String) (pretty : Term) (unit : String) :
    Blind R (runCommand (.renderer roots pretty (.text unit))) := by
  refine (Blind.mapM _ blind_valueAt).bind fun roots => ?_
  refine .get (fun s b _ => ?_) fun s => ?_
  · refine bind_congr fun pretty => ?_
    rw [resolve_scalar, pure_bind, pure_bind]
    rfl
  · exact (blind_resolve pretty).bind fun _ => (blind_resolve _).bind fun _ =>
      (Blind.onStore _).bind fun _ => .pure _

theorem run_valueAt (name : String) (s : Session) :
    (valueAt name).run s = (s.registers.get name, s) := by
  show (liftExcept (s.registers.get name)).run s = _
  cases s.registers.get name <;> rfl

/-- A renderer is made of what its terms stand for, and of the settings of that moment. -/
theorem exists_renderer {roots : List String} {pretty indent : Term} {values : List Datum}
    {p unit : Datum} (bound : roots.mapM s.registers.get = .ok values)
    (stands : s.registers.resolve pretty = .ok p) (given : s.registers.resolve indent = .ok unit) :
    ∃ d s', (runCommand (.renderer roots pretty indent)).run s = (.ok (.same d), s') ∧
      Renderer.ofValue? d = some (Renderer.make s.settings values p unit) ∧ s'.view = s.view := by
  have read : (roots.mapM valueAt).run s = (.ok values, s) := by
    rw [run_mapM s (fun name => run_valueAt name s), bound]
  rw [runCommand, Act.run_bind, read]
  show ∃ d s', ((resolve pretty >>= _ : Act Result)).run s = (.ok (.same d), s') ∧ _
  rw [Act.run_bind, run_resolve, stands]
  simp only
  rw [Act.run_bind, run_resolve, given]
  exact ⟨.made ⟨[s.store.origins]⟩ (Renderer.make s.settings values p unit).toValue, _, rfl, rfl,
    rfl⟩

/-- What a renderer in a register renders does not depend on the settings. -/
theorem run_renderer {on : String} {d : Datum} {r : Renderer}
    (held : s.registers.get on = .ok d) (is : Renderer.ofValue? d = some r) :
    (runCommand (.run on)).run s =
      (do return Result.plain (.text (← tell r.render)) : Act Result).run s := by
  rw [runCommand, Act.run_bind, run_valueAt, held]
  have found : (rendererAt on "render").run s = (.ok r, s) := by
    rw [rendererAt, Act.run_bind, run_valueAt, held]
    simp only [is]
    rfl
  cases d with
  | renderer | made =>
    simp only
    rw [Act.run_bind, found]
  | _ => cases is

/-! ## Two runs -/

/-- Under settings that are related a step has the same outcome and does the same to all else. -/
def BlindStep (R : Settings → Settings → Prop) (step : Step) : Prop :=
  ∀ (held : List Ref) (s : Session) (b : Settings), R s.settings b →
    (s.runStep held step).2.settings = s.settings ∧ (s.under b).runStep held step =
      ((s.runStep held step).1, (s.runStep held step).2.under b)

/-- The same of steps that follow each other. -/
def BlindBlock (R : Settings → Settings → Prop) (block : List Step) : Prop :=
  ∀ (held : List Ref) (s : Session) (b : Settings), R s.settings b →
    (s.runBlock held block).2.2.settings = s.settings ∧ (s.under b).runBlock held block =
      ((s.runBlock held block).1, (s.runBlock held block).2.1,
        (s.runBlock held block).2.2.under b)

mutual

/-- The commands of a step are blind, but for those in blocks with settings of their own. -/
def CommandsBlind (R : Settings → Settings → Prop) : Step → Prop
  | .command c _ => Blind R (runCommand c)
  | .brief _ _ => True
  | .scope o _ block => IsPlain o → AllCommandsBlind R block

def AllCommandsBlind (R : Settings → Settings → Prop) : List Step → Prop
  | [] => True
  | step :: rest => CommandsBlind R step ∧ AllCommandsBlind R rest

end

theorem under_bind (s : Session) (b : Settings) (name : Option String) (object : Option Datum) :
    (s.under b).bind name object = (s.bind name object).under b := by
  cases name <;> cases object <;> rfl

section

variable (same : s.settings.refs = b.refs)
include same

theorem refs_under : (s.under b).refs = s.refs := congrArg (s.registers.refs ++ ·) same.symm

/-- What is dropped depends on what settings refer to, and on nothing else of them. -/
theorem under_settle (held : List Ref) : (s.under b).settle held = (s.settle held).under b := by
  rw [settle, settle, refs_under same]
  rfl

theorem under_collect : (s.under b).collect = s.collect.under b := by
  rw [collect, collect, refs_under same]
  rfl

theorem under_enterBlock (held : List Ref) (name : Option String) (d : Datum) :
    (s.under b).enterBlock held name d = (s.enterBlock held name d).under b := by
  cases name with
  | none => rfl
  | some name =>
    rw [enterBlock, enterBlock, under_bind]
    exact under_settle (s := s.bind name d) same held

/-- In a block with settings of its own nothing is seen of those from before it. -/
theorem under_scope_settings (held : List Ref) (fields : List (String × Term))
    (name : Option String) (block : List Step) :
    (s.under b).runStep held (.scope (.settings fields) name block) =
      ((s.runStep held (.scope (.settings fields) name block)).1,
        (s.runStep held (.scope (.settings fields) name block)).2.under b) := by
  cases gives : s.overriding fields with
  | error fault =>
    rw [runStep, runStep, run_approach_settings, run_approach_settings,
      show (s.under b).taken fields = s.taken fields from rfl]
    rw [overriding] at gives
    cases given : s.taken fields with
    | error fault => rfl
    | ok fields =>
      rw [given] at gives
      simp only [Except.map, run_enter_settings,
        show Settings.ofArguments fields = .error fault from gives]
  | ok given =>
    have within : heldWithin held (s.under b) fields = heldWithin held s fields :=
      congrArg ((Entrance.settings ((s.taken fields).toOption.getD [])).refs ++ · ++ held) same.symm
    rw [runStep_settings gives, runStep_settings (s := s.under b) gives, within]
    show closing b (runBlock _ ((s.under given).enterBlock _ name .null) block) = _
    generalize runBlock _ _ block = result
    obtain ⟨answers, _ | fault, s'⟩ := result <;> rfl

end

theorem blind_passage {o : Opening} (plain : IsPlain o) :
    Blind R (do let scope ← enter (← approach o); leave scope; return scope) :=
  (blind_approach o).bind_answers (answers_approach plain) fun _ entered =>
    (blind_enter entered).bind_answers (answers_enter entered) fun _ none =>
      (blind_leave none).bind fun _ => .pure _

theorem under_brief (held : List Ref) (related : R s.settings b) (o : Opening)
    (name : Option String) : (s.under b).runStep held (.brief o name) =
      ((s.runStep held (.brief o name)).1, (s.runStep held (.brief o name)).2.under b) := by
  have passed (plain : IsPlain o) := (blind_passage plain s b related).2
  cases o with
  | settings fields =>
    rw [runStep_brief, runStep_brief, run_opening_settings, run_opening_settings,
      show (s.under b).overriding fields = s.overriding fields from rfl]
    cases s.overriding fields with
    | error fault => rfl
    | ok given => cases name <;> rfl
  | _ =>
    rw [runStep, runStep, passed trivial]
    generalize (do let scope ← enter (← approach _); leave scope; return scope : Act Scope).run s =
      result
    obtain ⟨fault | scope, s₁⟩ := result
    · rfl
    · simp only [under_bind]
      rfl

theorem under_abandon {scope : Scope} (plain : scope.saved? = none) (s : Session) (b : Settings) :
    abandon scope (s.under b) = (abandon scope s).under b := by
  cases scope with
  | settings saved => cases plain
  | _ => rfl

/-- A scope without settings of its own is approached and entered, its block runs, and it is left or
given up. The settings are the same after each of these stages, so the next one is blind too. -/
theorem blind_scope (refs : ∀ a b, R a b → a.refs = b.refs) {o : Opening} (plain : IsPlain o)
    (name : Option String) {block : List Step} (blind : BlindBlock R block) :
    BlindStep R (.scope o name block) := by
  intro held s b related
  have next {s₁ s₂ : Session} (related : R s₁.settings b) (kept : s₂.settings = s₁.settings) :
      R s₂.settings b := by rwa [kept]
  obtain ⟨kept, alike⟩ := blind_approach o s b related
  have plain := answers_approach plain s
  rw [runStep, runStep, alike]
  generalize (approach o).run s = result at kept plain ⊢
  obtain ⟨fault | entrance, s₁⟩ := result
  · exact ⟨kept, rfl⟩
  have related₁ := next related kept
  obtain ⟨kept₁, alike₁⟩ := blind_enter (plain _ rfl) s₁ b related₁
  have plain := answers_enter (plain _ rfl) s₁
  simp only [alike₁]
  generalize (enter entrance).run s₁ = result at kept₁ plain ⊢
  obtain ⟨fault | scope, s₂⟩ := result
  · exact ⟨kept₁.trans kept, rfl⟩
  have related₂ := next related₁ kept₁
  have plain : scope.saved? = none := plain _ rfl
  have entered := settings_enterBlock s₂ (entrance.refs ++ scope.refs ++ held) name scope.object
  obtain ⟨kept₃, alike₃⟩ := blind (entrance.refs ++ scope.refs ++ held) _ b (next related₂ entered)
  simp only [under_enterBlock (refs _ _ related₂), alike₃]
  generalize runBlock _ _ block = result at kept₃ ⊢
  obtain ⟨answers, _ | fault, s₃⟩ := result
  · have kept₃ : s₃.settings = s.settings := (kept₃.trans entered).trans (kept₁.trans kept)
    obtain ⟨kept₄, alike₄⟩ := blind_leave plain s₃ b (next related kept₃)
    simp only [alike₄]
    generalize (leave scope).run s₃ = result at kept₄ ⊢
    obtain ⟨fault | _, s₄⟩ := result
    · exact ⟨kept₄.trans kept₃, rfl⟩
    · simp only [under_bind]
      exact ⟨(settings_bind ..).trans (kept₄.trans kept₃), rfl⟩
  · have kept₄ := settings_abandon scope s₃
    rw [plain] at kept₄
    simp only [under_abandon plain]
    exact ⟨kept₄.trans ((kept₃.trans entered).trans (kept₁.trans kept)), trivial⟩

mutual

/-- By induction on the step: a scope with settings of its own hides all others from its block, and
any other scope runs its block under the settings from before it. -/
theorem blind_step (refs : ∀ a b, R a b → a.refs = b.refs) (step : Step)
    (commands : CommandsBlind R step) : BlindStep R step := by
  match step with
  | .command c name =>
    intro held s b related
    obtain ⟨kept, alike⟩ := show _ ∧ _ from commands s b related
    rw [runStep, runStep, alike]
    generalize (runCommand c).run s = result at kept ⊢
    obtain ⟨fault | result, s₁⟩ := result
    · exact ⟨kept, rfl⟩
    · refine ⟨(settings_bind ..).trans kept, ?_⟩
      simp only [under_bind]
      rfl
  | .brief o name =>
    exact fun held s b related => ⟨settings_brief held s o name, under_brief held related o name⟩
  | .scope o name block =>
    by_cases plain : IsPlain o
    · exact blind_scope refs plain name (blind_block refs block (commands plain))
    · cases o with
      | settings fields =>
        exact fun held s b related => ⟨settings_restored held s fields name block,
          under_scope_settings (refs _ _ related) held fields name block⟩
      | _ => exact absurd trivial plain

theorem blind_block (refs : ∀ a b, R a b → a.refs = b.refs) (block : List Step)
    (commands : AllCommandsBlind R block) : BlindBlock R block := by
  match block with
  | [] => exact fun held s b related => ⟨rfl, rfl⟩
  | step :: rest =>
    intro held s b related
    obtain ⟨kept, alike⟩ := blind_step refs step commands.1 held s b related
    rw [runBlock_cons, runBlock_cons, alike]
    generalize s.runStep held step = result at kept ⊢
    obtain ⟨a | ⟨fault, answers⟩, s₁⟩ := result
    · have related' : R s₁.settings b := by rwa [show s₁.settings = s.settings from kept]
      obtain ⟨kept', alike'⟩ := blind_block refs rest commands.2 held (s₁.settle held) b related'
      simp only [under_settle (refs _ _ related'), alike']
      exact ⟨kept'.trans kept, trivial⟩
    · exact ⟨kept, rfl⟩

end

/-- Two runs of a program. -/
theorem blind_program (refs : ∀ a b, R a b → a.refs = b.refs) (watched : List String)
    {program : List Step} (commands : AllCommandsBlind R program) {s : Session} {b : Settings}
    (related : R s.settings b) : (s.runProgram watched program).2.settings = s.settings ∧
      (s.under b).runProgram watched program =
        ((s.runProgram watched program).1, (s.runProgram watched program).2.under b) := by
  induction program generalizing s with
  | nil => exact ⟨rfl, rfl⟩
  | cons step rest ih =>
    obtain ⟨kept, alike⟩ := blind_step refs step commands.1 [] s b related
    have performed : (s.under b).perform watched step =
        ((s.perform watched step).1, (s.perform watched step).2.under b) := by
      rw [perform, perform, alike]
      generalize s.runStep [] step = result at kept ⊢
      obtain ⟨outcome, s₁⟩ := result
      have related' : R s₁.settings b := by rwa [show s₁.settings = s.settings from kept]
      obtain ⟨-, told⟩ := blind_watch watched s₁.collect b related'
      simp only [under_collect (refs _ _ related'), told]
      rfl
    have kept : (s.perform watched step).2.settings = s.settings :=
      (settings_perform s watched step).trans kept
    obtain ⟨kept', alike'⟩ := ih commands.2 (by rwa [kept])
    rw [runProgram, runProgram, performed]
    simp only [alike']
    exact ⟨kept'.trans kept, trivial⟩

end Session

/-! ## Outputs under two settings -/

/-- What is written of a document under some settings, against others. -/
structure Forest.DocumentAlike (f : Forest) (d : DocumentId) (a b : Settings) : Prop where
  compact : f.renderDocument a d (.bool false) = f.renderDocument b d (.bool false)
  pretty : a.indent = b.indent →
    f.renderDocument a d (.bool true) = f.renderDocument b d (.bool true)
  text : (f.textOf (.ref (.document d))).result = (f.renderDocument a d (.bool false)).result
  answered : f.AcyclicFrom [.document d] →
    f.Throughout (fun id e => (f.face id e).IsAnswered) (f.rootsOf d) →
    ∀ unit : String, a.indent = .text unit → ∃ s t,
      (f.renderDocument a d (.bool false)).result = .ok s ∧
      (f.renderDocument a d (.bool true)).result = .ok t

/-- The markup of an element and of what it holds, against a compact renderer made under some
settings. -/
structure Forest.ElementAlike (f : Forest) (id : ElementId) (a : Settings) : Prop where
  html : ((Renderer.make a [.ref (.element id)] (.bool false) .null).render f).result =
    (f.html id).result
  inner : (Renderer.make a [.ref (.element id)] (.bool false) .null).renderInner f
    (.ref (.element id)) = f.innerHtml id
  text : f.textOf (.ref (.element id)) = f.html id
  answered : f.AcyclicFrom [.element id] →
    f.Below (fun id e => (f.face id e).IsAnswered) id →
    ∃ s t, (f.html id).result = .ok s ∧ (f.innerHtml id).result = .ok t

namespace Session

open Act

/-- The commands that write what a register holds. -/
structure WritesBlind (on : String) : Prop where
  /-- Among the queries are those for the markup of an element, for that of what it holds, and for the
  text of anything. -/
  query : ∀ query, Blind (fun _ _ => True) (runCommand (.get on query))
  compact : Blind (fun _ _ => True) (runCommand (.render on (.bool false)))
  pretty : Blind (fun a b => a.indent = b.indent) (runCommand (.render on (.bool true)))
  inner : ∀ name, Blind (fun _ _ => True) (runCommand (.runInner on name))
  /-- A renderer is run as it was made, and under all settings alike. -/
  run : ∀ (s : Session) (d : Datum) (r : Renderer), s.registers.get on = .ok d →
    Renderer.ofValue? d = some r → ∀ c,
      (runCommand (.run on)).run s =
        (do return Result.plain (.text (← tell r.render)) : Act Result).run s ∧
      (runCommand (.run on)).run (s.under c) = (((runCommand (.run on)).run s).1,
        ((runCommand (.run on)).run s).2.under c)

/-- A renderer is made in a session, of some values. -/
structure MakesRenderer (s : Session) (roots : List String) (pretty : Term) (values : List Datum)
    (p : Datum) : Prop where
  kept : ∃ d s', (runCommand (.renderer roots pretty .null)).run s = (.ok (.same d), s') ∧
    Renderer.ofValue? d = some ⟨values, p, s.settings.indent⟩ ∧ s'.view = s.view
  own : ∀ unit, ∃ d s',
    (runCommand (.renderer roots pretty (.text unit))).run s = (.ok (.same d), s') ∧
    Renderer.ofValue? d = some ⟨values, p, .text unit⟩ ∧ s'.view = s.view
  blind : ∀ unit, Blind (fun _ _ => True) (runCommand (.renderer roots pretty (.text unit)))

theorem writesBlind (on : String) : WritesBlind on where
  query := blind_get on
  compact := blind_render (fun f id a b _ => f.renderDocument_compact a b id) on
  pretty := blind_render (fun f id a b same => f.renderDocument_of_indent same id true) on
  inner := fun _ => blind_runCommand id id
  run := by
    intro s d r held is c
    refine ⟨run_renderer held is, ?_⟩
    rw [run_renderer held is, run_renderer (s := s.under c) held is]
    exact (((blind_tell _).bind fun _ => .pure _ : Blind (fun _ _ => True) _) s c trivial).2

end Session

theorem Forest.documentAlike (f : Forest) (d : DocumentId) (a b : Settings) :
    f.DocumentAlike d a b where
  compact := renderDocument_compact a b d
  pretty := fun same => renderDocument_of_indent same d true
  text := result_textOf_document a d
  answered := by
    intro acyclic answered unit hunit
    obtain ⟨s, compact⟩ := exists_renderDocument hunit acyclic answered false
    obtain ⟨t, laidOut⟩ := exists_renderDocument hunit acyclic answered true
    exact ⟨s, t, compact, laidOut⟩

theorem Forest.elementAlike {id : ElementId} {e : Element} (there : f.get? id = some e)
    (a : Settings) : f.ElementAlike id a where
  html := result_render_own a id
  inner := Renderer.renderInner_compact _ _ _
  text := rfl
  answered := by
    intro acyclic answered
    obtain ⟨s, html⟩ := exists_html acyclic answered
    obtain ⟨t, inner⟩ := exists_of_enclosed ((html_eq_enclosed there acyclic).symm.trans html)
    exact ⟨s, t, html, inner⟩

open Session in
/-- Output against settings. Compact output is the same under all settings, for a document, for an
element and for what it holds, and pretty output is the same if the units of indentation are. So
the commands that write them do the same in every session, whatever its settings are. A renderer
with a unit of its own is the same under all settings, one without keeps the unit from when it was
made, and once it is made no settings change what it renders. Hence two runs of a program differ in
their settings alone, if its commands are blind to the difference. -/
theorem output_independent_of_settings :
    (∀ (f : Forest) (d : DocumentId) (a b : Settings), f.DocumentAlike d a b) ∧
    (∀ (f : Forest) (id : ElementId) (e : Element), f.get? id = some e →
      ∀ a : Settings, f.ElementAlike id a) ∧
    (∀ on : String, WritesBlind on) ∧
    (∀ (s : Session) (roots : List String) (pretty : Term) (values : List Datum) (p : Datum),
      roots.mapM s.registers.get = .ok values → s.registers.resolve pretty = .ok p →
      MakesRenderer s roots pretty values p) ∧
    ∀ (R : Settings → Settings → Prop), (∀ a b, R a b → a.refs = b.refs) →
      ∀ (watched : List String) (program : List Step), AllCommandsBlind R program →
      ∀ (s : Session) (b : Settings), R s.settings b →
        ((s.under b).runProgram watched program).1 = (s.runProgram watched program).1 := by
  refine ⟨Forest.documentAlike, fun f id e there a => f.elementAlike there a, writesBlind,
    fun s roots pretty values p bound stands => ?_,
    fun R refs watched program commands s b related => ?_⟩
  · have absent : s.registers.resolve .null = .ok .null := rfl
    have given (unit : String) : s.registers.resolve (.text unit) = .ok (.text unit) := rfl
    exact ⟨exists_renderer bound stands absent, fun unit => exists_renderer bound stands (given unit),
      blind_renderer roots pretty⟩
  · rw [(blind_program refs watched commands related).2]

namespace Session

/-- Two registers, of a document and of a paragraph in it. -/
def trailing : Session where
  limits := .least
  store := { forest := Forest.trailing }
  settings := { indent := .text "\t" }
  registers := ⟨[("page", .ref (.document ⟨0⟩)), ("first", .ref (.element ⟨0⟩))]⟩

/-- A document is rendered by the settings, but for a compact render, and in a block with settings
of its own. -/
def renders : List Step :=
  [.command (.render "page" (.bool false)) none,
   .scope (.settings [("pretty_print", .bool true)]) none [.command (.run "page") none]]

end Session

theorem Forest.trailing_answered (id : ElementId) :
    Forest.trailing.Below (fun id e => (Forest.trailing.face id e).IsAnswered) id := by
  intro id e _ there
  match id with
  | ⟨0⟩ | ⟨1⟩ | ⟨2⟩ =>
    cases there
    exact ⟨⟨⟨_, rfl⟩, ⟨_, rfl⟩⟩, by simp⟩
  | ⟨i + 3⟩ => simp [get?, trailing] at there

open Session in
theorem output_independent_of_settings_of_trailing :
    (Forest.trailing.renderDocument { indent := .text "--" } ⟨0⟩ (.bool false)).result =
      .ok "<em>y\t</em><p>x \n<br></p>" ∧
    Forest.trailing.renderDocument { prettyPrint := .bool true } ⟨0⟩ (.bool true) =
      Forest.trailing.renderDocument {} ⟨0⟩ (.bool true) ∧
    (∃ s t, (Forest.trailing.renderDocument {} ⟨0⟩ (.bool false)).result = .ok s ∧
      (Forest.trailing.renderDocument {} ⟨0⟩ (.bool true)).result = .ok t) ∧
    (∃ s t, (Forest.trailing.html ⟨0⟩).result = .ok s ∧
      (Forest.trailing.innerHtml ⟨0⟩).result = .ok t) ∧
    ((runCommand (.render "page" (.bool true))).run
        (Session.trailing.under { indent := .text "\t", prettyPrint := .bool true })).1 =
      ((runCommand (.render "page" (.bool true))).run Session.trailing).1 ∧
    (∃ d s', (runCommand (.renderer ["first"] (.bool true) .null)).run Session.trailing =
        (.ok (.same d), s') ∧
      Renderer.ofValue? d = some ⟨[.ref (.element ⟨0⟩)], .bool true, .text "\t"⟩ ∧
      ∀ c, ((runCommand (.run "r")).run ((s'.bind "r" d).under c)).1 =
        ((runCommand (.run "r")).run (s'.bind "r" d)).1) ∧
    ((Session.trailing.under {}).runProgram ["first"] renders).1 =
      (Session.trailing.runProgram ["first"] renders).1 := by
  obtain ⟨documents, elements, writes, makes, runs⟩ := output_independent_of_settings
  have acyclic (r : Ref) := Forest.trailing_acyclic.acyclicFrom [r]
  have alike := documents Forest.trailing ⟨0⟩
  have own := elements Forest.trailing ⟨0⟩ _ rfl {}
  obtain ⟨d, s', run, is, -⟩ :=
    (makes Session.trailing ["first"] (.bool true) _ _ rfl rfl).kept
  have answered : Forest.trailing.Throughout
      (fun id e => (Forest.trailing.face id e).IsAnswered) (Forest.trailing.rootsOf ⟨0⟩) :=
    List.forall_mem_cons.2 ⟨⟨⟨2⟩, rfl, Forest.trailing_answered _⟩,
      List.forall_mem_singleton.2 ⟨⟨0⟩, rfl, Forest.trailing_answered _⟩⟩
  have blind : AllCommandsBlind (fun a b => a.refs = b.refs) renders :=
    ⟨blind_render (R := fun a b => a.refs = b.refs)
      (fun f id a b _ => f.renderDocument_compact a b id) "page", fun plain => plain.elim, trivial⟩
  refine ⟨?_, (alike { prettyPrint := .bool true } {}).pretty rfl,
    (alike {} {}).answered (acyclic _) answered "  " rfl,
    own.answered (acyclic _) (Forest.trailing_answered _), ?_, ⟨d, s', run, is, fun c => ?_⟩,
    runs _ (fun _ _ => id) ["first"] renders blind Session.trailing {} rfl⟩
  · rw [(alike { indent := .text "--" } {}).compact]
    decide +kernel
  · rw [((writes "page").pretty Session.trailing
      { indent := .text "\t", prettyPrint := .bool true } rfl).2]
  · rw [((writes "r").run (s'.bind "r" d) d _ rfl is c).2]

end Hypertext
