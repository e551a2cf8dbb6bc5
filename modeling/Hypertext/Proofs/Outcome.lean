import Hypertext.Render.Part

/-! What a canvas comes to, apart from what is reported on the way: the texts of its fragments
joined, or the fault of the first fragment that cannot be read. The main statements are
`Canvas.result_compose` and, where every fragment can be read, `Canvas.result_compose_text`. -/
namespace Hypertext
set_option autoImplicit false

/-! ## Results of accounts -/

namespace Account

variable {ε α β : Type}

theorem result_bind (first : Account ε α) (next : α → Account ε β) :
    (first >>= next).result = first.result >>= fun a => (next a).result := by
  obtain ⟨reports, fault | a⟩ := first <;> rfl

theorem result_map (g : α → β) (account : Account ε α) :
    (g <$> account).result = account.result.map g := by
  obtain ⟨reports, fault | a⟩ := account <;> rfl

theorem result_foldl (step : β → α → Account ε β) (items : List α) (account : Account ε β) :
    (items.foldl (fun account item => account >>= (step · item)) account).result =
      account.result >>= fun b => items.foldlM (fun b a => (step b a).result) b := by
  induction items generalizing account with
  | nil =>
    rw [List.foldl_nil]
    cases account.result <;> rfl
  | cons a items ih =>
    rw [List.foldl_cons, ih, result_bind, bind_assoc]
    rfl

theorem result_fold (step : β → α → Account ε β) (start : β) (items : List α) :
    (fold step start items).result = items.foldlM (fun b a => (step b a).result) start :=
  result_foldl step items (pure start)

end Account

/-! ## Fragments as texts -/

namespace Fragment

/-- What a fragment is spelled as, for a unit of indentation that is a text. -/
def spelling (unit : String) : Fragment → Except Fault String
  | opening x => x.tag.result.map (Markup.openingTag · x.attributes)
  | closing x => x.tag.result.map Markup.closingTag
  | content x => x.content.result
  | newline => .ok "\n"
  | indentation level => .ok (Markup.repeated unit level)
  | refusal fault => .error fault

/-- Fragments spelled one after the other, up to the first that cannot be. -/
def joined (unit : String) : List Fragment → Except Fault String
  | [] => .ok ""
  | x :: rest => do return (← x.spelling unit) ++ (← joined unit rest)

theorem joined_append (unit : String) (xs ys : List Fragment) :
    joined unit (xs ++ ys) = do return (← joined unit xs) ++ (← joined unit ys) := by
  induction xs with
  | nil =>
    rw [List.nil_append, joined]
    cases joined unit ys with
    | error fault => rfl
    | ok t => exact congrArg Except.ok (String.empty_append (s := t)).symm
  | cons x xs ih =>
    rw [List.cons_append, joined, ih, joined]
    cases x.spelling unit with
    | error fault => rfl
    | ok r =>
      cases joined unit xs with
      | error fault => rfl
      | ok s =>
        cases joined unit ys with
        | error fault => rfl
        | ok t => exact congrArg Except.ok (String.append_assoc ..).symm

theorem joined_singleton (unit : String) (x : Fragment) :
    joined unit [x] = x.spelling unit := by
  rw [joined, joined]
  cases x.spelling unit with
  | error fault => rfl
  | ok s => exact congrArg Except.ok String.append_empty

theorem result_part (unit : String) (x : Fragment) :
    (x.part (.ofText unit)).result = (x.spelling unit).map Part.text := by
  cases x with
  | opening x =>
    rw [part, Account.result_bind, spelling]
    cases x.tag.result <;> rfl
  | closing x =>
    rw [part, Account.result_bind, spelling]
    cases x.tag.result <;> rfl
  | content x =>
    rw [part, Account.result_bind, spelling]
    cases x.content.result <;> rfl
  | newline => rfl
  | indentation level => rfl
  | refusal fault => rfl

/-- Texts that are there already come before the texts of the fragments. -/
theorem foldlM_part (unit : String) (xs : List Fragment) (parts : Array Part) (texts : List String)
    (hparts : parts.toList = texts.map .text) :
    (xs.foldlM (fun parts x => (do
        return Part.push parts (← x.part (.ofText unit)) : Reading (Array Part)).result) parts >>=
      fun parts => Part.join 0 "" parts.toList) =
      (joined unit xs).map (texts.foldl (· ++ ·) "" ++ ·) := by
  induction xs generalizing parts texts with
  | nil =>
    simp only [List.foldlM_nil, pure_bind, joined, Except.map]
    rw [hparts, Part.join_text, String.append_empty]
  | cons x xs ih =>
    rw [List.foldlM_cons, Account.result_bind, result_part, joined]
    cases x.spelling unit with
    | error fault => rfl
    | ok s =>
      obtain ⟨more, hmore, hjoin⟩ := Part.push_text hparts s
      have h := ih _ more hmore
      rw [hjoin] at h
      refine h.trans ?_
      cases joined unit xs with
      | error fault => rfl
      | ok rest => exact congrArg Except.ok (String.append_assoc ..)

end Fragment

theorem Canvas.result_compose (c : Canvas) (unit : String) :
    (c.compose (.ofText unit)).result = Fragment.joined unit c.fragments.toList := by
  rw [compose, Account.result_bind, Account.result_fold]
  refine (Fragment.foldlM_part unit c.fragments.toList #[] [] rfl).trans ?_
  cases Fragment.joined unit c.fragments.toList with
  | error fault => rfl
  | ok s =>
    show Except.ok _ = Except.ok _
    simp

/-! ## Fragments that can be read -/

/-- Whether reading a fragment fails with nothing. -/
def Fragment.IsAnswered : Fragment → Prop
  | opening x | closing x => ∃ s, x.tag.result = .ok s
  | content x => ∃ s, x.content.result = .ok s
  | newline | indentation _ => True
  | refusal _ => False

theorem Fragment.spelling_eq_text {x : Fragment} (h : x.IsAnswered) (unit : String) :
    x.spelling unit = .ok (x.text unit) := by
  cases x with
  | opening x =>
    obtain ⟨s, hs⟩ := h
    simp [spelling, text, Account.text, hs, Except.map]
  | closing x =>
    obtain ⟨s, hs⟩ := h
    simp [spelling, text, Account.text, hs, Except.map]
  | content x =>
    obtain ⟨s, hs⟩ := h
    simp [spelling, text, Account.text, hs]
  | newline => rfl
  | indentation level => rfl
  | refusal fault => exact h.elim

theorem Fragment.isAnswered_of_spelling {x : Fragment} {unit s : String}
    (h : x.spelling unit = .ok s) : x.IsAnswered := by
  cases x with
  | opening x | closing x =>
    rw [spelling] at h
    cases hx : x.tag.result with
    | error fault => rw [hx] at h; cases h
    | ok tag => exact ⟨tag, hx⟩
  | content x => exact ⟨s, h⟩
  | newline | indentation _ => trivial
  | refusal fault => cases h

theorem Fragment.joined_cons_eq_ok {unit s : String} {x : Fragment} {xs : List Fragment} :
    joined unit (x :: xs) = .ok s ↔
      ∃ t u, x.spelling unit = .ok t ∧ joined unit xs = .ok u ∧ s = t ++ u := by
  rw [joined]
  cases x.spelling unit with
  | error fault => simp [bind, Except.bind]
  | ok t =>
    cases joined unit xs with
    | error fault => simp [bind, Except.bind]
    | ok u => simp [bind, Except.bind, pure, Except.pure, eq_comm]

theorem Fragment.isAnswered_of_joined {unit s : String} {xs : List Fragment}
    (h : joined unit xs = .ok s) : ∀ x ∈ xs, x.IsAnswered := by
  induction xs generalizing s with
  | nil => exact List.forall_mem_nil _
  | cons x xs ih =>
    obtain ⟨t, u, spelled, later, -⟩ := joined_cons_eq_ok.1 h
    exact List.forall_mem_cons.2 ⟨isAnswered_of_spelling spelled, ih later⟩

/-- Where fragments fail in one way only, and one of them does, this is how they fail together. -/
theorem Fragment.joined_eq_error {unit : String} {fault : Fault} {xs : List Fragment}
    (each : ∀ x ∈ xs, x.IsAnswered ∨ x.spelling unit = .error fault)
    (some : ¬ ∀ x ∈ xs, x.IsAnswered) : joined unit xs = .error fault := by
  induction xs with
  | nil => exact absurd (fun x hx => absurd hx List.not_mem_nil) some
  | cons x xs ih =>
    rw [List.forall_mem_cons] at each some
    rw [joined]
    obtain answered | failed := each.1
    · rw [spelling_eq_text answered, ih each.2 fun all => some ⟨answered, all⟩]
      rfl
    · rw [failed]
      rfl

theorem Fragment.joined_eq_text (unit : String) (xs : List Fragment)
    (h : ∀ x ∈ xs, x.IsAnswered) : joined unit xs = .ok (String.join (xs.map (text unit))) := by
  induction xs with
  | nil => rfl
  | cons x xs ih =>
    rw [joined, spelling_eq_text (h x (by simp)), ih fun y hy => h y (by simp [hy])]
    show Except.ok _ = Except.ok _
    rw [List.map_cons, String.join_cons]

theorem Canvas.result_compose_text (c : Canvas) (unit : String)
    (h : ∀ x ∈ c.fragments, x.IsAnswered) :
    (c.compose (.ofText unit)).result = .ok (c.text unit) := by
  rw [result_compose, Fragment.joined_eq_text _ _ fun x hx => h x (by simpa using hx), text_eq_join]

end Hypertext
