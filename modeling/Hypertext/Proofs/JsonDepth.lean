import Hypertext.Proofs.JsonValues

/-! JSON text that is nested too deep. A value with exact text is read back just where its lists and
records are nested no deeper than the reader goes; beyond that the text is refused at the first list
or record that is too deep. The main statement is `Json.read_print_tooDeep`. -/
namespace Hypertext
set_option autoImplicit false

namespace Value

variable {ρ : Type}

theorem exists_lt_nesting {depth : Nat} {items : List (Value ρ)}
    (h : depth < nestingOfAll items) : ∃ v ∈ items, depth < v.nesting := by
  induction items with
  | nil => exact absurd h (Nat.not_lt_zero _)
  | cons v items ih =>
    obtain here | later : depth < v.nesting ∨ depth < nestingOfAll items := by
      rw [nestingOfAll] at h
      omega
    · exact ⟨v, List.mem_cons_self, here⟩
    · obtain ⟨w, hw, beyond⟩ := ih later
      exact ⟨w, List.mem_cons_of_mem v hw, beyond⟩

theorem exists_lt_nesting_field {depth : Nat} {fields : List (String × Value ρ)}
    (h : depth < nestingOfFields fields) : ∃ field ∈ fields, depth < field.2.nesting := by
  induction fields with
  | nil => exact absurd h (Nat.not_lt_zero _)
  | cons field fields ih =>
    obtain here | later : depth < field.2.nesting ∨ depth < nestingOfFields fields := by
      rw [nestingOfFields] at h
      omega
    · exact ⟨field, List.mem_cons_self, here⟩
    · obtain ⟨other, hother, beyond⟩ := ih later
      exact ⟨other, List.mem_cons_of_mem field hother, beyond⟩

theorem isExact_of_mem {items : List (Value ρ)} (exact : AllExact items) {v : Value ρ}
    (hv : v ∈ items) : v.IsExact := by
  induction items with
  | nil => exact absurd hv List.not_mem_nil
  | cons w items ih =>
    obtain rfl | hv := List.mem_cons.1 hv
    · exact exact.1
    · exact ih exact.2 hv

theorem isExact_of_mem_fields {fields : List (String × Value ρ)} (exact : FieldsExact fields)
    {field : String × Value ρ} (hfield : field ∈ fields) : field.2.IsExact := by
  induction fields with
  | nil => exact absurd hfield List.not_mem_nil
  | cons other fields ih =>
    obtain rfl | hfield := List.mem_cons.1 hfield
    · exact exact.1
    · exact ih exact.2 hfield

end Value

namespace Json

variable {ρ : Type} {depth : Nat}

/-- A text from which, whatever follows it, no value is read within a depth. -/
structure TooDeep (ρ : Type) (depth : Nat) (t : List Char) : Prop where
  starts : ∃ c more, t = c :: more ∧ isSpace c = false ∧ c ≠ ']'
  fails : ∀ fuel rest, 2 * t.length ≤ fuel → EndsNumber rest →
    ∃ shape, value (ρ := ρ) depth fuel (t ++ rest) = .error (.nestedTooDeep shape)

theorem tooDeep_of {c : Char} {more : List Char} (space : isSpace c = false) (first : c ≠ ']')
    (fails : ∀ fuel rest, 2 * more.length < fuel → EndsNumber rest →
      ∃ shape, value (ρ := ρ) depth (fuel + 1) (c :: more ++ rest) = .error (.nestedTooDeep shape)) :
    TooDeep ρ depth (c :: more) := by
  refine ⟨⟨c, more, rfl, space, first⟩, fun fuel rest hfuel ends => ?_⟩
  rw [List.length_cons] at hfuel
  obtain ⟨fuel, rfl⟩ : ∃ n, fuel = n + 1 := ⟨fuel - 1, by omega⟩
  exact fails fuel rest (by omega) ends

section Parts

variable {t : List Char} (deep : TooDeep ρ depth t) {fuel : Nat} (hfuel : 2 * t.length ≤ fuel)
  {rest : List Char} (ends : EndsNumber rest)
include deep hfuel ends

theorem items_tooDeep :
    ∃ shape, items (ρ := ρ) depth (fuel + 1) (t ++ rest) = .error (.nestedTooDeep shape) := by
  obtain ⟨shape, fails⟩ := deep.fails fuel rest hfuel ends
  refine ⟨shape, ?_⟩
  rw [items, fails]
  rfl

theorem fields_tooDeep (name : String) (found : List (String × Value ρ)) :
    ∃ shape, fields depth (fuel + 1) found (printField (name, t) ++ rest) =
      .error (.nestedTooDeep shape) := by
  obtain ⟨c, more, rfl, space, _⟩ := deep.starts
  obtain ⟨shape, fails⟩ := deep.fails fuel rest hfuel ends
  refine ⟨shape, ?_⟩
  rw [printField, printText]
  simp only [List.cons_append, List.append_assoc, List.nil_append] at fails ⊢
  rw [fields, text_printText]
  simp only [bind, Except.bind, skip_of_head (c := ':') rfl, skip_space, skip_of_head space, fails]

end Parts

section Lists

variable {α : Type} {between after : List Char} (hbetween : IsGap between) (hafter : IsGap after)
  (rest : List Char)
include hbetween hafter

/-- By induction on the items: those before the first that is nested too deep are read. -/
theorem items_intercalate_tooDeep (t : α → List Char) (v : α → Value ρ) {parts : List α}
    (each : ∀ a ∈ parts, ReadsBack depth (t a) (v a) ∨ TooDeep ρ depth (t a))
    (some : ∃ a ∈ parts, TooDeep ρ depth (t a)) (fuel : Nat)
    (hfuel : 2 * ((',' :: between).intercalate (parts.map t)).length < fuel) :
    ∃ shape, items (ρ := ρ) depth fuel ((',' :: between).intercalate (parts.map t) ++
      (after ++ ']' :: rest)) = .error (.nestedTooDeep shape) := by
  induction parts generalizing fuel with
  | nil => exact absurd some (by simp)
  | cons a parts ih =>
    obtain ⟨fuel, rfl⟩ : ∃ n, fuel = n + 1 := ⟨fuel - 1, by omega⟩
    cases parts with
    | nil =>
      have here : TooDeep ρ depth (t a) := by simpa using some
      rw [List.map_singleton, List.intercalate_singleton] at hfuel ⊢
      exact items_tooDeep here (by omega) (endsNumber_gap hafter ']' (by decide) rest)
    | cons b parts =>
      rw [List.map_cons, List.intercalate_cons_of_ne_nil (by simp)] at hfuel ⊢
      simp only [List.length_append, List.length_cons] at hfuel
      rw [List.append_assoc, List.append_assoc, List.cons_append]
      obtain head | here := each a List.mem_cons_self
      · by_cases deep : TooDeep ρ depth (t a)
        · exact items_tooDeep deep (by omega) (endsNumber_mark ',' (by decide) _)
        have later : ∃ c ∈ b :: parts, TooDeep ρ depth (t c) := by
          obtain ⟨c, hc, fails⟩ := some
          obtain rfl | hc := List.mem_cons.1 hc
          · exact absurd fails deep
          · exact ⟨c, hc, fails⟩
        obtain ⟨shape, tail⟩ := ih (fun c hc => each c (List.mem_cons_of_mem a hc)) later fuel
          (by omega)
        refine ⟨shape, ?_⟩
        obtain ⟨c, more, hc, space, _⟩ : ∃ c more, t b = c :: more ∧ isSpace c = false ∧ c ≠ ']' :=
          (each b (by simp)).elim (·.starts) (·.starts)
        obtain ⟨joined, hjoined⟩ := intercalate_starts (',' :: between) t ⟨more, hc⟩ parts
        rw [items_next head (by omega) hbetween, hjoined, List.cons_append, skip_of_head space,
          ← List.cons_append, ← hjoined, tail]
        rfl
      · exact items_tooDeep here (by omega) (endsNumber_mark ',' (by decide) _)

/-- The same for the fields of a record. -/
theorem fields_intercalate_tooDeep (t : α → List Char) (v : α → Value ρ)
    {parts : List (String × α)}
    (each : ∀ part ∈ parts, ReadsBack depth (t part.2) (v part.2) ∨ TooDeep ρ depth (t part.2))
    (some : ∃ part ∈ parts, TooDeep ρ depth (t part.2)) (fuel : Nat)
    (found : List (String × Value ρ))
    (hfuel : 2 * ((',' :: between).intercalate
      (parts.map fun part => printField (part.1, t part.2))).length < fuel) :
    ∃ shape, fields depth fuel found ((',' :: between).intercalate
      (parts.map fun part => printField (part.1, t part.2)) ++ (after ++ '\x7d' :: rest)) =
      .error (.nestedTooDeep shape) := by
  induction parts generalizing fuel found with
  | nil => exact absurd some (by simp)
  | cons part parts ih =>
    obtain ⟨name, a⟩ := part
    have hlength := length_printField name (t a)
    obtain ⟨fuel, rfl⟩ : ∃ n, fuel = n + 1 := ⟨fuel - 1, by omega⟩
    cases parts with
    | nil =>
      have here : TooDeep ρ depth (t a) := by simpa using some
      rw [List.map_singleton, List.intercalate_singleton] at hfuel ⊢
      dsimp only at hfuel
      exact fields_tooDeep here (by omega) (endsNumber_gap hafter '\x7d' (by decide) rest) name found
    | cons part parts =>
      rw [List.map_cons, List.intercalate_cons_of_ne_nil (by simp)] at hfuel ⊢
      simp only [List.length_append, List.length_cons] at hfuel
      rw [List.append_assoc, List.append_assoc, List.cons_append]
      by_cases here : TooDeep ρ depth (t a)
      · exact fields_tooDeep here (by omega) (endsNumber_mark ',' (by decide) _) name found
      · have head : ReadsBack depth (t a) (v a) :=
          (each (name, a) List.mem_cons_self).resolve_right here
        have later : ∃ c ∈ part :: parts, TooDeep ρ depth (t c.2) := by
          obtain ⟨c, hc, fails⟩ := some
          obtain rfl | hc := List.mem_cons.1 hc
          · exact absurd fails here
          · exact ⟨c, hc, fails⟩
        obtain ⟨shape, tail⟩ := ih (fun c hc => each c (List.mem_cons_of_mem (name, a) hc)) later
          fuel (putField found name (v a)) (by omega)
        refine ⟨shape, ?_⟩
        obtain ⟨joined, hjoined⟩ := intercalate_starts (',' :: between)
          (fun part : String × α => printField (part.1, t part.2)) (c := '"') ⟨_, rfl⟩ parts
        rw [fields_next head (by omega) hbetween, hjoined, List.cons_append, skip_of_head rfl,
          ← List.cons_append, ← hjoined, tail]

end Lists

/-! ## Lists and records -/

theorem enclose_starts (layout : Layout) (level : Nat) (left right : Char)
    (parts : List (List Char)) : ∃ more, enclose layout level left right parts = left :: more := by
  cases parts with
  | nil => exact ⟨_, by rw [enclose]⟩
  | cons part parts =>
    cases layout with
    | compact => exact ⟨_, rfl⟩
    | lines unit => exact ⟨_, rfl⟩

section Enclosed

variable {α : Type} {layout : Layout} (blank : layout.IsBlank) (level : Nat) (t : α → List Char)
  (v : α → Value ρ)
include blank

theorem tooDeep_list {parts : List α}
    (each : ∀ a ∈ parts, ReadsBack depth (t a) (v a) ∨ TooDeep ρ depth (t a))
    (some : ∃ a ∈ parts, TooDeep ρ depth (t a)) :
    TooDeep ρ (depth + 1) (enclose layout level '[' ']' (parts.map t)) := by
  obtain ⟨a, parts, rfl⟩ : ∃ a rest, parts = a :: rest := by
    obtain ⟨a, ha, _⟩ := some
    exact List.exists_cons_of_ne_nil (List.ne_nil_of_mem ha)
  obtain ⟨before, between, after, hbefore, hbetween, hafter, henclose⟩ :=
    enclose_eq blank level '[' ']' (show (a :: parts).map t ≠ [] by simp)
  rw [henclose]
  refine tooDeep_of rfl (by decide) fun fuel rest hfuel _ => ?_
  simp only [List.length_append] at hfuel
  obtain ⟨shape, fails⟩ := items_intercalate_tooDeep hbetween hafter rest t v each some fuel
    (by omega)
  refine ⟨shape, ?_⟩
  obtain ⟨c, more, hc, space, first⟩ : ∃ c more, t a = c :: more ∧ isSpace c = false ∧ c ≠ ']' :=
    (each a List.mem_cons_self).elim (·.starts) (·.starts)
  obtain ⟨joined, hjoined⟩ := intercalate_starts (',' :: between) t ⟨more, hc⟩ parts
  rw [hjoined] at fails ⊢
  simp only [List.cons_append, List.append_assoc, List.nil_append] at fails ⊢
  rw [value_list ((skip_gap hbefore _).trans (skip_of_head space _)) first, fails]
  rfl

theorem tooDeep_record {parts : List (String × α)}
    (each : ∀ part ∈ parts, ReadsBack depth (t part.2) (v part.2) ∨ TooDeep ρ depth (t part.2))
    (some : ∃ part ∈ parts, TooDeep ρ depth (t part.2)) :
    TooDeep ρ (depth + 1) (enclose layout level '\x7b' '\x7d'
      (parts.map fun part => printField (part.1, t part.2))) := by
  obtain ⟨part, parts, rfl⟩ : ∃ part rest, parts = part :: rest := by
    obtain ⟨part, hpart, _⟩ := some
    exact List.exists_cons_of_ne_nil (List.ne_nil_of_mem hpart)
  obtain ⟨before, between, after, hbefore, hbetween, hafter, henclose⟩ :=
    enclose_eq blank level '\x7b' '\x7d'
      (show (part :: parts).map (fun part => printField (part.1, t part.2)) ≠ [] by simp)
  rw [henclose]
  refine tooDeep_of rfl (by decide) fun fuel rest hfuel _ => ?_
  simp only [List.length_append] at hfuel
  obtain ⟨shape, fails⟩ := fields_intercalate_tooDeep hbetween hafter rest t v each some fuel []
    (by omega)
  refine ⟨shape, ?_⟩
  obtain ⟨joined, hjoined⟩ := intercalate_starts (',' :: between)
    (fun part : String × α => printField (part.1, t part.2)) (c := '"') ⟨_, rfl⟩ parts
  rw [hjoined] at fails ⊢
  simp only [List.cons_append, List.append_assoc, List.nil_append] at fails ⊢
  rw [value_record ((skip_gap hbefore _).trans (skip_of_head rfl _)) (by decide), fails]
  rfl

end Enclosed

/-! ## Values -/

variable {layout : Layout} {limits : Limits}

mutual

/-- What is printed of a value that is nested beyond a depth is not read within it. -/
theorem tooDeep_print (blank : layout.IsBlank) (level depth : Nat) (v : Value ρ)
    (exact : v.IsExact) (beyond : depth < v.nesting) : TooDeep ρ depth (print layout level v) := by
  match v, depth with
  | .list items, depth + 1 =>
    have deep := tooDeep_printAll blank (level + 1) depth items exact
    obtain ⟨v, hv, beyond⟩ := Value.exists_lt_nesting (Nat.lt_of_succ_lt_succ beyond)
    rw [print_list]
    refine tooDeep_list blank level _ Value.sorted (fun w hw => ?_) ⟨v, hv, deep v hv beyond⟩
    obtain beyond | within := Nat.lt_or_ge depth w.nesting
    · exact .inr (deep w hw beyond)
    · exact .inl (readsBack_print blank (level + 1) depth w (Value.isExact_of_mem exact hw) within)
  | .record fields, depth + 1 =>
    have deep := tooDeep_printFields blank (level + 1) depth fields exact.2
    have perm := perm_sortFields fields
    obtain ⟨field, hfield, beyond⟩ := Value.exists_lt_nesting_field (Nat.lt_of_succ_lt_succ beyond)
    rw [print_record]
    refine tooDeep_record blank level _ Value.sorted (fun other hother => ?_)
      ⟨field, perm.mem_iff.2 hfield, deep field hfield beyond⟩
    have hother := perm.mem_iff.1 hother
    obtain beyond | within := Nat.lt_or_ge depth other.2.nesting
    · exact .inr (deep other hother beyond)
    · exact .inl (readsBack_print blank (level + 1) depth other.2
        (Value.isExact_of_mem_fields exact.2 hother) within)
  | .list items, 0 =>
    obtain ⟨more, hprint⟩ := enclose_starts layout level '[' ']'
      (items.map (print layout (level + 1)))
    rw [print_list, hprint]
    exact tooDeep_of rfl (by decide) fun _ _ _ _ => ⟨_, rfl⟩
  | .record fields, 0 =>
    obtain ⟨more, hprint⟩ := enclose_starts layout level '\x7b' '\x7d'
      ((sortFields fields).map fun field => printField (field.1, print layout (level + 1) field.2))
    rw [print_record, hprint]
    exact tooDeep_of rfl (by decide) fun _ _ _ _ => ⟨_, rfl⟩
  | .made _ v, depth => exact tooDeep_print blank level depth v exact beyond
  | .scalar _, _ => exact absurd beyond (Nat.not_lt_zero _)
  | .ref _, _ | .renderer .., _ => exact exact.elim

theorem tooDeep_printAll (blank : layout.IsBlank) (level depth : Nat) (items : List (Value ρ))
    (exact : Value.AllExact items) :
    ∀ v ∈ items, depth < v.nesting → TooDeep ρ depth (print layout level v) := by
  match items with
  | [] => exact fun v hv => absurd hv List.not_mem_nil
  | v :: rest =>
    intro w hw beyond
    obtain hw | hw := List.mem_cons.1 hw
    · rw [hw] at beyond ⊢
      exact tooDeep_print blank level depth v exact.1 beyond
    · exact tooDeep_printAll blank level depth rest exact.2 w hw beyond

theorem tooDeep_printFields (blank : layout.IsBlank) (level depth : Nat)
    (fields : List (String × Value ρ)) (exact : Value.FieldsExact fields) :
    ∀ field ∈ fields, depth < field.2.nesting →
      TooDeep ρ depth (print layout level field.2) := by
  match fields with
  | [] => exact fun v hv => absurd hv List.not_mem_nil
  | (name, v) :: rest =>
    intro field hfield beyond
    obtain hfield | hfield := List.mem_cons.1 hfield
    · rw [hfield] at beyond ⊢
      exact tooDeep_print blank level depth v exact.1 beyond
    · exact tooDeep_printFields blank level depth rest exact.2 field hfield beyond

end

/-- The text of a value that is nested deeper than texts are read is refused. -/
theorem read_print_tooDeep (blank : layout.IsBlank) (v : Value ρ) (exact : v.IsExact)
    (beyond : limits.depth < v.nesting) :
    ∃ shape, read (ρ := ρ) limits (print layout 0 v) = .error (.nestedTooDeep shape) := by
  have deep := tooDeep_print blank 0 limits.depth v exact beyond
  have ascii := isAscii_print blank 0 v exact
  obtain ⟨c, more, hprint, space, _⟩ := deep.starts
  obtain ⟨shape, fails⟩ := deep.fails (2 * (print layout 0 v).length + 2) [] (by omega)
    (fun _ _ h => nomatch h)
  refine ⟨shape, ?_⟩
  rw [List.append_nil] at fails
  rw [hprint] at fails ascii ⊢
  rw [read, skip_of_head space, fails]
  · rfl
  · rintro rest h
    obtain ⟨rfl, _⟩ := List.cons.inj h
    exact absurd (ascii _ List.mem_cons_self) (by decide)

end Json

end Hypertext
