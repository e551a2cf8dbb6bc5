import Hypertext.Attributes.Style
import Hypertext.Proofs.Histories

/-! Histories of a style. What was declared comes back from the text of the style, declaration by
declaration, whatever else happens to the attributes. The main statements are `declarations_written`,
that a scan finds what was written, and `after_tells_history`. -/
namespace Hypertext.Style
set_option autoImplicit false

/-! ## Names and values -/

/-- A name: letters behind an optional hyphen, then letters, digits and hyphens. -/
def IsName (s : String) : Prop :=
  ∃ hyphen letters rest, s.toList = hyphen ++ letters ++ rest ∧
    (hyphen = [] ∨ hyphen = ['-']) ∧ letters ≠ [] ∧ (∀ c ∈ letters, isLetter c = true) ∧
    ∀ c ∈ rest, isNameChar c = true

/-- A value with a first character that is no blank, and without semicolons. -/
def IsValue (s : String) : Prop :=
  s ≠ "" ∧ ';' ∉ s.toList ∧ ∀ c, s.toList.head? = some c → Text.isBlank c = false

theorem isNameChar_of_isLetter {c : Char} (h : isLetter c = true) : isNameChar c = true := by
  rw [isNameChar, h]
  rfl

/-- The scan of a name takes all of it and stops at the colon. -/
theorem name?_written {s : String} (h : IsName s) (rest : List Char) :
    name? (s.toList ++ ':' :: rest) = some (s.toList, ':' :: rest) := by
  obtain ⟨hyphen, letters, tail, hs, hhyphen, nonempty, hletters, htail⟩ := h
  obtain ⟨c, letters, rfl⟩ := List.exists_cons_of_ne_nil nonempty
  have letter : isLetter c = true := hletters c List.mem_cons_self
  have chars : ∀ d ∈ letters ++ tail, isNameChar d = true := by
    intro d hd
    obtain hd | hd := List.mem_append.1 hd
    · exact isNameChar_of_isLetter (hletters d (List.mem_cons_of_mem c hd))
    · exact htail d hd
  have htake : (letters ++ tail ++ ':' :: rest).takeWhile isNameChar = letters ++ tail := by
    rw [List.takeWhile_append_of_pos chars]
    exact List.append_nil _
  have hdrop : (letters ++ tail ++ ':' :: rest).dropWhile isNameChar = ':' :: rest := by
    rw [List.dropWhile_append_of_pos chars]
    rfl
  rw [hs]
  obtain rfl | rfl := hhyphen
  · have first : c ≠ '-' := by
      rintro rfl
      exact absurd letter (by decide)
    show name? (c :: (letters ++ tail ++ ':' :: rest)) = _
    rw [name?]
    · rw [if_pos letter, htake, hdrop]
      rfl
    · exact fun _ _ h _ => first h
  · show name? ('-' :: c :: (letters ++ tail ++ ':' :: rest)) = _
    rw [name?, if_pos letter, htake, hdrop]
    rfl

/-- The scan of a value stops at the first semicolon. -/
theorem value?_written {s : String} (h : IsValue s) (rest : List Char) :
    value? (s.toList ++ ';' :: rest) = some (s.toList, ';' :: rest) := by
  obtain ⟨nonempty, closed, first⟩ := h
  obtain ⟨c, tail, hs⟩ := List.exists_cons_of_ne_nil fun h => nonempty (String.toList_eq_nil_iff.1 h)
  have solid : Text.isBlank c = false := first c (by rw [hs]; rfl)
  have inside : ∀ d ∈ s.toList, (d != ';') = true := by
    intro d hd
    rw [bne_iff_ne]
    rintro rfl
    exact closed hd
  have htake : (s.toList ++ ';' :: rest).takeWhile (· != ';') = s.toList := by
    rw [List.takeWhile_append_of_pos inside]
    exact List.append_nil _
  have hdrop : (s.toList ++ ';' :: rest).dropWhile (· != ';') = ';' :: rest := by
    rw [List.dropWhile_append_of_pos inside]
    rfl
  have unblank : (s.toList ++ ';' :: rest).dropWhile Text.isBlank = s.toList ++ ';' :: rest := by
    rw [hs, List.cons_append, List.dropWhile_cons_of_neg (by rw [solid]; exact Bool.false_ne_true)]
  unfold value?
  simp only [unblank, htake, hdrop]
  split
  next h => exact absurd (h ▸ hs) (List.cons_ne_nil c tail).symm
  next => rfl

/-! ## Declarations -/

namespace Declaration

/-- A declaration as it is written. -/
def chars (d : Declaration) : List Char := d.name.toList ++ ':' :: (d.value.toList ++ [';'])

def text (d : Declaration) : String := d.name ++ ":" ++ d.value ++ ";"

theorem toList_text (d : Declaration) : d.text.toList = d.chars := by
  simp [text, chars, String.toList_append]

structure IsPlain (d : Declaration) : Prop where
  name : IsName d.name
  value : IsValue d.value

end Declaration

theorem declaration?_written {d : Declaration} (plain : d.IsPlain) (rest : List Char) :
    declaration? (d.chars ++ rest) = some (d, ';' :: rest) := by
  have hchars : d.chars ++ rest = d.name.toList ++ ':' :: (d.value.toList ++ ';' :: rest) := by
    simp [Declaration.chars]
  have colon (more : List Char) : (':' :: more).dropWhile Text.isBlank = ':' :: more := rfl
  rw [hchars, declaration?, name?_written plain.name]
  simp only [Option.bind_eq_bind, Option.bind_some, colon, value?_written plain.value]
  simp

/-- A semicolon between declarations is passed over. -/
theorem declarations_semicolon (rest : List Char) :
    declarations (';' :: rest) = declarations rest := by
  have none : declaration? (';' :: rest) = none := rfl
  rw [declarations]
  split
  next h => rw [none] at h; cases h
  next => rfl

/-- Declarations one after the other are found again, in their order and whole. -/
theorem declarations_written (ds : List Declaration) (plain : ∀ d ∈ ds, d.IsPlain) :
    declarations (ds.flatMap Declaration.chars) = ds := by
  induction ds with
  | nil =>
    rw [List.flatMap_nil, declarations]
    rfl
  | cons d ds ih =>
    have first := declaration?_written (plain d List.mem_cons_self) (ds.flatMap Declaration.chars)
    rw [List.flatMap_cons, declarations]
    split
    next found rest h =>
      obtain ⟨rfl, rfl⟩ := Prod.mk.inj (Option.some.inj (first.symm.trans h))
      rw [declarations_semicolon, ih fun e he => plain e (List.mem_cons_of_mem d he)]
    next h => rw [first] at h; cases h

/-! ## Histories -/

variable {ρ : Type}

/-- What a write declares. Null declares nothing, and neither does a colour that is none. -/
def Write.declared? : Write (Value ρ) → Option Declaration
  | .declare name value => (Attributes.written? value).map (⟨name, ·⟩)
  | .align value => (Attributes.written? value).map (⟨"align", ·⟩)
  | .textAlign value => (Attributes.written? value).map (⟨"text-align", ·⟩)
  | .background packed => (Color.codeOf? packed).map (⟨"background-color", ·⟩)
  | .color packed => (Color.codeOf? packed).map (⟨"color", ·⟩)
  | .strikethrough => some ⟨"text-decoration", "line-through"⟩

/-- The names and values that a write is given can be told apart in a text. -/
def Write.IsPlain : Write (Value ρ) → Prop
  | .declare name value => ∀ s, Attributes.written? value = some s → IsName name ∧ IsValue s
  | .align value | .textAlign value => ∀ s, Attributes.written? value = some s → IsValue s
  | .background _ | .color _ | .strikethrough => True

/-- A call that is not about the value of a key. -/
def Spares (key : String) : Attributes.Call ρ → Prop
  | .set other _ | .assign other _ | .deleteItem other | .remove other => other ≠ key
  | .add pair | .discard pair => pair.key ≠ key
  | .pop | .clear => False
  | .get .. | .getItem _ | .containsPair _ | .contains _ | .size | .nonempty | .render
  | .literal => True

/-- What happens to the attributes of an element: a write to its style, or a call on its own. -/
inductive Event (ρ : Type) where
  | write (w : Write (Value ρ))
  | call (c : Attributes.Call ρ)

namespace Event

/-- The attributes after an event. One that fails leaves them as they were. -/
def run (typeOfRef : ρ → String) (c : Attributes) : Event ρ → Attributes
  | .write w => (w.apply typeOfRef c).toOption.getD c
  | .call other => (other.run c).2

def declared? : Event ρ → Option Declaration
  | .write w => w.declared?
  | .call _ => none

def call? : Event ρ → Option (Attributes.Call ρ)
  | .write _ => none
  | .call other => some other

/-- Only writes to the style are about the style. -/
def IsPlain : Event ρ → Prop
  | .write w => w.IsPlain
  | .call other => Spares key other

end Event

def after (typeOfRef : ρ → String) (c : Attributes) (history : List (Event ρ)) : Attributes :=
  history.foldl (Event.run typeOfRef) c

/-- The attributes after calls alone. -/
def afterCalls (c : Attributes) (calls : List (Attributes.Call ρ)) : Attributes :=
  calls.foldl (fun c call => (call.run c).2) c

/-! ## What writes declare -/

theorem isName_of_letters {s : String} (nonempty : s.toList.takeWhile isLetter ≠ [])
    (rest : (s.toList.dropWhile isLetter).all isNameChar = true) : IsName s :=
  ⟨[], _, _, List.takeWhile_append_dropWhile.symm, .inl rfl, nonempty,
    List.all_eq_true.1 List.all_takeWhile, List.all_eq_true.1 rest⟩

theorem isValue_of_first {s : String} {c : Char} (first : s.toList.head? = some c)
    (solid : Text.isBlank c = false) (closed : ';' ∉ s.toList) : IsValue s := by
  refine ⟨?_, closed, fun d hd => ?_⟩
  · rintro rfl
    cases first
  · exact Option.some.inj (first.symm.trans hd) ▸ solid

theorem isValue_code (packed : Int) : IsValue (Color.code packed) := by
  have chars : (Color.code packed).toList =
      '#' :: Text.hexDigits .upper 6 (Color.rgb packed) := String.toList_ofList
  refine isValue_of_first (congrArg List.head? chars) (by decide) ?_
  rw [chars, List.mem_cons]
  rintro (h | h)
  · exact absurd h (by decide)
  · have digit : ∀ d < 16, Text.hexDigit .upper d ≠ ';' := by decide
    exact Text.hexDigits_all .upper (p := (· ≠ ';')) digit 6 _ _ h rfl

theorem codeOf?_isValue {packed : Value ρ} {s : String} (h : Color.codeOf? packed = some s) :
    IsValue s := by
  unfold Color.codeOf? at h
  split at h
  · exact Option.some.inj h ▸ isValue_code _
  · exact Option.some.inj h ▸ isValue_code _
  · cases h

theorem Write.isPlain_declared {w : Write (Value ρ)} (plain : w.IsPlain) {d : Declaration}
    (h : w.declared? = some d) : d.IsPlain := by
  have align : IsName "align" := isName_of_letters (by decide) (by decide)
  have textAlign : IsName "text-align" := isName_of_letters (by decide) (by decide)
  have background : IsName "background-color" := isName_of_letters (by decide) (by decide)
  have color : IsName "color" := isName_of_letters (by decide) (by decide)
  have decoration : IsName "text-decoration" := isName_of_letters (by decide) (by decide)
  have lineThrough : IsValue "line-through" :=
    isValue_of_first (c := 'l') (by decide) (by decide) (by decide)
  cases w with
  | declare name value =>
    obtain ⟨s, hs, rfl⟩ := Option.map_eq_some_iff.1 h
    exact ⟨(plain s hs).1, (plain s hs).2⟩
  | align value =>
    obtain ⟨s, hs, rfl⟩ := Option.map_eq_some_iff.1 h
    exact ⟨align, plain s hs⟩
  | textAlign value =>
    obtain ⟨s, hs, rfl⟩ := Option.map_eq_some_iff.1 h
    exact ⟨textAlign, plain s hs⟩
  | background packed =>
    obtain ⟨s, hs, rfl⟩ := Option.map_eq_some_iff.1 h
    exact ⟨background, codeOf?_isValue hs⟩
  | color packed =>
    obtain ⟨s, hs, rfl⟩ := Option.map_eq_some_iff.1 h
    exact ⟨color, codeOf?_isValue hs⟩
  | strikethrough =>
    obtain rfl := Option.some.inj h
    exact ⟨decoration, lineThrough⟩

theorem isPlain_declared {history : List (Event ρ)} (plain : ∀ e ∈ history, e.IsPlain) :
    ∀ d ∈ history.filterMap Event.declared?, d.IsPlain := by
  intro d hd
  obtain ⟨e, he, h⟩ := List.mem_filterMap.1 hd
  cases e with
  | write w => exact Write.isPlain_declared (plain _ he) h
  | call other => cases h

/-! ## Steps -/

theorem set_eq (c : Attributes) (name : String) (value : Value ρ) :
    set c name value = ((Attributes.written? value).map (Declaration.mk name)).elim c
      fun d => c.write key (some (text c ++ d.text)) := by
  have same : Attribute.valueOf? value = Attributes.written? value := by
    unfold Attributes.written?
    split <;> rfl
  rw [set, same]
  cases Attributes.written? value with
  | none => rfl
  | some s => simp [Declaration.text, String.append_assoc]

/-- A write appends what it declares, and does nothing where it declares nothing. -/
theorem run_write (typeOfRef : ρ → String) (c : Attributes) (w : Write (Value ρ)) :
    (Event.write w).run typeOfRef c =
      w.declared?.elim c fun d => c.write key (some (text c ++ d.text)) := by
  have coloured {w : Write (Value ρ)} {name : String} {packed : Value ρ}
      (hw : w.declaration typeOfRef = (Write.colorCode typeOfRef packed).map (name, ·)) :
      (w.apply typeOfRef c).toOption.getD c = ((Color.codeOf? packed).map (Declaration.mk name)).elim c
        fun d => c.write key (some (text c ++ d.text)) := by
    rw [Write.apply, hw, Write.colorCode]
    cases Color.codeOf? packed with
    | none => rfl
    | some code => exact set_eq c name (.text code : Value ρ)
  cases w with
  | declare name value => exact set_eq c name value
  | align value => exact set_eq c "align" value
  | textAlign value => exact set_eq c "text-align" value
  | background packed => exact coloured rfl
  | color packed => exact coloured rfl
  | strikethrough => exact set_eq c "text-decoration" (.text "line-through" : Value ρ)

section
variable {key other : String} {a : Attribute}

theorem erase_erase (c : Attributes) (key other : String) :
    (c.erase key).erase other = (c.erase other).erase key := by
  simp only [Attributes.erase, List.filter_filter, Bool.and_comm]

theorem find?_erase_of_ne (c : Attributes) (h : other ≠ key) :
    (c.erase key).find? other = c.find? other := by rw [Attributes.find?_erase, if_neg h]

theorem has_erase_of_ne (c : Attributes) (h : a.key ≠ key) : (c.erase key).has a = c.has a := by
  rw [Attributes.has, find?_erase_of_ne c h, Attributes.has]

theorem add_erase (c : Attributes) (h : a.key ≠ key) :
    (c.add a).erase key = (c.erase key).add a := by
  rw [Attributes.add, Attributes.add, has_erase_of_ne c h]
  split
  · rfl
  · have stays : (a.key != key) = true := bne_iff_ne.2 h
    rw [erase_erase c key a.key]
    simp [Attributes.erase, List.filter_append, stays]

theorem erase_add_self (c : Attributes) (a : Attribute) : (c.add a).erase a.key = c.erase a.key := by
  rw [Attributes.add]
  split
  · rfl
  · simp [Attributes.erase, List.filter_append, List.filter_filter]

theorem discard_erase (c : Attributes) (h : a.key ≠ key) :
    (c.discard a).erase key = (c.erase key).discard a := by
  rw [Attributes.discard, Attributes.discard, has_erase_of_ne c h]
  split
  · exact erase_erase c a.key key
  · rfl

theorem write_erase (c : Attributes) (h : other ≠ key) (value : Option String) :
    (c.write other value).erase key = (c.erase key).write other value := by
  cases value with
  | none => exact erase_erase c other key
  | some value => exact add_erase c h

/-- A call that spares a key leaves the value of it and does to the other keys what it does without. -/
theorem run_spares {call : Attributes.Call ρ} (spares : Spares key call) (c : Attributes) :
    (call.run c).2.get? key = c.get? key ∧
      (call.run c).2.erase key = (call.run (c.erase key)).2 := by
  cases call with
  | set other value | assign other value =>
    refine ⟨?_, write_erase c spares _⟩
    exact (Attributes.get?_write c other key _).trans (if_neg (Ne.symm spares))
  | add pair =>
    refine ⟨?_, add_erase c spares⟩
    exact (Attributes.get?_write c pair.key key (some pair.value)).trans (if_neg (Ne.symm spares))
  | remove other =>
    refine ⟨?_, erase_erase c other key⟩
    exact (Attributes.get?_write c other key none).trans (if_neg (Ne.symm spares))
  | deleteItem other =>
    have same : (c.erase key).hasKey other = c.hasKey other := by
      rw [Attributes.hasKey, find?_erase_of_ne c spares, Attributes.hasKey]
    rw [Attributes.Call.run, Attributes.Call.run, same]
    split
    · exact ⟨(Attributes.get?_write c other key none).trans (if_neg (Ne.symm spares)),
        erase_erase c other key⟩
    · exact ⟨rfl, rfl⟩
  | discard pair =>
    refine ⟨?_, discard_erase c spares⟩
    show (c.discard pair).get? key = c.get? key
    rw [Attributes.get?, Attributes.find?_discard, if_neg fun h => spares h.1.symm, Attributes.get?]
  | pop | clear => exact spares.elim
  | get other fallback =>
    have reads (c : Attributes) : ((Attributes.Call.get other fallback).run c).2 = c := by
      rw [Attributes.Call.run]
      split <;> rfl
    rw [reads, reads]
    exact ⟨rfl, rfl⟩
  | getItem other =>
    have reads (c : Attributes) : ((Attributes.Call.getItem other : Attributes.Call ρ).run c).2 = c := by
      rw [Attributes.Call.run]
      split <;> rfl
    rw [reads, reads]
    exact ⟨rfl, rfl⟩
  | contains item =>
    rw [Attributes.run_contains, Attributes.run_contains]
    exact ⟨rfl, rfl⟩
  | containsPair | size | nonempty | render | literal => exact ⟨rfl, rfl⟩

end

/-! ## Runs -/

/-- The attributes of an element whose style holds these declarations: beside the style there is
what the calls made. -/
structure Tells (c : Attributes) (declared : List Declaration) (others : Attributes) : Prop where
  style : c.get? key = if declared = [] then none
    else some (String.join (declared.map Declaration.text))
  others : c.erase key = others

namespace Tells
variable {c others : Attributes} {declared : List Declaration}

theorem text_eq (h : Tells c declared others) :
    text c = String.join (declared.map Declaration.text) := by
  rw [text, h.style]
  split
  next none => rw [none]; rfl
  next => rfl

theorem write (h : Tells c declared others) (d : Declaration) :
    Tells (c.write key (some (text c ++ d.text))) (declared ++ [d]) others where
  style := by
    rw [Attributes.get?_write, if_pos rfl, if_neg (List.append_ne_nil_of_right_ne_nil _ (by simp)),
      h.text_eq, List.map_append, String.join_append]
    simp [String.join]
  others := (erase_add_self c ⟨key, _⟩).trans h.others

theorem call (h : Tells c declared others) {call : Attributes.Call ρ} (spares : Spares key call) :
    Tells (call.run c).2 declared (call.run others).2 where
  style := (run_spares spares c).1.trans h.style
  others := by rw [(run_spares spares c).2, h.others]

end Tells

/-- Each event of a history takes the declarations and the other attributes along. -/
theorem tells_after (typeOfRef : ρ → String) (history : List (Event ρ))
    (plain : ∀ e ∈ history, e.IsPlain) {c others : Attributes} {declared : List Declaration}
    (h : Tells c declared others) : Tells (after typeOfRef c history)
      (declared ++ history.filterMap Event.declared?)
      (afterCalls others (history.filterMap Event.call?)) := by
  induction history generalizing c declared others with
  | nil => simpa [after, afterCalls] using h
  | cons e history ih =>
    have rest := fun e he => plain e (List.mem_cons_of_mem _ he)
    cases e with
    | call other =>
      exact ih rest (h.call (plain _ List.mem_cons_self))
    | write w =>
      rw [after, List.foldl_cons, run_write, List.filterMap_cons]
      cases hd : w.declared? with
      | none =>
        simp only [Event.declared?, hd]
        exact ih rest h
      | some d =>
        simp only [Event.declared?, hd]
        rw [List.append_cons]
        exact ih rest (h.write d)

theorem toList_join_text (ds : List Declaration) :
    (String.join (ds.map Declaration.text)).toList = ds.flatMap Declaration.chars := by
  rw [String.toList_join, List.flatMap_map]
  exact List.flatMap_congr fun d _ => d.toList_text

/-- After any history of an element that had no style, a name reads as the first value that was
declared of it, the text is all declarations in their order, and the other attributes are as the
other calls alone leave them. -/
theorem after_tells_history (typeOfRef : ρ → String) {c : Attributes} (fresh : c.get? key = none)
    {history : List (Event ρ)} (plain : ∀ e ∈ history, e.IsPlain) :
    (∀ name, get? (after typeOfRef c history) name =
        ((history.filterMap Event.declared?).find? (·.name == name)).map (·.value)) ∧
      text (after typeOfRef c history) = String.join ((history.filterMap Event.declared?).map
        fun d => d.name ++ ":" ++ d.value ++ ";") ∧
      (after typeOfRef c history).toList.filter (·.key != key) =
        (afterCalls c (history.filterMap Event.call?)).toList := by
  have absent : ∀ a ∈ c.toList, (a.key != key) = true := by
    intro a ha
    exact bne_iff_ne.2 (Attributes.find?_eq_none_iff.1 (Option.map_eq_none_iff.1 fresh) a ha)
  have start : Tells c [] c :=
    ⟨fresh, congrArg Attributes.mk (List.filter_eq_self.2 absent)⟩
  have tells := tells_after typeOfRef history plain start
  rw [List.nil_append] at tells
  refine ⟨fun name => ?_, tells.text_eq, congrArg Attributes.toList tells.others⟩
  rw [get?, tells.style]
  split
  next none => rw [none]; rfl
  next =>
    rw [Option.bind_some, lookup?, toList_join_text,
      declarations_written _ (isPlain_declared plain)]

def sampler : List (Event Nat) :=
  [.write (.declare "src" (.text "url(a:b)")), .write (.align .null),
    .call (.set "id" (.text "top")), .write (.color (.int 0xFF0000)),
    .write (.declare "src" (.text "c"))]

/-- The first of two values is read, though the text of it looks like a declaration. -/
theorem after_tells_history_of_sampler : Attributes.empty.get? key = none ∧
    (∀ e ∈ sampler, e.IsPlain) ∧
    get? (after (fun _ => "") .empty sampler) "src" = some "url(a:b)" ∧
    text (after (fun _ => "") .empty sampler) = "src:url(a:b);color:#FF0000;src:c;" ∧
    (after (fun _ => "") .empty sampler).toList.filter (·.key != key) = [⟨"id", "top"⟩] := by
  have name : IsName "src" := isName_of_letters (by decide) (by decide)
  have url : IsValue "url(a:b)" := isValue_of_first (c := 'u') (by decide) (by decide) (by decide)
  have letter : IsValue "c" := isValue_of_first (c := 'c') (by decide) (by decide) (by decide)
  have plain : ∀ e ∈ sampler, e.IsPlain := by
    simp only [sampler, List.forall_mem_cons]
    refine ⟨fun s hs => ?_, fun s hs => (nomatch hs), (by decide : "id" ≠ key), trivial,
      fun s hs => ?_, fun e he => nomatch he⟩
    · exact Option.some.inj hs ▸ ⟨name, url⟩
    · exact Option.some.inj hs ▸ ⟨name, letter⟩
  obtain ⟨read, written, kept⟩ :=
    after_tells_history (fun _ => "") (rfl : Attributes.empty.get? key = none) plain
  exact ⟨rfl, plain, (read "src").trans (by decide), written.trans (by decide),
    kept.trans (by decide)⟩

end Hypertext.Style
