import Hypertext.Attributes
import Hypertext.Fault

/-! The operations on one collection of attributes, each with its answer and the collection that it
leaves. A failing operation leaves the collection as it was. -/
namespace Hypertext.Attributes
set_option autoImplicit false

def pairValue {ρ : Type} (a : Attribute) : Value ρ := .list [.text a.key, .text a.value]

def listValue {ρ : Type} (c : Attributes) : Value ρ := .list (c.toList.map pairValue)

inductive Call (ρ : Type) where
  | set (key : String) (value : Value ρ)
  | assign (key : String) (value : Value ρ)
  | get (key : String) (fallback : Value ρ)
  | getItem (key : String)
  | deleteItem (key : String)
  | remove (key : String)
  | add (pair : Attribute)
  | discard (pair : Attribute)
  | containsPair (pair : Attribute)
  /-- A text asks for a key; nothing else is a member. -/
  | contains (item : Value ρ)
  | pop
  | clear
  | size
  | nonempty
  | render
  | literal
  deriving Repr

def Call.refs {ρ : Type} : Call ρ → List ρ
  | .set _ value | .assign _ value => value.refs
  | .get _ fallback => fallback.refs
  | .contains item => item.refs
  | _ => []

def Call.subst {ρ σ : Type} (f : ρ → Value σ) : Call ρ → Call σ
  | .set key value => .set key (value.subst f)
  | .assign key value => .assign key (value.subst f)
  | .get key fallback => .get key (fallback.subst f)
  | .contains item => .contains (item.subst f)
  | .getItem key => .getItem key
  | .deleteItem key => .deleteItem key
  | .remove key => .remove key
  | .add pair => .add pair
  | .discard pair => .discard pair
  | .containsPair pair => .containsPair pair
  | .pop => .pop
  | .clear => .clear
  | .size => .size
  | .nonempty => .nonempty
  | .render => .render
  | .literal => .literal

def valueOrNull {ρ : Type} : Option String → Value ρ
  | none => .null
  | some s => .text s

def Call.run {ρ : Type} (c : Attributes) : Call ρ → Except Fault (Value ρ) × Attributes
  | .set key value =>
    (.ok (.bool (c.changes key (Attribute.valueOf? value))),
      c.write key (Attribute.valueOf? value))
  | .assign key value => (.ok .null, c.write key (Attribute.valueOf? value))
  | .get key fallback =>
    match c.get? key with
    | some value => (.ok (.text value), c)
    | none => (.ok fallback, c)
  | .getItem key =>
    match c.get? key with
    | some value => (.ok (.text value), c)
    | none => (.error (.keyMissing key), c)
  | .deleteItem key =>
    if c.hasKey key then (.ok .null, c.erase key) else (.error (.keyMissing key), c)
  | .remove key => (.ok (.bool (c.hasKey key)), c.erase key)
  | .add pair => (.ok (.bool (!c.has pair)), c.add pair)
  | .discard pair => (.ok .null, c.discard pair)
  | .containsPair pair => (.ok (.bool (c.has pair)), c)
  | .contains (.text key) => (.ok (.bool (c.hasKey key)), c)
  | .contains _ => (.ok (.bool false), c)
  | .pop =>
    match c.pop? with
    | some (pair, rest) => (.ok (pairValue pair), rest)
    | none => (.error .collectionEmpty, c)
  | .clear => (.ok .null, empty)
  | .size => (.ok (.int c.size), c)
  | .nonempty => (.ok (.bool (c.size != 0)), c)
  | .render => (.ok (.text c.render), c)
  | .literal => (.ok (.text c.literal), c)

end Hypertext.Attributes
