import Hypertext.Color
import Hypertext.Store

/-! The construction of elements, what can be attached to them, and the attributes that kinds
declare. -/
namespace Hypertext
set_option autoImplicit false

/-! ## Declared attributes -/

namespace Property

/-- What a write stores: a packed colour is stored by its code. -/
def converted : Property → Datum → Datum
  | color, v => ((Color.codeOf? v).map .text).getD v
  | _, v => v

end Property

namespace Forest

/-- Sets or removes a declared attribute. Where it is not declared the value is only kept. -/
def setProperty (f : Forest) (id : ElementId) (p : Property) (value : Datum) : Forest :=
  if (f.get? id).any fun e => p.declaredBy e.kind then
    f.setAttributes id
      ((f.attributesOf id).write p.key (Attribute.valueOf? (p.converted value)))
  else f.setUndeclared id p.key value

/-- Reads a declared attribute; a required one must be set. -/
def property (f : Forest) (id : ElementId) (p : Property) : Except Fault (Option String) :=
  match (f.attributesOf id).get? p.key with
  | some value => .ok (some value)
  | none =>
    if p.required then do
      .error (.attributeMissing (← f.spelling (f.tagOf id)) p.key)
    else .ok none

end Forest

/-! ## Attaching -/

/-- Why a value cannot be linked to a parent. A document never has one; elements and choices take
the link, and other values have none. -/
def Forest.linkFault? (f : Forest) : Datum → Option Fault
  | .ref (.element _) | .choice _ => none
  | .ref (.document _) => some (.readOnly documentType "parent")
  | v => some (.nameMissing (f.typeName v) "parent")

/-- Attaches a child. An element takes only what can be linked to it; a document, which is nobody's
parent, takes any value. -/
def Action.attach (holder : Ref) (child : Datum) : Action Unit := do
  match holder, (← forest).linkFault? child with
  | .element _, some fault => throw fault
  | _, _ => change (·.attach holder child)

def Action.attachAll (holder : Ref) (children : List Datum) : Action Unit :=
  children.forM (attach holder)

/-! ## Construction -/

/-- What a new element is given. Kinds without a text slot have no use for the text, and only the
declared attributes of the kind are set. -/
structure Arguments where
  tag : Datum := .null
  text : Datum := .text ""
  properties : List (Property × Datum) := []
  items : List Datum := []

def Arguments.refs (args : Arguments) : List Ref :=
  args.tag.refs ++ args.text.refs ++ args.properties.flatMap (·.2.refs)
    ++ args.items.flatMap (·.refs)

/-- The tag of a new element. A generic kind needs one that counts as true and can be looked up. -/
def Kind.tagFor (f : Forest) (kind : Kind) (tag : Datum) : Except Fault Datum :=
  match kind.tag? with
  | some fixed => .ok (.text fixed)
  | none =>
    if !f.truth tag then .error (.tagRequired kind.name)
    else match tag with
      | .list _ | .record _ => .error (.tagUnhashable (f.typeName tag))
      | tag => .ok tag

/-- A new element: its text first, then its attributes, then its items. -/
def Action.construct (kind : Kind) (args : Arguments) : Action ElementId := do
  let tag ← liftExcept (kind.tagFor (← forest) args.tag)
  let id ← insert { kind, tag }
  change fun f =>
    let f := if kind.hasText then f.setContent id args.text else f
    args.properties.foldl (fun f (p, value) => f.setProperty id p value) f
  attachAll (.element id) args.items
  return id

end Hypertext
