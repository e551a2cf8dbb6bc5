import Hypertext.Construction
import Hypertext.Json.Parser

/-! Reading payloads. A node that is no record, has no known type, lacks a tag that it needs, or has
a field of the wrong shape is refused; fields that are absent have defaults, and unknown fields
are passed over. Elements are attached to what holds them as they are built. -/
namespace Hypertext.Payload
set_option autoImplicit false

abbrev Fields := List (String × Datum)

def knownFields : List String := ["_type", "tag_name", "attributes", "children", "text", "unsafe"]

def unknownFields (fields : Fields) : List String :=
  ((fields.map (·.1)).filter (!knownFields.contains ·)).mergeSort fun a b => decide (a ≤ b)

def ignoredEvents (type : String) (fields : Fields) : List Event :=
  match unknownFields fields with
  | [] => []
  | unknown => [.fieldsIgnored unknown type]

/-- The mark of a node; an absent one is false. -/
def markOf (f : Forest) (fields : Fields) : Bool :=
  ((fields.lookup "unsafe").map f.truth).getD false

def typeOf (f : Forest) (fields : Fields) : Except Fault String :=
  match (fields.lookup "_type").map Value.erased with
  | none | some .null => .error (.payload none .typeMissing)
  | some (.text type) => .ok type
  | some v => .error (.payload none (.typeNotText (f.typeName v)))

/-- A field that holds a list; an absent one is empty. -/
def listField (f : Forest) (type : String) (fields : Fields) (name : String) :
    Except Fault (List Datum) :=
  match fields.lookup name with
  | none => .ok []
  | some v =>
    match v.items? with
    | some items => .ok items
    | none => .error (.payload (some type) (.fieldNotList name (f.typeName v)))

theorem sizeOf_listField_le {f : Forest} {type name : String} {fields : Fields}
    {items : List Datum} (h : listField f type fields name = .ok items) :
    sizeOf items ≤ sizeOf fields := by
  unfold listField at h
  split at h
  · obtain rfl := Except.ok.inj h
    cases fields with
    | nil => exact Nat.le_refl _
    | cons _ _ => simp only [List.nil.sizeOf_spec, List.cons.sizeOf_spec]; omega
  next v hv =>
    split at h
    next hitems =>
      obtain rfl := Except.ok.inj h
      have := Value.sizeOf_lookup_lt hv
      have := Value.sizeOf_items?_lt hitems
      omega
    · cases h

/-- An attribute is a list of two texts. The refusal of any other value spells it. -/
def attributeOf (f : Forest) (type : String) (pair : Datum) : Except Fault Attribute :=
  match pair.erased with
  | .list [.text key, .text value] => .ok ⟨key, value⟩
  | v => do .error (.payload (some type) (.attributeMalformed (← f.literal v)))

def newElement (type : String) (fields : Fields) : Action ElementId := do
  match Kind.ofPayloadName? type with
  | none => throw (.payload (some type) .typeUnknown)
  | some kind =>
    let tag := ((fields.lookup "tag_name").getD .null).erased
    if kind.tag?.isNone && !(← Action.forest).truth tag then
      throw (.payload (some type) .tagMissing)
    Action.construct kind { tag }

def readAttributes (type : String) (id : ElementId) : List Datum → Action Unit
  | [] => return
  | pair :: rest => do
    let a ← attributeOf (← Action.forest) type pair
    Action.change fun f => f.setAttributes id ((f.attributesOf id).add a)
    readAttributes type id rest

/-- A document cannot stand inside another node. -/
def elementOnly : Ref → Action ElementId
  | .element id => return id
  | .document _ => throw (.payload (some documentType) .documentNested)

mutual

def node (v : Datum) : Action Ref := do
  match v with
  | .record fields =>
    let type ← typeOf (← Action.forest) fields
    if type = documentType then
      let id ← Action.insertDocument
      children type (.document id) fields
      return .document id
    else
      let id ← elementHead type fields
      children type (.element id) fields
      return .element id
  | .made _ v => node v
  | v => throw (.payload none (.notRecord ((← Action.forest).typeName v)))
termination_by (sizeOf v, 0)

def children (type : String) (holder : Ref) (fields : Fields) : Action Unit := do
  match _items : listField (← Action.forest) type fields "children" with
  | .ok items => attachAll holder items
  | .error fault => throw fault
termination_by (sizeOf fields, 1)
decreasing_by
  have := sizeOf_listField_le _items
  exact (Nat.lt_or_eq_of_le this).elim (Prod.Lex.left _ _ ·)
    fun h => h ▸ Prod.Lex.right _ (by omega)

/-- An element up to its children: its attributes, its text and its mark. -/
def elementHead (type : String) (fields : Fields) : Action ElementId := do
  Action.tell fun _ => (ignoredEvents type fields).forM Account.report
  let id ← newElement type fields
  readAttributes type id (← listField (← Action.forest) type fields "attributes")
  if (← Action.forest).hasText id then
    textSlot id fields
    Action.change fun f => f.setMark id (.bool (markOf f fields))
  return id
termination_by (sizeOf fields, 2)

/-- Fills the text slot: a record stands for an element, any other value for itself. -/
def textSlot (id : ElementId) (fields : Fields) : Action Unit := do
  match _text : fields.lookup "text" with
  | none => Action.change (·.setContent id (.text ""))
  | some v =>
    if v.isRecord then
      let held ← elementOnly (← node v)
      Action.change (·.setContent id (.ref (.element held)))
    else
      let content ← Action.identified v
      Action.change (·.setContent id content)
termination_by (sizeOf fields, 1)
decreasing_by exact Prod.Lex.left _ _ (Value.sizeOf_lookup_lt _text)

def attachAll (holder : Ref) (items : List Datum) : Action Unit := do
  match items with
  | [] => return
  | v :: rest =>
    let child ← elementOnly (← node v)
    Action.change (·.attach holder (.ref (.element child)))
    attachAll holder rest
termination_by (sizeOf items, 0)

end

def nodeOfJson (limits : Limits) (text : String) : Action Ref := do
  match Json.read limits text.toList with
  | .error fault => throw fault.toFault
  | .ok v => node v

end Hypertext.Payload
