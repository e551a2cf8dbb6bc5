import Hypertext.Index
import Hypertext.Payload.Read
import Hypertext.Payload.Write
import Hypertext.Session.Basic
import Hypertext.Session.Program

/-! What the commands of a session do. -/
namespace Hypertext.Session
set_option autoImplicit false

/-- The answer to a command, and the object that a register takes. Only commands that make or find
an object have one. -/
structure Result where
  answer : Datum
  object : Option Datum

namespace Result

def same (v : Datum) : Result := ⟨v, some v⟩

def plain (v : Datum) : Result := ⟨v, none⟩

def null : Result := plain .null

end Result

def described (v : Datum) : Act Result := do
  return ⟨.text (← liftExcept ((← get).forest.literal v)), some v⟩

/-! ## Elements -/

def arguments (given : Given) : Act Arguments := do
  let items ← given.items.mapM make
  let named ← given.named.mapM fun (p, t) =>
    return (p, ← if p = .text then make t else resolve t)
  return Parameter.arguments named items

/-- A new element, unless a parameter that is named is refused. -/
def construct (maker : Parameter.Maker) (named : List Parameter) (args : Arguments) :
    Act ElementId := do
  match maker.refusal? named with
  | some fault => throw fault
  | none => onStore (Action.construct maker.made args)

/-- Elements made one after the other, each linked to the one before. -/
def chainFrom (kind : Kind) (link : Link) : Nat → Datum → Act Datum
  | 0, v => return v
  | count + 1, v => do
    let next : Datum := .ref (.element (← onStore (Action.construct kind {})))
    match link, v with
    | .child, .ref holder => onStore (Action.attach holder next)
    | .child, v => refuse v "attach"
    | .text, .ref (.element holder) => change (·.setContent holder next)
    | .text, v => refuse v "text"
    chainFrom kind link count next

/-- What a parent link can be set to: an element, a choice, or nothing. -/
def linkTo (f : Forest) : Datum → Except Fault ParentLink
  | .null => .ok .absent
  | .choice c => .ok (.choice c)
  | .ref (.element id) => .ok (.element id)
  | v => .error (.notReferable (f.typeName v))

/-- What a setting takes of a term: a text is kept as the very object. -/
def settingValue (t : Term) : Setting → Act Datum
  | .text => make t
  | _ => resolve t

def assign (id : ElementId) (v : Datum) : Setting → Act Unit
  | .text => change (·.setContent id v)
  | .mark => change (·.setMark id v)
  | .parent => do
    let link ← liftExcept (linkTo (← get).forest v)
    change (·.setParent id link)
  | .property p => change (·.setProperty id p v)

def callAttributes (id : ElementId) (call : Attributes.Call Symbol) : Act Datum := do
  let s ← get
  let call ← liftExcept (s.registers.resolveCall call)
  let (answer, attributes) := call.run (s.forest.attributesOf id)
  change (·.setAttributes id attributes)
  liftExcept answer

/-- What the style of an element stores of a value. An element or document is written out; within
a list or record it is described. -/
def spelled : Datum → Act Datum
  | .ref r => return .text (← tell (·.textOfRef r))
  | .scalar s => if s.isTooLong then throw .numberTooLong else return .scalar s
  | v => return .text (← liftExcept ((← get).forest.literal v))

/-- A write to the style of an element, which has a style from then on. -/
def writeStyle (id : ElementId) (write : Style.Write Term) : Act String := do
  change (·.setStyled id)
  let write ← match ← write.mapM resolve with
    | .declare name value => pure (.declare name (← spelled value))
    | .align value => pure (.align (← spelled value))
    | .textAlign value => pure (.textAlign (← spelled value))
    | write => pure write
  let f := (← get).forest
  let attributes ← liftExcept (write.apply f.typeOfRef (f.attributesOf id))
  change (·.setAttributes id attributes)
  return Style.text attributes

/-! ## Documents, payloads and records -/

def renderDocument (id : DocumentId) (pretty : Datum) : Act Result := do
  let settings := (← get).settings
  return .plain (.text (← tell (·.renderDocument settings id pretty)))

def readNode (act : Action Ref) : Act Result := do described (.ref (← onStore act))

def journalValue (records : Array Journal.Record) : Datum :=
  .list (records.toList.map fun r =>
    .list [.text r.source, .text Journal.level, .text r.message])

/-! ## Commands -/

def runCommand : Command → Act Result
  | .create kind given => do
    let args ← arguments given
    described (.ref (.element (← construct (.kind kind) given.parameters args)))
  | .createDocument given => do
    let _ ← arguments given
    match Parameter.documentRefusal? given.parameters with
    | some fault => throw fault
    | none => described (.ref (.document (← onStore Action.insertDocument)))
  | .chain start kind count link => do
    described (← chainFrom kind link count (← valueAt start))
  | .bind value => return .same (← make value)
  | .child on index => do
    let children := (← get).forest.childrenOf (← refAt on "children")
    described (← liftExcept (itemAt children index))
  | .textOf on => do
    let v ← tell (Query.text.answer (.ref (.element (← elementAt on "text"))))
    described v
  | .drop names => do
    modify fun s => { s with registers := s.registers.drop names }
    return .null
  | .fail message => throw (.raised message)
  | .add on child => do
    let (holder, v) := (← refAt on "add", ← valueAt child)
    change (·.add holder v)
    return .plain (.bool true)
  | .remove on child => do
    let (holder, v) := (← refAt on "remove", ← valueAt child)
    let found := ((← get).forest.childrenOf holder).contains v
    change (·.remove holder v)
    return .plain (.bool found)
  | .attach on child => do
    let (holder, v) := (← refAt on "attach", ← valueAt child)
    onStore (Action.attach holder v)
    return .plain v
  | .set on setting value => do
    let holder ← valueAt on
    let v ← settingValue value setting
    match setting, holder with
    | .parent, .ref (.document _) => throw (.readOnly documentType setting.name)
    | _, .choice _ => pure ()
    | _, .ref (.element id) => assign id v setting
    | _, holder => refuse holder setting.name
    return .null
  | .setVerbatim on text => do
    let id ← textElementAt on
    let v ← make text
    change fun f => (f.setContent id v).setMark id (.bool true)
    return .plain (.ref (.element id))
  | .attribute on call => return .plain (← callAttributes (← elementAt on "attr") call)
  | .attributes on call => return .plain (← callAttributes (← elementAt on "attributes") call)
  | .getStyle on name => do
    let id ← elementAt on "style"
    change (·.setStyled id)
    let attributes := (← get).forest.attributesOf id
    return .plain (Attributes.valueOrNull (Style.get? attributes name))
  | .writeStyle on write => do
    return .plain (.text (← writeStyle (← elementAt on "style") write))
  | .get on query => do
    let v ← valueAt on
    match query, v with
    | .style, .ref (.element id) => change (·.setStyled id)
    | _, _ => pure ()
    return .plain (← tell (query.answer v))
  | .render on pretty => do renderDocument (← documentAt on "render") (← resolve pretty)
  | .renderer roots pretty indent => do
    let roots ← roots.mapM valueAt
    let r := Renderer.make (← get).settings roots (← resolve pretty) (← resolve indent)
    return .same (← onStore (Action.identified r.toValue))
  | .run on => do
    match ← valueAt on with
    | .ref (.document id) => renderDocument id .null
    | _ =>
      let r ← rendererAt on "render"
      return .plain (.text (← tell r.render))
  | .runInner on name => do
    let r ← rendererAt on "render_inner"
    let inner ← valueAt name
    return .plain (.text (← tell (r.renderInner · inner)))
  | .setSettings fields => do
    let settings ← liftExcept (Settings.ofArguments (← resolveFields fields))
    modify fun s => { s with settings }
    return .null
  | .loadSettings fields => do
    let settings ← liftExcept (Settings.ofData (← get).limits (← resolveFields fields))
    modify fun s => { s with settings }
    return .null
  | .resetSettings => do
    modify fun s => { s with settings := {} }
    return .null
  | .getSettings => return .plain (← get).settings.toValue
  | .payload on => do
    let r ← refAt on "tag_name"
    return .plain (← tell (·.payload r))
  | .json on indent => do
    let v ← valueAt on
    let indent ← resolve indent
    let r ← refOf v "tag_name"
    let limits := (← get).limits
    return .plain (.text (← tell (·.json limits r indent)))
  | .readPayload data => do readNode (Payload.node (← make data))
  | .readJson text => do readNode (Payload.nodeOfJson (← get).limits text)
  | .copy on true => do
    let r ← refAt on "tag_name"
    let limits := (← get).limits
    readNode (Payload.nodeOfJson limits (← tell (·.json limits r .null)))
  | .copy on false => do
    let r ← refAt on "tag_name"
    readNode (Payload.node (← tell (·.payload r)))
  | .journal => do
    let records := (← get).store.journal
    modify fun s => { s with store.journal := #[] }
    return .plain (journalValue records)

end Hypertext.Session
