import Hypertext.Text.Quoted

/-! The causes of failure and their messages. -/
namespace Hypertext
set_option autoImplicit false

/-- Where a text stops being JSON. -/
inductive JsonFault where
  | value
  | extraData
  | propertyName
  | colon
  | comma
  | unterminated
  | control
  | escape
  | unicodeEscape
  | byteOrderMark
  | digitsTooMany (count : Nat)
  /-- Lists or records within each other, at one more than are read. -/
  | nestedTooDeep (shape : String)
  deriving DecidableEq, Repr

/-- The greatest count of digits of a whole number that is read from a text or written into one. -/
def digitLimit : Nat := 4300

def JsonFault.message : JsonFault → String
  | .value => "Expecting value"
  | .extraData => "Extra data"
  | .propertyName => "Expecting property name enclosed in double quotes"
  | .colon => "Expecting ':' delimiter"
  | .comma => "Expecting ',' delimiter"
  | .unterminated => "Unterminated string starting at"
  | .control => "Invalid control character at"
  | .escape => "Invalid \\escape"
  | .unicodeEscape => "Invalid \\uXXXX escape"
  | .byteOrderMark => "Unexpected UTF-8 BOM (decode using utf-8-sig)"
  | .digitsTooMany count =>
    s!"Exceeds the limit ({digitLimit} digits) for integer string conversion: value has {count} " ++
      "digits; use sys.set_int_max_str_digits() to increase the limit"
  | .nestedTooDeep shape =>
    s!"maximum recursion depth exceeded while decoding a JSON {shape} from a unicode string"

inductive PayloadFault where
  | notRecord (type : String)
  | typeMissing
  | typeNotText (type : String)
  | typeUnknown
  | tagMissing
  | fieldNotList (field type : String)
  | attributeMalformed (literal : String)
  | documentNested
  | notJson (fault : JsonFault)
  deriving DecidableEq, Repr

def PayloadFault.message : PayloadFault → String
  | .notRecord type => s!"Expected a dict, got {type}"
  | .typeMissing => "Missing '_type' field in serialized node"
  | .typeNotText type => s!"'_type' must be a string, got {type}"
  | .typeUnknown => "Unknown element type"
  | .tagMissing => "Missing 'tag_name' field"
  | .fieldNotList field type => s!"Field '{field}' must be a list, got {type}"
  | .attributeMalformed literal =>
    s!"Malformed attribute {literal}, expected [name, value] strings"
  | .documentNested => "A document cannot be nested inside another node"
  | .notJson fault => s!"Invalid JSON: {fault.message}"

inductive Fault where
  /-- A payload, at a node of some type, does not describe a tree. -/
  | payload (node : Option String) (cause : PayloadFault)
  | attributeMissing (tag key : String)
  | keyMissing (key : String)
  | collectionEmpty
  | indexOutOfRange
  /-- A whole number that is no index of anything. -/
  | indexTooGreat
  | tagRequired (kind : String)
  /-- A tag name that has parts cannot be looked up in the tag tables. -/
  | tagUnhashable (type : String)
  /-- A collection of attributes is ordered only against another one. -/
  | notComparable (operator : String)
  | notSerializable (type : String)
  /-- Only an element or a choice can be linked to as a parent. -/
  | notReferable (type : String)
  | notOperand (operator type : String)
  | partNotText (index : Nat) (type : String)
  | argumentUnexpected (callee name : String)
  /-- A value of a type that has nothing of this name. -/
  | nameMissing (type name : String)
  /-- A value of a type that has this name only to be read. -/
  | readOnly (type name : String)
  | notCount (type : String)
  | countTooGreat
  | textTooLong
  | outOfMemory
  | digitsTooMany (count : Nat)
  /-- A whole number that has too many digits to be written. -/
  | numberTooLong
  | nestedTooDeep (shape : String)
  | registerUnbound (name : String)
  | notNumber (text : String)
  | raised (message : String)
  deriving DecidableEq, Repr

/-- A text that is no JSON is no payload; a number that is too long and lists that are nested too
deep say nothing about that. -/
def JsonFault.toFault : JsonFault → Fault
  | .digitsTooMany count => .digitsTooMany count
  | .nestedTooDeep shape => .nestedTooDeep shape
  | fault => .payload none (.notJson fault)

namespace Fault

/-- A message about a payload names the type of the node, if that has a name. -/
def aboutNode (node : Option String) (message : String) : String :=
  match node with
  | none | some "" => message
  | some type => type ++ ": " ++ message

def message : Fault → String
  | .payload node cause => aboutNode node cause.message
  | .attributeMissing tag key => s!"<{tag}>: required attribute '{key}' is not set"
  | .keyMissing key => Text.quoted key
  | .collectionEmpty => ""
  | .indexOutOfRange => "tuple index out of range"
  | .tagRequired kind => s!"{kind} requires a tag name"
  | .tagUnhashable type => s!"unhashable type: '{type}'"
  | .notComparable operator =>
    s!"'{operator}' not supported between instances of 'Attributes' and 'list'"
  | .notSerializable type => s!"Object of type {type} is not JSON serializable"
  | .notReferable type => s!"cannot create weak reference to '{type}' object"
  | .notOperand operator type =>
    s!"unsupported operand type(s) for {operator}: '{type}' and 'int'"
  | .partNotText index type => s!"sequence item {index}: expected str instance, {type} found"
  | .argumentUnexpected callee name =>
    s!"{callee}() got an unexpected keyword argument '{name}'"
  | .nameMissing type name => s!"'{type}' object has no attribute '{name}'"
  | .readOnly type name => s!"property '{name}' of '{type}' object has no setter"
  | .notCount type => s!"can't multiply sequence by non-int of type '{type}'"
  | .indexTooGreat | .countTooGreat => "cannot fit 'int' into an index-sized integer"
  | .textTooLong => "repeated string is too long"
  | .outOfMemory => ""
  | .digitsTooMany count => JsonFault.message (.digitsTooMany count)
  | .numberTooLong =>
    s!"Exceeds the limit ({digitLimit} digits) for integer string conversion; " ++
      "use sys.set_int_max_str_digits() to increase the limit"
  | .nestedTooDeep shape => JsonFault.message (.nestedTooDeep shape)
  | .registerUnbound name => Text.quoted name
  | .notNumber text => s!"could not convert string to float: {Text.quoted text}"
  | .raised message => message

end Fault

end Hypertext
