import Hypertext.Tag

/-! The kinds of elements: a catalog with one fixed tag for each kind, three generic kinds whose tag
is chosen freely, and the heading without a level. A kind fixes the type name that descriptions
and payloads use, whether elements have a text slot, and which attributes they declare. -/
namespace Hypertext
set_option autoImplicit false

inductive Catalog where
  | a | b | big | blockquote | br | cite | del | dfn | div | em | font
  | h1 | h2 | h3 | h4 | h5 | h6
  | i | img | li | p | s | small | span | strike | strong | sub | sup | tt | u | ul
  deriving DecidableEq, Repr

namespace Catalog

def all : List Catalog :=
  [a, b, big, blockquote, br, cite, del, dfn, div, em, font, h1, h2, h3, h4, h5, h6, i, img, li, p,
   s, small, span, strike, strong, sub, sup, tt, u, ul]

def tag : Catalog → String
  | a => "a" | b => "b" | big => "big" | blockquote => "blockquote" | br => "br" | cite => "cite"
  | del => "del" | dfn => "dfn" | div => "div" | em => "em" | font => "font" | h1 => "h1"
  | h2 => "h2" | h3 => "h3" | h4 => "h4" | h5 => "h5" | h6 => "h6" | i => "i" | img => "img"
  | li => "li" | p => "p" | s => "s" | small => "small" | span => "span" | strike => "strike"
  | strong => "strong" | sub => "sub" | sup => "sup" | tt => "tt" | u => "u" | ul => "ul"

def name : Catalog → String
  | a => "A" | b => "B" | big => "Big" | blockquote => "BlockQuote" | br => "Br" | cite => "Cite"
  | del => "Del" | dfn => "Dfn" | div => "Div" | em => "Em" | font => "Font" | h1 => "H1"
  | h2 => "H2" | h3 => "H3" | h4 => "H4" | h5 => "H5" | h6 => "H6" | i => "I" | img => "Img"
  | li => "Li" | p => "P" | s => "S" | small => "Small" | span => "Span" | strike => "Strike"
  | strong => "Strong" | sub => "Sub" | sup => "Sup" | tt => "Tt" | u => "U" | ul => "Ul"

def hasText : Catalog → Bool
  | img | span | ul => false
  | _ => true

def ofName? (name : String) : Option Catalog := all.find? (·.name == name)

def ofTag? (tag : String) : Option Catalog := all.find? (·.tag == tag)

end Catalog

inductive Generic where
  | element
  | text
  | inlineText
  deriving DecidableEq, Repr

namespace Generic

def name : Generic → String
  | element => "HtmlElement"
  | text => "TextElement"
  | inlineText => "InlineTextElement"

def hasText : Generic → Bool
  | element => false
  | _ => true

def ofName? (name : String) : Option Generic :=
  [element, text, inlineText].find? (·.name == name)

end Generic

inductive Kind where
  | catalog (c : Catalog)
  | generic (g : Generic)
  /-- The heading of level zero, which payloads do not know. -/
  | heading
  deriving DecidableEq, Repr

namespace Kind

def name : Kind → String
  | catalog c => c.name
  | generic g => g.name
  | heading => "Heading"

def hasText : Kind → Bool
  | catalog c => c.hasText
  | generic g => g.hasText
  | heading => true

def tag? : Kind → Option String
  | catalog c => some c.tag
  | generic _ => none
  | heading => some "h0"

def level? : Kind → Option Nat
  | catalog .h1 => some 1
  | catalog .h2 => some 2
  | catalog .h3 => some 3
  | catalog .h4 => some 4
  | catalog .h5 => some 5
  | catalog .h6 => some 6
  | heading => some 0
  | _ => none

def ofPayloadName? (name : String) : Option Kind :=
  match Catalog.ofName? name with
  | some c => some (catalog c)
  | none => (Generic.ofName? name).map generic

def ofName? (name : String) : Option Kind :=
  if name = "Heading" then some heading else ofPayloadName? name

end Kind

/-- An attribute that a kind declares as readable and writable under a name of its own. -/
inductive Property where
  | direction
  | href
  | target
  | align
  | face
  | color
  | src
  deriving DecidableEq, Repr

namespace Property

def all : List Property := [direction, href, target, align, face, color, src]

def key : Property → String
  | direction => "dir"
  | href => "href"
  | target => "target"
  | align => "align"
  | face => "face"
  | color => "color"
  | src => "src"

def declaredBy : Property → Kind → Bool
  | direction, _ => true
  | href, kind | target, kind => kind = .catalog .a
  | align, kind => kind = .catalog .div
  | face, kind | color, kind => kind = .catalog .font
  | src, kind => kind = .catalog .img

def required : Property → Bool
  | href => true
  | _ => false

end Property

end Hypertext
