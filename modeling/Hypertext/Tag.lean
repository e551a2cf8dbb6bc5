import Hypertext.Value

/-! What a tag name says about layout. Two fixed tables list the inline tags and the void ones; any
other name is an ordinary block with a closing tag. -/
namespace Hypertext
set_option autoImplicit false

namespace Tag

/-- Written where they fall, without line breaks around them. -/
def inlineNames : List String :=
  ["a", "abbr", "acronym", "b", "bdo", "big", "br", "button", "cite", "code", "dfn", "em", "i",
   "img", "input", "kbd", "label", "map", "object", "output", "q", "samp", "script", "select",
   "small", "span", "strong", "sub", "sup", "textarea", "time", "tt", "u", "var"]

/-- Never closed. -/
def voidNames : List String :=
  ["area", "base", "br", "col", "embed", "hr", "img", "input", "link", "meta", "param", "source",
   "track", "wbr"]

variable {ρ : Type}

/-- Only a text can be a name in the tables. -/
def isInline : Value ρ → Bool
  | .text name => inlineNames.contains name
  | _ => false

def isVoid : Value ρ → Bool
  | .text name => voidNames.contains name
  | _ => false

end Tag

structure TagSpec (ρ : Type) where
  name : Value ρ
  inline : Bool
  void : Bool
  hasText : Bool
  deriving Repr

def TagSpec.ofTag {ρ : Type} (name : Value ρ) (hasText : Bool) : TagSpec ρ :=
  ⟨name, Tag.isInline name, Tag.isVoid name, hasText⟩

end Hypertext
