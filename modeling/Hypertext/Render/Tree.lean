import Hypertext.Journal

/-! An element with everything it holds, unfolded into a tree: one node for each place where an
element is held. A node carries the element and the readings of its tag and its text. Other values
have a place in a tree too, but no markup. -/
namespace Hypertext
set_option autoImplicit false

/-- What is read of one element. -/
structure Face where
  element : Element
  tag : Reading String
  /-- What the text slot writes if it holds no element. -/
  content : Reading String

/-- What can stand in a tree without markup of its own. -/
inductive Bare where
  | document
  | value (type : String)
  deriving DecidableEq, Repr

def Bare.type : Bare → String
  | document => documentType
  | value type => type

inductive Tree where
  /-- An element, the element in its text slot, and its children. -/
  | node (face : Face) (inside : Option Tree) (children : List Tree)
  /-- Something without markup. Only a document has children. -/
  | bare (what : Bare) (children : List Tree)

namespace Face

def attributes (x : Face) : String := x.element.attributes.render
def isInline (x : Face) : Bool := Tag.isInline x.element.tag
def isVoid (x : Face) : Bool := Tag.isVoid x.element.tag
def hasText (x : Face) : Bool := x.element.hasText

end Face

namespace Tree

def children : Tree → List Tree
  | .node _ _ ts => ts
  | .bare _ ts => ts

mutual

def size : Tree → Nat
  | .node _ inside children => sizeInside inside + sizeAll children + 1
  | .bare _ children => sizeAll children + 1

def sizeInside : Option Tree → Nat
  | none => 0
  | some t => size t

def sizeAll : List Tree → Nat
  | [] => 0
  | t :: rest => size t + sizeAll rest

end

end Tree

end Hypertext
