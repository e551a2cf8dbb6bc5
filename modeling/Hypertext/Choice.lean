/-! Attribute values that come from a fixed list of choices. -/
namespace Hypertext
set_option autoImplicit false

inductive Align where
  | center
  | right
  | left
  deriving DecidableEq, Repr

inductive Direction where
  | rightToLeft
  | leftToRight
  deriving DecidableEq, Repr

inductive Target where
  | self
  | blank
  | parent
  | top
  deriving DecidableEq, Repr

inductive Choice where
  | align (a : Align)
  | direction (d : Direction)
  | target (t : Target)
  deriving DecidableEq, Repr

namespace Choice

def family : Choice → String
  | .align _ => "Align"
  | .direction _ => "Direction"
  | .target _ => "Target"

def label : Choice → String
  | .align .center => "CENTER"
  | .align .right => "RIGHT"
  | .align .left => "LEFT"
  | .direction .rightToLeft => "RTL"
  | .direction .leftToRight => "LTR"
  | .target .self => "SELF"
  | .target .blank => "BLANK"
  | .target .parent => "PARENT"
  | .target .top => "TOP"

def name (c : Choice) : String := c.family ++ "." ++ c.label

def value : Choice → String
  | .align .center => "center"
  | .align .right => "right"
  | .align .left => "left"
  | .direction .rightToLeft => "rtl"
  | .direction .leftToRight => "ltr"
  | .target .self => "_self"
  | .target .blank => "_blank"
  | .target .parent => "_parent"
  | .target .top => "_top"

def all : List Choice :=
  [.align .center, .align .right, .align .left, .direction .rightToLeft, .direction .leftToRight,
   .target .self, .target .blank, .target .parent, .target .top]

def ofName? (name : String) : Option Choice := all.find? (·.name == name)

end Choice

end Hypertext
