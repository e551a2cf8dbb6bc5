import Hypertext.Fault

/-! Indices. An index is a whole number of a fixed range, whatever it is an index of. -/
namespace Hypertext
set_option autoImplicit false

def greatestIndex : Nat := 0x7FFFFFFFFFFFFFFF

/-- Whether a whole number is in the range of indices, which goes one further down than up. -/
def isIndex (i : Int) : Bool := -(greatestIndex : Int) - 1 ≤ i && i ≤ (greatestIndex : Int)

/-- The position of an index in a sequence; a negative one counts from the end. -/
def position? (length : Nat) (index : Int) : Option Nat :=
  if 0 ≤ index then some index.toNat
  else if length < index.natAbs then none else some (length - index.natAbs)

def itemAt {α : Type} (items : List α) (index : Int) : Except Fault α :=
  if isIndex index then
    match (position? items.length index).bind (items[·]?) with
    | some item => .ok item
    | none => .error .indexOutOfRange
  else .error .indexTooGreat

end Hypertext
