import Hypertext.Index
import Hypertext.Limits

/-! Texts repeated. A count is bounded as an index is, and so is the length of the result; far
below that bound memory may not hold it. -/
namespace Hypertext.Text
set_option autoImplicit false

/-- A text so many times in a row; a count below one gives the empty text. -/
def repeated (limits : Limits) (unit : String) (count : Int) : Except Fault String :=
  if !isIndex count then .error .countTooGreat
  else if unit = "" then .ok ""
  else
    let length := unit.length * count.toNat
    if greatestIndex < length then .error .textTooLong
    else if limits.capacity < length then .error .outOfMemory
    else .ok (String.join (List.replicate count.toNat unit))

end Hypertext.Text
