/-! Blank characters: the characters of the Unicode property White_Space together with the
four information separators U+001C to U+001F, and the trimming of blanks from the end. -/
namespace Hypertext.Text
set_option autoImplicit false

def blankRanges : List (Nat × Nat) :=
  [(0x09, 0x0D), (0x1C, 0x20), (0x85, 0x85), (0xA0, 0xA0), (0x1680, 0x1680),
   (0x2000, 0x200A), (0x2028, 0x2029), (0x202F, 0x202F), (0x205F, 0x205F), (0x3000, 0x3000)]

def isBlank (c : Char) : Bool :=
  blankRanges.any fun r => r.1 ≤ c.toNat && c.toNat ≤ r.2

/-- What is left without the longest blank run at the end. -/
def trimEndChars (s : List Char) : List Char := (s.reverse.dropWhile isBlank).reverse

def trimEnd (s : String) : String := String.ofList (trimEndChars s.toList)

theorem trimEndChars_concat (s : List Char) (c : Char) (h : isBlank c = false) :
    trimEndChars (s ++ [c]) = s ++ [c] := by
  simp [trimEndChars, h]

end Hypertext.Text
