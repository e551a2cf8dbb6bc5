import Hypertext.Text.Hex
import Hypertext.Text.Printable

/-! The quoted notation of a text, for messages and descriptions. The quote is single, or double
where that saves escaping; backslashes, the quote in use and all characters that would not show
are escaped. -/
namespace Hypertext.Text
set_option autoImplicit false

/-- Double quotes are taken only for a text that has single quotes and no double ones. -/
def quoteFor (s : List Char) : Char :=
  if s.contains '\'' && !s.contains '"' then '"' else '\''

/-- A character that does not print is written by its code, in the shortest of three widths. -/
def escapeCode (c : Char) : List Char :=
  if c.toNat < 0x100 then '\\' :: 'x' :: hexDigits .lower 2 c.toNat
  else if c.toNat < 0x10000 then '\\' :: 'u' :: hexDigits .lower 4 c.toNat
  else '\\' :: 'U' :: hexDigits .lower 8 c.toNat

def quotedChar (quote c : Char) : List Char :=
  if c = quote ∨ c = '\\' then ['\\', c]
  else if c = '\n' then ['\\', 'n']
  else if c = '\r' then ['\\', 'r']
  else if c = '\t' then ['\\', 't']
  else if isPrintable c then [c]
  else escapeCode c

def quotedChars (s : List Char) : List Char :=
  quoteFor s :: s.flatMap (quotedChar (quoteFor s)) ++ [quoteFor s]

def quoted (s : String) : String := String.ofList (quotedChars s.toList)

end Hypertext.Text
