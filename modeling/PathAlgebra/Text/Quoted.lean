import PathAlgebra.Text.LowerCase
import PathAlgebra.Text.PrintableTable

/-!
# Quoted text

A text between quotes on one line. The quote is the apostrophe, or the double quote when the
text holds apostrophes and no double quote. The backslash and the quote in use are written after
a backslash; tab, newline and carriage return have escapes of their own; any other character
without a printed form is its code point in hexadecimal, with two, four or eight digits.
-/

set_option autoImplicit false

namespace PathAlgebra.Text

/-- A character that stands for itself in print. -/
def isPrintable (c : Char) : Bool := !inRanges unprintableRanges c.toNat

/-- The last `width` hexadecimal digits of a number. -/
def hexDigits : Nat → Nat → Text
  | 0, _ => []
  | width + 1, n => hexDigits width (n / 16) ++ [Nat.digitChar (n % 16)]

/-- The hexadecimal escape of a character. -/
def hexEscape (c : Char) : Text :=
  if c.toNat < 0x100 then ['\\', 'x'] ++ hexDigits 2 c.toNat
  else if c.toNat < 0x10000 then ['\\', 'u'] ++ hexDigits 4 c.toNat
  else ['\\', 'U'] ++ hexDigits 8 c.toNat

/-- The quote that a text is written between. -/
def quoteFor (t : Text) : Char :=
  if t.contains '\'' && !t.contains '"' then '"' else '\''

/-- A character as written between two quotes. -/
def escapeChar (quote c : Char) : Text :=
  if c = '\\' ∨ c = quote then ['\\', c]
  else if c = '\t' then ['\\', 't']
  else if c = '\n' then ['\\', 'n']
  else if c = '\r' then ['\\', 'r']
  else if isPrintable c then [c]
  else hexEscape c

/-- The quoted form of a text. -/
def quoted (t : Text) : Text :=
  let quote := quoteFor t
  quote :: t.flatMap (escapeChar quote) ++ [quote]

end PathAlgebra.Text
