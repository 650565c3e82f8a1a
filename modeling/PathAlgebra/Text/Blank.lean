import PathAlgebra.Text.Basic

/-!
# Blanks

The blank characters: the white space of the Unicode standard and the four information
separators U+001C to U+001F. Trimming takes them off both ends of a text.
-/

set_option autoImplicit false

namespace PathAlgebra.Text

/-- The blank characters, as ranges of code points. -/
def blankRanges : List (Nat × Nat) := [
  (0x9, 0xd), (0x1c, 0x20), (0x85, 0x85), (0xa0, 0xa0), (0x1680, 0x1680), (0x2000, 0x200a),
  (0x2028, 0x2029), (0x202f, 0x202f), (0x205f, 0x205f), (0x3000, 0x3000)]

/-- A blank character. -/
def isBlank (c : Char) : Bool := blankRanges.any fun r => r.1 ≤ c.toNat && c.toNat ≤ r.2

/-- The text without the blanks at its two ends. -/
def trim (t : Text) : Text := ((t.dropWhile isBlank).reverse.dropWhile isBlank).reverse

end PathAlgebra.Text
