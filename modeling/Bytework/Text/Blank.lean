/-!
# White space in text

The 25 characters with the White_Space property, and trimming by it.
-/

namespace Bytework.Text

/-- The characters with the White_Space property, as ranges of code points. -/
def blankRanges : List (Nat × Nat) :=
  [(0x9, 0xD), (0x20, 0x20), (0x85, 0x85), (0xA0, 0xA0), (0x1680, 0x1680), (0x2000, 0x200A),
    (0x2028, 0x2029), (0x202F, 0x202F), (0x205F, 0x205F), (0x3000, 0x3000)]

/-- Whether a character is white space. -/
def isBlank (c : Char) : Bool := blankRanges.any fun r => r.1 ≤ c.toNat && c.toNat ≤ r.2

/-- A text without the white space at its ends. -/
def trim (s : List Char) : List Char :=
  (s.dropWhile isBlank).reverse.dropWhile isBlank |>.reverse

end Bytework.Text
