/-!
# Byte strings

A byte string is a list of bytes. Only the 26 ASCII letters have a case; every other byte is left
alone by every folding.

* `Bytes`: the type; `ascii`, `Bytes.ofText`: the bytes of a text, ASCII or in UTF-8.
* `isLower`, `isUpper`, `isDigit`, `isAlpha`, `isAlnum`, `isHexDigit`: the ASCII classes of a byte.
* `isSpace`: what trimming removes; `isBlank`: what separates encoded symbols.
* `lowerByte`, `upperByte`: case folding; `toNat_lowerByte`, `toNat_upperByte`: on the numbers of bytes.
-/

namespace Bytework

/-- A byte string. -/
abbrev Bytes := List UInt8

/-- The byte of an ASCII character. -/
abbrev byte (c : Char) : UInt8 := c.toUInt8

/-- The bytes of an ASCII text. -/
def ascii (s : String) : Bytes := s.toList.map byte

/-- The UTF-8 form of a text given by its characters. -/
def Bytes.ofChars (s : List Char) : Bytes :=
  s.flatMap String.utf8EncodeChar

/-- The UTF-8 form of a text. -/
def Bytes.ofText (s : String) : Bytes :=
  Bytes.ofChars s.toList

/-! ## Single bytes that have a name -/

/-- The double quote. -/
def quote : UInt8 := 34

/-- The single quote. -/
def apostrophe : UInt8 := 39

/-- The backslash. -/
def backslash : UInt8 := 92

/-- The space. -/
def space : UInt8 := 32

/-- The line feed. -/
def lineFeed : UInt8 := 10

/-! ## Classes -/

/-- A lower-case ASCII letter. -/
def isLower (b : UInt8) : Bool := 97 ≤ b && b ≤ 122

/-- An upper-case ASCII letter. -/
def isUpper (b : UInt8) : Bool := 65 ≤ b && b ≤ 90

/-- An ASCII digit. -/
def isDigit (b : UInt8) : Bool := 48 ≤ b && b ≤ 57

/-- An ASCII letter of either case. -/
def isAlpha (b : UInt8) : Bool := isLower b || isUpper b

/-- An ASCII letter or digit. -/
def isAlnum (b : UInt8) : Bool := isAlpha b || isDigit b

/-- A hexadecimal digit of either case. -/
def isHexDigit (b : UInt8) : Bool := isDigit b || (65 ≤ b && b ≤ 70) || (97 ≤ b && b ≤ 102)

/-- Space, tab, carriage return or line feed: what trimming and splitting into words look for. -/
def isSpace (b : UInt8) : Bool := b == 32 || b == 9 || b == 13 || b == 10

/-- Space, tab, line feed, form feed or carriage return: what may stand between encoded symbols. -/
def isBlank (b : UInt8) : Bool := b == 32 || b == 9 || b == 10 || b == 12 || b == 13

theorem isLower_iff {b : UInt8} : isLower b = true ↔ 97 ≤ b.toNat ∧ b.toNat ≤ 122 := by
  rw [isLower, Bool.and_eq_true, decide_eq_true_eq, decide_eq_true_eq, UInt8.le_iff_toNat_le,
    UInt8.le_iff_toNat_le]
  rfl

theorem isUpper_iff {b : UInt8} : isUpper b = true ↔ 65 ≤ b.toNat ∧ b.toNat ≤ 90 := by
  rw [isUpper, Bool.and_eq_true, decide_eq_true_eq, decide_eq_true_eq, UInt8.le_iff_toNat_le,
    UInt8.le_iff_toNat_le]
  rfl

theorem not_isLower_of_isUpper {b : UInt8} (hb : isUpper b = true) : ¬ isLower b = true := by
  rw [isLower_iff]
  rw [isUpper_iff] at hb
  omega

/-! ## Case folding -/

/-- The lower-case form of a byte. -/
def lowerByte (b : UInt8) : UInt8 := if isUpper b then b + 32 else b

/-- The upper-case form of a byte. -/
def upperByte (b : UInt8) : UInt8 := if isLower b then b - 32 else b

theorem toNat_lowerByte (b : UInt8) : (lowerByte b).toNat =
    if 65 ≤ b.toNat ∧ b.toNat ≤ 90 then b.toNat + 32 else b.toNat := by
  simp only [lowerByte, isUpper_iff]
  split
  · simp only [UInt8.toNat_add, UInt8.reduceToNat]
    omega
  · rfl

theorem toNat_upperByte (b : UInt8) : (upperByte b).toNat =
    if 97 ≤ b.toNat ∧ b.toNat ≤ 122 then b.toNat - 32 else b.toNat := by
  simp only [upperByte, isLower_iff]
  split
  · have hb := b.toNat_lt
    simp only [UInt8.toNat_sub, UInt8.reduceToNat]
    omega
  · rfl

/-- Two bytes that differ at most in case. -/
def sameFolded (a b : UInt8) : Bool := lowerByte a == lowerByte b

namespace Bytes

/-- All letters in lower case. -/
def lower (s : Bytes) : Bytes := s.map lowerByte

/-- All letters in upper case. -/
def upper (s : Bytes) : Bytes := s.map upperByte

@[simp] theorem length_lower (s : Bytes) : s.lower.length = s.length := List.length_map ..

end Bytes

end Bytework
