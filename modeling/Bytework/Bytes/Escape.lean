import Bytework.Bytes.Basic

/-!
# Escaped strings

The escapes of JSON strings over bytes: `escape` writes quote, backslash and five control bytes with
a backslash and leaves every other byte alone; `unescape` also reads units of four hexadecimal
digits, in pairs where they are surrogates.

* `escapeLetter?` and `unescapeLetter`: the two tables.
* `hexUnit?`: four hexadecimal digits as a 16-bit unit.
-/

namespace Bytework.Bytes

/-- The letter that stands for a byte after a backslash, for the bytes that are escaped. -/
def escapeLetter? (b : UInt8) : Option UInt8 :=
  if b = quote then some quote
  else if b = backslash then some backslash
  else if b = 10 then some (byte 'n')
  else if b = 13 then some (byte 'r')
  else if b = 9 then some (byte 't')
  else if b = 8 then some (byte 'b')
  else if b = 12 then some (byte 'f')
  else none

/-- Quote, backslash and the five control bytes that have a letter, each with a backslash. -/
def escape (s : Bytes) : Bytes :=
  s.flatMap fun b =>
    match escapeLetter? b with
    | some letter => [backslash, letter]
    | none => [b]

/-- The byte that a letter after a backslash stands for; any other byte stands for itself. -/
def unescapeLetter (c : UInt8) : UInt8 :=
  if c = byte 'n' then 10
  else if c = byte 'r' then 13
  else if c = byte 't' then 9
  else if c = byte 'b' then 8
  else if c = byte 'f' then 12
  else c

/-- The value of a hexadecimal digit of either case. -/
def hexValue? (b : UInt8) : Option Nat :=
  if isDigit b then some (b.toNat - 48)
  else if 97 ≤ b ∧ b ≤ 102 then some (b.toNat - 87)
  else if 65 ≤ b ∧ b ≤ 70 then some (b.toNat - 55)
  else none

/-- The 16-bit unit that four hexadecimal digits write. -/
def hexUnit? (a b c d : UInt8) : Option Nat := do
  let a ← hexValue? a
  let b ← hexValue? b
  let c ← hexValue? c
  let d ← hexValue? d
  return ((a * 16 + b) * 16 + c) * 16 + d

/-- A unit that opens a surrogate pair. -/
def isHighSurrogate (u : Nat) : Bool := 0xD800 ≤ u && u < 0xDC00

/-- A unit that closes a surrogate pair. -/
def isLowSurrogate (u : Nat) : Bool := 0xDC00 ≤ u && u < 0xE000

/-- The code point of a surrogate pair. -/
def surrogatePair (high low : Nat) : Nat := 0x10000 + (high - 0xD800) * 0x400 + (low - 0xDC00)

/-- The UTF-8 form of a code point; a question mark for a number that is none. -/
def ofCodePoint (n : Nat) : Bytes :=
  if n.isValidChar then String.utf8EncodeChar (Char.ofNat n) else [byte '?']

/-- The text of an escaped string. A malformed unit, and a surrogate without its partner, becomes a
question mark; a backslash at the end stays. -/
def unescape : Bytes → Bytes
  | [] => []
  | [b] => [b]
  | b :: c :: rest =>
    if b ≠ backslash then b :: unescape (c :: rest)
    else if c ≠ byte 'u' then unescapeLetter c :: unescape rest
    else
      match rest with
      | h₁ :: h₂ :: h₃ :: h₄ :: rest' =>
        match hexUnit? h₁ h₂ h₃ h₄ with
        | none => byte '?' :: unescape (h₁ :: h₂ :: h₃ :: h₄ :: rest')
        | some high =>
          if isHighSurrogate high then
            match rest' with
            | s :: u :: l₁ :: l₂ :: l₃ :: l₄ :: rest'' =>
              match if s = backslash ∧ u = byte 'u' then hexUnit? l₁ l₂ l₃ l₄ else none with
              | some low =>
                if isLowSurrogate low then ofCodePoint (surrogatePair high low) ++ unescape rest''
                else byte '?' :: unescape (s :: u :: l₁ :: l₂ :: l₃ :: l₄ :: rest'')
              | none => byte '?' :: unescape (s :: u :: l₁ :: l₂ :: l₃ :: l₄ :: rest'')
            | short => byte '?' :: unescape short
          else ofCodePoint high ++ unescape rest'
      | short => byte '?' :: unescape short

end Bytework.Bytes
