import Bytework.Bytes.Basic

/-!
# Letters as symbols

Codes that write a letter as a group of symbols. Letters lose their case, and what a code has no
symbols for is dropped or kept as it is.

* `Bacon`: five of two symbols per letter.
* `Morse`: dots and dashes, a slash for a space.
* `Leet`: glyphs of up to four bytes; the longest glyph wins when reading.
-/

namespace Bytework.Cipher

/-- The place of a letter in the alphabet. -/
def letterIndex (b : UInt8) : Nat := (upperByte b - 65).toNat

/-- The upper-case letter at a place of the alphabet. -/
def letterAt (i : Nat) : UInt8 := 65 + i.toUInt8

namespace Bacon

/-- The five symbols of a letter: its place in binary, highest digit first. -/
def group (b : UInt8) : Bytes :=
  [4, 3, 2, 1, 0].map fun i => if (letterIndex b).testBit i then byte 'B' else byte 'A'

/-- Each letter as its group; spaces stay, and all else is dropped. -/
def encode (text : Bytes) : Bytes :=
  text.flatMap fun b => if isAlpha b then group b else if b = space then [space] else []

/-- The binary digit that a symbol of either case stands for. -/
def digit? (b : UInt8) : Option Nat :=
  if upperByte b = byte 'A' then some 0 else if upperByte b = byte 'B' then some 1 else none

/-- The letter of a group; a question mark for a group that has none. -/
def letter (symbols : Bytes) : UInt8 :=
  match symbols.mapM digit? with
  | some digits =>
    let i := digits.foldl (fun n d => 2 * n + d) 0
    if i < 26 then letterAt i else byte '?'
  | none => byte '?'

/-- The letters of the groups. A space between groups stays; a short group at the end has no
letter. -/
def decode : Bytes → Bytes
  | [] => []
  | a :: rest =>
    if a = space then space :: decode rest
    else
      match rest with
      | b :: c :: d :: e :: rest' => letter [a, b, c, d, e] :: decode rest'
      | _ => [byte '?']

end Bacon

namespace Morse

/-- The codes of the letters and then of the digits. -/
def codes : List Bytes :=
  [".-", "-...", "-.-.", "-..", ".", "..-.", "--.", "....", "..", ".---", "-.-", ".-..", "--",
    "-.", "---", ".--.", "--.-", ".-.", "...", "-", "..-", "...-", ".--", "-..-", "-.--", "--..",
    "-----", ".----", "..---", "...--", "....-", ".....", "-....", "--...", "---..",
    "----."].map ascii

/-- The token that stands for a space. -/
def wordBreak : Bytes := ascii "/"

/-- The token of a byte, for letters, digits and the space. -/
def token? (b : UInt8) : Option Bytes :=
  if isAlpha b then codes[letterIndex b]?
  else if isDigit b then codes[26 + (b - 48).toNat]?
  else if b = space then some wordBreak
  else none

/-- The tokens of a text, with a space between neighbours. -/
def encode (text : Bytes) : Bytes := List.intercalate [space] (text.filterMap token?)

/-- The byte of a token; a question mark for an unknown one. -/
def ofToken (token : Bytes) : UInt8 :=
  if token = wordBreak then space
  else
    match codes.idxOf? token with
    | some i => if i < 26 then letterAt i else 48 + (i - 26).toUInt8
    | none => byte '?'

/-- The bytes of the tokens between white space. -/
def decode (text : Bytes) : Bytes :=
  ((text.splitOnP isBlank).filter (!·.isEmpty)).map ofToken

end Morse

namespace Leet

/-- The glyphs of the letters. -/
def glyphs : List Bytes :=
  ["4", "8", "(", "|)", "3", "|=", "6", "#", "1", "_|", "|<", "|_", "|\\/|", "|\\|", "0", "|*",
    "0_", "|2", "5", "7", "|_|", "\\/", "\\/\\/", "><", "`/", "2"].map ascii

/-- Each letter as its glyph; all else stays. -/
def encode (text : Bytes) : Bytes :=
  text.flatMap fun b => if isAlpha b then glyphs.getD (letterIndex b) [b] else [b]

/-- The longer of two glyphs, the second if they are as long. -/
def longer (a b : UInt8 × Bytes) : UInt8 × Bytes :=
  if b.2.length < a.2.length then a else b

/-- The longest glyph that a text starts with, and its letter. -/
def glyphAt? (text : Bytes) : Option (UInt8 × Bytes) :=
  let found := (glyphs.mapIdx fun i g => (letterAt i, g)).filter fun p => p.2.isPrefixOf text
  match found with
  | [] => none
  | first :: rest => some (rest.foldl longer first)

/-- The letters of the glyphs, from the left; a byte that starts no glyph stays. The number is how
many bytes of the current glyph are still to be passed over. -/
def decodeFrom : Nat → Bytes → Bytes
  | _, [] => []
  | skip + 1, _ :: text => decodeFrom skip text
  | 0, b :: text =>
    match glyphAt? (b :: text) with
    | some (letter, glyph) => letter :: decodeFrom (glyph.length - 1) text
    | none => b :: decodeFrom 0 text

/-- The letters of the glyphs. -/
def decode (text : Bytes) : Bytes := decodeFrom 0 text

end Leet

end Bytework.Cipher
