import Bytework.Bytes.Basic

/-!
# Letter ciphers

Substitutions of ASCII letters within their case; every other byte passes through.

* `rotate`: one letter moved along the alphabet; `caesar` moves all by the same amount, `vigenere` by
  the letters of a key in turn.
* `atbash`: the alphabet reversed.
-/

namespace Bytework.Cipher

/-- A letter moved `shift` places along the alphabet, for a shift of at most 26. -/
def rotate (shift b : UInt8) : UInt8 :=
  if isLower b then 97 + (b - 97 + shift) % 26
  else if isUpper b then 65 + (b - 65 + shift) % 26
  else b

/-- An integer as a shift of the alphabet. -/
def shiftOf (shift : Int) : UInt8 := (shift % 26).toNat.toUInt8

/-- Every letter moved by the same amount. -/
def caesar (shift : Int) (text : Bytes) : Bytes := text.map (rotate (shiftOf shift))

/-- The letter at the same distance from the other end of the alphabet. -/
def oppositeLetter (b : UInt8) : UInt8 :=
  if isLower b then 122 - (b - 97) else if isUpper b then 90 - (b - 65) else b

/-- The alphabet reversed. -/
def atbash (text : Bytes) : Bytes := text.map oppositeLetter

/-- Whether a text is being enciphered or deciphered. -/
inductive Direction
  | encode
  | decode
  deriving DecidableEq, Repr

/-- The shift that a byte of the key stands for; a letter stands for its place in the alphabet. -/
def keyShift (k : UInt8) : UInt8 := (upperByte k - 65) % 26

/-- The shift in the given direction. -/
def directed (direction : Direction) (shift : UInt8) : UInt8 :=
  match direction with
  | .encode => shift
  | .decode => 26 - shift

/-- Letters moved by the bytes of the key in turn, from the given place of the key on. Only letters
use up the key. -/
def vigenereFrom (direction : Direction) (key : Bytes) : Nat → Bytes → Bytes
  | _, [] => []
  | i, b :: text =>
    if isAlpha b then
      let k := key.getD (i % key.length) 65
      rotate (directed direction (keyShift k)) b :: vigenereFrom direction key (i + 1) text
    else b :: vigenereFrom direction key i text

/-- Letters moved by the bytes of the key in turn; an empty key moves nothing. -/
def vigenere (direction : Direction) (key text : Bytes) : Bytes :=
  if key.isEmpty then text else vigenereFrom direction key 0 text

end Bytework.Cipher
