import Bytework.Bytes.Search

/-!
# Positional encodings

Encodings that write the bits of a byte string as symbols, most significant bit first.

* `bitsOf`, `ofBits`, `chunks`: bits and groups; `join`, `digitAt`: a number and its digits.
* `Radix`: a padded encoding with an alphabet; `base64`, `base64Url`, `base32`.
* `Radix.encode`, `Radix.decode`: each group of bytes is a number, of which the symbols are the
  digits; white space is skipped when reading, padding ends the data.
* `Binary`, `Hex`: one byte at a time, without padding.
* `Fault`: what can be wrong with an encoded text.
-/

namespace Bytework.Cipher

/-- What can be wrong with an encoded text. -/
inductive Fault
  /-- A symbol after the first padding. -/
  | dataAfterPadding
  /-- A byte that is no symbol. -/
  | invalidCharacter
  /-- A number of symbols that no bytes have, in groups of four. -/
  | truncatedQuantum
  /-- A number of symbols that no bytes have, in groups of eight. -/
  | truncatedBlock
  /-- A number of binary digits that is no multiple of eight. -/
  | partialByte
  /-- A byte that is no binary digit. -/
  | notBinary
  /-- An odd number of hexadecimal digits. -/
  | oddLength
  /-- A byte that is no hexadecimal digit. -/
  | notHex
  deriving DecidableEq, Repr

/-- What a fault says. -/
def Fault.reason : Fault → String
  | .dataAfterPadding => "data after padding"
  | .invalidCharacter => "invalid character"
  | .truncatedQuantum => "truncated quantum"
  | .truncatedBlock => "truncated block"
  | .partialByte => "length is not a multiple of 8"
  | .notBinary => "expected only 0 and 1"
  | .oddLength => "odd length"
  | .notHex => "expected hex digits"

/-! ## Bits -/

/-- The lowest `width` bits of a number, most significant first. -/
def bitsOf (width n : Nat) : List Bool :=
  (List.range width).map fun i => n.testBit (width - 1 - i)

/-- The number with the given bits, most significant first. -/
def ofBits (bits : List Bool) : Nat := bits.foldl (fun n b => 2 * n + b.toNat) 0

/-- The bits of a byte string. -/
def bitsOfBytes (data : Bytes) : List Bool := data.flatMap fun b => bitsOf 8 b.toNat

/-- A list cut into groups of `width`, which is positive; the last group may be shorter. -/
def chunks {α : Type} (width : Nat) : List α → List (List α)
  | [] => []
  | x :: l => (x :: l.take (width - 1)) :: chunks width (l.drop (width - 1))
termination_by l => l.length
decreasing_by simp only [List.length_drop, List.length_cons]; omega

/-- The bytes of a list of bits, as far as they are full. -/
def bytesOfBits (bits : List Bool) : Bytes :=
  ((chunks 8 bits).filter (·.length == 8)).map fun c => (ofBits c).toUInt8

/-! ## Digits -/

/-- The number with the given digits of `width` bits, the first one in the highest of `count` places;
zeros follow the last one. -/
def join (width : Nat) : Nat → List Nat → Nat
  | _, [] => 0
  | count, d :: digits => d <<< (width * (count - 1)) ||| join width (count - 1) digits

/-- The digit of `width` bits in a place of a number, counted from the highest of `count` places. -/
def digitAt (width count n place : Nat) : Nat :=
  n >>> (width * (count - 1 - place)) % 1 <<< width

/-! ## Padded encodings -/

/-- An encoding of groups of `size` bytes as `group` symbols of `width` bits. -/
structure Radix where
  width : Nat
  size : Nat
  group : Nat
  alphabet : Bytes
  /-- What is done to a byte before it is looked up. -/
  fold : UInt8 → UInt8
  /-- How many symbols are written for some bytes of a group. -/
  written : Nat → Nat
  /-- How many bytes are read from some symbols of a group, if that number of symbols can be. -/
  carried? : Nat → Option Nat
  /-- The fault of a number of symbols that no bytes have. -/
  truncated : Fault

namespace Radix

/-- Letters, digits, and two more symbols. -/
def alphabet64 (s t : Char) : Bytes :=
  ("ABCDEFGHIJKLMNOPQRSTUVWXYZabcdefghijklmnopqrstuvwxyz0123456789".toList ++ [s, t]).map byte

/-- One byte less than symbols, but a single symbol carries none. -/
def carried64? (symbols : Nat) : Option Nat := if symbols = 1 then none else some (symbols - 1)

/-- Six bits per symbol. -/
def base64 : Radix where
  width := 6
  size := 3
  group := 4
  alphabet := alphabet64 '+' '/'
  fold := id
  written := (· + 1)
  carried? := carried64?
  truncated := .truncatedQuantum

/-- Six bits per symbol, with symbols that need no escape in an address. -/
def base64Url : Radix := { base64 with alphabet := alphabet64 '-' '_' }

/-- How many bytes some of eight symbols of five bits carry. -/
def carried32? : Nat → Option Nat
  | 8 => some 5
  | 7 => some 4
  | 5 => some 3
  | 4 => some 2
  | 2 => some 1
  | _ => none

/-- Five bits per symbol; the case of letters does not matter when reading. -/
def base32 : Radix where
  width := 5
  size := 5
  group := 8
  alphabet := "ABCDEFGHIJKLMNOPQRSTUVWXYZ234567".toList.map byte
  fold := upperByte
  written := fun bytes => (8 * bytes + 4) / 5
  carried? := carried32?
  truncated := .truncatedBlock

/-- The byte that fills up the last group. -/
def pad : UInt8 := byte '='

/-- The symbol with a value. -/
def symbol (R : Radix) (value : Nat) : UInt8 := R.alphabet.getD value pad

/-- The symbols of a group of bytes, which may be short; padding stands for those that would carry
none of its bits. -/
def encodeGroup (R : Radix) (bytes : Bytes) : Bytes :=
  let n := join 8 R.size (bytes.map UInt8.toNat)
  (List.range R.group).map fun i =>
    if i < R.written bytes.length then R.symbol (digitAt R.width R.group n i) else pad

/-- The symbols of all groups. -/
def padded (R : Radix) (data : Bytes) : Bytes := (chunks R.size data).flatMap R.encodeGroup

/-- A text in lines of the given width; width zero leaves it as it is. -/
def wrap (width : Nat) (text : Bytes) : Bytes :=
  if width = 0 ∨ text.length ≤ width then text
  else List.intercalate [lineFeed] (chunks width text)

/-- The padded symbols in lines of the given width. -/
def encode (R : Radix) (width : Nat) (data : Bytes) : Bytes := wrap width (R.padded data)

/-- The value of a symbol. -/
def value? (R : Radix) (b : UInt8) : Option Nat := R.alphabet.idxOf? (R.fold b)

/-- The values of the symbols of a text. White space is skipped, and after the first padding
(`ended`) there is only padding and white space. -/
def valuesFrom (R : Radix) : Bool → Bytes → Except Fault (List Nat)
  | _, [] => .ok []
  | ended, b :: text =>
    if isBlank b then R.valuesFrom ended text
    else if b = pad then R.valuesFrom true text
    else if ended then .error .dataAfterPadding
    else
      match R.value? b with
      | none => .error .invalidCharacter
      | some v => (R.valuesFrom ended text).map (v :: ·)

/-- The bytes that the symbols of a group carry; bits of the last one may be left over. -/
def decodeGroup (R : Radix) (values : List Nat) : Except Fault Bytes :=
  match R.carried? values.length with
  | none => .error R.truncated
  | some carried =>
    let n := join R.width R.group values
    .ok ((List.range carried).map fun i => (digitAt 8 R.size n i).toUInt8)

/-- The bytes that all symbols carry. -/
def decodeValues (R : Radix) (values : List Nat) : Except Fault Bytes := do
  let groups ← (chunks R.group values).mapM R.decodeGroup
  return groups.flatten

/-- The bytes that a text of symbols carries. -/
def decode (R : Radix) (text : Bytes) : Except Fault Bytes := do
  let values ← R.valuesFrom false text
  R.decodeValues values

end Radix

/-! ## Unpadded encodings -/

namespace Binary

/-- The eight digits of a byte. -/
def digits (b : UInt8) : Bytes := (bitsOf 8 b.toNat).map fun d => if d then byte '1' else byte '0'

/-- The digits of each byte, with the separator between neighbours. -/
def encode (separator data : Bytes) : Bytes := List.intercalate separator (data.map digits)

/-- The value of a binary digit. -/
def digit? (b : UInt8) : Option Bool :=
  if b = byte '0' then some false else if b = byte '1' then some true else none

/-- The bytes of a text of binary digits, from which every separator is removed first. -/
def decode (separator text : Bytes) : Except Fault Bytes :=
  let digits := Bytes.replaceAll text separator []
  if digits.length % 8 ≠ 0 then .error .partialByte
  else
    match digits.mapM digit? with
    | some bits => .ok (bytesOfBits bits)
    | none => .error .notBinary

end Binary

namespace Hex

/-- A hexadecimal digit, in upper case. -/
def digit (n : Nat) : UInt8 := if n < 10 then 48 + n.toUInt8 else 55 + n.toUInt8

/-- Two digits for each byte. -/
def encode (data : Bytes) : Bytes := data.flatMap fun b => [digit (b.toNat / 16), digit (b.toNat % 16)]

/-- The value of a hexadecimal digit of either case. -/
def value? (b : UInt8) : Option Nat :=
  if isDigit b then some (b.toNat - 48)
  else if isHexDigit b then some ((upperByte b).toNat - 55)
  else none

/-- The bytes of pairs of digits. -/
def pairs : Bytes → Except Fault Bytes
  | a :: b :: text =>
    match value? a, value? b with
    | some high, some low => (pairs text).map ((16 * high + low).toUInt8 :: ·)
    | _, _ => .error .notHex
  | _ => .ok []

/-- The bytes of a text of hexadecimal digits. -/
def decode (text : Bytes) : Except Fault Bytes :=
  if text.length % 2 ≠ 0 then .error .oddLength else pairs text

end Hex

end Bytework.Cipher
