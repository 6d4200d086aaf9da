/-!
# Integers in text

* `readDigits?`: a text of decimal digits, at least one, and nothing else.
* `readUnsigned?`, `readSigned?`: with a sign in front, and within a number of bits.
* `decimal`: the digits of a natural number.
-/

namespace Bytework.Text

/-- The number that a text of decimal digits writes. -/
def digitsValue (s : List Char) : Nat := s.foldl (fun n c => n * 10 + (c.toNat - 48)) 0

/-- The number written by at least one decimal digit and nothing else. -/
def readDigits? (s : List Char) : Option Nat :=
  if !s.isEmpty && s.all Char.isDigit then some (digitsValue s) else none

/-- A natural number below `2 ^ bits`; a plus sign may stand in front. -/
def readUnsigned? (bits : Nat) (s : List Char) : Option Nat :=
  let digits := match s with
    | '+' :: rest => rest
    | _ => s
  (readDigits? digits).filter (· < Nat.pow 2 bits)

/-- An integer from `-2 ^ (bits - 1)` up to, and without, `2 ^ (bits - 1)`; a sign may stand in
front. -/
def readSigned? (bits : Nat) (s : List Char) : Option Int :=
  match s with
  | '-' :: rest => ((readDigits? rest).filter (· ≤ Nat.pow 2 (bits - 1))).map fun n => -(n : Int)
  | _ => (readUnsigned? (bits - 1) s).map fun n => (n : Int)

/-- The decimal digits of a natural number. -/
def decimal (n : Nat) : List Char := Nat.toDigits 10 n

end Bytework.Text
