import Bytework.Text.Integer
import Bytework.Text.Ratio

/-!
# Decimal numbers in text

The grammar: an optional sign, then `inf`, `infinity` or `nan` in any case, or digits with at most
one point and at least one digit, and an optional exponent. The value is the nearest 64-bit binary
float.

* `Real64`: a float by its bits, all not-a-numbers being one.
* `Decimal`: what the digits say; `Decimal.toReal64`: its nearest float.
* `readDecimal?`: the reader.
-/

namespace Bytework.Text

/-- A 64-bit binary float. -/
inductive Real64
  /-- No number. -/
  | nan
  /-- Any other value, by its sign and the bits of its magnitude. -/
  | value (negative : Bool) (magnitude : Nat)
  deriving DecidableEq, Repr

/-- The number `digits * 10 ^ exponent`. -/
structure Decimal where
  digits : Nat
  exponent : Int
  deriving DecidableEq, Repr

/-- The bits of the float nearest to a decimal number. A decimal with `n` digits lies between
`10 ^ (n - 1 + exponent)` and `10 ^ (n + exponent)`, which decides the far ends without a power. -/
def Decimal.magnitude (d : Decimal) : Nat :=
  let scale : Int := (decimal d.digits).length + d.exponent
  if d.digits = 0 then 0
  else if scale < -400 then 0
  else if 400 < scale then infinityBits
  else nearestBinary64 (d.digits * Nat.pow 10 d.exponent.toNat) (Nat.pow 10 (-d.exponent).toNat)

/-- The exponent after its mark: an optional sign and at least one digit. -/
def readExponent? : List Char → Option Int
  | '-' :: rest => (readDigits? rest).map fun n => -(n : Int)
  | '+' :: rest => (readDigits? rest).map fun n => (n : Int)
  | rest => (readDigits? rest).map fun n => (n : Int)

/-- Digits with at most one point, and an optional exponent. -/
def readUnsignedDecimal? (s : List Char) : Option Decimal := do
  let whole := s.takeWhile Char.isDigit
  let afterWhole := s.dropWhile Char.isDigit
  let (fraction, tail) := match afterWhole with
    | '.' :: rest => (rest.takeWhile Char.isDigit, rest.dropWhile Char.isDigit)
    | _ => ([], afterWhole)
  guard (!(whole ++ fraction).isEmpty)
  let exponent ← match tail with
    | [] => some 0
    | mark :: rest => if mark = 'e' ∨ mark = 'E' then readExponent? rest else none
  return ⟨digitsValue (whole ++ fraction), exponent - fraction.length⟩

/-- A number without its sign. -/
def readMagnitude? (negative : Bool) (s : List Char) : Option Real64 :=
  let word := s.map Char.toLower
  if word = "inf".toList ∨ word = "infinity".toList then some (.value negative infinityBits)
  else if word = "nan".toList then some .nan
  else (readUnsignedDecimal? s).map fun d => .value negative d.magnitude

/-- The float that the whole text writes. -/
def readDecimal? : List Char → Option Real64
  | '-' :: rest => readMagnitude? true rest
  | '+' :: rest => readMagnitude? false rest
  | s => readMagnitude? false s

end Bytework.Text
