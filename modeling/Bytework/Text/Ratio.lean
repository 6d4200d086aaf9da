/-!
# Rounding ratios

Exact rounding of a ratio of natural numbers, ties to the even neighbour.

* `roundRatio`: to an integer.
* `fixed`: to a number of decimal places, as text.
* `nearestBinary64`: to a 64-bit binary float, as its bits.
* `binary64Ratio`: the ratio that the bits of a finite float stand for.
-/

namespace Bytework.Text

/-- The integer nearest to `num / den`, of two the even one. -/
def roundRatio (num den : Nat) : Nat :=
  let q := num / den
  let r := num % den
  if 2 * r < den then q else if den < 2 * r then q + 1 else q + q % 2

/-- The ratio `num / den` with a number of decimal places. -/
def fixed (places num den : Nat) : List Char :=
  let scaled := roundRatio (num * Nat.pow 10 places) den
  let whole := Nat.toDigits 10 (scaled / Nat.pow 10 places)
  let part := Nat.toDigits 10 (scaled % Nat.pow 10 places)
  whole ++ '.' :: (List.replicate (places - part.length) '0' ++ part)

/-- The bits of positive infinity. -/
def infinityBits : Nat := 0x7FF0000000000000

/-- The bits of the 64-bit binary float nearest to `num / den`, for a positive `den`. The unit in
the last place is `2 ^ unit`; a significand rounded up to the next power of two carries into the
exponent by itself. -/
def nearestBinary64 (num den : Nat) : Nat :=
  if num = 0 then 0
  else
    let low : Int := max ((num.log2 : Int) - den.log2 - 53) (-1074)
    let scaled (unit : Int) : Nat × Nat :=
      (num * Nat.pow 2 (-unit).toNat, den * Nat.pow 2 unit.toNat)
    let unit := if (scaled low).1 / (scaled low).2 < Nat.pow 2 53 then low else low + 1
    let significand := roundRatio (scaled unit).1 (scaled unit).2
    if significand < Nat.pow 2 52 then significand
    else min infinityBits ((unit + 1074).toNat * Nat.pow 2 52 + significand)

/-- The magnitude of a finite float, given by its bits, as a ratio. -/
def binary64Ratio (bits : Nat) : Nat × Nat :=
  let exponent := bits / Nat.pow 2 52 % Nat.pow 2 11
  let fraction := bits % Nat.pow 2 52
  if exponent = 0 then (fraction, Nat.pow 2 1074)
  else if exponent < 1075 then (Nat.pow 2 52 + fraction, Nat.pow 2 (1075 - exponent))
  else ((Nat.pow 2 52 + fraction) * Nat.pow 2 (exponent - 1075), 1)

end Bytework.Text
