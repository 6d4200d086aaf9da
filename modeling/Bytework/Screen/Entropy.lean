import Bytework.Bytes.Basic
import Bytework.Text.Ratio

/-!
# Entropy

The Shannon entropy of the bytes of a string, in bits per byte, and its written form.
-/

namespace Bytework.Screen

/-- How often each byte that occurs does so, in the order of the bytes. -/
def frequencies (s : Bytes) : List Nat :=
  ((List.range 256).map fun b => s.count b.toUInt8).filter (0 < ·)

/-- The entropy of the bytes. -/
def entropy (s : Bytes) : Float :=
  let total := s.length.toFloat
  ((frequencies s).map fun n => let p := n.toFloat / total; -p * p.log2).foldl (· + ·) 0

/-- The entropy with nine decimal places. -/
def entropyText (s : Bytes) : List Char :=
  let ratio := Text.binary64Ratio ((entropy s).toBits.toNat % Nat.pow 2 63)
  Text.fixed 9 ratio.1 ratio.2

end Bytework.Screen
