import Bytework.Bytes.Basic

/-!
# Trimming, padding and cutting

* `trim`, `strip`, `stripQuotes`: what is taken off the ends.
* `words`, `normalizeSpaces`: the maximal runs without white space.
* `padLeft`, `padRight`, `repeated`, `substring?`: results of a given length.
-/

namespace Bytework.Bytes

/-- The string without the bytes in `p` at its end. -/
def dropEndWhile (p : UInt8 → Bool) (s : Bytes) : Bytes := (s.reverse.dropWhile p).reverse

/-- The string without the white space at its ends. -/
def trim (s : Bytes) : Bytes := (dropEndWhile isSpace s).dropWhile isSpace

/-- The string without the runs of one byte at its ends. -/
def strip (s : Bytes) (b : UInt8) : Bytes := (dropEndWhile (· == b) s).dropWhile (· == b)

/-- The maximal runs of bytes that are no white space. -/
def words (s : Bytes) : List Bytes := (s.splitOnP isSpace).filter (!·.isEmpty)

/-- The words with one space between neighbours. -/
def normalizeSpaces (s : Bytes) : Bytes := List.intercalate [space] (words s)

/-- Whether a byte is a single or a double quote. -/
def isQuote (b : UInt8) : Bool := b == quote || b == apostrophe

/-- The string without one pair of equal quotes around it. -/
def stripQuotes : Bytes → Bytes
  | [] => []
  | first :: rest =>
    if isQuote first && rest.getLast? == some first then rest.dropLast else first :: rest

/-- The string with `fill` put before it until it has `total` bytes. -/
def padLeft (s : Bytes) (total : Nat) (fill : UInt8) : Bytes :=
  List.replicate (total - s.length) fill ++ s

/-- The string with `fill` put after it until it has `total` bytes. -/
def padRight (s : Bytes) (total : Nat) (fill : UInt8) : Bytes :=
  s ++ List.replicate (total - s.length) fill

/-- The string written `n` times and cut at `limit` bytes. No more than `limit` copies of a string
that is not empty can show. -/
def repeated (s : Bytes) (n limit : Nat) : Bytes :=
  if s.isEmpty then [] else (List.replicate (min n limit) s).flatten.take limit

/-- At most `len` bytes from position `start`, which must lie within the string. -/
def substring? (s : Bytes) (start len : Nat) : Option Bytes :=
  if start < s.length then some ((s.drop start).take len) else none

end Bytework.Bytes
