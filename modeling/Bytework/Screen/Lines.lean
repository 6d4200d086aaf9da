import Bytework.Bytes.Basic
import Bytework.Text.Blank

/-!
# Lines

A byte string as lines of text, without their ends and the white space around them.
-/

namespace Bytework.Screen

/-- The lines of a byte string without their ends; what follows the last end is a line if it is not
empty. -/
def rows (data : Bytes) : List Bytes :=
  let parts := data.splitOn lineFeed
  if parts.getLast? == some [] then parts.dropLast else parts

/-- The text of a byte string, if it is valid UTF-8. -/
def decodeText? (row : Bytes) : Option (List Char) :=
  (String.fromUTF8? ⟨row.toArray⟩).map String.toList

/-- The lines of a byte string, trimmed; `none` for a line that is no valid UTF-8. -/
def readLines (data : Bytes) : List (Option (List Char)) :=
  (rows data).map fun row => (decodeText? row).map Text.trim

end Bytework.Screen
