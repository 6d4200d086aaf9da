import Bytework.Bytes.Search
import Bytework.Screen.Findings
import Bytework.Screen.Phrases

/-!
# Scanning an input

* `hasPhrase`: whether one of some phrases occurs.
* `startsHandler`, `hasHandler`: event handlers of markup, such as `onerror=`, and the search for them.
* `hasEncodedRun`: long runs of encoded bytes.
* `scan`: everything that is found, with ASCII case ignored.
-/

namespace Bytework.Screen

/-- Whether one of the phrases occurs. -/
def hasPhrase (phrases : List Bytes) (s : Bytes) : Bool := phrases.any s.includes

/-- The least length of the name of an event. -/
def minEventName : Nat := 3

/-- Whether a text starts with the name of an event and an equals sign, perhaps with spaces between
them. -/
def namesEvent (s : Bytes) : Bool :=
  let name := s.takeWhile isLower
  let rest := s.dropWhile isLower
  decide (minEventName ≤ name.length) && (rest.dropWhile (· == space)).head? == some (byte '=')

/-- Whether the `on` at a position starts an event handler: no letter or digit is in front of it, and
behind it is the name of an event. -/
def startsHandler (s : Bytes) (i : Nat) : Bool :=
  !(decide (0 < i) && s[i - 1]?.any isAlnum) && namesEvent (s.drop (i + 2))

/-- Whether an event handler starts at a position or behind it. Each `on` is tested as it is found,
and behind one that starts no handler the search starts again. -/
def hasHandlerFrom (s : Bytes) (start : Nat) : Bool :=
  match h : Bytes.indexOf? (ascii "on") (s.drop start) with
  | none => false
  | some k => startsHandler s (start + k) || hasHandlerFrom s (start + k + 2)
termination_by s.length - start
decreasing_by
  have hlength := Bytes.length_drop_lt_of_indexOf? (by decide) h
  simp only [List.length_drop] at hlength
  omega

/-- Whether a text has an event handler. -/
def hasHandler (s : Bytes) : Bool := hasHandlerFrom s 0

/-- A byte of the encoding with 64 symbols, padding included. -/
def isEncodedByte (b : UInt8) : Bool := isAlnum b || b == byte '+' || b == byte '/' || b == byte '='

/-- The least length of an encoded run. -/
def minEncodedRun : Nat := 80

/-- Whether a text has a long run of encoded bytes. -/
def hasEncodedRun (s : Bytes) : Bool :=
  (s.splitOnP (!isEncodedByte ·)).any fun run => minEncodedRun ≤ run.length

/-- What is found in an input. -/
def scan (s : Bytes) : Findings :=
  let lower := s.lower
  ⟨fun
    | .modified => false
    | .script => hasPhrase scriptPhrases lower || hasHandler lower
    | .sql => hasPhrase sqlPhrases lower
    | .shell => hasPhrase shellPhrases lower
    | .base64 => hasEncodedRun s
    | .path => hasPhrase pathPhrases lower
    | .bot => hasPhrase botPhrases lower
    | .spam => hasPhrase spamPhrases lower⟩

end Bytework.Screen
