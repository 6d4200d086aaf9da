import Bytework.Screen.Scan

/-!
# Sanitizing an input

* `Context`: what the output is meant for, and the bytes that it permits.
* `sanitize`: the first bytes of an input with every other byte replaced, and what was found.
-/

namespace Bytework.Screen

/-- What an output is meant for. -/
inductive Context
  | generic
  | html
  | sql
  | shell
  | filename
  /-- Every byte is permitted. -/
  | none
  deriving DecidableEq, Repr

namespace Context

/-- The contexts with their ids. -/
def registry : List (String × Context) :=
  [("generic", .generic), ("html", .html), ("sql", .sql), ("shell", .shell),
    ("filename", .filename), ("none", .none)]

/-- The context with an id, in any ASCII case. -/
def ofId? (id : String) : Option Context :=
  (registry.find? fun entry => entry.1.toList == id.toList.map Char.toLower).map (·.2)

/-- The name of a context. -/
def name : Context → String
  | .generic => "Generic"
  | .html => "Html"
  | .sql => "Sql"
  | .shell => "Shell"
  | .filename => "Filename"
  | .none => "None"

/-- The bytes that are permitted besides letters and digits. -/
def extra : Context → Bytes
  | .generic => ascii " _-.,:/\\@+=#%()[]"
  | .html => ascii " -_.,"
  | .sql => ascii " _-"
  | .shell => ascii " _-./"
  | .filename => ascii "_-."
  | .none => []

/-- Whether a byte may stand in the output. -/
def permits (context : Context) (b : UInt8) : Bool :=
  context == .none || isAlnum b || context.extra.contains b

/-- A byte as it stands in the output. -/
def filter (context : Context) (b : UInt8) : UInt8 := if context.permits b then b else byte '_'

end Context

/-- The largest number of bytes of an input that are looked at. -/
def scanWindow : Nat := 4096

/-- The output and what was found. -/
structure Sanitized where
  output : Bytes
  findings : Findings

/-- Why an input is not sanitized. -/
inductive SanitizeError
  /-- An output of `size` bytes has one byte less of content. -/
  | zeroOutputSize
  deriving DecidableEq, Repr

/-- What an error says. -/
def SanitizeError.message : SanitizeError → String
  | .zeroOutputSize => "output size must be non-zero"

/-- The first bytes of an input, at most one less than `size`, with every byte replaced that the
context does not permit. For a database, a statement that was found counts as a modification. -/
def sanitize (input : Bytes) (context : Context) (size : Nat) : Except SanitizeError Sanitized :=
  if size = 0 then .error .zeroOutputSize
  else
    let window := input.take scanWindow
    let kept := window.take (size - 1)
    let found := scan window
    let replaced := kept.any fun b => !context.permits b
    let suspect := context == .sql && found.has .sql
    .ok ⟨kept.map context.filter, found.addIf .modified (replaced || suspect)⟩

end Bytework.Screen
