import Bytework.Pattern.Search

/-!
# Regular expressions

A pattern compiled once and searched for in byte strings.

* `Options`: how a pattern is compiled and read; `Options.ofIds` reads their ids.
* `Regex.compile`: a pattern with its program, or the `CompileError`.
* `Regex.find?`: the leftmost `Match`, with the groups that took part in it.
-/

namespace Bytework.Pattern

/-- How a pattern is compiled and read. -/
structure Options where
  ignoreCase : Bool := false
  multiline : Bool := false
  dotAll : Bool := false
  /-- Quantifiers are lazy unless marked. -/
  ungreedy : Bool := false
  anchored : Bool := false
  deriving DecidableEq, Repr

namespace Options

/-- The options with the one that has the given id switched on; an unknown id changes nothing. -/
def add (options : Options) (id : String) : Options :=
  if id = "icase" then { options with ignoreCase := true }
  else if id = "multiline" then { options with multiline := true }
  else if id = "dotall" then { options with dotAll := true }
  else if id = "ungreedy" then { options with ungreedy := true }
  else if id = "anchored" then { options with anchored := true }
  else options

/-- The options with the given ids. -/
def ofIds (ids : List String) : Options := ids.foldl add {}

/-- The options in order, each with its name. -/
def entries (options : Options) : List (String × Bool) :=
  [("ICASE", options.ignoreCase), ("MULTILINE", options.multiline), ("DOTALL", options.dotAll),
    ("UNGREEDY", options.ungreedy), ("ANCHORED", options.anchored)]

/-- The names of the options that are on. -/
def names (options : Options) : List String :=
  (options.entries.filter (·.2)).map (·.1)

/-- The options as a number: the first is one, and each next one twice as much. -/
def bits (options : Options) : Nat :=
  options.entries.foldr (fun entry n => entry.2.toNat + 2 * n) 0

/-- The flags of a search. -/
def flags (options : Options) : Flags :=
  ⟨options.ignoreCase, options.multiline, options.dotAll, options.anchored⟩

end Options

/-- Why a pattern does not compile. -/
inductive CompileError
  /-- The pattern is malformed at an offset. -/
  | malformed (error : SyntaxError) (offset : Nat)
  /-- The program has too many instructions. -/
  | tooLarge
  deriving DecidableEq, Repr

/-- What an error says. -/
def CompileError.message : CompileError → String
  | .malformed error offset => s!"syntax error at offset {offset}: " ++ error.text
  | .tooLarge => "compiled program exceeds the size limit"

/-- The program of a pattern. -/
def compile (ungreedy : Bool) (pattern : Bytes) : Except CompileError Program :=
  match Tree.parse pattern with
  | .error (error, offset) => .error (.malformed error offset)
  | .ok (tree, groups) =>
    match Program.ofTree? ungreedy tree groups with
    | some program => .ok program
    | none => .error .tooLarge

/-- A compiled pattern. -/
structure Regex where
  pattern : String
  program : Program
  options : Options

/-- A match in a text: the slots that the search filled. -/
structure Match where
  text : Bytes
  slots : Slots
  deriving DecidableEq, Repr

namespace Match

/-- The bounds in the slots of a group, where the whole match is group 0. -/
def span? (m : Match) (group : Nat) : Option (Nat × Nat) :=
  match m.slots[2 * group]?, m.slots[2 * group + 1]? with
  | some (some start), some (some stop) => if start ≤ stop then some (start, stop) else none
  | _, _ => none

/-- Where the match starts. -/
def start (m : Match) : Nat := ((m.span? 0).map (·.1)).getD 0

/-- Where the match ends. -/
def stop (m : Match) : Nat := ((m.span? 0).map (·.2)).getD 0

/-- The length of the match. -/
def length (m : Match) : Nat := m.stop - m.start

/-- The bytes between two positions. -/
def slice (m : Match) (start stop : Nat) : Bytes := (m.text.drop start).take (stop - start)

/-- The matched bytes. -/
def bytes (m : Match) : Bytes := m.slice m.start m.stop

/-- The number of capturing groups. -/
def groupCount (m : Match) : Nat := m.slots.length / 2 - 1

/-- The bytes that a capturing group matched, counted from 0; `none` if there is no such group or it
took no part. -/
def group? (m : Match) (i : Nat) : Option Bytes :=
  (m.span? (i + 1)).map fun (start, stop) => m.slice start stop

/-- The bounds of every capturing group, in order. -/
def groupSpans (m : Match) : List (Option (Nat × Nat)) :=
  (List.range m.groupCount).map fun i => m.span? (i + 1)

end Match

namespace Regex

/-- A pattern compiled with options. -/
def compile (pattern : String) (options : Options) : Except CompileError Regex :=
  (Pattern.compile options.ungreedy (Bytes.ofText pattern)).map fun program =>
    ⟨pattern, program, options⟩

/-- The number of capturing groups. -/
def groupCount (regex : Regex) : Nat := regex.program.groups

/-- The leftmost match in a text. -/
def find? (regex : Regex) (text : Bytes) : Except SearchError (Option Match) :=
  (search regex.program regex.options.flags text).map fun slots => slots.map (⟨text, ·⟩)

/-- Whether there is a match in a text. -/
def isMatch (regex : Regex) (text : Bytes) : Except SearchError Bool :=
  (search regex.program regex.options.flags text).map Option.isSome

end Regex

end Bytework.Pattern
