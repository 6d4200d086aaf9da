/-!
# Findings

What a scan can find in an input, and sets of it.

* `Finding`: the eight kinds, each with a bit; `Findings`: a set of them.
* `Findings.bits`, `Findings.ofBits`, `Findings.text`: the written forms.
-/

namespace Bytework.Screen

/-- What can be found in an input. -/
inductive Finding
  /-- The output differs from the input, or must not be trusted. -/
  | modified
  /-- Markup that runs code. -/
  | script
  /-- A fragment of a database statement. -/
  | sql
  /-- A fragment of a command line. -/
  | shell
  /-- A long encoded run. -/
  | base64
  /-- A path that leaves its place. -/
  | path
  /-- The name of an automatic client. -/
  | bot
  /-- An unwanted advertisement. -/
  | spam
  deriving DecidableEq, Repr

/-- The findings in the order of their bits. -/
def Finding.all : List Finding := [.modified, .script, .sql, .shell, .base64, .path, .bot, .spam]

/-- The name of a finding. -/
def Finding.name : Finding → String
  | .modified => "MODIFIED"
  | .script => "SCRIPT"
  | .sql => "SQL"
  | .shell => "SHELL"
  | .base64 => "BASE64"
  | .path => "PATH"
  | .bot => "BOT"
  | .spam => "SPAM"

/-- The place of a finding's bit. -/
def Finding.place : Finding → Nat
  | .modified => 0
  | .script => 1
  | .sql => 2
  | .shell => 3
  | .base64 => 4
  | .path => 5
  | .bot => 6
  | .spam => 7

/-- A set of findings. -/
structure Findings where
  has : Finding → Bool

namespace Findings

/-- The set with one more finding if the condition holds. -/
def addIf (findings : Findings) (finding : Finding) (condition : Bool) : Findings :=
  ⟨fun f => findings.has f || (f == finding && condition)⟩

/-- Nothing found. -/
def isOk (findings : Findings) : Bool := !Finding.all.any findings.has

/-- The set as a number. -/
def bits (findings : Findings) : Nat :=
  Finding.all.foldr (fun f n => (findings.has f).toNat + 2 * n) 0

/-- The set of a number. -/
def ofBits (n : Nat) : Findings := ⟨fun f => n.testBit f.place⟩

/-- The names of the findings in order, with bars between them. -/
def text (findings : Findings) : String :=
  if findings.isOk then "OK" else "|".intercalate ((Finding.all.filter findings.has).map Finding.name)

end Findings

end Bytework.Screen
