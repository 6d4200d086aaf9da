import Bytework.Bytes.Basic

/-!
# Growable buffers

A byte buffer with an explicit capacity. The content never outgrows the capacity, and the capacity
never shrinks: a write that does not fit grows it to what is needed or to twice its size, whichever
is more, and a reservation grows it to exactly the amount asked for.

* `Buffer`: content and capacity; `Buffer.Error`: what can be refused.
* `Buffer.Edit`: an operation that may fail; the buffer is there after a failure, too.
* `create`, `write`, `insert`, `truncate`, `clear`, `reserve`: the operations.
* `writeFormat`, `writeText`, `writeCounted`: writing as a formatter and as a sink of bytes.
* `Buffer.Step`: the operations as data, and `Step.edit`, which carries one out.
-/

namespace Bytework

/-- A byte buffer. -/
structure Buffer where
  content : Bytes
  capacity : Nat
  deriving DecidableEq, Repr

namespace Buffer

/-- Why an operation was refused. -/
inductive Error
  /-- A buffer has to start with some capacity. -/
  | zeroCapacity
  /-- An insertion past the end of the content. -/
  | outOfRange (position length : Nat)
  /-- A capacity above the largest one. -/
  | allocation
  deriving DecidableEq, Repr

/-- What an error says. -/
def Error.message : Error → String
  | .zeroCapacity => "initial capacity must be non-zero"
  | .outOfRange position length =>
    s!"insert position {position} is past the end of the stream (length {length})"
  | .allocation => "failed to grow stream buffer"

/-- An operation on a buffer. -/
abbrev Edit (ε α : Type) := ExceptT ε (StateM Buffer) α

/-- The answer of an operation, and the buffer after it. -/
def Edit.perform {ε α : Type} (edit : Edit ε α) (b : Buffer) : Except ε α × Buffer :=
  edit.run.run b

/-! ## Capacity -/

/-- The largest capacity. -/
def maxCapacity : Nat := Nat.pow 2 63 - 1

/-- The largest count; sums and products of counts stop there. -/
def maxCount : Nat := Nat.pow 2 64 - 1

/-- A sum or a product of counts. -/
def saturate (n : Nat) : Nat := min n maxCount

/-- The factor by which a write that does not fit grows the capacity at least. -/
def growth : Nat := 2

/-- Exactly the given capacity, if that is not too large. -/
def allocate (capacity : Nat) : Edit Error Unit :=
  if capacity ≤ maxCapacity then modify fun b => { b with capacity } else throw .allocation

/-- An empty buffer. -/
def create (capacity : Nat) : Except Error Buffer :=
  if capacity = 0 then .error .zeroCapacity
  else
    let (answer, b) := (allocate capacity).perform ⟨[], 0⟩
    answer.map fun _ => b

/-- Room for more bytes after the content. -/
def growFor (additional : Nat) : Edit Error Unit := do
  let b ← get
  let needed := saturate (b.content.length + additional)
  if b.capacity < needed then allocate (max needed (saturate (growth * b.capacity)))

/-- A capacity of at least `minimum`. -/
def reserve (minimum : Nat) : Edit Error Unit := do
  let b ← get
  if b.capacity < minimum then allocate minimum

/-! ## Content -/

/-- Bytes put after the content. -/
def write (bytes : Bytes) : Edit Error Unit := do
  growFor bytes.length
  modify fun b => { b with content := b.content ++ bytes }

/-- Bytes put before the byte at a position; the position after the last byte appends. -/
def insert (bytes : Bytes) (position : Nat) : Edit Error Unit := do
  let b ← get
  if b.content.length < position then throw (.outOfRange position b.content.length)
  growFor bytes.length
  modify fun b => { b with content := b.content.take position ++ bytes ++ b.content.drop position }

/-- The first `n` bytes of the content. -/
def truncate (b : Buffer) (n : Nat) : Buffer := { b with content := b.content.take n }

/-- No content. -/
def clear (b : Buffer) : Buffer := { b with content := [] }

/-- The number of bytes of the content. -/
def length (b : Buffer) : Nat := b.content.length

/-- Whether there is no content. -/
def isEmpty (b : Buffer) : Bool := b.content.isEmpty

/-- The number of bytes that can be written without growing. -/
def remaining (b : Buffer) : Nat := b.capacity - b.content.length

/-! ## Other ways to write -/

/-- What a formatter writes. -/
inductive Format
  /-- A text that stands as it is. -/
  | literal (text : String)
  /-- A text put together from parts. -/
  | assembled (text : List Char)
  deriving DecidableEq, Repr

/-- Formatted text put after the content. -/
def writeFormat : Format → Edit Error Unit
  | .literal text => write (Bytes.ofText text)
  | .assembled text => write (Bytes.ofChars text)

/-- Why a step failed. -/
inductive Failure
  /-- The operation was refused. -/
  | refused (e : Error)
  /-- A text could not be written; a formatter learns no more. -/
  | unformatted
  /-- A sink had no room, and why. -/
  | outOfMemory (e : Error)
  deriving DecidableEq, Repr

/-- Text put after the content, for a formatter. -/
def writeText (text : String) : Edit Failure Unit :=
  (write (Bytes.ofText text)).adapt fun _ => .unformatted

/-- Bytes put after the content of a sink, and how many were taken. -/
def writeCounted (bytes : Bytes) : Edit Failure Nat := do
  (write bytes).adapt .outOfMemory
  return bytes.length

/-! ## Steps -/

/-- An operation with its arguments. -/
inductive Step
  | write (bytes : Bytes)
  | insert (bytes : Bytes) (position : Nat)
  | truncate (n : Nat)
  | clear
  | reserve (minimum : Nat)
  | writeFormat (format : Format)
  | writeText (text : String)
  | writeCounted (bytes : Bytes)
  deriving DecidableEq, Repr

/-- A step carried out; the answer is a count if the step counts. -/
def Step.edit : Step → Edit Failure (Option Nat)
  | .write bytes => do (Buffer.write bytes).adapt .refused; return none
  | .insert bytes position => do (Buffer.insert bytes position).adapt .refused; return none
  | .truncate n => do modify (Buffer.truncate · n); return none
  | .clear => do modify Buffer.clear; return none
  | .reserve minimum => do (Buffer.reserve minimum).adapt .refused; return none
  | .writeFormat format => do (Buffer.writeFormat format).adapt .refused; return none
  | .writeText text => do Buffer.writeText text; return none
  | .writeCounted bytes => do return some (← Buffer.writeCounted bytes)

end Buffer

end Bytework
