import Bytework.Pattern.Parser

/-!
# Pattern programs

A tree laid out as a list of instructions with absolute addresses.

* `Inst`, `Program`: the instructions and the number of capturing groups.
* `Code`: instructions while they are generated, no more than there may be; `Tree.generate`: those of a
  tree, behind the ones that there are.
* `Program.ofTree?`: the program of a tree between the marks of the whole match, if it is not too
  large.
-/

namespace Bytework.Pattern

/-- An instruction of a program. -/
inductive Inst
  /-- Read this byte. -/
  | byte (b : UInt8)
  /-- Read any byte, perhaps without the line feed. -/
  | any
  /-- Read a byte in, or if negated outside, some ranges. -/
  | set (ranges : List ByteRange) (negated : Bool)
  /-- Go on at the first address, and if that fails at the second. -/
  | split (preferred other : Nat)
  /-- Go on at an address. -/
  | jump (target : Nat)
  /-- Stand at the start. -/
  | assertStart
  /-- Stand at the end. -/
  | assertStop
  /-- Note the position in a slot. -/
  | save (slot : Nat)
  /-- The text has matched. -/
  | accept
  deriving DecidableEq, Repr

/-- A program and the number of its capturing groups. Slots 0 and 1 are for the whole match. -/
structure Program where
  insts : Array Inst
  groups : Nat
  deriving DecidableEq, Repr

/-- The number of slots. -/
def Program.slotCount (p : Program) : Nat := 2 * (p.groups + 1)

/-- The largest number of instructions. -/
def maxProgram : Nat := 65536

/-! ## Generating code -/

/-- Instructions in the order of their addresses, while they are generated. -/
abbrev Code := Array Inst

namespace Code

/-- One more instruction, unless the code is as large as it may be. -/
def push? (code : Code) (inst : Inst) : Option Code :=
  if maxProgram ≤ code.size then none else some (code.push inst)

/-- What generates a piece of code, several times over. -/
def times (piece : Code → Option Code) : Nat → Code → Option Code
  | 0, code => some code
  | n + 1, code => (piece code).bind (times piece n)

/-- What generates a piece of code, several times over, each time behind an instruction that is filled
in later. The addresses of these instructions come with the code. -/
def choices (piece : Code → Option Code) : Nat → Code → Option (Code × List Nat)
  | 0, code => some (code, [])
  | n + 1, code => do
    let split := code.size
    let body ← piece (← code.push? .accept)
    let (rest, splits) ← choices piece n body
    return (rest, split :: splits)

/-- The instructions at some addresses filled in. -/
def fill (code : Code) (addresses : List Nat) (inst : Nat → Inst) : Code :=
  addresses.foldl (fun code pc => code.setIfInBounds pc (inst pc)) code

end Code

namespace Tree

/-- A split that prefers the body if greedy, and else the way out. -/
def branch (greedy : Bool) (body out : Nat) : Inst :=
  if greedy then .split body out else .split out body

/-- The code with that of a tree behind it. With `ungreedy`, greedy and lazy change places. An
instruction that leads to code which is still to come is filled in when its target is known. -/
def generate (ungreedy : Bool) : Tree → Code → Option Code
  | .empty, code => some code
  | .byte b, code => code.push? (.byte b)
  | .any, code => code.push? .any
  | .set ranges negated, code => code.push? (.set ranges negated)
  | .start, code => code.push? .assertStart
  | .stop, code => code.push? .assertStop
  | .group body none, code => generate ungreedy body code
  | .group body (some i), code => do
    let code ← code.push? (.save (2 * i + 2))
    let code ← generate ungreedy body code
    code.push? (.save (2 * i + 3))
  | .seq first second, code => do
    let code ← generate ungreedy first code
    generate ungreedy second code
  | .alt left right, code => do
    let split := code.size
    let code ← code.push? .accept
    let code ← generate ungreedy left code
    let jump := code.size
    let code ← code.push? .accept
    let next := code.size
    let code ← generate ungreedy right (code.fill [split] fun pc => .split (pc + 1) next)
    let stop := code.size
    return code.fill [jump] fun _ => .jump stop
  | .rep body least none greedy, code => do
    let code ← Code.times (generate ungreedy body) least code
    let split := code.size
    let code ← code.push? .accept
    let code ← generate ungreedy body code
    let code ← code.push? (.jump split)
    let out := code.size
    return code.fill [split] fun pc => branch (greedy != ungreedy) (pc + 1) out
  | .rep body least (some most) greedy, code => do
    let code ← Code.times (generate ungreedy body) least code
    let (code, splits) ← Code.choices (generate ungreedy body) (most - least) code
    let out := code.size
    return code.fill splits fun pc => branch (greedy != ungreedy) (pc + 1) out

end Tree

/-- The program of a tree with the given number of groups, unless it is too large. -/
def Program.ofTree? (ungreedy : Bool) (tree : Tree) (groups : Nat) : Option Program := do
  let code ← Code.push? #[] (.save 0)
  let code ← tree.generate ungreedy code
  let code ← code.push? (.save 1)
  let code ← code.push? .accept
  return ⟨code, groups⟩

/-! ## Written form -/

/-- A range as it is written. -/
def ByteRange.text (r : ByteRange) : String := s!"({r.lo}, {r.hi})"

/-- A list as it is written. -/
def listText (items : List String) : String := "[" ++ ", ".intercalate items ++ "]"

/-- An instruction as it is written. -/
def Inst.text : Inst → String
  | .byte b => s!"Char({b})"
  | .any => "Any"
  | .set ranges negated =>
    "Class \x7b ranges: " ++ listText (ranges.map ByteRange.text) ++ s!", negated: {negated} \x7d"
  | .split x y => s!"Split({x}, {y})"
  | .jump x => s!"Jump({x})"
  | .assertStart => "AssertBegin"
  | .assertStop => "AssertEnd"
  | .save slot => s!"Save({slot})"
  | .accept => "Match"

/-- A program as it is written. -/
def Program.text (p : Program) : String :=
  "Program \x7b insts: " ++ listText (p.insts.toList.map Inst.text) ++ s!", groups: {p.groups} \x7d"

end Bytework.Pattern
