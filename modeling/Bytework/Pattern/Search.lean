import Bytework.Pattern.Program

/-!
# Searching with a program

A backtracking search with an explicit stack. A state is an address with a position; each state is
entered at most once in a whole search, since what follows depends on nothing else, and a state that
was left without a match cannot lead to one later.

* `Flags`: how a program is read.
* `Marks`: the states that have been entered; `free` counts the others.
* `Frame`: what is left to do, another state to try or a slot to put back.
* `run`: the search from the frames of a stack; `search`: from each start in turn.
-/

namespace Bytework.Pattern

/-- How a program is read. -/
structure Flags where
  /-- The case of letters does not matter. -/
  ignoreCase : Bool
  /-- Lines have a start and an end too. -/
  multiline : Bool
  /-- Any byte may be a line feed. -/
  dotAll : Bool
  /-- Only the start of the text is tried. -/
  anchored : Bool
  deriving DecidableEq, Repr

/-- Whether a byte lies in one of the ranges. -/
def inRanges (ranges : List ByteRange) (b : UInt8) : Bool := ranges.any (·.mem b)

namespace Flags

/-- Whether a byte of the text is the byte of an instruction. -/
def sameByte (flags : Flags) (a b : UInt8) : Bool :=
  if flags.ignoreCase then sameFolded a b else a == b

/-- Whether a byte lies in a set; with case ignored, it is enough that one of its cases lies in the
ranges. -/
def inSet (flags : Flags) (ranges : List ByteRange) (negated : Bool) (b : UInt8) : Bool :=
  let found :=
    if flags.ignoreCase then
      inRanges ranges b || inRanges ranges (lowerByte b) || inRanges ranges (upperByte b)
    else inRanges ranges b
  found != negated

/-- Whether an instruction reads a byte. -/
def reads (flags : Flags) (inst : Inst) (b : UInt8) : Bool :=
  match inst with
  | .byte c => flags.sameByte b c
  | .any => flags.dotAll || b != lineFeed
  | .set ranges negated => flags.inSet ranges negated b
  | .split _ _ | .jump _ | .assertStart | .assertStop | .save _ | .accept => false

/-- Whether a position of the text is a start. -/
def atStart (flags : Flags) (text : Array UInt8) (sp : Nat) : Bool :=
  sp == 0 || (flags.multiline && text[sp - 1]? == some lineFeed)

/-- Whether a position of the text is an end. -/
def atStop (flags : Flags) (text : Array UInt8) (sp : Nat) : Bool :=
  sp == text.size || (flags.multiline && text[sp]? == some lineFeed)

end Flags

/-! ## Marks -/

/-- Which states have been entered, address by address. -/
structure Marks where
  /-- The number of positions. -/
  stride : Nat
  entered : Array Bool

namespace Marks

/-- No state entered. -/
def new (addresses stride : Nat) : Marks := ⟨stride, Array.replicate (addresses * stride) false⟩

/-- The place of a state. -/
def index (m : Marks) (pc sp : Nat) : Nat := pc * m.stride + sp

/-- Whether a state has been entered; one that does not exist counts as entered. -/
def mem (m : Marks) (pc sp : Nat) : Bool := m.entered.getD (m.index pc sp) true

/-- The marks with a state entered. -/
def insert (m : Marks) (pc sp : Nat) : Marks :=
  { m with entered := m.entered.setIfInBounds (m.index pc sp) true }

/-- How many states have not been entered. -/
def free (m : Marks) : Nat := m.entered.count false

theorem free_insert {m : Marks} {pc sp : Nat} (h : m.mem pc sp = false) :
    (m.insert pc sp).free + 1 = m.free := by
  have hlt : m.index pc sp < m.entered.size := by
    apply Decidable.byContradiction
    intro hge
    simp [mem, Array.getD_eq_getD_getElem?, Array.getElem?_eq_none (Nat.le_of_not_lt hge)] at h
  have hfalse : m.entered[m.index pc sp] = false := by
    simpa [mem, Array.getD_eq_getD_getElem?, Array.getElem?_eq_getElem hlt] using h
  have hpos : 0 < m.entered.count false :=
    Array.count_pos_iff.mpr (hfalse ▸ Array.getElem_mem hlt)
  have hset : (m.entered.set (m.index pc sp) true hlt).count false = _ := Array.count_set hlt
  simp only [insert, free, Array.setIfInBounds, hlt, dif_pos]
  rw [hset, hfalse]
  simp
  omega

end Marks

/-! ## The search -/

/-- The slots with the positions noted in them. -/
abbrev Slots := List (Option Nat)

/-- What is left to do. -/
inductive Frame
  /-- Go on at an address and a position. -/
  | attempt (pc sp : Nat)
  /-- Put the earlier content of a slot back. -/
  | restore (slot : Nat) (old : Option Nat)
  deriving DecidableEq, Repr

/-- Why a search can fail to have an answer. -/
inductive SearchError
  /-- An address or a slot that the program does not have. -/
  | malformedProgram
  deriving DecidableEq, Repr

/-- The outcome of a run: the slots of the first match, if there is one, and the marks. -/
abbrev Outcome := Except SearchError (Option Slots × Marks)

/-- Runs a program until a frame of the stack leads to a match or none is left. -/
def run (insts : Array Inst) (flags : Flags) (text : Array UInt8) (marks : Marks) (slots : Slots)
    (stack : List Frame) : Outcome :=
  match stack with
  | [] => .ok (none, marks)
  | .restore slot old :: stack => run insts flags text marks (slots.set slot old) stack
  | .attempt pc sp :: stack =>
    match insts[pc]? with
    | none => .error .malformedProgram
    | some inst =>
      if _h : marks.mem pc sp then run insts flags text marks slots stack
      else
        let entered := marks.insert pc sp
        match inst with
        | .split x y =>
          run insts flags text entered slots (.attempt x sp :: .attempt y sp :: stack)
        | .jump x => run insts flags text entered slots (.attempt x sp :: stack)
        | .assertStart =>
          if flags.atStart text sp then
            run insts flags text entered slots (.attempt (pc + 1) sp :: stack)
          else run insts flags text entered slots stack
        | .assertStop =>
          if flags.atStop text sp then
            run insts flags text entered slots (.attempt (pc + 1) sp :: stack)
          else run insts flags text entered slots stack
        | .save slot =>
          match slots[slot]? with
          | none => .error .malformedProgram
          | some old =>
            run insts flags text entered (slots.set slot (some sp))
              (.attempt (pc + 1) sp :: .restore slot old :: stack)
        | .accept => .ok (some slots, entered)
        | reader =>
          if text[sp]?.any (flags.reads reader) then
            run insts flags text entered slots (.attempt (pc + 1) (sp + 1) :: stack)
          else run insts flags text entered slots stack
termination_by 2 * marks.free + stack.length
decreasing_by
  all_goals simp only [List.length_cons]
  any_goals have := Marks.free_insert (Bool.eq_false_iff.mpr _h)
  all_goals omega

/-- The starts in turn, with the marks of the earlier ones kept. -/
def searchFrom (p : Program) (flags : Flags) (text : Array UInt8) (marks : Marks) :
    List Nat → Except SearchError (Option Slots)
  | [] => .ok none
  | start :: starts =>
    match run p.insts flags text marks (List.replicate p.slotCount none) [.attempt 0 start] with
    | .error e => .error e
    | .ok (some slots, _) => .ok (some slots)
    | .ok (none, marks) => searchFrom p flags text marks starts

/-- The slots of the first match, the leftmost start first. -/
def search (p : Program) (flags : Flags) (text : Bytes) : Except SearchError (Option Slots) :=
  let starts := if flags.anchored then [0] else List.range (text.length + 1)
  searchFrom p flags text.toArray (.new p.insts.size (text.length + 1)) starts

end Bytework.Pattern
