import Bytework.Bytes.Basic

/-!
# Ciphers that rearrange bytes

Both ciphers put the bytes of a text into an order that depends only on its length and a parameter.

* `gather`: the bytes in the order of a list of positions; `scatter`: each byte put back to its
  position.
* `zigzag`, `railOrder`: the positions of a text read rail by rail along a zigzag.
* `shuffleOrder`: the positions shuffled by a linear congruential generator.
-/

namespace Bytework.Cipher

/-- The bytes of a text at the given positions, in their order. -/
def gather (order : List Nat) (text : Bytes) : Bytes :=
  let source := text.toArray
  order.filterMap (source[·]?)

/-- The text of which `gather` reads the given bytes. -/
def scatter (order : List Nat) (text : Bytes) : Bytes :=
  ((order.zip text).foldl (fun out p => out.setIfInBounds p.1 p.2)
    (Array.replicate text.length 0)).toList

/-! ## Rails -/

/-- The rail of position `i` along a zigzag over at least two rails. -/
def zigzag (rails i : Nat) : Nat :=
  let cycle := 2 * (rails - 1)
  let k := i % cycle
  if k < rails then k else cycle - k

/-- The number of rails used for a text: at least two, and no more than its length needs. -/
def railCount (rails length : Nat) : Nat := max 2 (min rails (max length 2))

/-- The positions of a text sorted by their rails; those on one rail stay in order. -/
def railOrder (length rails : Nat) : List Nat :=
  let used := railCount rails length
  (List.range length).mergeSort fun i j => zigzag used i ≤ zigzag used j

/-- A text read rail by rail. -/
def railEncode (rails : Nat) (text : Bytes) : Bytes := gather (railOrder text.length rails) text

/-- The text that was read rail by rail. -/
def railDecode (rails : Nat) (text : Bytes) : Bytes := scatter (railOrder text.length rails) text

/-! ## Shuffling -/

/-- The next state of the generator, a 31-bit number. -/
def nextState (x : Nat) : Nat := (x * 1103515245 + 12345) % Nat.pow 2 31

/-- Swaps position `i`, and then each lower one, with a generated position that is no higher. -/
def shuffleFrom : Nat → Nat → Array Nat → Array Nat
  | 0, _, order => order
  | i + 1, state, order =>
    let state := nextState state
    shuffleFrom i state (order.swapIfInBounds (i + 1) (state % (i + 2)))

/-- The source of every position of a shuffled text. -/
def shuffleOrder (length seed : Nat) : List Nat :=
  (shuffleFrom (length - 1) seed (Array.range length)).toList

/-- A text shuffled by a seed. -/
def shuffle (seed : Nat) (text : Bytes) : Bytes := gather (shuffleOrder text.length seed) text

/-- The text that was shuffled by a seed. -/
def unshuffle (seed : Nat) (text : Bytes) : Bytes := scatter (shuffleOrder text.length seed) text

end Bytework.Cipher
