import LogShipping.Zstd.Bits

/-!
# State tables

A finite state coder goes from state to state; each state stands for a symbol and tells how many bits
lead to the next one. The table of states is laid out from the share of the states that each symbol
has, and these shares are what a stream describes.
-/

namespace LogShipping.Zstd

/-- One state: its symbol, and the next states, a range of `2 ^ width` from `base` on. -/
structure CoderState where
  symbol : Nat
  width : Nat
  base : Nat
  deriving Repr, DecidableEq

/-- A table of `2 ^ accuracy` states. -/
structure StateTable where
  accuracy : Nat
  states : Array CoderState
  deriving Repr, DecidableEq

/-! ## Shares -/

/-- How many of the `2 ^ accuracy` states each symbol has. A rare symbol has the share `-1`: one state,
from which the next one is read anew. -/
structure Shares where
  accuracy : Nat
  counts : List Int
  deriving Repr, DecidableEq

namespace Shares

/-- How many more symbols without a state follow one, in groups of up to three. Answers them with the
bits this takes. -/
def zeroRun : (turns : Nat) → Bits → Nat × Nat
  | 0, _ => (0, 0)
  | turns + 1, bits =>
    let group := bits.peekLow 2
    if group < 3 then (group, 2)
    else
      let (more, used) := zeroRun turns (bits.drop 2)
      (3 + more, 2 + used)

/-- One share, plus one, when `remaining` is one more than the states left, with the bits it takes. The
lower values take one bit less. -/
def readShare (remaining : Nat) (bits : Bits) : Nat × Nat :=
  let width := remaining.log2
  let spare := (1 <<< (width + 1)) - 1 - remaining
  let low := bits.peekLow width
  if low < spare then (low, width)
  else
    let value := bits.peekLow (width + 1)
    (if value < 1 <<< width then value else value - spare, width + 1)

/-- Reads shares until all states are given out. At most `limit` symbols may have one. -/
def readCounts (limit : Nat) :
    (turns remaining : Nat) → (counts : List Int) → (used : Nat) → Bits → Option (List Int × Nat)
  | 0, _, _, _, _ => none
  | turns + 1, remaining, counts, used, bits =>
    let (zeros, zeroBits) := if counts.getLast? = some 0 then zeroRun 512 bits else (0, 0)
    let counts := counts ++ List.replicate zeros 0
    let bits := bits.drop zeroBits
    if limit ≤ counts.length then none
    else
      let (value, width) := readShare remaining bits
      let counts := counts ++ [(value : Int) - 1]
      let used := used + zeroBits + width
      let remaining := if value = 0 then remaining - 1 else remaining - (value - 1)
      if remaining = 1 then some (counts, used)
      else readCounts limit turns remaining counts used (bits.drop width)

/-- Reads a description of shares from the front of octets, and answers the octets behind it. -/
def read? (limit maxAccuracy : Nat) (bytes : Bytes) : Option (Shares × Bytes) := do
  let bits := Bits.forward bytes
  let accuracy := bits.peekLow 4 + 5
  guard (accuracy ≤ maxAccuracy)
  let (counts, used) ← readCounts limit (limit + 1) ((1 <<< accuracy) + 1) [] 4 (bits.drop 4)
  guard (used ≤ 8 * bytes.length)
  return (⟨accuracy, counts⟩, bytes.drop ((used + 7) / 8))

end Shares

/-! ## Laying out a table -/

namespace StateTable

/-- Every place once, in steps that scatter the states of a symbol. -/
def places (accuracy : Nat) : List Nat :=
  let size := 1 <<< accuracy
  let stride := size / 2 + size / 8 + 3
  (List.range size).map fun turn ↦ turn * stride % size

/-- The symbol of each state: the rare ones at the end, the last place first, and the others over the
places before. -/
def symbols (shares : Shares) : Array Nat :=
  let size := 1 <<< shares.accuracy
  let counted := shares.counts.zipIdx
  let rare := (counted.filter (·.1 == -1)).map (·.2)
  let common := counted.flatMap fun (count, symbol) ↦ List.replicate count.toNat symbol
  let free := (places shares.accuracy).filter (· < size - rare.length)
  let layout := (rare.zipIdx.map fun (symbol, index) ↦ (size - 1 - index, symbol)) ++ free.zip common
  layout.foldl (fun table (place, symbol) ↦ table.setIfInBounds place symbol)
    (Array.replicate size 0)

/-- The states in order. Each symbol numbers its own from its share on, and the number tells how many
bits the next state takes. -/
def number (accuracy : Nat) : List Nat → Array Nat → List CoderState
  | [], _ => []
  | symbol :: rest, next =>
    let turn := next.getD symbol 1
    let width := accuracy - turn.log2
    ⟨symbol, width, (turn <<< width) - (1 <<< accuracy)⟩ ::
      number accuracy rest (next.setIfInBounds symbol (turn + 1))

def ofShares (shares : Shares) : StateTable :=
  let first := (shares.counts.map fun count ↦ if count = -1 then 1 else count.toNat).toArray
  ⟨shares.accuracy, (number shares.accuracy (symbols shares).toList first).toArray⟩

/-- The table with one state, which takes no bits. -/
def single (symbol : Nat) : StateTable := ⟨0, #[⟨symbol, 0, 0⟩]⟩

def state? (table : StateTable) (index : Nat) : Option CoderState := table.states[index]?

/-- The first state, read from the bits. -/
def start? (table : StateTable) (bits : Bits) : Option (CoderState × Bits) := do
  let (index, bits) ← bits.take? table.accuracy
  return (← table.state? index, bits)

/-- The state after another. -/
def next? (table : StateTable) (state : CoderState) (bits : Bits) : Option (CoderState × Bits) := do
  let (offset, bits) ← bits.take? state.width
  return (← table.state? (state.base + offset), bits)

end StateTable

end LogShipping.Zstd
