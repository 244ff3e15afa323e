import LogShipping.Zstd.StateTable

/-!
# Prefix codes

Literals are coded by a binary tree. A stream describes the tree by a weight for each symbol: a weight
of one puts a symbol at the greatest depth, each more halves the way there, and zero leaves the symbol
out. The last weight is not written, since it is what completes the tree.
-/

namespace LogShipping.Zstd

inductive PrefixCode
  | leaf (symbol : Nat)
  | node (zero one : PrefixCode)
  deriving Repr, DecidableEq

namespace PrefixCode

/-! ## Weights -/

/-- Weights written as half octets, the high half first. -/
def plainWeights (count : Nat) (bytes : Bytes) : List Nat :=
  (bytes.flatMap fun byte ↦ [byte.toNat / 16, byte.toNat % 16]).take count

/-- Weights coded by two states that take turns. Once the bits do not suffice for the one whose turn it
is, the other gives the last weight. -/
def codedWeights (table : StateTable) : (turns : Nat) → CoderState → CoderState → Bits →
    Option (List Nat)
  | 0, _, _, _ => none
  | turns + 1, current, other, bits =>
    match table.next? current bits with
    | none => some [current.symbol, other.symbol]
    | some (next, bits) => (codedWeights table turns other next bits).map (current.symbol :: ·)

def readCodedWeights (bytes : Bytes) : Option (List Nat) := do
  let (shares, rest) ← Shares.read? 256 6 bytes
  let table := StateTable.ofShares shares
  let bits ← Bits.backward? rest
  let (first, bits) ← table.start? bits
  let (second, bits) ← table.start? bits
  codedWeights table 254 first second bits

/-- The weights as they are written, and the octets behind them. -/
def readWeights : Bytes → Option (List Nat × Bytes)
  | [] => none
  | header :: rest => do
    let count := header.toNat - 127
    let size := if header < 128 then header.toNat else (count + 1) / 2
    guard (size ≤ rest.length)
    let weights ←
      if header < 128 then readCodedWeights (rest.take size)
      else some (plainWeights count (rest.take size))
    return (weights, rest.drop size)

/-! ## The tree -/

/-- The greatest depth there may be. -/
def maxDepth : Nat := 12

/-- The leaves that a weight stands for at the greatest depth. -/
def leaves (weight : Nat) : Nat := if weight = 0 then 0 else 1 <<< (weight - 1)

/-- The depth of the tree and all its weights, the missing one included. -/
def complete? (weights : List Nat) : Option (Nat × List Nat) := do
  guard (weights.all (· ≤ maxDepth))
  let total := weights.foldr (fun weight total ↦ leaves weight + total) 0
  guard (0 < total)
  let depth := total.log2 + 1
  guard (depth ≤ maxDepth)
  let rest := (1 <<< depth) - total
  guard (1 <<< rest.log2 = rest)
  let all := weights ++ [rest.log2 + 1]
  guard (2 ≤ all.count 1 ∧ all.count 1 % 2 = 0)
  return (depth, all)

/-- Joins neighbours, two and two. -/
def pair : List PrefixCode → List PrefixCode
  | zero :: one :: rest => node zero one :: pair rest
  | rest => rest

/-- The leaves of one weight, in order of the symbols. -/
def leavesOf (weights : List Nat) (weight : Nat) : List PrefixCode :=
  (weights.zipIdx.filter (·.1 == weight)).map fun (_, symbol) ↦ leaf symbol

/-- Builds the tree from the greatest depth up. At each depth the leaves follow what was joined below. -/
def grow (weights : List Nat) (depth : Nat) : List PrefixCode :=
  (List.range depth).foldl (fun nodes level ↦ pair (nodes ++ leavesOf weights (level + 1))) []

/-- Reads the description of a tree, and answers the octets behind it. -/
def read? (bytes : Bytes) : Option (PrefixCode × Bytes) := do
  let (weights, rest) ← readWeights bytes
  let (depth, all) ← complete? weights
  match grow all depth with
  | [code] => return (code, rest)
  | _ => none

/-! ## Decoding -/

/-- The symbol at the front of the bits. -/
def symbol? : PrefixCode → Bits → Option (Nat × Bits)
  | leaf symbol, bits => some (symbol, bits)
  | node _ _, [] => none
  | node _ one, true :: rest => one.symbol? rest
  | node zero _, false :: rest => zero.symbol? rest

/-- Decodes so many symbols, which have to take all the bits. The last one decoded is the first of the
answer. -/
def decodeOnto (code : PrefixCode) : (count : Nat) → (before : Bytes) → Bits → Option Bytes
  | 0, before, [] => some before
  | 0, _, _ :: _ => none
  | count + 1, before, bits => do
    let (symbol, bits) ← code.symbol? bits
    code.decodeOnto count (UInt8.ofNat symbol :: before) bits

/-- Decodes one stream of so many symbols. -/
def decode? (code : PrefixCode) (count : Nat) (bytes : Bytes) : Option Bytes := do
  let bits ← Bits.backward? bytes
  let decoded ← code.decodeOnto count [] bits
  return decoded.reverse

end PrefixCode

end LogShipping.Zstd
