import LogShipping.Zstd.Literals

/-!
# Sequences

The second section of a compressed block lists its sequences. Each takes some literals and then
repeats a stretch of what was written before, a given length from a given distance back. Lengths and
distances are codes with extra bits, coded by three state tables. The three latest distances have
short codes.
-/

namespace LogShipping.Zstd

/-- A code for a number: where its range begins and how many bits tell the number in it. -/
structure Range where
  base : Nat
  width : Nat

namespace Range

/-- Ranges one after another, from a number on, with the given widths. -/
def consecutive : (base : Nat) → List Nat → List Range
  | _, [] => []
  | base, width :: widths => ⟨base, width⟩ :: consecutive (base + (1 <<< width)) widths

/-- The codes of literal lengths. -/
def literalLengths : Array Range :=
  (consecutive 0 (List.replicate 16 0 ++ [1, 1, 1, 1, 2, 2, 3, 3, 4]) ++
    consecutive 64 [6, 7, 8, 9, 10, 11, 12, 13, 14, 15, 16]).toArray

/-- The codes of match lengths. -/
def matchLengths : Array Range :=
  (consecutive 3 (List.replicate 32 0 ++ [1, 1, 1, 1, 2, 2, 3, 3, 4, 4, 5]) ++
    consecutive 131 [7, 8, 9, 10, 11, 12, 13, 14, 15, 16]).toArray

/-- The codes of distances. -/
def distances : Array Range := ((List.range 32).map fun width ↦ ⟨1 <<< width, width⟩).toArray

end Range

/-- The three kinds of codes, each with its ranges, the greatest accuracy of a table for it, and the
shares of the table to use when none is described. -/
structure CodeKind where
  ranges : Array Range
  maxAccuracy : Nat
  standard : Shares

namespace CodeKind

def literalLength : CodeKind where
  ranges := Range.literalLengths
  maxAccuracy := 9
  standard := ⟨6, [4, 3, 2, 2, 2, 2, 2, 2, 2, 2, 2, 2, 2, 1, 1, 1, 2, 2, 2, 2, 2, 2, 2, 2, 2, 3, 2, 1, 1, 1,
    1, 1, -1, -1, -1, -1]⟩

def matchLength : CodeKind where
  ranges := Range.matchLengths
  maxAccuracy := 9
  standard := ⟨6, [1, 4, 3, 2, 2, 2, 2, 2, 2] ++ List.replicate 37 1 ++ List.replicate 7 (-1)⟩

def distance : CodeKind where
  ranges := Range.distances
  maxAccuracy := 8
  standard := ⟨5, [1, 1, 1, 1, 1, 1, 2, 2, 2] ++ List.replicate 15 1 ++ List.replicate 5 (-1)⟩

/-- The table for one kind, by the way it is given, and the octets behind its description. -/
def table? (kind : CodeKind) (mode : Nat) (old : Option StateTable) (bytes : Bytes) :
    Option (StateTable × Bytes) :=
  match mode, bytes with
  | 0, _ => some (.ofShares kind.standard, bytes)
  | 1, [] => none
  | 1, symbol :: rest =>
    if symbol.toNat < kind.ranges.size then some (.single symbol.toNat, rest) else none
  | 2, _ =>
    (Shares.read? kind.ranges.size kind.maxAccuracy bytes).map fun (shares, rest) ↦
      (.ofShares shares, rest)
  | _, _ => old.map (·, bytes)

/-- The number a state's code stands for. -/
def value? (kind : CodeKind) (state : CoderState) (bits : Bits) : Option (Nat × Bits) := do
  let range ← kind.ranges[state.symbol]?
  let (extra, bits) ← bits.take? range.width
  return (range.base + extra, bits)

end CodeKind

/-- The tables of the three kinds. -/
structure Tables where
  literalLength : StateTable
  distance : StateTable
  matchLength : StateTable

/-- The three latest distances. -/
structure Recent where
  first : Nat
  second : Nat
  third : Nat
  deriving Repr, DecidableEq

namespace Recent

def start : Recent := ⟨1, 4, 8⟩

/-- The distance that a value stands for, and the latest distances after it. The values up to three
stand for recent distances, counted from the second where no literals come first. -/
def distance? (recent : Recent) (value literals : Nat) : Option (Nat × Recent) :=
  let rank := if literals = 0 then value + 1 else value
  if 3 < value then some (value - 3, ⟨value - 3, recent.first, recent.second⟩)
  else if rank = 1 then some (recent.first, recent)
  else if rank = 2 then some (recent.second, ⟨recent.second, recent.first, recent.third⟩)
  else
    let distance := if rank = 3 then recent.third else recent.first - 1
    if distance = 0 then none else some (distance, ⟨distance, recent.first, recent.second⟩)

end Recent

namespace Sequences

/-- How many sequences there are, and the octets behind the count. -/
def readCount : Bytes → Option (Nat × Bytes)
  | [] => none
  | first :: rest =>
    if first < 128 then some (first.toNat, rest)
    else
      match first, rest with
      | 255, low :: high :: rest => some (low.toNat + 256 * high.toNat + 0x7F00, rest)
      | 255, _ => none
      | _, low :: rest => some ((first.toNat - 128) * 256 + low.toNat, rest)
      | _, [] => none

/-- Repeats so many octets from a distance back. -/
def copy (distance : Nat) : (length : Nat) → Array UInt8 → Array UInt8
  | 0, written => written
  | length + 1, written =>
    copy distance length (written.push (written.getD (written.size - distance) 0))

/-- The states of the three tables. -/
structure States where
  literalLength : CoderState
  distance : CoderState
  matchLength : CoderState

/-- What a run of sequences has come to. -/
structure Run where
  written : Array UInt8
  literals : Bytes
  recent : Recent

/-- Runs the sequence that the states stand for: some literals, then a repetition. -/
def perform? (states : States) (run : Run) (bits : Bits) : Option (Run × Bits) := do
  let (value, bits) ← CodeKind.distance.value? states.distance bits
  let (length, bits) ← CodeKind.matchLength.value? states.matchLength bits
  let (literals, bits) ← CodeKind.literalLength.value? states.literalLength bits
  let (distance, recent) ← run.recent.distance? value literals
  guard (literals ≤ run.literals.length)
  let written := (run.literals.take literals).foldl Array.push run.written
  guard (distance ≤ written.size)
  return (⟨copy distance length written, run.literals.drop literals, recent⟩, bits)

/-- The states of the next sequence. -/
def next? (tables : Tables) (states : States) (bits : Bits) : Option (States × Bits) := do
  let (literalLength, bits) ← tables.literalLength.next? states.literalLength bits
  let (matchLength, bits) ← tables.matchLength.next? states.matchLength bits
  let (distance, bits) ← tables.distance.next? states.distance bits
  return (⟨literalLength, distance, matchLength⟩, bits)

/-- Runs a sequence and so many more, which have to take all the bits. -/
def run? (tables : Tables) : (more : Nat) → States → Run → Bits → Option Run
  | 0, states, run, bits =>
    match perform? states run bits with
    | some (run, []) => some run
    | _ => none
  | more + 1, states, run, bits => do
    let (run, bits) ← perform? states run bits
    let (states, bits) ← next? tables states bits
    run? tables more states run bits

/-- Reads the three tables, and answers the octets behind them. -/
def readTables (old : Option Tables) : Bytes → Option (Tables × Bytes)
  | [] => none
  | modes :: rest => do
    guard (modes.toNat % 4 = 0)
    let mode (shift : Nat) : Nat := modes.toNat / shift % 4
    let (literalLength, rest) ←
      CodeKind.literalLength.table? (mode 64) (old.map (·.literalLength)) rest
    let (distance, rest) ← CodeKind.distance.table? (mode 16) (old.map (·.distance)) rest
    let (matchLength, rest) ← CodeKind.matchLength.table? (mode 4) (old.map (·.matchLength)) rest
    return (⟨literalLength, distance, matchLength⟩, rest)

def start? (tables : Tables) (bits : Bits) : Option (States × Bits) := do
  let (literalLength, bits) ← tables.literalLength.start? bits
  let (distance, bits) ← tables.distance.start? bits
  let (matchLength, bits) ← tables.matchLength.start? bits
  return (⟨literalLength, distance, matchLength⟩, bits)

/-- Runs the section's sequences and writes the literals that are left. Answers the tables that later
blocks may use again. -/
def execute? (old : Option Tables) (run : Run) (bytes : Bytes) : Option (Run × Option Tables) := do
  let (count, rest) ← readCount bytes
  match count with
  | 0 =>
    guard rest.isEmpty
    return ({ run with written := run.literals.foldl Array.push run.written, literals := [] }, old)
  | more + 1 =>
    let (tables, rest) ← readTables old rest
    let bits ← Bits.backward? rest
    let (states, bits) ← start? tables bits
    let run ← run? tables more states run bits
    return ({ run with written := run.literals.foldl Array.push run.written, literals := [] },
      some tables)

end Sequences

end LogShipping.Zstd
