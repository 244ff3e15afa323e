import LogShipping.Digest.Sha256
import LogShipping.Peer.Registry
import LogShipping.Schema
import LogShipping.Verify.Arguments

/-!
# Comparing a table with its copy

The job goes through the rows of the local table that hold something a peer should have, and counts a
row as good if the peer has a row of the same key with the same cells. Only cells count whose family
has global scope, occurs in the local table and is asked for, and whose timestamp lies in the range
asked for. Of a cell, the family, the qualifier and the value are compared, by a digest of the row.
-/

namespace LogShipping.Verify

/-! ## Rows -/

structure Column where
  family : String
  qualifier : Bytes
  deriving Repr, DecidableEq

namespace Column

def order (x y : Column) : Ordering :=
  (compare x.family y.family).then (Bytes.order x.qualifier y.qualifier)

end Column

/-- The latest version of a column. -/
structure RowCell where
  column : Column
  timestamp : Int
  value : Bytes
  deriving Repr, DecidableEq

structure Row where
  key : Bytes
  /-- One cell for each column, in order of the columns. -/
  cells : List RowCell
  deriving Repr, DecidableEq

namespace Row

/-- Puts a cell in its place. A cell of the same column gives way. -/
def insert (cell : RowCell) : List RowCell → List RowCell
  | [] => [cell]
  | other :: rest =>
    match cell.column.order other.column with
    | .lt => cell :: other :: rest
    | .eq => cell :: rest
    | .gt => other :: insert cell rest

/-- A row with the given cells, of each column the last one given. -/
def ofCells (key : Bytes) (cells : List RowCell) : Row :=
  ⟨key, cells.foldl (fun sorted cell ↦ insert cell sorted) []⟩

/-- The rows in order of their keys. -/
def sort (rows : List Row) : List Row := rows.mergeSort fun x y ↦ Bytes.order x.key y.key != .gt

end Row

/-! ## Digests -/

/-- Some octets behind their number, so that parts cannot run into each other. -/
def part (bytes : Bytes) : Bytes := Bytes.bigEndian 8 bytes.length ++ bytes

/-- The parts of a cell that are compared. -/
def cellText (cell : RowCell) : Bytes :=
  part (Bytes.ofText cell.column.family) ++ part cell.column.qualifier ++ part cell.value

namespace Arguments

/-- The families to compare: those of the local rows that have global scope and are asked for. -/
def wanted (arguments : Arguments) (schema : Schema) (rows : List Row) : List String :=
  (rows.flatMap fun row ↦ row.cells.map (·.column.family)).filter fun family ↦
    schema.isGlobal arguments.table family &&
      (arguments.families.isEmpty || arguments.families.contains family)

/-- The cells of a row that count. -/
def inScope (arguments : Arguments) (wanted : List String) (row : Row) : List RowCell :=
  row.cells.filter fun cell ↦
    wanted.contains cell.column.family && arguments.inRange cell.timestamp

/-- The octets a row is compared by. There are none if no cell counts. -/
def rowText? (arguments : Arguments) (wanted : List String) (row : Row) : Option Bytes :=
  match arguments.inScope wanted row with
  | [] => none
  | cells => some (cells.flatMap cellText)

def digest? (arguments : Arguments) (wanted : List String) (row : Row) : Option Bytes :=
  (arguments.rowText? wanted row).map Digest.Sha256.digest

end Arguments

/-! ## Counting -/

structure Tally where
  good : Nat
  bad : Nat
  deriving Repr, DecidableEq

namespace Tally

def add (tally : Tally) (good : Bool) : Tally :=
  if good then { tally with good := tally.good + 1 } else { tally with bad := tally.bad + 1 }

end Tally

/-- The row of a key among rows in order, and the rows that may belong to later keys. -/
def seek (key : Bytes) : List Row → Option Row × List Row
  | [] => (none, [])
  | row :: rest =>
    match Bytes.order row.key key with
    | .lt => seek key rest
    | .eq => (some row, rest)
    | .gt => (none, row :: rest)

namespace Arguments

/-- Goes through local rows and the peer's rows, both in order. -/
def join (arguments : Arguments) (wanted : List String) : Tally → List Row → List Row → Tally
  | tally, [], _ => tally
  | tally, row :: rows, peerRows =>
    match arguments.digest? wanted row with
    | none => join arguments wanted tally rows peerRows
    | some digest =>
      let (found, peerRows) := seek row.key peerRows
      let good := found.bind (arguments.digest? wanted) == some digest
      join arguments wanted (tally.add good) rows peerRows

/-- Counts the good and the bad rows of a table. -/
def compare (arguments : Arguments) (schema : Schema) (localRows peerRows : List Row) : Tally :=
  let sorted := Row.sort localRows
  arguments.join (arguments.wanted schema sorted) ⟨0, 0⟩ sorted (Row.sort peerRows)

/-- Runs the job on what the scans of the two tables answer. It fails only if the peer is not known or
a scan fails. -/
def run (arguments : Arguments) (schema : Schema) (registry : Registry)
    (localScan peerScan : Outcome (List Row)) : Outcome Tally := do
  if !registry.contains arguments.peer then throw (.unknownPeer arguments.peer)
  return arguments.compare schema (← localScan) (← peerScan)

end Arguments

end LogShipping.Verify
