import LogShipping.Json.Decode

/-!
# Log entries

An entry of the write-ahead log is one write to one table: a list of cell mutations. This module
holds the types, the accounting of their size in memory, and their form as JSON documents.
-/

namespace LogShipping

/-- What a mutation does to the column, or to the whole family, it names. -/
inductive CellKind
  | put
  | delete
  | deleteFamily
  deriving Repr, DecidableEq

namespace CellKind

def name : CellKind → String
  | put => "put"
  | delete => "delete"
  | deleteFamily => "delete_family"

def ofName? (name : String) : Option CellKind :=
  if name = "put" then some put
  else if name = "delete" then some delete
  else if name = "delete_family" then some deleteFamily
  else none

end CellKind

/-- One mutation of one versioned cell. -/
structure Cell where
  row : Bytes
  family : String
  qualifier : Bytes
  timestamp : Int64
  kind : CellKind
  value : Bytes
  deriving Repr, DecidableEq

namespace Cell

/-- The size in memory: a fixed part and the octets of the four parts of variable length. -/
def heapSize (cell : Cell) : Nat :=
  48 + cell.row.length + cell.family.utf8ByteSize + cell.qualifier.length + cell.value.length

def toJson (cell : Cell) : Json := .object [
  ("row", .octets cell.row),
  ("family", .text cell.family),
  ("qualifier", .octets cell.qualifier),
  ("timestamp", .int cell.timestamp.toInt),
  ("kind", .text cell.kind.name),
  ("value", .octets cell.value)]

/-- A cell without a value has the empty one. -/
def ofJson? (json : Json) : Option Cell := do
  let fields ← Json.fields? ["row", "family", "qualifier", "timestamp", "kind", "value"] json
  let row ← fields.required "row" Json.octets?
  let family ← fields.required "family" Json.text?
  let qualifier ← fields.required "qualifier" Json.octets?
  let timestamp ← fields.required "timestamp" Json.int64?
  let kind ← fields.required "kind" fun json ↦ (Json.constant? json).bind CellKind.ofName?
  let value ← fields.defaulted "value" [] Json.octets?
  return { row, family, qualifier, timestamp, kind, value }

end Cell

/-- One write to one table. Sequence numbers count the writes of a node; the time is in milliseconds
since 1970. -/
structure Entry where
  table : String
  sequence : UInt64
  time : Int64
  cells : List Cell
  deriving Repr, DecidableEq

namespace Entry

def heapSize (entry : Entry) : Nat :=
  64 + entry.table.utf8ByteSize + entry.cells.foldr (fun cell size ↦ cell.heapSize + size) 0

def isEmpty (entry : Entry) : Bool := entry.cells.isEmpty

def toJson (entry : Entry) : Json := .object [
  ("table", .text entry.table),
  ("sequence_id", .nat entry.sequence.toNat),
  ("write_time", .int entry.time.toInt),
  ("cells", .list Cell.toJson entry.cells)]

def ofJson? (json : Json) : Option Entry := do
  let fields ← Json.fields? ["table", "sequence_id", "write_time", "cells"] json
  let table ← fields.required "table" Json.text?
  let sequence ← fields.required "sequence_id" Json.uint64?
  let time ← fields.required "write_time" Json.int64?
  let cells ← fields.required "cells" (Json.listOf? Cell.ofJson?)
  return { table, sequence, time, cells }

end Entry

end LogShipping
