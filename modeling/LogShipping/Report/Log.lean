import LogShipping.Batch
import LogShipping.Log.File

/-!
# Reports on logs

JSON documents that show entries, frames and batches to a reader. Octets are shown in hexadecimal.
-/

namespace LogShipping.Report

/-- A document with the given members. -/
abbrev record (members : List (String × Json)) : Json := .object members

def text (value : String) : Json := .text value

def octets (bytes : Bytes) : Json := bytes.hex

def cell (cell : Cell) : Json := record [
  ("row", octets cell.row), ("family", cell.family), ("q", octets cell.qualifier),
  ("ts", .int cell.timestamp.toInt), ("kind", cell.kind.name), ("value", octets cell.value)]

def entry (entry : Entry) : Json := record [
  ("table", entry.table), ("seq", entry.sequence.toNat), ("time", .int entry.time.toInt),
  ("cells", .list cell entry.cells)]

def file (file : FileRef) : Json := .array [file.seq.toNat, file.path]

def fault (fault : Frame.Fault) : Json := record [("corrupt", fault.message)]

/-- What stands at the front of some octets. -/
def frame : Frame.Decoded → Json
  | .complete payload consumed =>
    record [("complete", record [("payload", octets payload), ("consumed", consumed)])]
  | .incomplete => "incomplete"
  | .corrupt reason => fault reason

def batch (batch : Batch) : Json := record [
  ("entries", .list entry batch.entries), ("heap_size", batch.heapSize), ("read", batch.read),
  ("filtered", batch.filtered), ("start", batch.start), ("end", batch.stop),
  ("exhausted", batch.exhausted), ("truncated", batch.truncated), ("empty", batch.isEmpty),
  ("progress", batch.madeProgress)]

end LogShipping.Report
