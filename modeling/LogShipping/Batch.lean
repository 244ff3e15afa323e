import LogShipping.Log.Reader
import LogShipping.Schema

/-!
# Batches

A batch is what one pass over a log file gathers for a peer: entries, reduced to their cells of global
scope, up to a count of entries read and a size of entries kept. It covers every entry read, so a batch
with nothing to ship still moves the position.
-/

namespace LogShipping

/-- The cells of global scope of an entry, or nothing if there are none. -/
def Entry.filter (schema : Schema) (entry : Entry) : Option Entry :=
  match entry.cells.filter fun cell ↦ schema.isGlobal entry.table cell.family with
  | [] => none
  | cells => some { entry with cells }

namespace Batch

structure Limits where
  /-- The pass ends once the kept entries reach this size. -/
  size : Nat
  /-- The pass ends once this many entries were read. -/
  count : Nat
  deriving Repr, DecidableEq

end Batch

structure Batch where
  entries : List Entry
  heapSize : Nat
  read : Nat
  start : Nat
  stop : Nat
  /-- The pass came to the end of what can be read. -/
  exhausted : Bool
  truncated : Bool
  deriving Repr, DecidableEq

namespace Batch

def isEmpty (batch : Batch) : Bool := batch.entries.isEmpty

def filtered (batch : Batch) : Nat := batch.read - batch.entries.length

def madeProgress (batch : Batch) : Bool := batch.start < batch.stop

/-- The batch after one more entry was read. -/
def add (batch : Batch) (kept : Option Entry) : Batch :=
  match kept with
  | none => { batch with read := batch.read + 1 }
  | some entry =>
    { batch with
      read := batch.read + 1
      heapSize := batch.heapSize + entry.heapSize
      entries := batch.entries ++ [entry] }

/-- A pass as it goes on. Each turn reads one entry, so the count that is left bounds the turns. An
error after the first entry ends the pass, so that what was read still ships. -/
def gather (source : Directory.Source) (schema : Schema) (limits : Limits) :
    (turns : Nat) → Batch → Log.Reader → Outcome Batch × Log.Reader
  | 0, batch, reader => (.ok batch, reader)
  | turns + 1, batch, reader =>
    if limits.size ≤ batch.heapSize then (.ok batch, reader)
    else
      match reader.nextFrom source with
      | (.ok (some entry), reader) =>
        gather source schema limits turns (batch.add (entry.filter schema)) reader
      | (.ok none, reader) => (.ok { batch with exhausted := true }, reader)
      | (.error error, reader) =>
        if 0 < batch.read then (.ok batch, reader) else (.error error, reader)

/-- One pass of a reader. -/
def take (source : Directory.Source) (schema : Schema) (limits : Limits) (reader : Log.Reader) :
    Outcome Batch × Log.Reader :=
  let start : Batch := ⟨[], 0, 0, reader.position, reader.position, false, false⟩
  match gather source schema limits limits.count start reader with
  | (.ok batch, reader) =>
    (.ok { batch with stop := reader.position, truncated := reader.truncated }, reader)
  | (.error error, reader) => (.error error, reader)

end Batch

end LogShipping
