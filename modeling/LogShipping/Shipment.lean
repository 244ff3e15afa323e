import LogShipping.Log.Entry

/-!
# Shipments

What is sent to a peer at once: entries from one node's log, in the order of the log.
-/

namespace LogShipping

structure Shipment where
  origin : String
  peer : String
  entries : List Entry
  deriving Repr, DecidableEq

namespace Shipment

def edits (shipment : Shipment) : Nat := shipment.entries.length

def cells (shipment : Shipment) : Nat :=
  shipment.entries.foldr (fun entry count ↦ entry.cells.length + count) 0

end Shipment

end LogShipping
