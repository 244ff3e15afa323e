import LogShipping.Queue.Key

/-!
# Ranking the nodes that may take over a queue

A queue goes to the live node that holds the fewest queues, the smallest name among equals. Its owner,
its origin and the nodes that hold a queue of the same slot already are left out; a live origin comes
last, because taking the queue back folds it into the origin's own.
-/

namespace LogShipping.Failover

/-- How many queues a node holds, none if it is not listed. -/
def loadOf (load : List (String × Nat)) (node : String) : Nat := (load.lookup node).getD 0

/-- A node may take the queue without folding it into another. -/
def mayTake (holders : List String) (key : QueueKey) (node : String) : Bool :=
  node != key.owner && node != key.origin && !holders.contains node

/-- Lighter nodes first, then by name. -/
def lighter (load : List (String × Nat)) (x y : String) : Bool :=
  loadOf load x < loadOf load y || (loadOf load x == loadOf load y && x ≤ y)

def rankTargets (live : List String) (load : List (String × Nat)) (holders : List String)
    (key : QueueKey) : List String :=
  (live.filter (mayTake holders key)).mergeSort (lighter load) ++
    if key.origin != key.owner && live.contains key.origin then [key.origin] else []

end LogShipping.Failover
