import LogShipping.Log.File

/-!
# Queues

A queue lists the files of one node's log that still have to be shipped to one peer, oldest first,
with the offset reached in the first of them. It is known by three names: the node that owns it now,
the peer, and the node whose log it reads. A queue owned by another node than the one it reads from
was recovered after that node's death.
-/

namespace LogShipping

structure QueueKey where
  owner : String
  peer : String
  origin : String
  deriving Repr, DecidableEq

namespace QueueKey

/-- A node's queue of its own log for a peer. -/
def own (node peer : String) : QueueKey := ⟨node, peer, node⟩

def isRecovered (key : QueueKey) : Bool := key.owner != key.origin

def withOwner (key : QueueKey) (owner : String) : QueueKey := { key with owner }

/-- Both keys stand for queues of the same log to the same peer. -/
def sameSlot (x y : QueueKey) : Bool := x.peer == y.peer && x.origin == y.origin

def text (key : QueueKey) : String := key.peer ++ "/" ++ key.origin ++ "@" ++ key.owner

def order (x y : QueueKey) : Ordering :=
  (compare x.owner y.owner).then ((compare x.peer y.peer).then (compare x.origin y.origin))

def sort (keys : List QueueKey) : List QueueKey := keys.mergeSort fun x y ↦ order x y != .gt

end QueueKey

/-- One queue as it stands. -/
structure Queue where
  key : QueueKey
  files : List FileRef
  /-- The offset reached in the first file. -/
  offset : Nat
  deriving Repr, DecidableEq

namespace Queue

def head? (queue : Queue) : Option FileRef := queue.files.head?

def position? (queue : Queue) : Option LogPosition :=
  queue.head?.map fun file ↦ ⟨file.seq, queue.offset⟩

/-- Another file follows the first. -/
def hasNext (queue : Queue) : Bool := 1 < queue.files.length

end Queue

end LogShipping
