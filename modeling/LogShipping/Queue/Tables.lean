import LogShipping.Error
import LogShipping.Queue.Key

/-!
# The queue tables

Queues are kept in two tables: the read offset of each queue, and the files listed on each. File
numbers are stored as signed words, and the tables order them so. Every operation here is one
transaction: it answers either an error, and then nothing has changed, or the tables after it.
-/

namespace LogShipping

structure QueueTables where
  offsets : List (QueueKey × Nat)
  files : List (QueueKey × FileRef)
  deriving Repr, DecidableEq

namespace QueueTables

def empty : QueueTables := ⟨[], []⟩

/-! ## Reading -/

def offset? (tables : QueueTables) (key : QueueKey) : Option Nat := tables.offsets.lookup key

/-- The order of files in the tables, by number as a signed word. -/
def storedOrder (x y : FileRef) : Bool := x.seq.toInt64 ≤ y.seq.toInt64

/-- The files listed on a queue, in stored order. -/
def filesOf (tables : QueueTables) (key : QueueKey) : List FileRef :=
  (tables.files.filterMap fun row ↦ if row.1 = key then some row.2 else none).mergeSort storedOrder

def headSeq? (tables : QueueTables) (key : QueueKey) : Option UInt64 :=
  (tables.filesOf key).head?.map (·.seq)

def tailSeq? (tables : QueueTables) (key : QueueKey) : Option UInt64 :=
  (tables.filesOf key).getLast?.map (·.seq)

def get? (tables : QueueTables) (key : QueueKey) : Option Queue :=
  (tables.offset? key).map fun offset ↦ ⟨key, tables.filesOf key, offset⟩

/-- Every queue, in order of the keys. -/
def keys (tables : QueueTables) : List QueueKey := QueueKey.sort (tables.offsets.map (·.1))

def keysOwnedBy (tables : QueueTables) (owner : String) : List QueueKey :=
  tables.keys.filter (·.owner == owner)

def keysForPeer (tables : QueueTables) (peer : String) : List QueueKey :=
  tables.keys.filter (·.peer == peer)

/-- How many queues each owner holds, owners in order. -/
def counts (tables : QueueTables) : List (String × Nat) :=
  let owners := tables.keys.map (·.owner)
  owners.eraseDups.map fun owner ↦ (owner, owners.count owner)

def lists (tables : QueueTables) (key : QueueKey) (seq : UInt64) : Bool :=
  tables.files.any fun row ↦ row.1 == key && row.2.seq == seq

/-! ## Changing rows -/

def setOffset (tables : QueueTables) (key : QueueKey) (offset : Nat) : QueueTables :=
  { tables with
    offsets := tables.offsets.map fun row ↦ if row.1 = key then (key, offset) else row }

def addFile (tables : QueueTables) (key : QueueKey) (file : FileRef) : QueueTables :=
  { tables with files := tables.files ++ [(key, file)] }

/-- A number already listed on the queue keeps its path. -/
def addMissing (tables : QueueTables) (key : QueueKey) (file : FileRef) : QueueTables :=
  if tables.lists key file.seq then tables else tables.addFile key file

def removeFile (tables : QueueTables) (key : QueueKey) (seq : UInt64) : QueueTables :=
  { tables with files := tables.files.filter fun row ↦ !(row.1 == key && row.2.seq == seq) }

def remove (tables : QueueTables) (key : QueueKey) : QueueTables :=
  { offsets := tables.offsets.filter (·.1 != key)
    files := tables.files.filter (·.1 != key) }

def rename (tables : QueueTables) (key target : QueueKey) : QueueTables :=
  { offsets := tables.offsets.map fun row ↦ if row.1 = key then (target, row.2) else row
    files := tables.files.map fun row ↦ if row.1 = key then (target, row.2) else row }

/-! ## Operations -/

/-- The caller, who names the queue by its own name as owner, does not own it. -/
def stale (key : QueueKey) : Error := .staleOwnership key.text key.owner

/-- A file number that may be missing, as messages show it. -/
def seqText : Option UInt64 → String
  | none => "None"
  | some seq => "Some(" ++ Decimal.text seq.toNat ++ ")"

/-- Creates a queue, with a first file and the offset in it if they are given. An existing queue is
left as it is, and the answer is false. -/
def create (tables : QueueTables) (key : QueueKey) (seed : Option (FileRef × Nat)) :
    Bool × QueueTables :=
  match tables.offset? key with
  | some _ => (false, tables)
  | none =>
    match seed with
    | none => (true, { tables with offsets := tables.offsets ++ [(key, 0)] })
    | some (file, offset) =>
      (true, { tables with offsets := tables.offsets ++ [(key, offset)] }.addFile key file)

/-- Lists a file on a queue, behind those there. The last one once more changes nothing, and an older
one is refused. -/
def enqueue (tables : QueueTables) (key : QueueKey) (file : FileRef) : Outcome QueueTables :=
  match tables.offset? key with
  | none => .error (stale key)
  | some _ =>
    match tables.tailSeq? key with
    | none => .ok (tables.addFile key file)
    | some tail =>
      if tail = file.seq then .ok tables
      else if file.seq < tail then
        .error (.internal ("file " ++ Decimal.text file.seq.toNat ++ " enqueued after tail " ++
          Decimal.signed tail.toInt64.toInt ++ " on queue " ++ key.text))
      else if tables.lists key file.seq then
        .error (.store ("file " ++ Decimal.text file.seq.toNat ++ " is listed twice"))
      else .ok (tables.addFile key file)

/-- Moves the offset forward within the first file. The caller says from which offset it read; a queue
that stands elsewhere by now stays there. -/
def advance (tables : QueueTables) (key : QueueKey) (start : Nat) (target : LogPosition) :
    Outcome QueueTables :=
  match tables.offset? key with
  | none => .error (stale key)
  | some current =>
    let head := tables.headSeq? key
    if head ≠ some target.seq then
      .error (.internal ("advance on queue " ++ key.text ++ " targets file " ++
        Decimal.text target.seq.toNat ++ " but head is " ++ seqText head))
    else if target.offset < current then
      .error (.nonMonotonicOffset key.text current target.offset)
    else if target.offset = current then .ok tables
    else if start ≠ current then
      .error (.internal ("queue " ++ key.text ++ " is at offset " ++ Decimal.text current ++
        ", not " ++ Decimal.text start))
    else .ok (tables.setOffset key target.offset)

/-- Takes the first file off the queue; the next one is read from its start. -/
def finish (tables : QueueTables) (key : QueueKey) (seq : UInt64) : Outcome QueueTables :=
  match tables.offset? key with
  | none => .error (stale key)
  | some _ =>
    let head := tables.headSeq? key
    if head ≠ some seq then
      .error (.internal ("finish on queue " ++ key.text ++ " targets file " ++
        Decimal.text seq.toNat ++ " but head is " ++ seqText head))
    else .ok ((tables.removeFile key seq).setOffset key 0)

/-- The offset of a queue that two were merged into: that of the one whose first file is older, the
lower one where both begin with the same file. -/
def mergedOffset (source into : Option FileRef) (sourceOffset intoOffset : Nat) : Nat :=
  match source, into with
  | some x, some y =>
    if x.seq = y.seq then min sourceOffset intoOffset
    else if x.seq.toInt64 < y.seq.toInt64 then sourceOffset
    else intoOffset
  | some _, none => sourceOffset
  | none, _ => intoOffset

/-- Folds one queue into another and deletes it. -/
def merge (tables : QueueTables) (source : QueueKey) (sourceOffset : Nat) (into : QueueKey)
    (intoOffset : Nat) : QueueTables :=
  let sourceFiles := tables.filesOf source
  let offset := mergedOffset sourceFiles.head? (tables.filesOf into).head? sourceOffset intoOffset
  let joined := sourceFiles.foldl (fun tables file ↦ tables.addMissing into file) tables
  (joined.setOffset into offset).remove source

/-- Hands a queue to another owner. Where that owner is the origin and has its own queue for the peer,
the queue is folded into it; any other owner that holds a queue of the same slot is refused. -/
def handOver (tables : QueueTables) (key : QueueKey) (newOwner : String) : Outcome QueueTables :=
  let target := key.withOwner newOwner
  match tables.offset? key with
  | none => .error (.staleOwnership key.text newOwner)
  | some offset =>
    match tables.offset? target with
    | none => .ok (tables.rename key target)
    | some there =>
      if target.isRecovered then
        .error (.internal (newOwner ++ " already holds queue " ++ key.peer ++ "/" ++ key.origin))
      else .ok (tables.merge key offset target there)

/-- Deletes a queue with its files, and answers whether there was one. -/
def drop (tables : QueueTables) (key : QueueKey) : Bool × QueueTables :=
  ((tables.offset? key).isSome, tables.remove key)

end QueueTables

end LogShipping
