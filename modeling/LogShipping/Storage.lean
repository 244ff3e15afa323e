import LogShipping.Feed
import LogShipping.Log.File

/-!
# Log storage

What a node's storage engine tells of its log: which file is being written and how much of it is
committed, and notices of files begun and of commits.
-/

namespace LogShipping

inductive LogEvent
  | rolled (file : FileRef)
  | appended (seq : UInt64) (length : Nat)
  deriving Repr, DecidableEq

structure Storage where
  /-- The file being written and its committed length. -/
  active : Option (FileRef × Nat)
  /-- The number of the next file. -/
  next : UInt64
  feed : Feed LogEvent
  deriving Repr, DecidableEq

namespace Storage

/-- How many notices are kept for readers that fall behind. -/
def feedCapacity : Nat := 1024

/-- A storage that has not written anything, with the number of its first file. -/
def create (first : UInt64) : Storage := ⟨none, first, .empty feedCapacity⟩

/-- The next file of a node begins to be written; the one before it is closed. -/
def roll (storage : Storage) (node : String) (silent : Bool) : FileRef × Storage :=
  let file : FileRef := ⟨storage.next, logFileName node storage.next⟩
  (file,
    { active := some (file, 0)
      next := storage.next + 1
      feed := if silent then storage.feed else storage.feed.announce (.rolled file) })

/-- Readers may read the active file up to this length. -/
def commit (storage : Storage) (length : Nat) : Storage :=
  match storage.active with
  | none => storage
  | some (file, _) =>
    { storage with
      active := some (file, length)
      feed := storage.feed.announce (.appended file.seq length) }

end Storage

end LogShipping
