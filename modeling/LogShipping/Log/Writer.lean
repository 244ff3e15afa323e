import LogShipping.Log.Codec
import LogShipping.Log.Directory

/-!
# Writing a log file

A writer creates a node's file of a given number, emptying one that is there, and appends framed
entries. The length it answers after each is the length that readers may read up to. A node whose id begins
with a slash has no files in the directory.
-/

namespace LogShipping.Log

structure Writer where
  file : FileRef
  /-- The name within the directory. -/
  name : String
  length : Nat
  deriving Repr, DecidableEq

namespace Writer

def create (directory : Directory) (node : String) (seq : UInt64) : Outcome (Writer × Directory) :=
  let path := Path.join "." (logFileName node seq)
  match directory.create path with
  | .error fault => .error (.file fault)
  | .ok (name, directory) => .ok (⟨⟨seq, path⟩, name, 0⟩, directory)

def append (writer : Writer) (directory : Directory) (entry : Entry) : Writer × Directory :=
  let frame := entry.encode
  ({ writer with length := writer.length + frame.length }, directory.append writer.name frame)

def isEmpty (writer : Writer) : Bool := writer.length == 0

end Writer

end LogShipping.Log
