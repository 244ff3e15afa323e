import LogShipping.Log.Codec
import LogShipping.Log.Directory

/-!
# Reading a log file

A reader goes through a file entry by entry, from an offset on. Its position is the offset just past
the last entry it answered; its cursor is where it reads next. Both agree except after an error, which
leaves the cursor behind the octets that were consumed. A record that is not whole, or that a limit
does not yet admit, puts the cursor back to the position, so that the next call meets it again.
-/

namespace LogShipping.Log

structure Reader where
  path : String
  cursor : Nat
  position : Nat
  limit : Option Nat
  truncated : Bool
  deriving Repr, DecidableEq

namespace Reader

/-- The largest offset a file can be opened at. -/
def maxOffset : Nat := (1 <<< 63) - 1

/-- A reader at an offset, which may lie behind the end of the file. -/
def start (path : String) (offset : Nat) (limit : Option Nat) : Reader :=
  ⟨path, offset, offset, limit, false⟩

def openAt (directory : Directory) (path : String) (offset : Nat) (limit : Option Nat) :
    Outcome Reader :=
  match directory.open? path with
  | .error fault => .error (.file fault)
  | .ok _ =>
    if maxOffset < offset then .error (.file .invalidInput) else .ok (start path offset limit)

/-- A record of the given size at the position would end behind the limit. -/
def exceeds (reader : Reader) (size : Nat) : Bool :=
  match reader.limit with
  | none => false
  | some limit => limit < reader.position + size

def rewind (reader : Reader) : Reader := { reader with cursor := reader.position }

/-- The record at the position ends early. -/
def tear (reader : Reader) : Reader := { reader.rewind with truncated := true }

def corrupt (reader : Reader) (detail : String) : Error :=
  .log (reader.path ++ " at offset " ++ Decimal.text reader.position ++ ": " ++ detail)

/-- The answer for the octets of one record, and the reader behind them. -/
def settle (reader : Reader) (frame : Bytes) : Outcome (Option Entry) × Reader :=
  let passed := { reader with cursor := reader.cursor + frame.length }
  match Frame.decode frame with
  | .incomplete => (.ok none, reader.tear)
  | .corrupt fault => (.error (reader.corrupt fault.message), passed)
  | .complete payload consumed =>
    match Entry.decode payload with
    | .error error => (.error (reader.corrupt error.message), passed)
    | .ok entry => (.ok (some entry), { passed with position := reader.position + consumed })

/-- The next entry of a file with the given content, or none at the end of what can be read. -/
def next (content : Bytes) (reader : Reader) : Outcome (Option Entry) × Reader :=
  if reader.exceeds Frame.headerSize then (.ok none, reader)
  else
    let rest := content.drop reader.cursor
    let header := rest.take Frame.headerSize
    if header.isEmpty then (.ok none, reader)
    else if header.length < Frame.headerSize then (.ok none, reader.tear)
    else
      let length := Frame.payloadLength header
      if Frame.maxPayload < length then reader.settle header
      else if reader.exceeds (Frame.headerSize + length) then (.ok none, reader.rewind)
      else reader.settle (rest.take (Frame.headerSize + length))

/-- The octets that one call to the file system asks for. -/
def block : Nat := 8192

/-- The next entry of what a path was opened to. Of a directory nothing can be read, and neither can a
block that would end behind the largest offset. -/
def nextFrom (source : Directory.Source) (reader : Reader) : Outcome (Option Entry) × Reader :=
  if reader.exceeds Frame.headerSize then (.ok none, reader)
  else
    match source with
    | .folder => (.error (.file .isDirectory), reader)
    | .file content =>
      if maxOffset < reader.cursor + block then (.error (.file .invalidInput), reader)
      else reader.next content

end Reader

end LogShipping.Log
