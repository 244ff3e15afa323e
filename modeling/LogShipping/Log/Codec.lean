import LogShipping.Error
import LogShipping.Json.Reader
import LogShipping.Json.Writer
import LogShipping.Log.Entry
import LogShipping.Log.Frame

/-!
# The stored form of an entry

An entry is stored as a frame whose payload is the entry's JSON document. A stretch of log is decoded
frame after frame: a payload that is no entry does not stop it, since the next frame's place is known,
but what is no whole frame does.
-/

namespace LogShipping

namespace Entry

/-- The JSON text of an entry. -/
def payload (entry : Entry) : Bytes := Json.write entry.toJson

def encode (entry : Entry) : Bytes := Frame.encode entry.payload

def decode (payload : Bytes) : Outcome Entry :=
  match (Json.read? payload).bind ofJson? with
  | some entry => .ok entry
  | none => .error (.log "decode entry: the payload is no entry")

end Entry

namespace Log

/-- Why a stretch of log ends. -/
inductive Ending
  | incomplete
  | corrupt (fault : Frame.Fault)
  deriving Repr, DecidableEq

/-- The frames of a stretch of log. -/
structure Stretch where
  frames : List (Nat × Outcome Entry)
  ending : Ending
  left : Nat

/-- The whole frames at the front of the octets, each with the octets it takes. -/
def decodeStretch (bytes : Bytes) : Stretch :=
  match _whole : Frame.decode bytes with
  | .incomplete => ⟨[], .incomplete, bytes.length⟩
  | .corrupt fault => ⟨[], .corrupt fault, bytes.length⟩
  | .complete payload consumed =>
    let rest := decodeStretch (bytes.drop consumed)
    ⟨(consumed, Entry.decode payload) :: rest.frames, rest.ending, rest.left⟩
termination_by bytes.length
decreasing_by
  have bounds := Frame.consumed_of_decode _whole
  simp only [List.length_drop, Frame.headerSize] at *
  omega

end Log

end LogShipping
