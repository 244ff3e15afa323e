import LogShipping.Checksum.Crc32
import LogShipping.Decimal

/-!
# Frames

Each record of a log file is a frame: the length of its payload and the payload's checksum, each in
four octets with the low one first, and the payload. Decoding tells a whole record from one that ends
early and from one that cannot be right.
-/

namespace LogShipping.Frame

/-- The size of the length and the checksum. -/
def headerSize : Nat := 8

/-- The largest payload a reader accepts. -/
def maxPayload : Nat := 64 * 1024 * 1024

/-- The length is written modulo 2³². -/
def encode (payload : Bytes) : Bytes :=
  Bytes.littleEndian 4 payload.length ++
    (Bytes.littleEndian 4 (Checksum.Crc32.checksum payload).toNat ++ payload)

/-- What makes a frame impossible. -/
inductive Fault
  | oversize (length : Nat)
  | checksum (stored computed : UInt32)
  deriving Repr, DecidableEq

namespace Fault

def message : Fault → String
  | oversize length => "record length " ++ Decimal.text length ++ " exceeds maximum"
  | checksum stored computed =>
    "checksum mismatch: stored " ++ Decimal.word stored ++ ", computed " ++ Decimal.word computed

end Fault

/-- What the octets at hand tell of the frame they begin with. -/
inductive Decoded
  | complete (payload : Bytes) (consumed : Nat)
  | incomplete
  | corrupt (fault : Fault)
  deriving Repr, DecidableEq

/-- The payload length in a header. -/
def payloadLength (bytes : Bytes) : Nat := Bytes.ofLittleEndian (bytes.take 4)

/-- The checksum in a header. -/
def storedChecksum (bytes : Bytes) : UInt32 :=
  UInt32.ofNat (Bytes.ofLittleEndian ((bytes.drop 4).take 4))

def decode (bytes : Bytes) : Decoded :=
  let length := payloadLength bytes
  let consumed := headerSize + length
  if bytes.length < headerSize then .incomplete
  else if maxPayload < length then .corrupt (.oversize length)
  else if bytes.length < consumed then .incomplete
  else
    let payload := (bytes.drop headerSize).take length
    let stored := storedChecksum bytes
    let computed := Checksum.Crc32.checksum payload
    if computed = stored then .complete payload consumed else .corrupt (.checksum stored computed)

/-- A whole frame takes at least its header, and no more octets than there are. -/
theorem consumed_of_decode {bytes payload : Bytes} {consumed : Nat}
    (h : decode bytes = .complete payload consumed) :
    headerSize ≤ consumed ∧ consumed ≤ bytes.length := by
  simp only [decode] at h
  split at h <;> try contradiction
  split at h <;> try contradiction
  split at h <;> try contradiction
  next short =>
    split at h
    · injection h with _ size
      omega
    · contradiction

end LogShipping.Frame
