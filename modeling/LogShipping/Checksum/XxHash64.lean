import LogShipping.Bytes

/-!
# XXH64

The 64-bit XXH hash with seed zero. Input of at least 32 octets is taken in four lanes of eight
octets each, the lanes are merged, and what is left is folded in by eight, by four and one by one.
-/

namespace LogShipping.Checksum.XxHash64

def prime₁ : UInt64 := 0x9E3779B185EBCA87
def prime₂ : UInt64 := 0xC2B2AE3D27D4EB4F
def prime₃ : UInt64 := 0x165667B19E3779F9
def prime₄ : UInt64 := 0x85EBCA77C2B2AE63
def prime₅ : UInt64 := 0x27D4EB2F165667C5

def rotate (word amount : UInt64) : UInt64 := (word <<< amount) ||| (word >>> (64 - amount))

/-- One lane after one more word. -/
def round (lane word : UInt64) : UInt64 := rotate (lane + word * prime₂) 31 * prime₁

/-- The hash after taking in one of the four lanes. -/
def merge (hash lane : UInt64) : UInt64 := (hash ^^^ round 0 lane) * prime₁ + prime₄

structure Lanes where
  a : UInt64
  b : UInt64
  c : UInt64
  d : UInt64

namespace Lanes

def start : Lanes := ⟨prime₁ + prime₂, prime₂, 0, 0 - prime₁⟩

def hash (lanes : Lanes) : UInt64 :=
  let sum := rotate lanes.a 1 + rotate lanes.b 7 + rotate lanes.c 12 + rotate lanes.d 18
  merge (merge (merge (merge sum lanes.a) lanes.b) lanes.c) lanes.d

end Lanes

def word (bytes : Bytes) : UInt64 := UInt64.ofNat (Bytes.ofLittleEndian bytes)

/-- The lanes after every whole block of 32 octets, and the octets left over. -/
def absorb (lanes : Lanes) (bytes : Bytes) : Lanes × Bytes :=
  if bytes.length < 32 then (lanes, bytes)
  else
    absorb
      ⟨round lanes.a (word (bytes.take 8)), round lanes.b (word ((bytes.drop 8).take 8)),
        round lanes.c (word ((bytes.drop 16).take 8)), round lanes.d (word ((bytes.drop 24).take 8))⟩
      (bytes.drop 32)
termination_by bytes.length
decreasing_by simp only [List.length_drop]; omega

def finishOctet (hash : UInt64) (byte : UInt8) : UInt64 :=
  rotate (hash ^^^ (byte.toUInt64 * prime₅)) 11 * prime₁

/-- The octets after the last whole word of eight. -/
def finishTail (hash : UInt64) (bytes : Bytes) : UInt64 :=
  if bytes.length < 4 then bytes.foldl finishOctet hash
  else
    let hash := rotate (hash ^^^ (word (bytes.take 4) * prime₁)) 23 * prime₂ + prime₃
    (bytes.drop 4).foldl finishOctet hash

def finish (hash : UInt64) (bytes : Bytes) : UInt64 :=
  if bytes.length < 8 then finishTail hash bytes
  else
    finish (rotate (hash ^^^ round 0 (word (bytes.take 8))) 27 * prime₁ + prime₄) (bytes.drop 8)
termination_by bytes.length
decreasing_by simp only [List.length_drop]; omega

def avalanche (hash : UInt64) : UInt64 :=
  let hash := (hash ^^^ (hash >>> 33)) * prime₂
  let hash := (hash ^^^ (hash >>> 29)) * prime₃
  hash ^^^ (hash >>> 32)

/-- The hash of an octet string. -/
def hash (bytes : Bytes) : UInt64 :=
  let length := bytes.length
  let start := if length < 32 then (prime₅, bytes) else
    let (lanes, rest) := absorb Lanes.start bytes
    (lanes.hash, rest)
  avalanche (finish (start.1 + UInt64.ofNat length) start.2)

end LogShipping.Checksum.XxHash64
