import LogShipping.Bytes

/-!
# CRC-32

The cyclic redundancy check of IEEE 802.3 in its reflected form. The register starts with all bits
set, takes in one octet at a time, and is complemented at the end.
-/

namespace LogShipping.Checksum.Crc32

/-- The reflected generator polynomial. -/
def polynomial : UInt32 := 0xEDB88320

/-- Division of the register by one power of the indeterminate. -/
def shift (register : UInt32) : UInt32 :=
  if register &&& 1 = 1 then (register >>> 1) ^^^ polynomial else register >>> 1

/-- The register after eight shifts. -/
def shiftOctet (register : UInt32) : UInt32 :=
  shift <| shift <| shift <| shift <| shift <| shift <| shift <| shift register

/-- The register after one more octet. -/
def absorb (register : UInt32) (byte : UInt8) : UInt32 := shiftOctet (register ^^^ byte.toUInt32)

/-- The checksum of an octet string. -/
def checksum (bytes : Bytes) : UInt32 := ~~~ bytes.foldl absorb 0xFFFFFFFF

end LogShipping.Checksum.Crc32
