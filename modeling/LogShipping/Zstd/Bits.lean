import LogShipping.Bytes

/-!
# Bit strings

Compressed data are read bit by bit, some from the front of a stretch of octets, some from its end. A
bit string lists the bits in the order they are read.
-/

namespace LogShipping.Zstd

abbrev Bits := List Bool

namespace Bits

/-- The bits of an octet, the lowest first. -/
def ofOctet (byte : UInt8) : Bits := (List.range 8).map byte.toNat.testBit

/-- The bits of octets, read from the front. -/
def forward (bytes : Bytes) : Bits := bytes.flatMap ofOctet

/-- The bits of octets, read from the end. The highest bit set in the last octet only marks where they
begin, so that octet must not be zero. -/
def backward? (bytes : Bytes) : Option Bits :=
  match bytes.getLast? with
  | none => none
  | some last => if last = 0 then none else some ((forward bytes).reverse.dropWhile (!·)).tail

/-- The number spelled by the first bits, the lowest bit first. Bits that are missing are zero. -/
def peekLow : (width : Nat) → Bits → Nat
  | 0, _ => 0
  | _, [] => 0
  | width + 1, bit :: rest => bit.toNat + 2 * peekLow width rest

/-- Takes the number spelled by the first bits, the highest bit first. -/
def takeHigh? : (width : Nat) → (value : Nat) → Bits → Option (Nat × Bits)
  | 0, value, bits => some (value, bits)
  | _ + 1, _, [] => none
  | width + 1, value, bit :: rest => takeHigh? width (2 * value + bit.toNat) rest

/-- Takes a number of the given width, the highest bit first. -/
def take? (width : Nat) (bits : Bits) : Option (Nat × Bits) := takeHigh? width 0 bits

end Bits

end LogShipping.Zstd
