import LogShipping.Checksum.XxHash64
import LogShipping.Zstd.Sequences

/-!
# Frames

Compressed data are frames one after another. A frame says how large a window it needs and, if it
knows, how large its content is; then come blocks, each with octets as they are, with one octet
repeated, or compressed; a checksum may follow the last. Frames to be skipped may stand in between.
Anything that is not whole has no content.

`Zstd.store` writes a frame that only holds octets as they are, and `Zstd.decompress?` reads it back.
-/

namespace LogShipping.Zstd

/-- What a frame begins with. -/
def magic : Bytes := [0x28, 0xB5, 0x2F, 0xFD]

/-- The most octets a block may stand for. -/
def maxBlock : Nat := 128 * 1024

/-- The largest window a frame may ask for. -/
def maxWindow : Nat := (1 <<< 27) + 1

/-! ## Headers -/

structure Header where
  window : Nat
  size : Option Nat
  checked : Bool
  deriving Repr, DecidableEq

namespace Header

/-- The most octets that a block of the frame may stand for. -/
def blockLimit (header : Header) : Nat := min header.window maxBlock

/-- The window that one octet describes: a power of two and some eighths of it. -/
def windowOf (octet : UInt8) : Nat :=
  let base := 1 <<< (octet.toNat / 8 + 10)
  base + base / 8 * (octet.toNat % 8)

/-- A number of the given width at the front of the octets. -/
def number? (width : Nat) (bytes : Bytes) : Option (Nat × Bytes) :=
  if width ≤ bytes.length then some (Bytes.ofLittleEndian (bytes.take width), bytes.drop width)
  else none

/-- Reads the header behind the magic octets. A frame that needs a dictionary is refused, since there
is none. -/
def read? : Bytes → Option (Header × Bytes)
  | [] => none
  | descriptor :: rest => do
    let flags := descriptor.toNat
    guard (flags / 8 % 2 = 0)
    let whole : Bool := flags / 32 % 2 = 1
    let (window, rest) ←
      if whole then some (0, rest)
      else (number? 1 rest).map fun (octet, rest) ↦ (windowOf (UInt8.ofNat octet), rest)
    let (dictionary, rest) ← number? ([0, 1, 2, 4].getD (flags % 4) 0) rest
    guard (dictionary = 0)
    let width := if flags / 64 = 0 then whole.toNat else 1 <<< (flags / 64)
    let (size, rest) ← number? width rest
    let size := if width = 2 then size + 256 else size
    let window := if whole then size else window
    guard (window ≤ maxWindow)
    let known := width ≠ 0 ∧ size ≠ UInt64.size - 1
    return (⟨window, if known then some size else none, flags / 4 % 2 = 1⟩, rest)

end Header

/-! ## Blocks -/

/-- What one block leaves for the next: all that the frame has written, and what may be used again. -/
structure Progress where
  written : Array UInt8
  code : Option PrefixCode
  tables : Option Tables
  recent : Recent

namespace Progress

def start : Progress := ⟨#[], none, none, .start⟩

/-- Writes what a compressed block stands for. -/
def expand? (progress : Progress) (limit : Nat) (body : Bytes) : Option Progress := do
  let literals ← Literals.read? progress.code limit body
  let (run, tables) ←
    Sequences.execute? progress.tables ⟨progress.written, literals.literals, progress.recent⟩
      literals.rest
  guard (run.written.size - progress.written.size ≤ limit)
  return ⟨run.written, literals.code, tables, run.recent⟩

/-- Writes octets as they are. -/
def append (progress : Progress) (octets : Bytes) : Progress :=
  { progress with written := octets.foldl Array.push progress.written }

end Progress

/-- Goes through the blocks of a frame. Each takes at least its header, so the octets bound the turns.
Answers the octets behind the last block. -/
def blocks? (limit : Nat) : (turns : Nat) → Progress → Bytes → Option (Progress × Bytes)
  | 0, _, _ => none
  | turns + 1, progress, bytes => do
    let (header, rest) ← Header.number? 3 bytes
    let size := header / 8
    guard (size ≤ limit)
    let (progress, rest) ← match header / 2 % 4 with
      | 0 =>
        if size ≤ rest.length then some (progress.append (rest.take size), rest.drop size) else none
      | 1 =>
        match rest with
        | [] => none
        | octet :: rest => some (progress.append (List.replicate size octet), rest)
      | 2 =>
        if size ≤ rest.length then
          (progress.expand? limit (rest.take size)).map (·, rest.drop size)
        else none
      | _ => none
    if header % 2 = 1 then return (progress, rest) else blocks? limit turns progress rest

/-! ## Streams of frames -/

/-- The checksum of a frame's content: the lower half of its hash. -/
def checksum (content : Bytes) : Nat := (Checksum.XxHash64.hash content).toNat % UInt32.size

/-- Reads the frame behind the magic octets, and answers its content and the octets behind it. -/
def frame? (bytes : Bytes) : Option (Bytes × Bytes) := do
  let (header, rest) ← Header.read? bytes
  let (progress, rest) ← blocks? header.blockLimit bytes.length .start rest
  let content := progress.written.toList
  guard (header.size.all (· = progress.written.size))
  if header.checked then
    let (stored, rest) ← Header.number? 4 rest
    guard (stored = checksum content)
    return (content, rest)
  else return (content, rest)

/-- Skips the frame behind the magic octets of one to be skipped. -/
def skip? (bytes : Bytes) : Option Bytes := do
  let (size, rest) ← Header.number? 4 bytes
  guard (size ≤ rest.length)
  return rest.drop size

/-- The contents of frames one after another. Each takes at least its magic octets. -/
def frames? : (turns : Nat) → Bytes → Option Bytes
  | 0, bytes => if bytes.isEmpty then some [] else none
  | turns + 1, bytes =>
    match bytes with
    | [] => some []
    | 0x28 :: 0xB5 :: 0x2F :: 0xFD :: rest => do
      let (content, rest) ← frame? rest
      let more ← frames? turns rest
      return content ++ more
    | first :: 0x2A :: 0x4D :: 0x18 :: rest => do
      guard (first.toNat / 16 = 5)
      let rest ← skip? rest
      frames? turns rest
    | _ => none

def decompress? (bytes : Bytes) : Option Bytes := frames? bytes.length bytes

/-! ## Writing -/

/-- A block with octets as they are. -/
def storedBlock (last : Bool) (octets : Bytes) : Bytes :=
  Bytes.littleEndian 3 (last.toNat + 8 * octets.length) ++ octets

/-- The blocks of some content, full ones before the last. -/
def storedBlocks : (turns : Nat) → Bytes → Bytes
  | 0, content => storedBlock true content
  | turns + 1, content =>
    if content.length ≤ maxBlock then storedBlock true content
    else storedBlock false (content.take maxBlock) ++ storedBlocks turns (content.drop maxBlock)

/-- A frame with octets as they are, in a window of one full block. -/
def store (content : Bytes) : Bytes := magic ++ [0x00, 0x38] ++ storedBlocks content.length content

end LogShipping.Zstd
