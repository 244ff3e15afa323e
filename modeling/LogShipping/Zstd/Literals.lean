import LogShipping.Zstd.PrefixCode

/-!
# Literals

The first section of a compressed block holds its literals: as they are, as one octet repeated, or
coded by a prefix code, in one stream or in four. A code may be that of the block before.
-/

namespace LogShipping.Zstd.Literals

/-- What a literals section was read to: the literals, the code that later blocks may use again, and
the octets behind the section. -/
structure Section where
  literals : Bytes
  code : Option PrefixCode
  rest : Bytes

/-- Decodes four streams, the lengths of the first three in front. -/
def fourStreams? (code : PrefixCode) (count : Nat) (bytes : Bytes) : Option Bytes := do
  guard (10 ≤ bytes.length)
  let size (index : Nat) : Nat := Bytes.ofLittleEndian ((bytes.drop (2 * index)).take 2)
  let streams := bytes.drop 6
  let first := size 0
  let second := first + size 1
  let third := second + size 2
  guard (third ≤ streams.length)
  let share := (count + 3) / 4
  guard (3 * share ≤ count)
  let a ← code.decode? share (streams.take first)
  let b ← code.decode? share ((streams.take second).drop first)
  let c ← code.decode? share ((streams.take third).drop second)
  let d ← code.decode? (count - 3 * share) (streams.drop third)
  return a ++ b ++ c ++ d

/-- Literals as they are, or one octet repeated. -/
def readPlain (repeated : Bool) (limit format : Nat) (bytes : Bytes) :
    Option (Bytes × Bytes) := do
  let size := if format % 2 = 0 then 1 else if format = 1 then 2 else 3
  let header := Bytes.ofLittleEndian (bytes.take size)
  guard (size ≤ bytes.length)
  let count := if size = 1 then header / 8 else header / 16
  guard (count ≤ limit)
  let rest := bytes.drop size
  if repeated then
    match rest with
    | [] => none
    | octet :: rest => return (List.replicate count octet, rest)
  else
    guard (count ≤ rest.length)
    return (rest.take count, rest.drop count)

/-- Literals coded by a new code, or by the one before. -/
def readCoded (old : Option PrefixCode) (limit format : Nat) (bytes : Bytes) :
    Option (Bytes × PrefixCode × Bytes) := do
  guard (5 ≤ bytes.length)
  let size := if format ≤ 1 then 3 else format + 2
  let width := if format ≤ 1 then 10 else if format = 2 then 14 else 18
  let header := Bytes.ofLittleEndian (bytes.take size) / 16
  let count := header % (1 <<< width)
  let coded := header >>> width
  let rest := bytes.drop size
  guard (count ≤ limit ∧ coded ≤ rest.length ∧ (format = 0 ∨ 6 ≤ count))
  let body := rest.take coded
  let (code, streams) ← match old with
    | some code => some (code, body)
    | none => PrefixCode.read? body
  guard (0 < streams.length)
  let literals ←
    if format = 0 then code.decode? count streams else fourStreams? code count streams
  return (literals, code, rest.drop coded)

/-- Reads the section at the front of a block. -/
def read? (old : Option PrefixCode) (limit : Nat) (bytes : Bytes) : Option Section := do
  guard (2 ≤ bytes.length)
  let header := bytes.headD 0
  let format := header.toNat / 4 % 4
  match header.toNat % 4 with
  | 0 =>
    let (literals, rest) ← readPlain false limit format bytes
    return ⟨literals, old, rest⟩
  | 1 =>
    let (literals, rest) ← readPlain true limit format bytes
    return ⟨literals, old, rest⟩
  | 2 =>
    let (literals, code, rest) ← readCoded none limit format bytes
    return ⟨literals, some code, rest⟩
  | _ =>
    let code ← old
    let (literals, _, rest) ← readCoded (some code) limit format bytes
    return ⟨literals, old, rest⟩

end LogShipping.Zstd.Literals
