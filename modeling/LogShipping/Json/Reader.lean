import LogShipping.Decimal
import LogShipping.Json.Basic

/-!
# Reading JSON

The reader takes octets. It accepts exactly the grammar of JSON, at any depth. Whether a text is
Unicode is decided after its end has been found, so a text that is not makes the value holding it
`malformed` and does not stop the reader.
-/

namespace LogShipping.Json

def isBlank (byte : UInt8) : Bool := byte == 0x20 || byte == 0x0A || byte == 0x0D || byte == 0x09

def skipBlanks (bytes : Bytes) : Bytes := bytes.dropWhile isBlank

/-! ## Texts -/

/-- One element of a quoted text: an octet, or a unit of UTF-16 written by its number. -/
inductive Piece
  | octet (byte : UInt8)
  | unit (value : Nat)
  deriving Repr, DecidableEq

/-- The value of an octet that is a hexadecimal digit. -/
def hexValue? (byte : UInt8) : Option Nat := Bytes.hexValue? (Char.ofNat byte.toNat)

/-- The number four hexadecimal digits stand for. -/
def hexUnit? (a b c d : UInt8) : Option Nat := do
  let a ← hexValue? a
  let b ← hexValue? b
  let c ← hexValue? c
  let d ← hexValue? d
  return ((a * 16 + b) * 16 + c) * 16 + d

/-- The octet that a single letter after a backslash stands for. -/
def unescape? (letter : UInt8) : Option UInt8 :=
  if letter = 0x22 ∨ letter = 0x5C ∨ letter = 0x2F then some letter
  else if letter = 0x62 then some 0x08
  else if letter = 0x66 then some 0x0C
  else if letter = 0x6E then some 0x0A
  else if letter = 0x72 then some 0x0D
  else if letter = 0x74 then some 0x09
  else none

/-- The pieces of a text up to its closing quotation mark, and what follows it. The opening mark has
been read. -/
def pieces : Bytes → Option (List Piece × Bytes)
  | [] => none
  | 0x22 :: rest => some ([], rest)
  | 0x5C :: 0x75 :: a :: b :: c :: d :: rest => do
    let value ← hexUnit? a b c d
    let (more, rest) ← pieces rest
    return (.unit value :: more, rest)
  | 0x5C :: letter :: rest => do
    let byte ← unescape? letter
    let (more, rest) ← pieces rest
    return (.octet byte :: more, rest)
  | byte :: rest => do
    guard (0x20 ≤ byte ∧ byte ≠ 0x5C)
    let (more, rest) ← pieces rest
    return (.octet byte :: more, rest)

/-- The UTF-8 octets of a character given by its number. -/
def utf8 (code : Nat) : Bytes := Bytes.ofText (Char.ofNat code).toString

/-- The octets the pieces spell. A unit of the upper surrogate half is followed at once by one of the
lower half, which appears nowhere else. -/
def joinPieces : List Piece → Option Bytes
  | [] => some []
  | .octet byte :: rest => return byte :: (← joinPieces rest)
  | .unit high :: .unit low :: rest =>
    if 0xD800 ≤ high ∧ high < 0xDC00 then do
      guard (0xDC00 ≤ low ∧ low < 0xE000)
      return utf8 (0x10000 + (high - 0xD800) * 0x400 + (low - 0xDC00)) ++ (← joinPieces rest)
    else do
      guard (¬(0xDC00 ≤ high ∧ high < 0xE000))
      return utf8 high ++ (← joinPieces (.unit low :: rest))
  | .unit value :: rest => do
    guard (¬(0xD800 ≤ value ∧ value < 0xE000))
    return utf8 value ++ (← joinPieces rest)

/-- The text that pieces spell, if they spell one. -/
def textOf? (parts : List Piece) : Option String := (joinPieces parts).bind Bytes.text?

/-! ## Numbers -/

/-- The digits at the front, at least one, and what follows them. -/
def digitRun (bytes : Bytes) : Option (Bytes × Bytes) :=
  match bytes.takeWhile Decimal.isDigit with
  | [] => none
  | run => some (run, bytes.dropWhile Decimal.isDigit)

/-- The fraction at the front, if there is one. -/
def fraction : Bytes → Option (Option Bytes × Bytes)
  | 0x2E :: rest => (digitRun rest).map fun (run, rest) ↦ (some run, rest)
  | bytes => some (none, bytes)

/-- The exponent at the front, if there is one. -/
def exponent : Bytes → Option (Option Int × Bytes)
  | [] => some (none, [])
  | mark :: rest =>
    if mark = 0x65 ∨ mark = 0x45 then
      match rest with
      | 0x2D :: rest => (digitRun rest).map fun (run, rest) ↦ (some (-(Decimal.ofDigits run : Int)), rest)
      | 0x2B :: rest => (digitRun rest).map fun (run, rest) ↦ (some (Decimal.ofDigits run : Int), rest)
      | rest => (digitRun rest).map fun (run, rest) ↦ (some (Decimal.ofDigits run : Int), rest)
    else some (none, mark :: rest)

/-- An unsigned number at the front. Its integer part has no leading zero. -/
def magnitude (negative : Bool) (bytes : Bytes) : Option (Number × Bytes) := do
  let (whole, rest) ← digitRun bytes
  guard (whole.head? ≠ some 0x30 ∨ whole.length = 1)
  let (part, rest) ← fraction rest
  let (power, rest) ← exponent rest
  match part, power with
  | none, none => return (.integer negative (Decimal.ofDigits whole), rest)
  | part, power =>
    let part := part.getD []
    return (.real negative (Decimal.ofDigits (whole ++ part)) (power.getD 0 - part.length), rest)

def readNumber : Bytes → Option (Number × Bytes)
  | 0x2D :: rest => magnitude true rest
  | bytes => magnitude false bytes

/-! ## Documents -/

/-- What follows a word at the front. -/
def word? (word : String) (bytes : Bytes) : Option Bytes :=
  let word := Bytes.ofText word
  if bytes.take word.length = word then some (bytes.drop word.length) else none

/-- A member with a name: a name that is no text spoils the object. -/
def addMember (name : Option String) (value rest : Json) : Json :=
  match name, rest with
  | some name, .object members => .object ((name, value) :: members)
  | _, _ => .malformed

mutual

/-- A value at the front, blanks before it skipped. Every call takes one unit of fuel. -/
def readValue : (fuel : Nat) → Bytes → Option (Json × Bytes)
  | 0, _ => none
  | fuel + 1, bytes =>
    match skipBlanks bytes with
    | [] => none
    | 0x22 :: rest => do
      let (parts, rest) ← pieces rest
      return ((textOf? parts).elim .malformed .text, rest)
    | 0x5B :: rest =>
      match skipBlanks rest with
      | 0x5D :: rest => some (.array [], rest)
      | rest => do
        let (items, rest) ← readItems fuel rest
        return (.array items, rest)
    | 0x7B :: rest =>
      match skipBlanks rest with
      | 0x7D :: rest => some (.object [], rest)
      | rest => readMembers fuel rest
    | 0x6E :: rest => (word? "ull" rest).map fun rest ↦ (.null, rest)
    | 0x74 :: rest => (word? "rue" rest).map fun rest ↦ (.bool true, rest)
    | 0x66 :: rest => (word? "alse" rest).map fun rest ↦ (.bool false, rest)
    | rest => do
      let (value, rest) ← readNumber rest
      return (.number value, rest)

/-- The items of an array from one of them on, through its end. -/
def readItems : (fuel : Nat) → Bytes → Option (List Json × Bytes)
  | 0, _ => none
  | fuel + 1, bytes => do
    let (item, rest) ← readValue fuel bytes
    match skipBlanks rest with
    | 0x5D :: rest => return ([item], rest)
    | 0x2C :: rest =>
      let (items, rest) ← readItems fuel rest
      return (item :: items, rest)
    | _ => none

/-- The members of an object from one of them on, through its end, as an object. -/
def readMembers : (fuel : Nat) → Bytes → Option (Json × Bytes)
  | 0, _ => none
  | fuel + 1, bytes =>
    match skipBlanks bytes with
    | 0x22 :: rest => do
      let (parts, rest) ← pieces rest
      match skipBlanks rest with
      | 0x3A :: rest =>
        let (value, rest) ← readValue fuel rest
        match skipBlanks rest with
        | 0x7D :: rest => return (addMember (textOf? parts) value (.object []), rest)
        | 0x2C :: rest =>
          let (members, rest) ← readMembers fuel rest
          return (addMember (textOf? parts) value members, rest)
        | _ => none
      | _ => none
    | _ => none

end

/-- Fuel for a text: each octet pays for one value and one place in an array or object. -/
def fuelFor (bytes : Bytes) : Nat := 2 * bytes.length + 2

/-- The document that the octets spell, blanks around it allowed. -/
def read? (bytes : Bytes) : Option Json := do
  let (value, rest) ← readValue (fuelFor bytes) bytes
  guard ((skipBlanks rest).isEmpty)
  return value

end LogShipping.Json
