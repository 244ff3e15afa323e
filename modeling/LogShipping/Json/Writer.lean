import LogShipping.Decimal
import LogShipping.Json.Basic

/-!
# Writing JSON

A document is written without blanks, members in their order. In a text the quotation mark, the
backslash and the control octets are escaped and every other octet of its UTF-8 form stands for
itself.
-/

namespace LogShipping.Json

/-- The octets that stand for one octet of a text. -/
def escape (byte : UInt8) : Bytes :=
  if byte = 0x22 then [0x5C, 0x22]
  else if byte = 0x5C then [0x5C, 0x5C]
  else if byte = 0x08 then [0x5C, 0x62]
  else if byte = 0x0C then [0x5C, 0x66]
  else if byte = 0x0A then [0x5C, 0x6E]
  else if byte = 0x0D then [0x5C, 0x72]
  else if byte = 0x09 then [0x5C, 0x74]
  else if byte < 0x20 then
    [0x5C, 0x75, 0x30, 0x30, 0x30 + byte / 16, if byte % 16 < 10 then 0x30 + byte % 16 else 0x57 + byte % 16]
  else [byte]

/-- A quoted text. -/
def writeText (text : String) : Bytes := 0x22 :: (Bytes.ofText text).flatMap escape ++ [0x22]

def writeSign (negative : Bool) : Bytes := if negative then [0x2D] else []

def writeNumber : Number → Bytes
  | .integer negative magnitude => writeSign negative ++ Decimal.digits magnitude
  | .real negative digits exponent =>
    writeSign negative ++ Decimal.digits digits ++ 0x65 :: writeSign (exponent < 0) ++
      Decimal.digits exponent.natAbs

mutual

/-- The octets of a document. -/
def write : Json → Bytes
  | null => Bytes.ofText "null"
  | bool true => Bytes.ofText "true"
  | bool false => Bytes.ofText "false"
  | number value => writeNumber value
  | text value => writeText value
  | array [] => [0x5B, 0x5D]
  | array (item :: items) => 0x5B :: write item ++ writeItems items
  | object [] => [0x7B, 0x7D]
  | object ((name, value) :: members) =>
    0x7B :: writeText name ++ 0x3A :: write value ++ writeMembers members
  | malformed => Bytes.ofText "null"

/-- The items of an array after its first, and its end. -/
def writeItems : List Json → Bytes
  | [] => [0x5D]
  | item :: items => 0x2C :: write item ++ writeItems items

/-- The members of an object after its first, and its end. -/
def writeMembers : List (String × Json) → Bytes
  | [] => [0x7D]
  | (name, value) :: members => 0x2C :: writeText name ++ 0x3A :: write value ++ writeMembers members

end

end LogShipping.Json
