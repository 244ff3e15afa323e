import LogShipping.Bytes

/-!
# Decimal numerals

The decimal numeral of a natural number has no leading zero. `digits` writes it in octets, `text` as
a string, `padded` with zeros in front up to a width, and `ofDigits` reads a run of digits back.
-/

namespace LogShipping.Decimal

/-- The octet of the digit of a value below ten. -/
def digit (value : Nat) : UInt8 := UInt8.ofNat (48 + value)

/-- Whether an octet is one of the ten digits. -/
def isDigit (byte : UInt8) : Bool := 48 ≤ byte && byte ≤ 57

/-- The value of a digit's octet. -/
def digitValue (byte : UInt8) : Nat := byte.toNat - 48

def digits (value : Nat) : Bytes :=
  if value < 10 then [digit value] else digits (value / 10) ++ [digit (value % 10)]
termination_by value

/-- The number a run of digits stands for. -/
def ofDigits (run : Bytes) : Nat := run.foldl (fun value byte ↦ 10 * value + digitValue byte) 0

def chars (value : Nat) : List Char :=
  if value < 10 then [Char.ofNat (48 + value)]
  else chars (value / 10) ++ [Char.ofNat (48 + value % 10)]
termination_by value

/-- The numeral as text. -/
def text (value : Nat) : String := String.ofList (chars value)

/-- The numeral with zeros in front, at least `width` digits long. -/
def padded (width value : Nat) : String :=
  String.ofList (List.replicate (width - (chars value).length) '0' ++ chars value)

/-- The numeral of an integer, with a minus sign when it is negative. -/
def signed (value : Int) : String :=
  if value < 0 then "-" ++ text value.natAbs else text value.natAbs

/-- The lower-case hexadecimal numeral of a 32-bit word, eight digits long. -/
def word (value : UInt32) : String := Bytes.hex (Bytes.bigEndian 4 value.toNat)

end LogShipping.Decimal
