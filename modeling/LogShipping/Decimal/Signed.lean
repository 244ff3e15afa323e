import LogShipping.Decimal

/-!
# Reading signed numerals

A numeral of a 64-bit number with a sign is a sign or none and then digits. Digits are taken one by
one, and the first thing that is wrong with them is what is reported.
-/

namespace LogShipping.Decimal

/-- Why a text is no number of 64 bits with a sign. -/
inductive NumeralFault
  | empty
  | digit
  | tooLarge
  | tooSmall
  deriving Repr, DecidableEq

namespace NumeralFault

def message : NumeralFault → String
  | empty => "cannot parse integer from empty string"
  | digit => "invalid digit found in string"
  | tooLarge => "number too large to fit in target type"
  | tooSmall => "number too small to fit in target type"

end NumeralFault

/-- Goes on with the digits of a number that must not pass a bound. -/
def readMagnitude (bound : Nat) (beyond : NumeralFault) : (value : Nat) → List Char →
    Except NumeralFault Nat
  | value, [] => .ok value
  | value, c :: rest =>
    if c.isDigit then
      let next := 10 * value + (c.toNat - 48)
      if bound < next then .error beyond else readMagnitude bound beyond next rest
    else .error .digit

/-- The number a text is the numeral of. -/
def readSigned (text : String) : Except NumeralFault Int :=
  match text.toList with
  | [] => .error .empty
  | ['-'] => .error .digit
  | ['+'] => .error .digit
  | '-' :: digits => (readMagnitude (1 <<< 63) .tooSmall 0 digits).map fun value ↦ -(value : Int)
  | '+' :: digits => (readMagnitude ((1 <<< 63) - 1) .tooLarge 0 digits).map Int.ofNat
  | digits => (readMagnitude ((1 <<< 63) - 1) .tooLarge 0 digits).map Int.ofNat

end LogShipping.Decimal
