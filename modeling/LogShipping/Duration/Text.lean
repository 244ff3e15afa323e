import LogShipping.Duration.Basic

/-!
# Durations as text

A text such as `1h 30m` or `1.5s` names a duration: numbers, each with a unit, added up. Blanks may
stand anywhere but inside a unit, and a unit ends at a digit or a blank. A fraction has to come out in
whole nanoseconds, or in whole seconds for units of an hour and more. A lone zero needs no unit.
-/

namespace LogShipping.Duration

/-- The characters with the property White_Space. -/
def isBlank (c : Char) : Bool :=
  let code := c.toNat
  (9 ≤ code && code ≤ 13) || code == 0x20 || code == 0x85 || code == 0xA0 || code == 0x1680 ||
    (0x2000 ≤ code && code ≤ 0x200A) || code == 0x2028 || code == 0x2029 || code == 0x202F ||
    code == 0x205F || code == 0x3000

def isDigit (c : Char) : Bool := '0' ≤ c && c ≤ '9'

def digitValue (c : Char) : Nat := c.toNat - '0'.toNat

/-- The characters of units: the letters of ASCII and the micro sign. -/
def isUnitChar (c : Char) : Bool := ('a' ≤ c && c ≤ 'z') || ('A' ≤ c && c ≤ 'Z') || c == '\u00b5'

/-- The value if it fits a 64-bit word. -/
def word? (value : Nat) : Option Nat := if value < UInt64.size then some value else none

/-! ## Units -/

structure Unit where
  /-- The length of the unit, in seconds or in nanoseconds. -/
  size : Nat
  /-- The length is given in seconds. -/
  inSeconds : Bool
  /-- Fractions of the unit are counted in seconds, otherwise in nanoseconds. -/
  coarse : Bool

/-- The units by their names. -/
def unit? (name : String) : Option Unit :=
  if ["ns", "nsec", "nanos"].contains name then some ⟨1, false, false⟩
  else if ["us", "usec", "\u00b5s"].contains name then some ⟨1000, false, false⟩
  else if ["ms", "msec", "millis"].contains name then some ⟨1000000, false, false⟩
  else if ["s", "sec", "secs", "second", "seconds"].contains name then some ⟨1, true, false⟩
  else if ["m", "min", "mins", "minute", "minutes"].contains name then some ⟨60, true, false⟩
  else if ["h", "hr", "hrs", "hour", "hours"].contains name then some ⟨3600, true, true⟩
  else if ["d", "day", "days"].contains name then some ⟨86400, true, true⟩
  else if ["w", "wk", "wks", "week", "weeks"].contains name then some ⟨604800, true, true⟩
  else if ["M", "month", "months"].contains name then some ⟨2630016, true, true⟩
  else if ["y", "yr", "yrs", "year", "years"].contains name then some ⟨31557600, true, true⟩
  else none

/-- The nanoseconds of the unit. -/
def Unit.nanoseconds (unit : Unit) : Nat := if unit.inSeconds then unit.size * second else unit.size

/-- The sum of a duration, some seconds and some nanoseconds, while every part fits a word. -/
def add? (duration : Duration) (more nanos : Nat) : Option Duration := do
  let below ← word? (duration.nanoseconds + nanos)
  let whole ← word? (duration.seconds + more)
  fit? (whole * second + below)

/-- A duration and a whole number of units. -/
def addWhole? (duration : Duration) (unit : Unit) (count : Nat) : Option Duration := do
  let part ← word? (count * unit.size)
  if unit.inSeconds then add? duration part 0 else add? duration 0 part

/-- A duration and a fraction of a unit. -/
def addFraction? (duration : Duration) (unit : Unit) (numerator denominator : Nat) :
    Option Duration := do
  let size := if unit.coarse then unit.size else unit.nanoseconds
  guard (size ≠ 1 ∨ unit.coarse)
  let product ← word? (numerator * size)
  guard (product % denominator = 0)
  let part := product / denominator
  if unit.coarse then add? duration part 0 else add? duration 0 part

/-! ## Numbers -/

/-- A number in front of a unit, with its fraction if it has one, and the text from the unit on. -/
structure Amount where
  whole : Nat
  fraction : Option (Nat × Nat)
  rest : List Char

/-- The digits after the point, as a numerator and a denominator. -/
def readFraction (numerator denominator : Nat) : List Char → Option (Nat × Nat × List Char)
  | [] => some (numerator, denominator, [])
  | c :: rest => do
    if isDigit c then
      let denominator ← word? (denominator * 10)
      let numerator ← word? (numerator * 10 + digitValue c)
      readFraction numerator denominator rest
    else if isBlank c then readFraction numerator denominator rest
    else
      guard (isUnitChar c)
      return (numerator, denominator, c :: rest)

/-- The digits of a number from its second one on. -/
def readAmount (whole : Nat) : List Char → Option Amount
  | [] => some ⟨whole, none, []⟩
  | c :: rest => do
    if isDigit c then
      let whole ← word? (whole * 10 + digitValue c)
      readAmount whole rest
    else if isBlank c then readAmount whole rest
    else if c = '.' then
      let (numerator, denominator, rest) ← readFraction 0 1 rest
      guard (denominator ≠ 1)
      return ⟨whole, some (numerator, denominator), rest⟩
    else
      guard (isUnitChar c)
      return ⟨whole, none, c :: rest⟩

/-- The parts of a text, added to a duration. Each part takes at least one character. -/
def readParts : (parts : Nat) → Duration → List Char → Option Duration
  | 0, _, _ => none
  | parts + 1, sum, text =>
    match text.dropWhile isBlank with
    | [] => some sum
    | c :: rest => do
      guard (isDigit c)
      let amount ← readAmount (digitValue c) rest
      let unit ← unit? (String.ofList (amount.rest.takeWhile isUnitChar))
      let sum ← addWhole? sum unit amount.whole
      let sum ← match amount.fraction with
        | none => some sum
        | some (numerator, denominator) => addFraction? sum unit numerator denominator
      let rest := amount.rest.dropWhile isUnitChar
      guard (rest.head?.all fun c ↦ isDigit c || isBlank c)
      readParts parts sum rest

/-- The duration a text names. -/
def ofText? (text : String) : Option Duration :=
  if text = "0" then some 0
  else
    match text.toList.dropWhile isBlank with
    | [] => none
    | chars => readParts (chars.length + 1) 0 chars

/-- The duration a text names, or another if it names none. -/
def ofTextOr (fallback : Duration) (text : String) : Duration := (ofText? text).getD fallback

end LogShipping.Duration
