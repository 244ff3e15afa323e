import LogShipping.Duration.Basic

/-!
# Durations as floating-point seconds

A duration becomes the double of its seconds plus that of its nanoseconds over a billion. A double
becomes the nearest whole number of nanoseconds, a half going to the even neighbour; a negative one,
one too large, and what is no number have no duration.
-/

namespace LogShipping.Duration

def toFloat (duration : Duration) : Float :=
  (UInt64.ofNat duration.seconds).toFloat + (UInt64.ofNat duration.nanoseconds).toFloat / 1000000000

/-- The quotient rounded to the nearest integer, a half to the even neighbour. -/
def roundDiv (numerator denominator : Nat) : Nat :=
  let quotient := numerator / denominator
  let rest := 2 * (numerator % denominator)
  if rest < denominator then quotient
  else if denominator < rest then quotient + 1
  else quotient + quotient % 2

/-- A finite double as a sign, a significand and a power of two. -/
structure Binary where
  negative : Bool
  significand : Nat
  exponent : Int

/-- The parts of a double, unless it is infinite or no number. -/
def Binary.ofFloat? (value : Float) : Option Binary :=
  let bits : Nat := value.toBits.toNat
  let negative := 1 <<< 63 ≤ bits
  let biased : Nat := (bits >>> 52) % 2048
  let fraction : Nat := bits % (1 <<< 52)
  if biased = 2047 then none
  else if biased = 0 then some ⟨negative, fraction, -1074⟩
  else some ⟨negative, (1 <<< 52) + fraction, (biased : Int) - 1075⟩

/-- The duration of so many seconds. -/
def ofFloat? (value : Float) : Option Duration := do
  let binary ← Binary.ofFloat? value
  guard (!binary.negative || binary.significand == 0)
  let scaled := binary.significand * second
  if 0 ≤ binary.exponent then fit? (scaled <<< binary.exponent.toNat)
  else fit? (roundDiv scaled (1 <<< (-binary.exponent).toNat))

end LogShipping.Duration
