import LogShipping.Duration.Float

/-!
# Retrying connections

How often and after which waits a connection is tried again. The wait grows by a factor from one
attempt to the next, up to a ceiling.
-/

namespace LogShipping

structure RetryPolicy where
  attempts : Nat
  first : Duration
  ceiling : Duration
  factor : Float
  /-- How long one attempt may take. -/
  deadline : Duration

namespace RetryPolicy

def standard : RetryPolicy :=
  ⟨3, Duration.ofMilliseconds 100, Duration.ofSeconds 2, 2.0, Duration.ofSeconds 5⟩

/-- Few attempts and short waits. -/
def brisk : RetryPolicy :=
  ⟨2, Duration.ofMilliseconds 10, Duration.ofMilliseconds 100, 2.0, Duration.ofMilliseconds 500⟩

/-- The product of `product` with a power of `base`, by repeated squaring. -/
def powerBy (product base : Float) (exponent : Nat) : Float :=
  if exponent = 0 then product
  else
    let product := if exponent % 2 = 1 then product * base else product
    powerBy product (base * base) (exponent / 2)
termination_by exponent
decreasing_by omega

/-- A power with an integer exponent; a negative one gives the reciprocal. -/
def power (base : Float) (exponent : Int) : Float :=
  let result := powerBy 1.0 base exponent.natAbs
  if exponent < 0 then 1.0 / result else result

/-- The wait after a failed attempt, the first being number one. The exponent is a 32-bit word. There
is no wait where the product is no duration. -/
def delay? (policy : RetryPolicy) (attempt : Nat) : Option Duration :=
  if attempt = 0 then some policy.first
  else
    let exponent := Int.bmod (attempt - 1) UInt32.size
    (Duration.ofFloat? (policy.first.toFloat * power policy.factor exponent)).map
      (min · policy.ceiling)

end RetryPolicy

end LogShipping
