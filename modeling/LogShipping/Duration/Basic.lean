/-!
# Durations

A duration is a whole number of nanoseconds whose whole seconds fit a 64-bit word. Sums and products
that do not fit have no value.
-/

namespace LogShipping

/-- A duration in nanoseconds. -/
abbrev Duration := Nat

namespace Duration

def second : Duration := 1000000000

def millisecond : Duration := 1000000

/-- The first duration whose seconds do not fit a 64-bit word. -/
def bound : Duration := UInt64.size * second

def ofSeconds (seconds : Nat) : Duration := seconds * second

def ofMilliseconds (milliseconds : Nat) : Duration := milliseconds * millisecond

def seconds (duration : Duration) : Nat := duration / second

def nanoseconds (duration : Duration) : Nat := duration % second

def milliseconds (duration : Duration) : Nat := duration / millisecond

/-- The value if it is a duration at all. -/
def fit? (nanoseconds : Nat) : Option Duration :=
  if nanoseconds < bound then some nanoseconds else none

/-- A multiple of a duration, if it fits. -/
def times? (duration : Duration) (factor : Nat) : Option Duration := fit? (duration * factor)

end Duration

end LogShipping
