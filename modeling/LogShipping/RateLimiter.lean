import LogShipping.Duration.Basic

/-!
# Rate limiting

Tokens come at a steady interval and gather up to a burst. The limiter keeps only the time at which the
next token would be due if every token had been taken on time: a token may be taken as early as one
burst before it is due.
-/

namespace LogShipping

structure RateLimiter where
  interval : Duration
  burst : Nat
  /-- When the next token is due, once one was asked for. -/
  due : Option Nat
  deriving Repr, DecidableEq

namespace RateLimiter

/-- A limiter with so many tokens at once and so many a second, either at least one. -/
def create (burst perSecond : Nat) : RateLimiter :=
  ⟨Duration.second / max perSecond 1, max burst 1, none⟩

/-- How far ahead of its due time a token may be taken. -/
def tolerance (limiter : RateLimiter) : Nat := limiter.interval * limiter.burst

/-- When the next token is due, seen from a point in time. -/
def dueAt (limiter : RateLimiter) (now : Nat) : Nat := limiter.due.getD (now + limiter.interval)

/-- The earliest time at which the next token can be taken. -/
def ready (limiter : RateLimiter) (now : Nat) : Nat := limiter.dueAt now - limiter.tolerance

/-- The limiter after a token was taken. -/
def spend (limiter : RateLimiter) (now : Nat) : RateLimiter :=
  { limiter with due := some (max (limiter.dueAt now) now + limiter.interval) }

/-- Takes a token if there is one now. -/
def take (limiter : RateLimiter) (now : Nat) : Bool × RateLimiter :=
  if limiter.ready now ≤ now then (true, limiter.spend now) else (false, limiter)

/-- Takes tokens one after the other, waiting for each, but not beyond a deadline. The answer tells
whether all were taken; those that were stay taken. -/
def takeMany (now deadline : Nat) : (count : Nat) → RateLimiter → Bool × RateLimiter
  | 0, limiter => (true, limiter)
  | count + 1, limiter =>
    let time := max now (limiter.ready now)
    if deadline < time then (false, limiter) else takeMany time deadline count (limiter.spend time)

end RateLimiter

end LogShipping
