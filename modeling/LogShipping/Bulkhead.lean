import LogShipping.Decimal

/-!
# Bulkheads

A bulkhead lets a fixed number of users in at a time. Whoever finds no place waits in line, and a place
that is given back goes to the first in line.
-/

namespace LogShipping

structure Bulkhead (α : Type) where
  capacity : Nat
  users : List α
  line : List α
  deriving Repr, DecidableEq

namespace Bulkhead

variable {α : Type} [BEq α]

/-- The most places there can be. -/
def maxCapacity : Nat := (1 <<< 61) - 1

/-- An empty bulkhead with at least one place. -/
def create? (capacity : Nat) : Option (Bulkhead α) :=
  if capacity ≤ maxCapacity then some ⟨max capacity 1, [], []⟩ else none

def available (bulkhead : Bulkhead α) : Nat := bulkhead.capacity - bulkhead.users.length

def isFull (bulkhead : Bulkhead α) : Bool := bulkhead.available == 0

def holds (bulkhead : Bulkhead α) (user : α) : Bool := bulkhead.users.contains user

/-- What is said to one who found no place. -/
def fullMessage (bulkhead : Bulkhead α) : String :=
  "bulkhead full: max " ++ Decimal.text bulkhead.capacity ++ " concurrent operations"

/-- Lets a user in if there is a place now. -/
def tryEnter (bulkhead : Bulkhead α) (user : α) : Bool × Bulkhead α :=
  if bulkhead.isFull then (false, bulkhead)
  else (true, { bulkhead with users := bulkhead.users ++ [user] })

/-- Lets a user in, or puts it in line unless it stands there already. -/
def enter (bulkhead : Bulkhead α) (user : α) : Bulkhead α :=
  if bulkhead.holds user || bulkhead.line.contains user then bulkhead
  else
    match bulkhead.tryEnter user with
    | (true, bulkhead) => bulkhead
    | (false, bulkhead) => { bulkhead with line := bulkhead.line ++ [user] }

/-- Gives free places to the first in line. -/
def fill (bulkhead : Bulkhead α) : Bulkhead α :=
  { bulkhead with
    users := bulkhead.users ++ bulkhead.line.take bulkhead.available
    line := bulkhead.line.drop bulkhead.available }

/-- Lets a user go, from its place or from the line. -/
def leave (bulkhead : Bulkhead α) (user : α) : Bulkhead α :=
  fill { bulkhead with users := bulkhead.users.erase user, line := bulkhead.line.erase user }

end Bulkhead

end LogShipping
