/-!
# Feeds

A feed announces notices to readers that each go through them at their own pace. It keeps only the
latest ones. A reader that fell behind is told so, and goes on with the oldest one that is kept.
-/

namespace LogShipping

structure Feed (α : Type) where
  capacity : Nat
  /-- How many notices are no longer kept. -/
  forgotten : Nat
  kept : List α
  deriving Repr, DecidableEq

namespace Feed

variable {α : Type}

def empty (capacity : Nat) : Feed α := ⟨capacity, 0, []⟩

/-- The place of a reader that has seen everything so far. -/
def place (feed : Feed α) : Nat := feed.forgotten + feed.kept.length

def announce (feed : Feed α) (notice : α) : Feed α :=
  let kept := feed.kept ++ [notice]
  let surplus := kept.length - feed.capacity
  { feed with forgotten := feed.forgotten + surplus, kept := kept.drop surplus }

def announceAll (feed : Feed α) (notices : List α) : Feed α := notices.foldl announce feed

/-- What a reader at a place finds next. -/
inductive Next (α : Type)
  | nothing
  | notice (value : α) (place : Nat)
  | behind (place : Nat)

def next (feed : Feed α) (place : Nat) : Next α :=
  if place < feed.forgotten then .behind feed.forgotten
  else
    match feed.kept[place - feed.forgotten]? with
    | some value => .notice value (place + 1)
    | none => .nothing

end Feed

end LogShipping
