import LogShipping.Decimal
import LogShipping.Json.Decode

/-!
# Log files

A node writes its log to a series of files numbered by 64-bit words. This module holds the name of a
file, the reference to one by number and path, and a position within one. References are ordered by
number and then by the components of the path.
-/

namespace LogShipping

/-! ## Paths -/

namespace Path

/-- One step of a path. The root, and a dot in front, are steps; a dot elsewhere is none. -/
inductive Component
  | root
  | current
  | parent
  | normal (name : String)
  deriving Repr, DecidableEq

namespace Component

/-- The kinds of steps in their order. -/
def rank : Component → Nat
  | root => 0
  | current => 1
  | parent => 2
  | normal _ => 3

def order : Component → Component → Ordering
  | normal x, normal y => compare x y
  | x, y => compare x.rank y.rank

end Component

/-- The path of a name in a directory. A name that begins with a slash is a path of its own. -/
def join (directory name : String) : String := if name.startsWith "/" then name else directory ++ "/" ++ name

/-- The texts between slashes. -/
def splitSlashes : List Char → List (List Char)
  | [] => [[]]
  | c :: rest =>
    if c = '/' then [] :: splitSlashes rest
    else
      match splitSlashes rest with
      | [] => [[c]]
      | part :: parts => (c :: part) :: parts

def step? (part : String) : Option Component :=
  if part = "" ∨ part = "." then none
  else if part = ".." then some .parent
  else some (.normal part)

def components (path : String) : List Component :=
  let parts := (splitSlashes path.toList).map String.ofList
  let start : List Component :=
    if path.startsWith "/" then [.root] else if parts.head? = some "." then [.current] else []
  start ++ parts.filterMap step?

def orderComponents : List Component → List Component → Ordering
  | [], [] => .eq
  | [], _ :: _ => .lt
  | _ :: _, [] => .gt
  | x :: xs, y :: ys => (x.order y).then (orderComponents xs ys)

def order (x y : String) : Ordering := orderComponents (components x) (components y)

end Path

/-! ## References and positions -/

/-- A log file, by its number and where it lies. -/
structure FileRef where
  seq : UInt64
  path : String
  deriving Repr, DecidableEq

namespace FileRef

def order (x y : FileRef) : Ordering := (compare x.seq y.seq).then (Path.order x.path y.path)

/-- The references in order; those that no step of their paths tells apart stay as they were. -/
def sort (files : List FileRef) : List FileRef := files.mergeSort fun x y ↦ order x y != .gt

def toJson (file : FileRef) : Json :=
  .object [("seq", .nat file.seq.toNat), ("path", .text file.path)]

def ofJson? (json : Json) : Option FileRef := do
  let fields ← Json.fields? ["seq", "path"] json
  let seq ← fields.required "seq" Json.uint64?
  let path ← fields.required "path" Json.text?
  return { seq, path }

end FileRef

/-- An offset in a numbered file. -/
structure LogPosition where
  seq : UInt64
  offset : Nat
  deriving Repr, DecidableEq

namespace LogPosition

def zero : LogPosition := ⟨0, 0⟩

def text (position : LogPosition) : String :=
  Decimal.text position.seq.toNat ++ ":" ++ Decimal.text position.offset

def order (x y : LogPosition) : Ordering :=
  (compare x.seq y.seq).then (compare x.offset y.offset)

def sort (positions : List LogPosition) : List LogPosition :=
  positions.mergeSort fun x y ↦ order x y != .gt

end LogPosition

/-- The name of the file a node gives a number. -/
def logFileName (node : String) (seq : UInt64) : String :=
  node ++ "." ++ Decimal.padded 10 seq.toNat ++ ".wal"

end LogShipping
