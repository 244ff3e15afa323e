import LogShipping.Json.Basic

/-!
# Decoding records from JSON

A record is given as an object or as the array of its fields in their order. In an object unknown
members are passed over and a field given twice is refused. In an array only fields at the end may be
left out. Integers are taken only where they are written as integers and lie in the range asked for.
-/

namespace LogShipping.Json

/-- How a record was given, which decides what a missing field may mean. -/
inductive Layout
  | named
  | positional
  deriving Repr, DecidableEq

/-- What was given for each declared field of a record, in declaration order. -/
structure Fields where
  layout : Layout
  values : List (String × Option Json)

/-- The values of all members of one name. -/
def membersNamed (name : String) (members : List (String × Json)) : List Json :=
  members.filterMap fun entry ↦ if entry.1 = name then some entry.2 else none

/-- The declared fields of a record. -/
def fields? (names : List String) : Json → Option Fields
  | .object members => do
    let values ← names.mapM fun name ↦
      match membersNamed name members with
      | [] => some (name, none)
      | [value] => some (name, some value)
      | _ => none
    return ⟨.named, values⟩
  | .array items => do
    guard (items.length ≤ names.length)
    let padded := items.map some ++ List.replicate (names.length - items.length) none
    return ⟨.positional, names.zip padded⟩
  | _ => none

namespace Fields

def value? (fields : Fields) (name : String) : Option Json := (fields.values.lookup name).join

/-- A field that has to be given. -/
def required {α : Type} (fields : Fields) (name : String) (decode : Json → Option α) : Option α :=
  (fields.value? name).bind decode

/-- A field with a value to take when it is left out. -/
def defaulted {α : Type} (fields : Fields) (name : String) (value : α) (decode : Json → Option α) :
    Option α :=
  match fields.value? name with
  | none => some value
  | some json => decode json

end Fields

def natBelow? (bound : Nat) : Json → Option Nat
  | .number (.integer false magnitude) => if magnitude < bound then some magnitude else none
  | _ => none

def uint8? (json : Json) : Option UInt8 := (natBelow? UInt8.size json).map UInt8.ofNat

def uint32? (json : Json) : Option UInt32 := (natBelow? UInt32.size json).map UInt32.ofNat

def uint64? (json : Json) : Option UInt64 := (natBelow? UInt64.size json).map UInt64.ofNat

/-- A signed integer of 64 bits. Minus zero is none. -/
def int64? : Json → Option Int64
  | .number (.integer false magnitude) =>
    if magnitude < 1 <<< 63 then some (Int64.ofInt magnitude) else none
  | .number (.integer true magnitude) =>
    if 0 < magnitude ∧ magnitude ≤ 1 <<< 63 then some (Int64.ofInt (-magnitude)) else none
  | _ => none

def bool? : Json → Option Bool
  | .bool value => some value
  | _ => none

def text? : Json → Option String
  | .text value => some value
  | _ => none

def listOf? {α : Type} (decode : Json → Option α) : Json → Option (List α)
  | .array items => items.mapM decode
  | _ => none

def octets? : Json → Option Bytes := listOf? uint8?

def optional? {α : Type} (decode : Json → Option α) : Json → Option (Option α)
  | .null => some none
  | json => (decode json).map some

/-- The name of a constant of an enumeration: its text, or an object that gives it the value null. -/
def constant? : Json → Option String
  | .text name => some name
  | .object [(name, .null)] => some name
  | _ => none

end LogShipping.Json
