import LogShipping.Bytes

/-!
# JSON documents

A document is a tree. An object keeps its members in the order they were written, repeated names
included, and a number keeps whether it was written as an integer, because a typed reader refuses
what is written otherwise.
-/

namespace LogShipping

namespace Json

/-- A number as written: an integer with its sign, or decimal digits times a power of ten. Minus
zero is an integer with a sign. -/
inductive Number
  | integer (negative : Bool) (magnitude : Nat)
  | real (negative : Bool) (digits : Nat) (exponent : Int)
  deriving Repr, DecidableEq

end Json

/-- A document. What holds a text that no Unicode text is spelled by is `malformed`: a reader may
pass over it, but nothing can be decoded from it. -/
inductive Json
  | null
  | bool (value : Bool)
  | number (value : Json.Number)
  | text (value : String)
  | array (items : List Json)
  | object (members : List (String × Json))
  | malformed
  deriving Repr, Inhabited

namespace Json

def nat (value : Nat) : Json := number (.integer false value)

def int (value : Int) : Json := number (.integer (value < 0) value.natAbs)

instance : Coe Nat Json := ⟨nat⟩

instance : Coe Bool Json := ⟨bool⟩

instance : Coe String Json := ⟨text⟩

/-- The octets as an array of numbers. -/
def octets (bytes : Bytes) : Json := array (bytes.map fun byte ↦ nat byte.toNat)

def ofOption {α : Type} (encode : α → Json) : Option α → Json
  | none => null
  | some value => encode value

def list {α : Type} (encode : α → Json) (values : List α) : Json := array (values.map encode)

/-- The first member of an object with a given name. -/
def member? (name : String) : Json → Option Json
  | object members => members.lookup name
  | _ => none

end Json

end LogShipping
