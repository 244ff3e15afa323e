/-!
# Replication scope

Only cells of families with global scope ever leave the cluster. A schema tells the scope of every family of
every table; one way to give it is to name the families that have global scope.
-/

namespace LogShipping

inductive Scope
  | confined
  | global
  deriving Repr, DecidableEq, Inhabited

namespace Scope

def name : Scope → String
  | confined => "local"
  | global => "global"

def ofName? (name : String) : Option Scope :=
  if name = "local" then some confined else if name = "global" then some global else none

end Scope

/-- The scope of each family of a table, as the application has it. -/
structure Schema where
  scope : (table family : String) → Scope

namespace Schema

def isGlobal (schema : Schema) (table family : String) : Bool := schema.scope table family = .global

/-- The schema in which the named families have global scope. A name is that of a family, in whatever table, or
that of a table and a family with a colon between them. -/
def ofNames (names : List String) : Schema where
  scope table family :=
    if names.contains family || names.contains (table ++ ":" ++ family) then .global else .confined

/-- The names after one is added to them or taken from them, and whether that is a change. -/
def rename (names : List String) (name : String) (global : Bool) : Bool × List String :=
  if names.contains name = global then (false, names)
  else (true, if global then names ++ [name] else names.filter (· != name))

end Schema

end LogShipping
