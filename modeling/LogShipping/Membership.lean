/-!
# Cluster membership

Which nodes are alive. A change is announced only when it is one. Liveness is what a detector reports
when it is asked, and for a while that may differ from the list of live nodes: reports laid down in
advance are given first, one for each question.
-/

namespace LogShipping

inductive MembershipEvent
  | joined (node : String)
  | died (node : String)
  deriving Repr, DecidableEq

structure Membership where
  /-- The live nodes, in order. -/
  live : List String
  /-- Reports to be given before the list of live nodes is looked at. -/
  reports : List (String × List Bool)
  deriving Repr, DecidableEq

namespace Membership

def empty : Membership := ⟨[], []⟩

def insertSorted (node : String) : List String → List String
  | [] => [node]
  | other :: rest => if node < other then node :: other :: rest else other :: insertSorted node rest

def join (membership : Membership) (node : String) : Membership × List MembershipEvent :=
  if membership.live.contains node then (membership, [])
  else ({ membership with live := insertSorted node membership.live }, [.joined node])

def markDead (membership : Membership) (node : String) : Membership × List MembershipEvent :=
  if membership.live.contains node then
    ({ membership with live := membership.live.filter (· != node) }, [.died node])
  else (membership, [])

/-- The next reports on a node are these. -/
def expect (membership : Membership) (node : String) (answers : List Bool) : Membership :=
  { membership with reports := (node, answers) :: membership.reports.filter (·.1 != node) }

/-- Asks whether a node is alive. -/
def isAlive (membership : Membership) (node : String) : Bool × Membership :=
  match membership.reports.lookup node with
  | some (answer :: rest) => (answer, membership.expect node rest)
  | _ => (membership.live.contains node, membership)

end Membership

end LogShipping
