import LogShipping.Metrics
import LogShipping.Report.Store

/-!
# Reports on metrics

JSON documents that show samples, and the sums of counts by the values of their labels.
-/

namespace LogShipping.Report

/-- A finite double in decimal digits, all of them. -/
def double (value : Float) : Json :=
  let (fraction, exponent) := value.abs.frExp
  let digits := (fraction * 9007199254740992).toUInt64.toNat
  let power := exponent - 53
  .number <| if 0 ≤ power then .real (value < 0) (digits <<< power.toNat) 0
    else .real (value < 0) (digits * Nat.pow 5 power.natAbs) power

def kindAndValue : Metrics.Value → String × Json
  | .count amount => ("counter", .nat amount)
  | .level value => ("gauge", double value)
  | .observation value => ("histogram", double value)

def sample (sample : Metrics.Sample) : Json :=
  let (kind, value) := kindAndValue sample.value
  record [("kind", kind), ("name", sample.name), ("value", value),
    ("labels", record (sample.labels.map fun (name, label) ↦ (name, label)))]

/-- The sums of the counts of one name. -/
def total (name : String) (measures : List Measure) : Json := counts (Metrics.totals name measures)

end LogShipping.Report
