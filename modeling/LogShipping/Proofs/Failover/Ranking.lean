import LogShipping.Failover.Ranking

/-!
# The node that comes first

The nodes that may take a queue over without folding it into another are ranked by their loads, and by name
among equals. The first of them is offered the queue first. If there is none, the origin is the only one left.
-/

namespace LogShipping.Failover

/-- The one node holds less than the other, or as much and its name comes first. -/
def Before (load : String → Nat) (x y : String) : Prop := load x < load y ∨ (load x = load y ∧ x ≤ y)

instance (load : String → Nat) (x y : String) : Decidable (Before load x y) := by
  unfold Before
  infer_instance

/-- A node that may take the queue, and that comes before all others that may. -/
structure First (load : String → Nat) (eligible : String → Prop) (node : String) : Prop where
  may : eligible node
  before : ∀ other, eligible other → Before load node other

section Order

variable {load other : String → Nat} {x y z : String}

theorem Before.trans (hxy : Before load x y) (hyz : Before load y z) : Before load x z := by
  rcases hxy with hless | ⟨hsame, hle⟩
  · rcases hyz with hthen | ⟨hthen, -⟩
    · exact .inl (Nat.lt_trans hless hthen)
    · exact .inl (hthen ▸ hless)
  · rcases hyz with hthen | ⟨hthen, hafter⟩
    · exact .inl (hsame ▸ hthen)
    · exact .inr ⟨hsame.trans hthen, String.le_trans hle hafter⟩

theorem Before.total (load : String → Nat) (x y : String) : Before load x y ∨ Before load y x := by
  rcases Nat.lt_trichotomy (load x) (load y) with hless | hsame | hmore
  · exact .inl (.inl hless)
  · exact (String.le_total x y).imp (fun hle ↦ .inr ⟨hsame, hle⟩) fun hle ↦ .inr ⟨hsame.symm, hle⟩
  · exact .inr (.inl hmore)

theorem First.congr {eligible may : String → Prop} (h : First load eligible x)
    (hload : ∀ node, eligible node → load node = other node) (hmay : ∀ node, eligible node ↔ may node) :
    First other may x where
  may := (hmay x).mp h.may
  before node hnode := by
    have hnode := (hmay node).mpr hnode
    have hbefore := h.before node hnode
    rw [Before, hload x h.may, hload node hnode] at hbefore
    exact hbefore

end Order

variable {load : List (String × Nat)}

theorem lighter_iff {x y : String} : lighter load x y = true ↔ Before (loadOf load) x y := by
  simp [lighter, Before]

theorem pairwise_ranked (load : List (String × Nat)) (nodes : List String) :
    (nodes.mergeSort (lighter load)).Pairwise (Before (loadOf load)) := by
  have htrans (x y z : String) (hxy : lighter load x y = true) (hyz : lighter load y z = true) :
      lighter load x z = true :=
    lighter_iff.mpr ((lighter_iff.mp hxy).trans (lighter_iff.mp hyz))
  have htotal (x y : String) : (lighter load x y || lighter load y x) = true := by
    rw [Bool.or_eq_true, lighter_iff, lighter_iff]
    exact Before.total _ x y
  exact (List.pairwise_mergeSort htrans htotal nodes).imp lighter_iff.mp

/-- The first of the ranked nodes is the first of those that may take the queue. If there is none of them, a
live origin is the only one. -/
theorem rankTargets_cases (live : List String) (load : List (String × Nat)) (holders : List String)
    (key : QueueKey) :
    (∃ node rest, rankTargets live load holders key = node :: rest ∧
      First (loadOf load) (fun node ↦ node ∈ live ∧ mayTake holders key node = true) node) ∨
    ((∀ node ∈ live, mayTake holders key node = false) ∧
      rankTargets live load holders key =
        if key.origin ∈ live ∧ key.origin ≠ key.owner then [key.origin] else []) := by
  have hmem (node : String) : node ∈ (live.filter (mayTake holders key)).mergeSort (lighter load) ↔
      node ∈ live ∧ mayTake holders key node = true := by
    rw [List.mem_mergeSort, List.mem_filter]
  have hsorted := pairwise_ranked load (live.filter (mayTake holders key))
  rw [rankTargets]
  cases hranked : (live.filter (mayTake holders key)).mergeSort (lighter load) with
  | cons node rest =>
    rw [hranked] at hmem hsorted
    refine .inl ⟨node, _, rfl, (hmem node).mp List.mem_cons_self, fun other hother ↦ ?_⟩
    rcases List.mem_cons.mp ((hmem other).mpr hother) with rfl | hrest
    · exact .inr ⟨rfl, String.le_refl _⟩
    · exact (List.pairwise_cons.mp hsorted).1 other hrest
  | nil =>
    rw [hranked] at hmem
    refine .inr ⟨fun node hlive ↦ ?_, ?_⟩
    · rw [← Bool.not_eq_true]
      exact fun hmay ↦ List.not_mem_nil ((hmem node).mpr ⟨hlive, hmay⟩)
    · rw [List.nil_append]
      simp only [Bool.and_eq_true, bne_iff_ne, List.contains_iff_mem, and_comm]

end LogShipping.Failover
