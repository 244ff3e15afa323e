import LogShipping.Proofs.Failover.Ranking
import Mathlib.Data.List.Nodup

/-!
# The order in which a queue is offered

All coordinators that see the same live nodes, loads and holders offer a queue to the same nodes in the same
order, however the live nodes are listed. The nodes that may take it without folding it into another come by
load and name, and a live origin that is not the owner comes behind them.
-/

namespace LogShipping.Failover

/-- The one node holds less than the other, or as much under a smaller name. -/
def Ahead (load : String → Nat) (x y : String) : Prop := load x < load y ∨ (load x = load y ∧ x < y)

instance (load : String → Nat) (x y : String) : Decidable (Ahead load x y) := by
  unfold Ahead
  infer_instance

/-- The nodes that may take a queue without folding it into another, each once, by load and name. -/
structure Ranked (live : List String) (load : String → Nat) (holders : List String) (key : QueueKey)
    (nodes : List String) : Prop where
  mem : ∀ node, node ∈ nodes ↔ node ∈ live ∧ node ≠ key.owner ∧ node ≠ key.origin ∧ node ∉ holders
  ordered : nodes.Pairwise (Ahead load)

section Order

variable {load : String → Nat} {x y : String}

theorem Ahead.ne (h : Ahead load x y) : x ≠ y := by
  rintro rfl
  rcases h with hless | ⟨-, hless⟩
  · exact Nat.lt_irrefl _ hless
  · exact String.lt_irrefl x hless

theorem Ahead.asymm (h : Ahead load x y) : ¬Ahead load y x := by
  rcases h with hless | ⟨hsame, hless⟩
  · rintro (hmore | ⟨hsame, -⟩) <;> omega
  · rintro (hmore | ⟨-, hmore⟩)
    · omega
    · exact String.lt_asymm hless hmore

theorem Before.ahead (h : Before load x y) (hne : x ≠ y) : Ahead load x y := by
  rcases h with hless | ⟨hsame, hle⟩
  · exact .inl hless
  · refine .inr ⟨hsame, Decidable.byContradiction fun hnot ↦ hne ?_⟩
    exact String.le_antisymm hle (String.not_lt.mp hnot)

end Order

section Ranked

variable {live other : List String} {load : String → Nat} {holders : List String} {key : QueueKey}
  {nodes more : List String}

theorem Ranked.nodup (h : Ranked live load holders key nodes) : nodes.Nodup :=
  h.ordered.imp fun hahead ↦ hahead.ne

/-- Membership and order leave no choice. -/
theorem Ranked.unique (h : Ranked live load holders key nodes) (hmore : Ranked other load holders key more)
    (hlive : ∀ node, node ∈ live ↔ node ∈ other) : nodes = more := by
  have hmem (node : String) : node ∈ nodes ↔ node ∈ more := by rw [h.mem, hmore.mem, hlive]
  have hperm : nodes.Perm more := (List.perm_ext_iff_of_nodup h.nodup hmore.nodup).mpr hmem
  exact hperm.eq_of_pairwise (fun x y _ _ hxy hyx ↦ absurd hyx hxy.asymm) h.ordered hmore.ordered

theorem mayTake_iff {node : String} :
    mayTake holders key node = true ↔ node ≠ key.owner ∧ node ≠ key.origin ∧ node ∉ holders := by
  simp [mayTake, and_assoc]

/-- Sorting the nodes that may take the queue ranks them. -/
theorem ranked_mergeSort (hlive : live.Nodup) (load : List (String × Nat)) (holders : List String)
    (key : QueueKey) :
    Ranked live (loadOf load) holders key ((live.filter (mayTake holders key)).mergeSort (lighter load)) := by
  constructor
  · intro node
    rw [List.mem_mergeSort, List.mem_filter, mayTake_iff]
  · have hnodup : ((live.filter (mayTake holders key)).mergeSort (lighter load)).Nodup :=
      (List.mergeSort_perm _ _).nodup_iff.mpr (hlive.filter _)
    have hsorted := pairwise_ranked load (live.filter (mayTake holders key))
    exact (List.pairwise_and_iff.mpr ⟨hsorted, hnodup⟩).imp fun ⟨hbefore, hne⟩ ↦ hbefore.ahead hne

end Ranked

/-- A live origin comes last unless it is the owner. -/
theorem rankTargets_eq (live : List String) (load : List (String × Nat)) (holders : List String)
    (key : QueueKey) :
    rankTargets live load holders key =
      (live.filter (mayTake holders key)).mergeSort (lighter load) ++
        if key.origin ∈ live ∧ key.origin ≠ key.owner then [key.origin] else [] := by
  simp only [rankTargets, Bool.and_eq_true, bne_iff_ne, List.contains_iff_mem, and_comm]

/-- The targets are the live nodes but the owner, the origin and the holders, each once, by load and name, and
behind them the origin if it lives and is not the owner. No other list of those nodes is in this order, and the
order in which the live nodes are listed makes no difference. -/
theorem rankTargets_exact {live : List String} (hlive : live.Nodup) (load : List (String × Nat))
    (holders : List String) (key : QueueKey) :
    (∃ nodes, rankTargets live load holders key =
        nodes ++ (if key.origin ∈ live ∧ key.origin ≠ key.owner then [key.origin] else []) ∧
      Ranked live (loadOf load) holders key nodes ∧ nodes.Nodup ∧
      ∀ more, Ranked live (loadOf load) holders key more → more = nodes) ∧
    ∀ other, other.Perm live → rankTargets other load holders key = rankTargets live load holders key := by
  have hranked := ranked_mergeSort hlive load holders key
  refine ⟨⟨_, rankTargets_eq live load holders key, hranked, hranked.nodup, fun more hmore ↦ ?_⟩,
    fun other hperm ↦ ?_⟩
  · exact hmore.unique hranked fun _ ↦ Iff.rfl
  · have hother := ranked_mergeSort (hperm.nodup_iff.mpr hlive) load holders key
    rw [rankTargets_eq, rankTargets_eq, hother.unique hranked fun node ↦ hperm.mem_iff]
    simp only [hperm.mem_iff]

/-- Node "rs-6" holds nothing, "rs-4" and "rs-7" hold as much, "rs-5" holds a queue of the slot, and "rs-1" may
take the queue back. -/
theorem rankTargets_recovered :
    let live := ["rs-7", "rs-4", "rs-1", "rs-5", "rs-3", "rs-6"]
    let load := [("rs-3", 2), ("rs-4", 1), ("rs-7", 1)]
    live.Nodup ∧ ∀ other, other.Perm live →
      rankTargets other load ["rs-5"] ⟨"rs-2", "2", "rs-1"⟩ = ["rs-6", "rs-4", "rs-7", "rs-3", "rs-1"] := by
  intro live load
  have hlive : live.Nodup := by decide
  obtain ⟨⟨nodes, htargets, -, -, hunique⟩, hperm⟩ :=
    rankTargets_exact hlive load ["rs-5"] ⟨"rs-2", "2", "rs-1"⟩
  have hnodes : ["rs-6", "rs-4", "rs-7", "rs-3"] = nodes := by
    refine hunique _ ⟨fun node ↦ ?_, by decide⟩
    simp only [live, List.mem_cons, List.not_mem_nil, or_false]
    grind
  refine ⟨hlive, fun other hother ↦ ?_⟩
  rw [hperm other hother, htargets, ← hnodes]
  rfl

end LogShipping.Failover
