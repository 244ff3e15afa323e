import LogShipping.Proofs.Failover.Ranking
import LogShipping.Proofs.Failover.Rivals
import LogShipping.Proofs.Queue.Atomicity

/-!
# What a pass knows of the cluster

A pass looks up the queues and the loads of the nodes once, and keeps both up with its own moves. With nobody
else at the database it knows of every other node which queues it holds. The loads it knows but for one thing.
A queue that goes back to its origin is taken for one that is folded into the origin's own and does not count;
where the origin has none of its own, it becomes one, and the origin holds a queue more than the pass reckons.
-/

namespace LogShipping

/-! ## Counting queues -/

namespace QueueTables

variable {tables after : QueueTables} {key other target : QueueKey} {node : String}

/-- How many queues a node holds. -/
def heldBy (tables : QueueTables) (node : String) : Nat := (tables.keysOwnedBy node).length

theorem mem_keys : key ∈ tables.keys ↔ (tables.offset? key).isSome = true := by
  have hkeys : key ∈ tables.keys ↔ key ∈ tables.offsets.map (·.1) := List.mem_mergeSort
  rw [hkeys, Option.isSome_iff_ne_none, ne_eq, offset?_eq_none_iff, Decidable.not_not]

theorem WellFormed.nodup_keys (wf : tables.WellFormed) : tables.keys.Nodup :=
  (List.mergeSort_perm _ _).nodup_iff.mpr wf.keys_nodup

/-- A queue that is handed to another owner stands under its new name, and all others where they did. -/
theorem isSome_offset?_handOver (hover : tables.handOver key node = .ok after) (hne : node ≠ key.owner) :
    (after.offset? other).isSome = true ↔
      other = key.withOwner node ∨ (other ≠ key ∧ (tables.offset? other).isSome = true) := by
  have hself : key.withOwner node ≠ key := fun h ↦ hne (QueueStore.withOwner_eq_self_iff.mp h)
  obtain ⟨offset, hoffset, ⟨habsent, rfl⟩ | ⟨there, hthere, -, rfl⟩⟩ := handOver_eq_ok_iff.mp hover
  · rw [offset?_rename habsent]
    by_cases htarget : other = key.withOwner node
    · simp [htarget, hoffset]
    · by_cases hkey : other = key <;> simp [htarget, hkey, hself.symm]
  · rw [merge, offset?_remove, offset?_setOffset, offset?_foldl_addMissing, offset?_foldl_addMissing, hthere]
    by_cases htarget : other = key.withOwner node
    · simp [htarget, hself]
    · by_cases hkey : other = key <;> simp [htarget, hkey, hself.symm]

section Counts

variable {condition : QueueKey → Bool}

theorem countP_keys_congr (wf : tables.WellFormed) (hafter : after.WellFormed)
    (h : ∀ other, condition other = true →
      ((after.offset? other).isSome = true ↔ (tables.offset? other).isSome = true)) :
    after.keys.countP condition = tables.keys.countP condition := by
  rw [List.countP_eq_length_filter, List.countP_eq_length_filter]
  refine List.Perm.length_eq ?_
  rw [List.perm_ext_iff_of_nodup (hafter.nodup_keys.filter _) (wf.nodup_keys.filter _)]
  intro other
  rw [List.mem_filter, List.mem_filter, mem_keys, mem_keys]
  exact and_congr_left (h other)

theorem countP_keys_succ (wf : tables.WellFormed) (hafter : after.WellFormed)
    (htarget : condition target = true) (habsent : tables.offset? target = none)
    (h : ∀ other, condition other = true →
      ((after.offset? other).isSome = true ↔ other = target ∨ (tables.offset? other).isSome = true)) :
    after.keys.countP condition = tables.keys.countP condition + 1 := by
  have hnew : target ∉ tables.keys := fun hmem ↦ by
    rw [mem_keys, habsent] at hmem
    cases hmem
  have hdistinct : (target :: tables.keys).Nodup := List.nodup_cons.mpr ⟨hnew, wf.nodup_keys⟩
  rw [← List.countP_cons_of_pos htarget, List.countP_eq_length_filter, List.countP_eq_length_filter]
  refine List.Perm.length_eq ?_
  rw [List.perm_ext_iff_of_nodup (hafter.nodup_keys.filter _) (hdistinct.filter _)]
  intro other
  rw [List.mem_filter, List.mem_filter, List.mem_cons, mem_keys, mem_keys]
  exact and_congr_left (h other)

end Counts

/-! ## Loads -/

section Loads

open Failover

theorem lookup_map_self (nodes : List String) (value : String → Nat) (node : String) :
    (nodes.map fun other ↦ (other, value other)).lookup node =
      if node ∈ nodes then some (value node) else none := by
  induction nodes with
  | nil => rfl
  | cons first rest ih =>
    rw [List.map_cons, lookup_row, ih]
    by_cases hfirst : node = first <;> simp [hfirst]

theorem heldBy_eq_countP (tables : QueueTables) (node : String) :
    tables.heldBy node = tables.keys.countP (·.owner == node) :=
  List.countP_eq_length_filter.symm

theorem loadOf_counts (tables : QueueTables) (node : String) :
    loadOf tables.counts node = tables.heldBy node := by
  have hcount : tables.heldBy node = (tables.keys.map (·.owner)).count node := by
    rw [heldBy_eq_countP, List.count, List.countP_map]
    rfl
  rw [loadOf, counts, lookup_map_self, hcount]
  split
  case isTrue => rfl
  case isFalse hnot =>
    rw [List.mem_eraseDups] at hnot
    exact (List.count_eq_zero_of_not_mem hnot).symm

end Loads

end QueueTables

namespace Failover

open QueueTables

section Loads

variable (load : List (String × Nat)) (node other : String)

theorem loadOf_addLoad :
    loadOf (Survey.addLoad load node) other = loadOf load other + if other = node then 1 else 0 := by
  rw [Survey.addLoad, loadOf, loadOf]
  cases hload : load.lookup node with
  | none =>
    rw [List.lookup_append, lookup_row]
    by_cases hother : other = node <;> simp [hother, hload]
  | some count =>
    rw [lookup_map_row load node other (· + 1), hload]
    by_cases hother : other = node <;> simp [hother, hload]

theorem loadOf_takeLoad_of_ne (hne : other ≠ node) :
    loadOf (Survey.takeLoad load node) other = loadOf load other := by
  rw [loadOf, Survey.takeLoad, lookup_map_row load node other (· - 1), if_neg hne, loadOf]

end Loads

/-! ## The queues of the other nodes -/

/-- A live node that may take a queue without folding it into another. -/
structure Eligible (tables : QueueTables) (live : List String) (key : QueueKey) (node : String) : Prop where
  live : node ∈ live
  not_owner : node ≠ key.owner
  not_origin : node ≠ key.origin
  /-- The node has no queue of the slot. -/
  vacant : tables.get? (key.withOwner node) = none

/-- The origin of a queue is back and may have it. -/
structure Returns (live : List String) (key : QueueKey) : Prop where
  live : key.origin ∈ live
  not_owner : key.origin ≠ key.owner

/-- The pass counts the queue as one of its owner's: the owner recovered it, or had it at the start. -/
def counted (start : QueueTables) (key : QueueKey) : Bool := key.isRecovered || (start.offset? key).isSome

/-- How many queues a node holds as the pass reckons. -/
def reckoned (start now : QueueTables) (node : String) : Nat := (now.keysOwnedBy node).countP (counted start)

/-- How many queues of its own a node holds that it did not hold at the start. -/
def regained (start now : QueueTables) (node : String) : Nat := (now.keysOwnedBy node).countP (!counted start ·)

/-- What a pass over the queues of one owner knows, with nobody else at the database. -/
structure Survey.Exact (start now : QueueTables) (owner : String) (survey : Survey) : Prop where
  -- Of the owner itself the load is not kept: a queue that is dropped stays in it.
  load : ∀ node, node ≠ owner → loadOf survey.load node = reckoned start now node
  stays : ∀ key, key.owner ≠ owner → (start.offset? key).isSome = true → (now.offset? key).isSome = true
  held : ∀ key, key.owner ≠ owner → (key ∈ survey.held ↔ (now.offset? key).isSome = true)
  listed : ∀ key, (now.offset? key).isSome = true → key ∈ survey.held

section Exact

variable {start now after : QueueTables} {owner node : String} {survey : Survey} {key : QueueKey}

theorem heldBy_eq_add (start now : QueueTables) (node : String) :
    now.heldBy node = reckoned start now node + regained start now node := by
  rw [heldBy, List.length_eq_countP_add_countP (counted start), reckoned, regained]
  simp only [Bool.not_eq_true, Bool.decide_eq_false]

theorem reckoned_eq_countP (start now : QueueTables) (node : String) :
    reckoned start now node = now.keys.countP fun key ↦ counted start key && key.owner == node :=
  List.countP_filter

theorem Survey.exact_start (start : QueueTables) (owner : String) (live : List String) :
    Survey.Exact start start owner ⟨live, start.counts, start.keys⟩ where
  load node _ := by
    have hcounted : reckoned start start node = start.heldBy node := by
      rw [reckoned, heldBy, List.countP_eq_length]
      intro key hkey
      rw [counted, (mem_keysOwnedBy.mp hkey).1, Bool.or_true]
    rw [hcounted]
    exact loadOf_counts start node
  stays _ _ hthere := hthere
  held _ _ := mem_keys
  listed _ := mem_keys.mpr

/-- A queue of the owner is dropped. -/
theorem Survey.Exact.drop (h : survey.Exact start now owner) (wf : now.WellFormed) (hkey : key.owner = owner) :
    survey.Exact start (now.remove key) owner := by
  have hsame (other : QueueKey) (hother : other.owner ≠ owner) :
      (now.remove key).offset? other = now.offset? other := by
    rw [offset?_remove, if_neg]
    rintro rfl
    exact hother hkey
  constructor
  case load =>
    intro node hnode
    rw [h.load node hnode, reckoned_eq_countP, reckoned_eq_countP]
    refine (countP_keys_congr wf (wf.remove key) fun other hother ↦ ?_).symm
    rw [Bool.and_eq_true, beq_iff_eq] at hother
    rw [hsame other (hother.2 ▸ hnode)]
  case stays =>
    intro other hother hthere
    rw [hsame other hother]
    exact h.stays other hother hthere
  case held =>
    intro other hother
    rw [hsame other hother]
    exact h.held other hother
  case listed =>
    intro other hthere
    rw [offset?_remove] at hthere
    split at hthere
    case isTrue => cases hthere
    case isFalse => exact h.listed other hthere

/-- Only a queue that the new owner recovers counts. -/
theorem loadOf_move (survey : Survey) {other : String} (hother : other ≠ key.owner) :
    loadOf (survey.move key (key.withOwner node)).load other =
      loadOf survey.load other + if (key.withOwner node).isRecovered = true ∧ other = node then 1 else 0 := by
  rw [Survey.move, loadOf_takeLoad_of_ne _ _ _ hother]
  split
  case isTrue hrecovered =>
    rw [loadOf_addLoad]
    simp only [hrecovered, true_and]
    rfl
  case isFalse hown => rw [if_neg fun h ↦ hown h.1, Nat.add_zero]

theorem held_move (hlisted : key ∈ survey.held) (target : QueueKey) :
    (survey.move key target).held = target :: survey.held.filter (· != key) := by
  have hslot : survey.held.any (·.sameSlot key) = true :=
    List.any_eq_true.mpr ⟨key, hlisted, by simp [QueueKey.sameSlot]⟩
  exact if_pos hslot

/-- A queue of the owner is handed to another node. -/
theorem Survey.Exact.move (h : survey.Exact start now owner) (wf : now.WellFormed) (hafter : after.WellFormed)
    (hkey : key.owner = owner) (hne : node ≠ owner) (hover : now.handOver key node = .ok after) :
    (survey.move key (key.withOwner node)).Exact start after owner := by
  have hthere (other : QueueKey) (hother : other.owner ≠ owner) :
      (after.offset? other).isSome = true ↔ other = key.withOwner node ∨ (now.offset? other).isSome = true := by
    rw [isSome_offset?_handOver hover (hkey ▸ hne), and_iff_right]
    rintro rfl
    exact hother hkey
  obtain ⟨offset, hoffset, hway⟩ := handOver_eq_ok_iff.mp hover
  have hheld := held_move (h.listed key (by rw [hoffset]; rfl)) (key.withOwner node)
  constructor
  case load =>
    intro other hother
    have hcounted {held : QueueKey} (h : (counted start held && held.owner == other) = true) :
        counted start held = true ∧ held.owner = other := by
      rwa [Bool.and_eq_true, beq_iff_eq] at h
    have hthere {held : QueueKey} (h : (counted start held && held.owner == other) = true) :=
      hthere held ((hcounted h).2 ▸ hother)
    rw [loadOf_move survey (hkey ▸ hother), h.load other hother, reckoned_eq_countP, reckoned_eq_countP]
    split
    case isTrue hnew =>
      -- The node had no queue of the slot, or it would have been refused this one.
      obtain ⟨hrecovered, rfl⟩ := hnew
      have habsent : now.offset? (key.withOwner other) = none := by
        rcases hway with ⟨habsent, -⟩ | ⟨_, -, horigin, -⟩
        · exact habsent
        · exact absurd horigin (bne_iff_ne.mp hrecovered)
      refine (countP_keys_succ wf hafter ?_ habsent fun held hheld ↦ hthere hheld).symm
      rw [counted, hrecovered, Bool.true_or, Bool.true_and]
      exact beq_self_eq_true other
    case isFalse hold =>
      rw [Nat.add_zero]
      refine (countP_keys_congr wf hafter fun held hheld ↦ ?_).symm
      rw [hthere hheld, or_iff_right_of_imp]
      rintro rfl
      -- The node did not recover the queue, so that it is counted only if the node had it at the start.
      obtain ⟨hstart, rfl⟩ := hcounted hheld
      rw [counted, Bool.eq_false_iff.mpr fun hrecovered ↦ hold ⟨hrecovered, rfl⟩, Bool.false_or] at hstart
      exact h.stays _ hne hstart
  case stays =>
    intro other hother hstart
    exact (hthere other hother).mpr (.inr (h.stays other hother hstart))
  case held =>
    intro other hother
    have hkept : other ≠ key := fun hsame ↦ hother (hsame ▸ hkey)
    rw [hheld, hthere other hother, List.mem_cons, List.mem_filter, h.held other hother,
      and_iff_left (bne_iff_ne.mpr hkept)]
  case listed =>
    intro other hother
    rw [hheld, List.mem_cons, List.mem_filter, bne_iff_ne]
    rcases (isSome_offset?_handOver hover (hkey ▸ hne)).mp hother with htarget | ⟨hkept, hnow⟩
    · exact .inl htarget
    · exact .inr ⟨h.listed other hnow, hkept⟩

theorem mem_holders {survey : Survey} {key : QueueKey} {node : String} :
    node ∈ survey.holders key ↔ key.withOwner node ∈ survey.held := by
  simp only [Survey.holders, List.mem_map, List.mem_filter, QueueKey.sameSlot, Bool.and_eq_true, beq_iff_eq]
  constructor
  · rintro ⟨⟨owner, peer, origin⟩, ⟨hmem, rfl, rfl⟩, rfl⟩
    exact hmem
  · exact fun hmem ↦ ⟨_, ⟨hmem, rfl, rfl⟩, rfl⟩

theorem Survey.Exact.mayTake_iff (h : survey.Exact start now owner) (hkey : key.owner = owner) (node : String) :
    (node ∈ survey.live ∧ mayTake (survey.holders key) key node = true) ↔
      Eligible now survey.live key node := by
  have hvacant (hother : node ≠ key.owner) :
      node ∉ survey.holders key ↔ now.get? (key.withOwner node) = none := by
    rw [mem_holders, h.held _ (hkey ▸ hother), get?_eq_none_iff, Bool.not_eq_true, Option.isSome_eq_false_iff,
      Option.isNone_iff_eq_none]
  simp only [mayTake, Bool.and_eq_true, bne_iff_ne, Bool.not_eq_true', List.contains_eq_mem,
    decide_eq_false_iff_not]
  constructor
  · rintro ⟨hlive, ⟨howner, horigin⟩, hnone⟩
    exact ⟨hlive, howner, horigin, (hvacant howner).mp hnone⟩
  · rintro ⟨hlive, howner, horigin, hnone⟩
    exact ⟨hlive, ⟨howner, horigin⟩, (hvacant howner).mpr hnone⟩

/-- A queue is offered first to the first node that may take it, and to its origin if there is none. -/
theorem Survey.Exact.first_candidate (h : survey.Exact start now owner) (hkey : key.owner = owner)
    {nodes : List String} (hnodes : survey.candidates key = node :: nodes) :
    First (reckoned start now) (Eligible now survey.live key) node ∨
      (node = key.origin ∧ Returns survey.live key) := by
  rcases rankTargets_cases survey.live survey.load (survey.holders key) key with
    ⟨first, rest, hranked, hfirst⟩ | ⟨-, hranked⟩
  · obtain rfl : node = first := (List.cons.inj (hnodes.symm.trans hranked)).1
    refine .inl (hfirst.congr (fun other hother ↦ ?_) (h.mayTake_iff hkey))
    exact h.load other (hkey ▸ ((h.mayTake_iff hkey other).mp hother).not_owner)
  · have hcandidates := hnodes.symm.trans hranked
    split at hcandidates
    case isTrue hback => exact .inr ⟨(List.cons.inj hcandidates).1, hback.1, hback.2⟩
    case isFalse => cases hcandidates

/-- A queue is not offered at all if no node may take it and the origin is not back. -/
theorem Survey.Exact.no_candidate (h : survey.Exact start now owner) (hkey : key.owner = owner)
    (hnone : survey.candidates key = []) :
    (∀ node, ¬Eligible now survey.live key node) ∧ ¬Returns survey.live key := by
  rcases rankTargets_cases survey.live survey.load (survey.holders key) key with
    ⟨first, rest, hranked, -⟩ | ⟨hnobody, hranked⟩
  · cases hnone.symm.trans hranked
  · refine ⟨fun node heligible ↦ ?_, fun hback ↦ ?_⟩
    · obtain ⟨hlive, hmay⟩ := (h.mayTake_iff hkey node).mpr heligible
      rw [hnobody node hlive] at hmay
      cases hmay
    · have hcandidates := hnone.symm.trans hranked
      rw [if_pos ⟨hback.live, hback.not_owner⟩] at hcandidates
      cases hcandidates

end Exact

/-! ## Along a pass -/

namespace Pass

/-- A pass after its next step, with all that it has announced. -/
def Turn.next (registry : Registry) (turn : Turn) : Turn :=
  let next := turn.pass.step registry turn.database turn.membership
  { next with events := turn.events ++ next.events }

theorem runFor_succ {registry : Registry} {turn : Turn} (hgoing : turn.pass.result? = none) (steps : Nat) :
    runFor registry (steps + 1) turn = runFor registry steps (turn.next registry) := by
  rw [runFor, hgoing]
  rfl

theorem live_isAlive (membership : Membership) (node : String) :
    (membership.isAlive node).2.live = membership.live := by
  unfold Membership.isAlive
  split <;> rfl

/-- A queue that is offered is handed over, or everything stays as it is. The next node is offered it only if
this one holds a queue of the slot. -/
theorem step_offering_cases (registry : Registry) (database : Database) (membership : Membership)
    (survey : Survey) (key : QueueKey) (node : String) (nodes : List String) (queues : List QueueKey)
    (report : Report) :
    let turn := (offering survey key (node :: nodes) queues report).step registry database membership
    turn.membership.live = membership.live ∧
      ((∃ after, database.queues.handOver key node = .ok after ∧
          turn.pass = choosing (survey.move key (key.withOwner node)) queues
            (report.move key (key.withOwner node)) ∧
          turn.database = database.withQueues after ∧ turn.events = [.transferred key (key.withOwner node)]) ∨
        (turn.database = database ∧ turn.events = [] ∧
          (turn.pass = choosing survey queues report ∨ (∃ error, turn.pass = failed error) ∨
            ∃ message, database.queues.handOver key node = .error (.internal message)))) := by
  dsimp only [step]
  rw [QueueStore.transfer_eq]
  dsimp only
  cases hfirst : (membership.isAlive key.owner).1 with
  | true => exact ⟨live_isAlive _ _, .inr ⟨rfl, rfl, .inl rfl⟩⟩
  | false =>
    cases hup : database.reachable with
    | false => exact ⟨live_isAlive _ _, .inr ⟨rfl, rfl, .inr (.inl ⟨_, rfl⟩)⟩⟩
    | true =>
      cases hover : database.queues.handOver key node with
      | error error =>
        refine ⟨live_isAlive _ _, .inr ⟨rfl, rfl, ?_⟩⟩
        cases error with
        | internal message => exact .inr (.inr ⟨message, rfl⟩)
        | staleOwnership | sourceStillAlive => exact .inl rfl
        | _ => exact .inr (.inl ⟨_, rfl⟩)
      | ok after =>
        cases hsecond : ((membership.isAlive key.owner).2.isAlive key.owner).1 with
        | true => exact ⟨(live_isAlive _ _).trans (live_isAlive _ _), .inr ⟨rfl, rfl, .inl rfl⟩⟩
        | false => exact ⟨(live_isAlive _ _).trans (live_isAlive _ _), .inl ⟨after, rfl, rfl, rfl, rfl⟩⟩

/-- A pass over the queues of one owner that has looked nothing up so far. -/
def Opens (owner : String) : Pass → Prop
  | asking node | gathering node => node = owner
  | counting queues => ∀ key ∈ queues, key.owner = owner
  | _ => False

/-- What a pass over the queues of one owner knows of the tables and the live nodes, wherever it stands. -/
def Knows (start now : QueueTables) (live : List String) (owner : String) : Pass → Prop
  | choosing survey queues _ =>
    survey.live = live ∧ survey.Exact start now owner ∧ ∀ key ∈ queues, key.owner = owner
  | offering survey key nodes queues _ =>
    survey.live = live ∧ survey.Exact start now owner ∧ (∀ key ∈ queues, key.owner = owner) ∧
      key.owner = owner ∧ nodes = survey.candidates key
  | listing queues listed load =>
    now = start ∧ listed = live ∧ load = start.counts ∧ ∀ key ∈ queues, key.owner = owner
  | done _ | failed _ => True
  | pass => now = start ∧ pass.Opens owner

/-- A turn of such a pass. -/
structure Turn.Knows (start : QueueTables) (live : List String) (owner : String) (turn : Turn) : Prop where
  wellFormed : turn.database.queues.WellFormed
  membership : turn.membership.live = live
  pass : turn.pass.Knows start turn.database.queues live owner

theorem knows_of_opens {pass : Pass} {tables : QueueTables} {owner : String} (hopens : pass.Opens owner)
    (live : List String) : pass.Knows tables tables live owner := by
  cases pass with
  | asking | gathering | counting => exact ⟨rfl, hopens⟩
  | listing | choosing | offering | done | failed => exact hopens.elim

section Knows

variable {start : QueueTables} {live : List String} {owner : String} {survey : Survey} {key : QueueKey}

/-- The first of the nodes that a queue is offered to holds no queue of the slot, or is its origin. -/
theorem handOver_ne_internal {now : QueueTables} {node : String} {nodes : List String}
    (hexact : survey.Exact start now owner) (hkey : key.owner = owner)
    (hnodes : node :: nodes = survey.candidates key) (message : String) :
    now.handOver key node ≠ .error (.internal message) := by
  have hfree : now.offset? (key.withOwner node) = none ∨ node = key.origin :=
    (hexact.first_candidate hkey hnodes.symm).imp (fun h ↦ get?_eq_none_iff.mp h.may.vacant) And.left
  intro hinternal
  rw [QueueTables.handOver] at hinternal
  split at hinternal
  case h_1 => cases hinternal
  case h_2 =>
    split at hinternal
    case h_1 => cases hinternal
    case h_2 there hthere =>
      rcases hfree with habsent | rfl
      · rw [habsent] at hthere
        cases hthere
      · rw [if_neg (by simp [QueueKey.isRecovered, QueueKey.withOwner])] at hinternal
        cases hinternal

/-- Each step keeps what the pass knows exact. -/
theorem Turn.Knows.step {turn : Turn} (h : turn.Knows start live owner) (registry : Registry) :
    (turn.pass.step registry turn.database turn.membership).Knows start live owner := by
  obtain ⟨pass, database, membership, events⟩ := turn
  obtain ⟨wf, hlive, hknows⟩ := h
  dsimp only at wf hlive hknows ⊢
  cases pass with
  | asking node =>
    refine ⟨wf, (live_isAlive membership node).trans hlive, ?_⟩
    dsimp only [Pass.step]
    split
    case isTrue => trivial
    case isFalse => exact hknows
  | gathering node =>
    obtain ⟨hsame, rfl⟩ := hknows
    rw [Pass.step, Database.query]
    split
    case h_1 => exact ⟨wf, hlive, trivial⟩
    case h_2 => exact ⟨wf, hlive, trivial⟩
    case h_3 queues hanswer =>
      refine ⟨wf, hlive, hsame, fun key hkey ↦ ?_⟩
      split at hanswer
      case isTrue => exact (mem_keysOwnedBy.mp (Except.ok.inj hanswer ▸ hkey)).2
      case isFalse => cases hanswer
  | counting queues =>
    obtain ⟨rfl, howners⟩ := hknows
    rw [Pass.step, Database.query]
    cases database.reachable with
    | true => exact ⟨wf, hlive, rfl, hlive, rfl, howners⟩
    | false => exact ⟨wf, hlive, trivial⟩
  | listing queues listed load =>
    obtain ⟨rfl, rfl, rfl, howners⟩ := hknows
    rw [Pass.step, Database.query]
    cases database.reachable with
    | true => exact ⟨wf, hlive, rfl, Survey.exact_start _ owner _, howners⟩
    | false => exact ⟨wf, hlive, trivial⟩
  | choosing survey queues report =>
    obtain ⟨hsurvey, hexact, howners⟩ := hknows
    cases queues with
    | nil => exact ⟨wf, hlive, trivial⟩
    | cons key queues =>
      obtain ⟨hkey, howners⟩ := List.forall_mem_cons.mp howners
      rw [Pass.step, QueueStore.drop_eq]
      split
      case isTrue => exact ⟨wf, hlive, hsurvey, hexact, howners, hkey, rfl⟩
      case isFalse =>
        cases database.reachable with
        | true => exact ⟨wf.remove key, hlive, hsurvey, hexact.drop wf hkey, howners⟩
        | false => exact ⟨wf, hlive, trivial⟩
  | offering survey key nodes queues report =>
    obtain ⟨hsurvey, hexact, howners, hkey, hnodes⟩ := hknows
    cases nodes with
    | nil => exact ⟨wf, hlive, hsurvey, hexact, howners⟩
    | cons node nodes =>
      have hne : node ≠ owner := by
        rintro rfl
        exact owner_not_mem_rankTargets _ _ _ _ (hkey ▸ hnodes ▸ List.mem_cons_self)
      have hcases := step_offering_cases registry database membership survey key node nodes queues report
      dsimp only at hcases
      obtain ⟨hkept, ⟨after, hover, hpass, hafter, -⟩ | ⟨hsame, -, hpass⟩⟩ := hcases
      · have hwf := wf.perform (.handOver key node) hover
        refine ⟨hafter ▸ hwf, hkept.trans hlive, ?_⟩
        rw [hpass, hafter]
        exact ⟨hsurvey, hexact.move wf hwf hkey hne hover, howners⟩
      · refine ⟨(congrArg (·.queues.WellFormed) hsame).mpr wf, hkept.trans hlive, ?_⟩
        rcases hpass with hpass | ⟨error, hpass⟩ | ⟨message, hrefused⟩
        · rw [hpass, hsame]
          exact ⟨hsurvey, hexact, howners⟩
        · rw [hpass]
          trivial
        -- What the pass knows is exact, so that nobody refuses the queue.
        · exact absurd hrefused (handOver_ne_internal hexact hkey hnodes message)
  | done | failed => exact ⟨wf, hlive, trivial⟩

end Knows

end Pass

end Failover

end LogShipping
