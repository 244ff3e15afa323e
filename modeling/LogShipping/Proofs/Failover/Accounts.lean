import LogShipping.Proofs.Failover.Survey
import LogShipping.Proofs.Queue.Folding
import LogShipping.Proofs.Queue.Offering

/-!
# What becomes of the queues of a dead node

A pass over the queues of a dead node, with nobody else at the database, comes to its end, and its report
accounts for each of them. A queue of a peer that is not registered is dropped. Any other one goes to a live
node that holds none of the slot, back to its origin if there is no such node, and stays where it is if the
origin is not back either.
-/

namespace LogShipping

/-- Nodes are reported as the list of live nodes has them, however often they are asked about. -/
def Membership.Steady (membership : Membership) : Prop :=
  ∀ node, membership.isAlive node = (membership.live.contains node, membership)

namespace Failover

open QueueTables

/-! ## The end of one queue -/

/-- Every live node but the owner and the origin holds a queue of the slot, and the origin is not back. -/
structure Stranded (tables : QueueTables) (live : List String) (key : QueueKey) : Prop where
  held : ∀ node ∈ live, node ≠ key.owner → node ≠ key.origin → (tables.get? (key.withOwner node)).isSome = true
  away : ¬Returns live key

/-- A live node that had no queue of the slot has got the queue as it was, or the origin has folded it into its
own. -/
structure Taken (before after : QueueTables) (live : List String) (key : QueueKey) (node : String) : Prop where
  live : node ∈ live
  not_owner : node ≠ key.owner
  gone : after.get? key = none
  there :
    (∃ queue, before.get? key = some queue ∧ before.get? (key.withOwner node) = none ∧
      after.get? (key.withOwner node) = some { queue with key := key.withOwner node }) ∨
    (node = key.origin ∧ ∃ queue own merged, before.get? key = some queue ∧
      before.get? (key.withOwner node) = some own ∧ after.get? (key.withOwner node) = some merged ∧
      (∀ file, file ∈ merged.files ↔
        file ∈ own.files ∨ (file ∈ queue.files ∧ ∀ other ∈ own.files, other.seq ≠ file.seq)) ∧
      ∀ position, queue.Pending position ∨ own.Pending position → merged.Pending position)

/-- What a pass may do with a queue. -/
inductive Fate
  | dropped
  | taken (node : String)
  | orphaned

/-- The queue of a peer that is known or not has come to this. -/
def Befalls (known : Bool) (before after : QueueTables) (live : List String) (key : QueueKey) : Fate → Prop
  | .dropped => known = false ∧ after.get? key = none
  | .taken node => known = true ∧ ¬Stranded before live key ∧ Taken before after live key node
  | .orphaned => known = true ∧ Stranded before live key ∧ after.get? key = before.get? key

variable {tables after before now : QueueTables} {live : List String} {key : QueueKey} {node : String}

theorem stranded_iff :
    Stranded tables live key ↔ (∀ node, ¬Eligible tables live key node) ∧ ¬Returns live key := by
  constructor
  · rintro ⟨hheld, haway⟩
    refine ⟨fun node hnode ↦ ?_, haway⟩
    have hthere := hheld node hnode.live hnode.not_owner hnode.not_origin
    rw [hnode.vacant] at hthere
    cases hthere
  · rintro ⟨hnone, haway⟩
    refine ⟨fun node hlive howner horigin ↦ ?_, haway⟩
    rw [Option.isSome_iff_ne_none]
    exact fun hvacant ↦ hnone node ⟨hlive, howner, horigin, hvacant⟩

theorem Stranded.congr (h : Stranded before live key)
    (hsame : ∀ node, before.get? (key.withOwner node) = after.get? (key.withOwner node)) :
    Stranded after live key where
  held node hlive howner horigin := by
    rw [← hsame]
    exact h.held node hlive howner horigin
  away := h.away

/-- What becomes of a queue shows in its slot only. -/
theorem Befalls.congr {known : Bool} {first last : QueueTables} {fate : Fate}
    (h : Befalls known before after live key fate)
    (hbefore : ∀ node, first.get? (key.withOwner node) = before.get? (key.withOwner node))
    (hafter : ∀ node, last.get? (key.withOwner node) = after.get? (key.withOwner node)) :
    Befalls known first last live key fate := by
  have hfirst : first.get? key = before.get? key := hbefore key.owner
  have hlast : last.get? key = after.get? key := hafter key.owner
  have hstranded : Stranded first live key ↔ Stranded before live key :=
    ⟨fun h ↦ h.congr hbefore, fun h ↦ h.congr fun node ↦ (hbefore node).symm⟩
  cases fate with
  | dropped => exact ⟨h.1, hlast.trans h.2⟩
  | orphaned => exact ⟨h.1, hstranded.mpr h.2.1, by rw [hlast, hfirst, h.2.2]⟩
  | taken node =>
    obtain ⟨hknown, hnot, hlive, hother, hgone, hthere⟩ := h
    refine ⟨hknown, hstranded.not.mpr hnot, hlive, hother, hlast.trans hgone, ?_⟩
    rw [hfirst, hbefore, hafter]
    exact hthere

/-- A queue that is handed over is taken. -/
theorem taken_of_handOver (wf : tables.WellFormed) (hlive : node ∈ live) (hne : node ≠ key.owner)
    (hover : tables.handOver key node = .ok after) : Taken tables after live key node := by
  refine ⟨hlive, hne, get?_eq_none_iff.mpr (offset?_of_handOver hover), ?_⟩
  obtain ⟨offset, hoffset, ⟨habsent, rfl⟩ | ⟨there, hthere, horigin, rfl⟩⟩ := handOver_eq_ok_iff.mp hover
  · have hqueue := get?_eq_some_iff.mpr ⟨offset, hoffset, rfl⟩
    exact .inl ⟨_, hqueue, get?_eq_none_iff.mpr habsent, get?_rename wf hqueue habsent⟩
  · have hself : key ≠ key.withOwner node := fun h ↦ hne (QueueStore.withOwner_eq_self_iff.mp h.symm)
    have hqueue := get?_eq_some_iff.mpr ⟨offset, hoffset, rfl⟩
    have hown := get?_eq_some_iff.mpr ⟨there, hthere, rfl⟩
    have hmerged := get?_eq_some_iff.mpr ⟨_, offset?_merge hself offset there hthere, rfl⟩
    refine .inr ⟨horigin, _, _, _, hqueue, hown, hmerged, fun file ↦ mem_filesOf_merge wf hself _ _, ?_⟩
    intro position hpending
    rw [← pending_eq hqueue, ← pending_eq hown] at hpending
    rw [← pending_eq hmerged]
    exact pending_merge wf hself hoffset hthere hpending

/-! ## The report -/

def Fate.report (key : QueueKey) : Fate → Report
  | .dropped => ⟨[], [], [key]⟩
  | .taken node => ⟨[(key, key.withOwner node)], [], []⟩
  | .orphaned => ⟨[], [key], []⟩

/-- The report on queues that came to these ends, in this order. -/
def reportOn : List (QueueKey × Fate) → Report
  | [] => .empty
  | (key, fate) :: rest => (fate.report key).append (reportOn rest)

section Report

variable {fates : List (QueueKey × Fate)}

theorem append_append (x y z : Report) : (x.append y).append z = x.append (y.append z) := by
  simp [Report.append]

/-- Each queue is in one of the lists. -/
theorem perm_reportOn (fates : List (QueueKey × Fate)) :
    ((reportOn fates).dropped ++ (reportOn fates).transferred.map (·.1) ++ (reportOn fates).orphaned).Perm
      (fates.map (·.1)) := by
  induction fates with
  | nil => exact .nil
  | cons first rest ih =>
    obtain ⟨key, fate⟩ := first
    refine .trans ?_ (ih.cons key)
    cases fate with
    | dropped => exact .refl _
    | taken node =>
      rw [← List.cons_append]
      exact List.perm_middle.append_right _
    | orphaned => exact List.perm_middle

theorem mem_dropped_reportOn : key ∈ (reportOn fates).dropped ↔ (key, .dropped) ∈ fates := by
  induction fates with
  | nil => simp [reportOn, Report.empty]
  | cons first rest ih =>
    obtain ⟨other, fate⟩ := first
    cases fate <;> simp [reportOn, Report.append, Fate.report, ih]

theorem mem_orphaned_reportOn : key ∈ (reportOn fates).orphaned ↔ (key, .orphaned) ∈ fates := by
  induction fates with
  | nil => simp [reportOn, Report.empty]
  | cons first rest ih =>
    obtain ⟨other, fate⟩ := first
    cases fate <;> simp [reportOn, Report.append, Fate.report, ih]

theorem mem_transferred_reportOn {target : QueueKey} :
    (key, target) ∈ (reportOn fates).transferred ↔
      ∃ node, target = key.withOwner node ∧ (key, .taken node) ∈ fates := by
  induction fates with
  | nil => simp [reportOn, Report.empty]
  | cons first rest ih =>
    obtain ⟨other, fate⟩ := first
    cases fate with
    | dropped | orphaned => simp [reportOn, Report.append, Fate.report, ih]
    | taken owner =>
      simp only [reportOn, Report.append, Fate.report, List.singleton_append, List.mem_cons, Prod.mk.injEq,
        Fate.taken.injEq, ih]
      constructor
      · rintro (⟨rfl, rfl⟩ | ⟨node, rfl, hmem⟩)
        · exact ⟨owner, rfl, .inl ⟨rfl, rfl⟩⟩
        · exact ⟨node, rfl, .inr hmem⟩
      · rintro ⟨node, rfl, ⟨rfl, rfl⟩ | hmem⟩
        · exact .inl ⟨rfl, rfl⟩
        · exact .inr ⟨node, rfl, hmem⟩

end Report

/-! ## One queue after the other -/

/-- Nothing is in the way of a pass over the queues of a dead owner. -/
structure Quiet (owner : String) (database : Database) (membership : Membership) : Prop where
  wellFormed : database.queues.WellFormed
  reachable : database.reachable = true
  steady : membership.Steady
  dead : owner ∉ membership.live

namespace Pass

variable {registry : Registry} {database : Database} {membership : Membership} {start : QueueTables}
  {owner : String} {survey : Survey}

/-- A queue that can be handed over is, since its owner is dead and stays so. -/
theorem transfer_of_quiet (h : Quiet owner database membership) (hkey : key.owner = owner)
    (hover : database.queues.handOver key node = .ok after) :
    QueueStore.transfer database membership key node =
      (⟨.ok (key.withOwner node), database.withQueues after, [.transferred key (key.withOwner node)]⟩,
        membership) := by
  have hdead : (membership.isAlive key.owner).1 = false := by
    rw [h.steady, hkey]
    simpa using h.dead
  have hsame : (membership.isAlive key.owner).2 = membership := by rw [h.steady]
  have htransfer := QueueStore.transfer_of_handOver h.reachable hdead (by rw [hsame, hdead]) hover
  rw [hsame, hsame] at htransfer
  exact htransfer

/-- The first of the candidates gets the queue. -/
theorem exists_handOver (hexact : survey.Exact start now owner) (hkey : key.owner = owner)
    (hthere : (now.offset? key).isSome = true) {nodes : List String}
    (hnodes : survey.candidates key = node :: nodes) :
    node ∈ survey.live ∧ node ≠ key.owner ∧ ¬Stranded now survey.live key ∧
      ∃ after, now.handOver key node = .ok after := by
  obtain ⟨offset, hoffset⟩ := Option.isSome_iff_exists.mp hthere
  rcases hexact.first_candidate hkey hnodes with ⟨hmay, -⟩ | ⟨rfl, hreturns⟩
  · refine ⟨hmay.live, hmay.not_owner, fun h ↦ (stranded_iff.mp h).1 node hmay, ?_⟩
    exact ⟨_, handOver_eq_ok_iff.mpr ⟨offset, hoffset, .inl ⟨get?_eq_none_iff.mp hmay.vacant, rfl⟩⟩⟩
  · refine ⟨hreturns.live, hreturns.not_owner, fun h ↦ h.away hreturns, ?_⟩
    cases hown : now.offset? (key.withOwner key.origin) with
    | none => exact ⟨_, handOver_eq_ok_iff.mpr ⟨offset, hoffset, .inl ⟨hown, rfl⟩⟩⟩
    | some there => exact ⟨_, handOver_eq_ok_iff.mpr ⟨offset, hoffset, .inr ⟨there, hown, rfl, rfl⟩⟩⟩

/-- What is left once a pass has dealt with a queue. -/
structure Settles (registry : Registry) (start : QueueTables) (owner : String) (database : Database)
    (membership : Membership) (key : QueueKey) (fate : Fate) (after : QueueTables) (next : Survey) : Prop where
  quiet : Quiet owner (database.withQueues after) membership
  live : next.live = membership.live
  exact : next.Exact start after owner
  befalls : Befalls (registry.contains key.peer) database.queues after membership.live key fate
  others : ∀ other, other ≠ key → (∀ node, fate = .taken node → other ≠ key.withOwner node) →
    after.get? other = database.queues.get? other

section Run

variable {queues : List QueueKey} {report : Report} {events : List QueueEvent}

/-- A queue of a peer that is not known is dropped. -/
theorem runFor_dropped (hup : database.reachable = true) (hunknown : registry.contains key.peer = false)
    (hthere : (database.queues.offset? key).isSome = true) (steps : Nat) :
    runFor registry (steps + 1) ⟨choosing survey (key :: queues) report, database, membership, events⟩ =
      runFor registry steps ⟨choosing survey queues (report.append (Fate.dropped.report key)),
        database.withQueues (database.queues.remove key), membership, events ++ [.dropped key]⟩ := by
  rw [runFor_succ rfl, Turn.next, step, hunknown, if_neg Bool.false_ne_true, QueueStore.drop_eq, if_pos hup,
    if_pos hthere]
  simp only [hthere, if_true, Report.drop, Report.append, Fate.report, List.append_nil]

theorem runFor_offering (hknown : registry.contains key.peer = true) (steps : Nat) :
    runFor registry (steps + 1) ⟨choosing survey (key :: queues) report, database, membership, events⟩ =
      runFor registry steps
        ⟨offering survey key (survey.candidates key) queues report, database, membership, events⟩ := by
  rw [runFor_succ rfl, Turn.next, step, hknown, if_pos rfl]
  simp only [List.append_nil]

/-- A queue that is offered to nobody is left. -/
theorem runFor_orphaned (hknown : registry.contains key.peer = true) (hnodes : survey.candidates key = [])
    (steps : Nat) :
    runFor registry (steps + 2) ⟨choosing survey (key :: queues) report, database, membership, events⟩ =
      runFor registry steps
        ⟨choosing survey queues (report.append (Fate.orphaned.report key)), database, membership, events⟩ := by
  rw [runFor_offering hknown, hnodes, runFor_succ rfl, Turn.next, step]
  simp only [Report.orphan, Report.append, Fate.report, List.append_nil]

/-- A queue that is offered goes to the first node it is offered to. -/
theorem runFor_taken (hknown : registry.contains key.peer = true) {nodes : List String}
    (hnodes : survey.candidates key = node :: nodes)
    (htransfer : QueueStore.transfer database membership key node =
      (⟨.ok (key.withOwner node), database.withQueues after, [.transferred key (key.withOwner node)]⟩,
        membership)) (steps : Nat) :
    runFor registry (steps + 2) ⟨choosing survey (key :: queues) report, database, membership, events⟩ =
      runFor registry steps ⟨choosing (survey.move key (key.withOwner node)) queues
          (report.append ((Fate.taken node).report key)), database.withQueues after, membership,
        events ++ [.transferred key (key.withOwner node)]⟩ := by
  rw [runFor_offering hknown, hnodes, runFor_succ rfl, Turn.next, step]
  simp only [htransfer, Report.move, Report.append, Fate.report, List.append_nil]

end Run

variable (registry) in
/-- A pass deals with the next queue in at most two steps. -/
theorem settles_next (queues : List QueueKey) (report : Report) (events : List QueueEvent)
    (h : Quiet owner database membership) (hlive : survey.live = membership.live)
    (hexact : survey.Exact start database.queues owner) (hkey : key.owner = owner)
    (hthere : (database.queues.offset? key).isSome = true) :
    ∃ fate after next announced used, used ≤ 2 ∧
      (∀ steps,
        runFor registry (steps + used)
            ⟨choosing survey (key :: queues) report, database, membership, events⟩ =
          runFor registry steps
            ⟨choosing next queues (report.append (fate.report key)), database.withQueues after, membership,
              announced⟩) ∧
      Settles registry start owner database membership key fate after next := by
  have wf := h.wellFormed
  cases hknown : registry.contains key.peer with
  | false =>
    refine ⟨.dropped, database.queues.remove key, survey, _, 1, by omega,
      runFor_dropped h.reachable hknown hthere, ⟨wf.remove key, h.reachable, h.steady, h.dead⟩, hlive,
      hexact.drop wf hkey, ⟨hknown, get?_eq_none_iff.mpr ?_⟩, fun other hother _ ↦ get?_remove_of_ne _ hother⟩
    rw [offset?_remove, if_pos rfl]
  | true =>
    cases hnodes : survey.candidates key with
    | nil =>
      have hstranded : Stranded database.queues membership.live key :=
        stranded_iff.mpr (hlive ▸ hexact.no_candidate hkey hnodes)
      exact ⟨.orphaned, database.queues, survey, events, 2, Nat.le_refl _, runFor_orphaned hknown hnodes, h,
        hlive, hexact, ⟨hknown, hstranded, rfl⟩, fun _ _ _ ↦ rfl⟩
    | cons node nodes =>
      obtain ⟨hnode, hne, hnot, after, hover⟩ := exists_handOver hexact hkey hthere hnodes
      have hafter := wf.perform (.handOver key node) hover
      exact ⟨.taken node, after, survey.move key (key.withOwner node), _, 2, Nat.le_refl _,
        runFor_taken hknown hnodes (transfer_of_quiet h hkey hover),
        ⟨hafter, h.reachable, h.steady, h.dead⟩, hlive, hexact.move wf hafter hkey (hkey ▸ hne) hover,
        ⟨hknown, hlive ▸ hnot, taken_of_handOver wf (hlive ▸ hnode) hne hover⟩,
        fun other hother htarget ↦ QueueStore.get?_handOver_of_ne hover hother (htarget node rfl)⟩

/-- Queues of one owner that differ have different slots. -/
theorem withOwner_ne {other : QueueKey} (howner : key.owner = other.owner) (hne : key ≠ other) (x y : String) :
    key.withOwner x ≠ other.withOwner y := by
  intro hsame
  refine hne ?_
  calc key = (key.withOwner x).withOwner key.owner := rfl
    _ = (other.withOwner y).withOwner other.owner := by rw [hsame, howner]
    _ = other := rfl

/-- What a pass has made of the queues it went through. -/
structure Settled (registry : Registry) (live : List String) (before after : QueueTables)
    (fates : List (QueueKey × Fate)) : Prop where
  befalls : ∀ key fate, (key, fate) ∈ fates → Befalls (registry.contains key.peer) before after live key fate
  others : ∀ other, other ∉ fates.map (·.1) →
    (∀ key node, (key, .taken node) ∈ fates → other ≠ key.withOwner node) → after.get? other = before.get? other

/-- What becomes of the first queue and of the others does not touch each other, since their slots differ. -/
theorem Settles.cons {fate : Fate} {mid last : QueueTables} {next : Survey} {fates : List (QueueKey × Fate)}
    (h : Settles registry start owner database membership key fate mid next)
    (hrest : Settled registry membership.live mid last fates) (hkey : key.owner = owner)
    (howners : ∀ other ∈ fates.map (·.1), other.owner = owner) (hnew : key ∉ fates.map (·.1)) :
    Settled registry membership.live database.queues last ((key, fate) :: fates) := by
  have hslot (other : QueueKey) (hother : other ∈ fates.map (·.1)) (x y : String) :
      key.withOwner x ≠ other.withOwner y :=
    withOwner_ne (hkey.trans (howners other hother).symm) (fun hsame ↦ hnew (hsame ▸ hother)) x y
  have hmem {other : QueueKey} {node : String} (hfate : (other, .taken node) ∈ fates) :
      other ∈ fates.map (·.1) :=
    List.mem_map.mpr ⟨_, hfate, rfl⟩
  constructor
  case befalls =>
    intro other ended hmade
    rcases List.mem_cons.mp hmade with hfirst | hlater
    · cases hfirst
      refine h.befalls.congr (fun _ ↦ rfl) fun node ↦ hrest.others _ (fun hother ↦ ?_) ?_
      · exact hslot _ hother node _ rfl
      · exact fun source owner hsource ↦ hslot source (hmem hsource) node owner
    · have hother : other ∈ fates.map (·.1) := List.mem_map.mpr ⟨_, hlater, rfl⟩
      refine (hrest.befalls other ended hlater).congr (fun node ↦ ?_) fun _ ↦ rfl
      have hkept := h.others (other.withOwner node) (hslot other hother key.owner node).symm fun owner _ ↦
        (hslot other hother owner node).symm
      exact hkept.symm
  case others =>
    intro other hother htargets
    rw [List.map_cons, List.mem_cons, not_or] at hother
    have hlater := hrest.others other hother.2 fun source node hsource ↦
      htargets source node (List.mem_cons_of_mem _ hsource)
    exact hlater.trans (h.others other hother.1 fun node hfate ↦ htargets key node (hfate ▸ List.mem_cons_self))

variable (registry) in
/-- A pass goes through the queues that it has gathered, one after the other. -/
theorem settled_queues (queues : List QueueKey) (report : Report) (events : List QueueEvent)
    (h : Quiet owner database membership) (hlive : survey.live = membership.live)
    (hexact : survey.Exact start database.queues owner)
    (hkeys : ∀ key ∈ queues, key.owner = owner ∧ (database.queues.offset? key).isSome = true)
    (hdistinct : queues.Nodup) {steps : Nat} (henough : 2 * queues.length + 2 ≤ steps) :
    let finished := runFor registry steps ⟨choosing survey queues report, database, membership, events⟩
    ∃ fates, fates.map (·.1) = queues ∧ finished.answer = .ok (report.append (reportOn fates)) ∧
      Settled registry membership.live database.queues finished.database.queues fates := by
  induction queues generalizing database survey report events steps with
  | nil =>
    obtain ⟨rest, rfl⟩ : ∃ rest, steps = rest + 1 + 1 := ⟨steps - 2, by simp at henough; omega⟩
    refine ⟨[], rfl, ?_, nofun, fun _ _ _ ↦ rfl⟩
    rw [runFor_succ rfl]
    simp only [reportOn, Report.append, Report.empty, List.append_nil]
    rfl
  | cons key queues ih =>
    obtain ⟨hkey, hkeys⟩ := List.forall_mem_cons.mp hkeys
    obtain ⟨hnew, hdistinct⟩ := List.nodup_cons.mp hdistinct
    obtain ⟨fate, after, next, announced, used, hused, hrun, hsettles⟩ :=
      settles_next registry queues report events h hlive hexact hkey.1 hkey.2
    have hthere (other : QueueKey) (hother : other ∈ queues) :
        other.owner = owner ∧ (after.offset? other).isSome = true := by
      obtain ⟨howner, hbefore⟩ := hkeys other hother
      have hne : other ≠ key := fun hsame ↦ hnew (hsame ▸ hother)
      have hkept := hsettles.others other hne fun node _ ↦
        withOwner_ne (howner.trans hkey.1.symm) hne other.owner node
      refine ⟨howner, ?_⟩
      rw [← get?_isSome, hkept, get?_isSome]
      exact hbefore
    rw [List.length_cons] at henough
    obtain ⟨rest, rfl⟩ : ∃ rest, steps = rest + used := ⟨steps - used, by omega⟩
    obtain ⟨fates, hfates, hanswer, hsettled⟩ := ih (report.append (fate.report key)) announced
      hsettles.quiet hsettles.live hsettles.exact hthere hdistinct (by omega : _ ≤ rest)
    rw [← hrun rest] at hanswer hsettled
    refine ⟨(key, fate) :: fates, by rw [List.map_cons, hfates], ?_, ?_⟩
    · rw [hanswer, append_append]
      rfl
    · refine hsettles.cons hsettled hkey.1 (fun other hother ↦ ?_) (hfates ▸ hnew)
      exact (hkeys other (hfates ▸ hother)).1

/-- A pass for a node's death goes through all queues of the node. -/
theorem settled_handleNodeDeath (registry : Registry) (h : Quiet owner database membership) :
    let finished := handleNodeDeath registry database membership owner
    ∃ fates, fates.map (·.1) = database.queues.keysOwnedBy owner ∧ finished.answer = .ok (reportOn fates) ∧
      Settled registry membership.live database.queues finished.database.queues fates := by
  have hlength : (database.queues.keysOwnedBy owner).length ≤ database.queues.offsets.length := by
    refine (List.length_filter_le _ _).trans (Nat.le_of_eq ?_)
    exact (List.length_mergeSort _).trans (List.length_map _)
  obtain ⟨rest, hrest, henough⟩ : ∃ rest, stepsFor database membership = rest + 4 ∧
      2 * (database.queues.keysOwnedBy owner).length + 2 ≤ rest := by
    refine ⟨2 + database.queues.offsets.length * (membership.live.length + 3), by rw [stepsFor]; omega, ?_⟩
    have hmost : database.queues.offsets.length * 3 ≤
        database.queues.offsets.length * (membership.live.length + 3) := Nat.mul_le_mul_left _ (by omega)
    omega
  have hdead : membership.live.contains owner = false := by simpa using h.dead
  have hasked (steps : Nat) :
      runFor registry (steps + 1) ⟨asking owner, database, membership, []⟩ =
        runFor registry steps ⟨gathering owner, database, membership, []⟩ := by
    rw [runFor_succ rfl, Turn.next, step, h.steady]
    simp only [hdead]
    rfl
  have hgathered : (handleNodeDeath registry database membership owner) =
      runFor registry (rest + 3) ⟨gathering owner, database, membership, []⟩ := by
    rw [← hasked, ← hrest]
    rfl
  have hquery {α : Type} (read : QueueTables → α) : database.query read = .ok (read database.queues) :=
    if_pos h.reachable
  rw [hgathered, runFor_succ rfl, Turn.next, step, hquery]
  cases hqueues : database.queues.keysOwnedBy owner with
  | nil => exact ⟨[], rfl, rfl, fun _ _ hmem ↦ absurd hmem List.not_mem_nil, fun _ _ _ ↦ rfl⟩
  | cons key queues =>
    dsimp only
    rw [runFor_succ rfl, Turn.next, step, hquery]
    dsimp only
    rw [runFor_succ rfl, Turn.next, step, hquery]
    dsimp only
    rw [hqueues] at henough
    have hkeys (other : QueueKey) (hother : other ∈ key :: queues) :
        other.owner = owner ∧ (database.queues.offset? other).isSome = true :=
      (mem_keysOwnedBy.mp (hqueues ▸ hother)).symm
    have hdistinct : (key :: queues).Nodup := hqueues ▸ h.wellFormed.nodup_keys.filter _
    obtain ⟨fates, hfates, hanswer, hsettled⟩ := settled_queues registry (key :: queues) .empty [] h rfl
      (Survey.exact_start database.queues owner membership.live) hkeys hdistinct henough
    exact ⟨fates, hfates, hanswer, hsettled⟩

end Pass

/-! ## The whole pass -/

/-- A report accounts for all queues that a node owned. -/
structure Accounts (database : Database) (live : List String) (owner : String) (after : QueueTables)
    (report : Report) : Prop where
  /-- Each queue of the node is in one of the three lists, and no other queue is in any. -/
  all : (report.dropped ++ report.transferred.map (·.1) ++ report.orphaned).Perm
    (database.queues.keysOwnedBy owner)
  once : (report.dropped ++ report.transferred.map (·.1) ++ report.orphaned).Nodup
  dropped : ∀ key ∈ report.dropped, database.peer? key.peer = none ∧ after.get? key = none
  transferred : ∀ key target, (key, target) ∈ report.transferred →
    (database.peer? key.peer).isSome = true ∧
      ∃ node, target = key.withOwner node ∧ Taken database.queues after live key node
  orphaned : ∀ key ∈ report.orphaned, after.get? key = database.queues.get? key
  /-- Of the queues of registered peers those are left that nobody can take. -/
  stranded : ∀ key, key.owner = owner → (database.queues.get? key).isSome = true →
    (key ∈ report.orphaned ↔ (database.peer? key.peer).isSome = true ∧ Stranded database.queues live key)
  others : ∀ key, key.owner ≠ owner → key ∉ report.transferred.map (·.2) →
    after.get? key = database.queues.get? key

/-- Every pass for the death of a node, with nobody else at the database, ends with a report that accounts for
the queues of the node. -/
theorem accounts_handleNodeDeath {registry : Registry} {database : Database} {membership : Membership}
    {owner : String} (hreach : database.queues.Reachable) (hup : database.reachable = true)
    (hagree : ∀ peer, registry.contains peer = (database.peer? peer).isSome) (hsteady : membership.Steady)
    (hdead : owner ∉ membership.live) :
    ∃ report, (handleNodeDeath registry database membership owner).answer = .ok report ∧
      Accounts database membership.live owner
        (handleNodeDeath registry database membership owner).database.queues report := by
  have wf := hreach.wellFormed
  obtain ⟨fates, hfates, hanswer, hsettled⟩ :=
    Pass.settled_handleNodeDeath registry ⟨wf, hup, hsteady, hdead⟩
  have hperm := perm_reportOn fates
  rw [hfates] at hperm
  refine ⟨reportOn fates, hanswer, hperm, hperm.nodup_iff.mpr (wf.nodup_keys.filter _), ?_, ?_, ?_, ?_, ?_⟩
  · intro key hkey
    obtain ⟨hunknown, hgone⟩ := hsettled.befalls key _ (mem_dropped_reportOn.mp hkey)
    rw [hagree, Option.isSome_eq_false_iff, Option.isNone_iff_eq_none] at hunknown
    exact ⟨hunknown, hgone⟩
  · intro key target hkey
    obtain ⟨node, htarget, hfate⟩ := mem_transferred_reportOn.mp hkey
    obtain ⟨hknown, -, htaken⟩ := hsettled.befalls key _ hfate
    exact ⟨(hagree key.peer).symm.trans hknown, node, htarget, htaken⟩
  · intro key hkey
    exact (hsettled.befalls key _ (mem_orphaned_reportOn.mp hkey)).2.2
  · intro key howner hthere
    have hkey : key ∈ fates.map (·.1) := by
      rw [hfates, mem_keysOwnedBy, ← get?_isSome]
      exact ⟨hthere, howner⟩
    obtain ⟨⟨_, fate⟩, hfate, rfl⟩ := List.mem_map.mp hkey
    have hbefalls := hsettled.befalls _ fate hfate
    rw [mem_orphaned_reportOn, ← hagree]
    constructor
    · exact fun horphaned ↦ (hsettled.befalls _ _ horphaned).imp_right And.left
    · rintro ⟨hknown, hstranded⟩
      cases fate with
      | orphaned => exact hfate
      | dropped => exact absurd (hknown.symm.trans hbefalls.1) (by decide)
      | taken => exact absurd hstranded hbefalls.2.1
  · intro key howner htargets
    refine hsettled.others key (fun hkey ↦ ?_) fun source node hsource hsame ↦ htargets ?_
    · rw [hfates, mem_keysOwnedBy] at hkey
      exact howner hkey.2
    · exact List.mem_map.mpr ⟨_, mem_transferred_reportOn.mpr ⟨node, hsame, hsource⟩, rfl⟩

/-- What a survivor's cache holds. -/
def survivorCache : Registry := ⟨[⟨⟨"2", "c", true⟩, 0⟩, ⟨⟨"3", "c", true⟩, 1⟩], true, 2⟩

/-- Node "d" has died, and node "a" is left. Of the queues of "d", one is of its own log, one was recovered from
"a", one from "e", of which "a" holds a queue too, and one is of a peer that was removed. -/
def remains : Database :=
  { Database.empty with
    peers := survivorCache.cached.map (·.peer)
    queues := .run .empty
      [.create (.own "a" "2") (some (⟨3, "a.0000000003.wal"⟩, 0)),
        .create ⟨"a", "3", "e"⟩ (some (⟨1, "e.0000000001.wal"⟩, 0)),
        .create (.own "d" "2") (some (⟨1, "d.0000000001.wal"⟩, 10)),
        .create ⟨"d", "2", "a"⟩ (some (⟨2, "a.0000000002.wal"⟩, 20)),
        .create ⟨"d", "3", "e"⟩ (some (⟨4, "e.0000000004.wal"⟩, 0)),
        .create (.own "d" "9") (some (⟨1, "d.0000000001.wal"⟩, 0))] }

theorem keys_remains : remains.queues.keys = [.own "a" "2", ⟨"a", "3", "e"⟩, ⟨"d", "2", "a"⟩, .own "d" "2",
    ⟨"d", "3", "e"⟩, .own "d" "9"] := by
  cbv

theorem answer_remains : (handleNodeDeath survivorCache remains ⟨["a"], []⟩ "d").answer =
    .ok ⟨[(⟨"d", "2", "a"⟩, .own "a" "2"), (.own "d" "2", ⟨"a", "2", "d"⟩)], [⟨"d", "3", "e"⟩], [.own "d" "9"]⟩ := by
  have howned : remains.queues.keysOwnedBy "d" = [⟨"d", "2", "a"⟩, .own "d" "2", ⟨"d", "3", "e"⟩, .own "d" "9"] := by
    rw [QueueTables.keysOwnedBy, keys_remains]
    decide +kernel
  have hquery {α : Type} (read : QueueTables → α) : remains.query read = .ok (read remains.queues) := rfl
  -- The pass looks the queues up three times, and what it does with them is evaluated.
  show (Pass.runFor survivorCache (26 + 4) ⟨.asking "d", remains, ⟨["a"], []⟩, []⟩).answer = _
  rw [Pass.runFor_succ rfl]
  show (Pass.runFor survivorCache (26 + 3) ⟨.gathering "d", remains, ⟨["a"], []⟩, []⟩).answer = _
  rw [Pass.runFor_succ rfl, Pass.Turn.next, Pass.step, hquery, howned]
  dsimp only
  rw [Pass.runFor_succ rfl, Pass.Turn.next, Pass.step, hquery, QueueTables.counts, keys_remains]
  dsimp only
  rw [Pass.runFor_succ rfl, Pass.Turn.next, Pass.step, hquery, keys_remains]
  decide +kernel

/-- Node "a" takes the queue of the log of "d", and folds the one recovered from itself into its own. -/
theorem accounts_handleNodeDeath_remains :
    let finished := handleNodeDeath survivorCache remains ⟨["a"], []⟩ "d"
    let report : Report :=
      ⟨[(⟨"d", "2", "a"⟩, .own "a" "2"), (.own "d" "2", ⟨"a", "2", "d"⟩)], [⟨"d", "3", "e"⟩], [.own "d" "9"]⟩
    finished.answer = .ok report ∧ Accounts remains ["a"] "d" finished.database.queues report := by
  have hagree (peer : String) : survivorCache.contains peer = (remains.peer? peer).isSome := by
    rw [Registry.contains, Registry.cached?, Database.peer?, remains, List.find?_map, Option.isSome_map]
    rfl
  obtain ⟨report, hreport, haccounts⟩ := @accounts_handleNodeDeath survivorCache remains ⟨["a"], []⟩ "d"
    ⟨_, rfl⟩ rfl hagree (fun _ ↦ rfl) (by decide)
  obtain rfl := Except.ok.inj (answer_remains.symm.trans hreport)
  exact ⟨answer_remains, haccounts⟩

/-- Node "d" has died and left a queue, the peers of which are all gone, and no node is left. -/
def forsaken : Database :=
  { Database.empty with
    queues := .run .empty [.create (.own "d" "2") (some (⟨1, "d.0000000001.wal"⟩, 0))] }

/-- Nobody can take the queue, and still it is not left where it is, since its peer is not registered. -/
theorem dropped_though_stranded :
    let registry : Registry := ⟨[], true, 0⟩
    let membership : Membership := ⟨[], []⟩
    forsaken.queues.Reachable ∧ forsaken.reachable = true ∧
      (∀ peer, registry.contains peer = (forsaken.peer? peer).isSome) ∧ membership.Steady ∧
      "d" ∉ membership.live ∧ .own "d" "2" ∈ forsaken.queues.keysOwnedBy "d" ∧
      Stranded forsaken.queues membership.live (.own "d" "2") ∧
      (handleNodeDeath registry forsaken membership "d").answer = .ok ⟨[], [], [.own "d" "2"]⟩ := by
  refine ⟨⟨_, rfl⟩, rfl, fun _ ↦ rfl, fun _ ↦ rfl, by decide, ?_, ⟨nofun, ?_⟩, by decide +kernel⟩
  · exact mem_keysOwnedBy.mpr ⟨by decide +kernel, rfl⟩
  · rintro ⟨hlive, -⟩
    cases hlive

end Failover

end LogShipping
