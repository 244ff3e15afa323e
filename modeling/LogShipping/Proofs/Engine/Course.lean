import LogShipping.Cluster.Basic
import LogShipping.Proofs.Engine.Offers
import Mathlib.Logic.Relation

/-!
# Which files of a node's log are listed

A node's storage begins one file after the other, while its engine takes notices off the feeds, looks
after itself, stops and starts again, in any order. A file begun after the last one listed gets on the
queue for a peer if and only if it is offered in time: its notice is handled, or the log is reconciled
while the file is being written, before the same happens to a newer one. Reconciling offers only the file
being written, so the ones begun before it whose notices are still to come, or never will, are passed
over for good.
-/

namespace LogShipping.Engine

/-! ## Histories -/

/-- What happens to a node's queue for a peer. -/
inductive Mark
  /-- The storage of the node begins a file. -/
  | begun (seq : UInt64)
  /-- The engine offers a file to the queue. -/
  | offered (seq : UInt64)
  /-- No file is listed any more. -/
  | emptied
  deriving Repr, DecidableEq

namespace Mark

/-- The number that the next one is compared with. -/
def pass (tail : Option UInt64) : Mark → Option UInt64
  | begun _ => tail
  | offered seq => QueueTables.newer tail seq
  | emptied => none

end Mark

/-- The number that the next one is compared with, after a history that began with the given one. -/
def newest (tail : Option UInt64) (history : List Mark) : Option UInt64 := history.foldl Mark.pass tail

/-- At one time the number was offered and no newer one had been, since the queue was empty last. -/
def InTime (tail : Option UInt64) (history : List Mark) (seq : UInt64) : Prop :=
  ∃ earlier later, history = earlier ++ .offered seq :: later ∧
    QueueTables.Admits (newest tail earlier) seq

section History

variable {tail : Option UInt64} {history more : List Mark} {seq : UInt64}

theorem newest_append : newest tail (history ++ more) = newest (newest tail history) more :=
  List.foldl_append

theorem inTime_append :
    InTime tail (history ++ more) seq ↔
      InTime tail history seq ∨ InTime (newest tail history) more seq := by
  constructor
  · rintro ⟨earlier, later, hsplit, hadmits⟩
    rcases List.append_eq_append_iff.mp hsplit with ⟨rest, rfl, hmore⟩ | ⟨rest, hhistory, hlater⟩
    · rw [newest_append] at hadmits
      exact .inr ⟨rest, later, hmore, hadmits⟩
    · cases rest with
      | nil =>
        rw [List.append_nil] at hhistory
        subst hhistory
        exact .inr ⟨[], later, hlater.symm, hadmits⟩
      | cons mark rest =>
        obtain ⟨rfl, -⟩ := List.cons.inj hlater
        exact .inl ⟨earlier, rest, hhistory, hadmits⟩
  · rintro (⟨earlier, later, rfl, hadmits⟩ | ⟨earlier, later, rfl, hadmits⟩)
    · exact ⟨earlier, later ++ more, by rw [List.append_assoc, List.cons_append], hadmits⟩
    · refine ⟨history ++ earlier, later, (List.append_assoc ..).symm, ?_⟩
      rw [newest_append]
      exact hadmits

theorem inTime_singleton {mark : Mark} :
    InTime tail [mark] seq ↔ mark = .offered seq ∧ QueueTables.Admits tail seq := by
  constructor
  · rintro ⟨earlier, later, hsplit, hadmits⟩
    rcases List.singleton_eq_append_iff.mp hsplit with ⟨rfl, hlater⟩ | ⟨rfl, hlater⟩
    · obtain ⟨rfl, -⟩ := List.cons.inj hlater
      exact ⟨rfl, hadmits⟩
    · cases hlater
  · rintro ⟨rfl, hadmits⟩
    exact ⟨[], [], rfl, hadmits⟩

theorem not_inTime_nil : ¬InTime tail [] seq := by
  rintro ⟨earlier, later, hsplit, -⟩
  exact List.append_ne_nil_of_right_ne_nil earlier (List.cons_ne_nil _ later) hsplit.symm

end History

/-! ## Courses -/

namespace Turn

def lists (turn : Turn) (peer : String) (seq : UInt64) : Bool :=
  turn.world.database.queues.lists (turn.own peer) seq

/-- The last number listed. -/
def tail? (turn : Turn) (peer : String) : Option UInt64 :=
  turn.world.database.queues.tailSeq? (turn.own peer)

/-- The numbers listed. -/
def numbers (turn : Turn) (peer : String) : List UInt64 :=
  (turn.world.database.queues.files.filter (·.1 == turn.own peer)).map (·.2.seq)

theorem mem_numbers {turn : Turn} {peer : String} {seq : UInt64} :
    seq ∈ turn.numbers peer ↔ turn.lists peer seq = true := by
  rw [numbers, lists, QueueTables.lists_iff, List.mem_map]
  simp only [List.mem_filter, beq_iff_eq, Prod.exists]
  constructor
  · rintro ⟨_, file, ⟨hmem, rfl⟩, hseq⟩
    exact ⟨file, hmem, hseq⟩
  · rintro ⟨file, hmem, hseq⟩
    exact ⟨_, file, ⟨hmem, rfl⟩, hseq⟩

/-- The storage of the node begins its next file. -/
def roll (turn : Turn) (silent : Bool) : Turn :=
  { turn with world := (Cluster.roll ⟨turn.world, []⟩ turn.engine.node silent).2.world }

/-- The storage of the node commits the file being written up to a length. -/
def commit (turn : Turn) (length : Nat) : Turn :=
  { turn with world := (Cluster.commit ⟨turn.world, []⟩ turn.engine.node length).world }

end Turn

/-- What others may do, the workers of the queue among them: anything that leaves the node's storage
alone and at most takes files off the queue, the first ones first. There may be another engine for the
node afterwards. -/
structure Elsewhere (peer : String) (before after : Turn) : Prop where
  node : after.engine.node = before.engine.node
  storage : after.world.storage before.engine.node = before.world.storage before.engine.node
  listed : after.world.database.queues.filesOf (before.own peer) <:+
    before.world.database.queues.filesOf (before.own peer)

structure Course where
  turn : Turn
  history : List Mark
  /-- The numbers that were listed at some time. -/
  seen : List UInt64

namespace Course

def opening (turn : Turn) (peer : String) : Course := ⟨turn, [], turn.numbers peer⟩

/-- The course goes on: some things happen to the queue, and the turn is another one afterwards. -/
def extend (course : Course) (peer : String) (marks : List Mark) (turn : Turn) : Course where
  turn := turn
  history := course.history ++ marks ++ if (turn.numbers peer).isEmpty then [.emptied] else []
  seen := course.seen ++ turn.numbers peer

/-- The mark of a number that is offered, if one is. -/
def offers (number : Option UInt64) : List Mark := number.toList.map .offered

/-- One step of a course. -/
inductive Moves (peer : String) : Course → Course → Prop
  /-- The storage begins a file. A silent one is not announced. -/
  | roll (course : Course) (silent : Bool) :
      Moves peer course (course.extend peer
        [.begun (course.turn.world.storage course.turn.engine.node).next] (course.turn.roll silent))
  | commit (course : Course) (length : Nat) :
      Moves peer course (course.extend peer [] (course.turn.commit length))
  /-- The engine takes a notice of the node's log, or finds that it fell behind. -/
  | notice (course : Course) {places : Places} {turn : Turn}
      (hplaces : course.turn.engine.places = some places)
      (h : course.turn.nextLogEvent? places = some turn) :
      Moves peer course (course.extend peer (offers (course.turn.noticed places)) turn)
  /-- The engine takes a notice of the peers or of the queues. -/
  | otherNotice (course : Course) {places : Places} {turn : Turn}
      (hplaces : course.turn.engine.places = some places)
      (h : course.turn.nextPeerEvent? places = some turn ∨
        course.turn.nextQueueEvent? places = some turn) :
      Moves peer course (course.extend peer [] turn)
  /-- The engine looks after itself. -/
  | poll (course : Course) :
      Moves peer course (course.extend peer (offers course.turn.reconciled) course.turn.poll)
  | start (course : Course) : Moves peer course (course.extend peer [] course.turn.start.2)
  | halt (course : Course) : Moves peer course (course.extend peer [] course.turn.halt)
  | elsewhere (course : Course) {turn : Turn} (h : Elsewhere peer course.turn turn) :
      Moves peer course (course.extend peer [] turn)

/-- A course leads to another while the queue is there. -/
def Leads (peer : String) : Course → Course → Prop :=
  Relation.ReflTransGen fun before after ↦ Moves peer before after ∧ after.turn.hasQueue peer = true

/-! ## The history tells what was listed -/

/-- What a course that began with the given turn has in its history is what happened to the queue. -/
structure Consistent (first : Turn) (peer : String) (course : Course) : Prop where
  node : course.turn.engine.node = first.engine.node
  there : course.turn.hasQueue peer = true
  tail : course.turn.tail? peer = newest (first.tail? peer) course.history
  listed : ∀ seq, course.turn.lists peer seq = true → seq ∈ course.seen
  seen : ∀ seq, seq ∈ course.seen ↔
    first.lists peer seq = true ∨ InTime (first.tail? peer) course.history seq

namespace Consistent

variable {first turn : Turn} {peer : String} {course after : Course}

theorem opening (hthere : first.hasQueue peer = true) : Consistent first peer (.opening first peer) where
  node := rfl
  there := hthere
  tail := rfl
  listed := fun _ hlisted ↦ Turn.mem_numbers.mpr hlisted
  seen := fun _ ↦ Turn.mem_numbers.trans (or_iff_left not_inTime_nil).symm

/-- A step adds what is offered in time and nothing else, and the last number is the one that the next is
compared with unless the queue is empty. -/
theorem extend (h : Consistent first peer course) {marks : List Mark}
    (hnode : turn.engine.node = course.turn.engine.node) (hthere : turn.hasQueue peer = true)
    (htail : turn.numbers peer ≠ [] → turn.tail? peer = newest (course.turn.tail? peer) marks)
    (hold : ∀ seq, turn.lists peer seq = true →
      course.turn.lists peer seq = true ∨ InTime (course.turn.tail? peer) marks seq)
    (hnew : ∀ seq, InTime (course.turn.tail? peer) marks seq → turn.lists peer seq = true) :
    Consistent first peer (course.extend peer marks turn) where
  node := hnode.trans h.node
  there := hthere
  tail := by
    show turn.tail? peer = newest _ (course.history ++ marks ++ _)
    rw [newest_append, newest_append, ← h.tail]
    split
    case isTrue hempty =>
      refine QueueTables.tailSeq?_eq_none_iff.mpr fun seq ↦ ?_
      rw [← Bool.not_eq_true]
      intro hlisted
      have hmem : seq ∈ turn.numbers peer := Turn.mem_numbers.mpr hlisted
      rw [List.isEmpty_iff.mp hempty] at hmem
      cases hmem
    case isFalse hsome => exact htail fun hempty ↦ hsome (List.isEmpty_iff.mpr hempty)
  listed := fun seq hlisted ↦ List.mem_append_right _ (Turn.mem_numbers.mpr hlisted)
  seen := fun seq ↦ by
    show seq ∈ course.seen ++ turn.numbers peer ↔ _ ∨ InTime _ (course.history ++ marks ++ _) seq
    have hemptied (tail : Option UInt64) :
        ¬InTime tail (if (turn.numbers peer).isEmpty then [.emptied] else []) seq := by
      split
      case isTrue => rw [inTime_singleton]; rintro ⟨⟨⟩, -⟩
      case isFalse => exact not_inTime_nil
    rw [List.mem_append, inTime_append, or_iff_left (hemptied _), inTime_append, ← h.tail, ← or_assoc,
      ← h.seen, Turn.mem_numbers]
    constructor
    · rintro (hseen | hlisted)
      · exact .inl hseen
      · exact (hold seq hlisted).imp_left (h.listed seq)
    · exact Or.imp_right (hnew seq)

/-- Nothing is listed or taken off. -/
theorem extend_of_same (h : Consistent first peer course) {marks : List Mark}
    (hmarks : marks = [] ∨ ∃ seq, marks = [.begun seq])
    (hnode : turn.engine.node = course.turn.engine.node) (hthere : turn.hasQueue peer = true)
    (hsame : ∀ seq, turn.lists peer seq = course.turn.lists peer seq) :
    Consistent first peer (course.extend peer marks turn) := by
  have hown : turn.own peer = course.turn.own peer := congrArg (QueueKey.own · peer) hnode
  have hnever (seq : UInt64) : ¬InTime (course.turn.tail? peer) marks seq := by
    rcases hmarks with rfl | ⟨other, rfl⟩
    · exact not_inTime_nil
    · rw [inTime_singleton]
      rintro ⟨⟨⟩, -⟩
  have hpassed : newest (course.turn.tail? peer) marks = course.turn.tail? peer := by
    rcases hmarks with rfl | ⟨other, rfl⟩ <;> rfl
  have htail : turn.tail? peer = course.turn.tail? peer := by
    unfold Turn.tail?
    rw [hown]
    refine QueueTables.tailSeq?_congr fun seq ↦ ?_
    have hlists := hsame seq
    rw [Turn.lists, hown] at hlists
    exact hlists
  refine h.extend hnode hthere (fun _ ↦ htail.trans hpassed.symm) (fun seq hlisted ↦ ?_) ?_
  · rw [hsame] at hlisted
    exact .inl hlisted
  · exact fun seq htime ↦ absurd htime (hnever seq)

/-- The queue is offered a number, or nothing. -/
theorem extend_of_takes (h : Consistent first peer course) {number : Option UInt64}
    (hnode : turn.engine.node = course.turn.engine.node) (hthere : turn.hasQueue peer = true)
    (htakes : course.turn.ground.Takes (course.turn.own peer) number turn.ground) :
    Consistent first peer (course.extend peer (offers number) turn) := by
  have hown : turn.own peer = course.turn.own peer := congrArg (QueueKey.own · peer) hnode
  cases number with
  | none =>
    apply h.extend_of_same (.inl rfl) hnode hthere
    intro seq
    rw [Turn.lists, hown]
    exact htakes seq
  | some offered =>
    have hlists (seq : UInt64) : turn.lists peer seq = true ↔
        course.turn.lists peer seq = true ∨ InTime (course.turn.tail? peer) (offers (some offered)) seq := by
      rw [Turn.lists, hown]
      refine (htakes.2 seq).trans (or_congr_right ?_)
      rw [offers, Option.toList_some, List.map_singleton, inTime_singleton, Mark.offered.injEq,
        @eq_comm _ offered]
      apply and_congr_right
      rintro rfl
      exact Iff.rfl
    have htail : turn.tail? peer = newest (course.turn.tail? peer) (offers (some offered)) := by
      rw [Turn.tail?, hown]
      exact htakes.tailSeq?_eq
    exact h.extend hnode hthere (fun _ ↦ htail) (fun seq ↦ (hlists seq).mp)
      fun seq htime ↦ (hlists seq).mpr (.inr htime)

/-- The last file stays, unless all are taken off. -/
theorem extend_of_elsewhere (h : Consistent first peer course) (helse : Elsewhere peer course.turn turn)
    (hthere : turn.hasQueue peer = true) : Consistent first peer (course.extend peer [] turn) := by
  have hown : turn.own peer = course.turn.own peer := congrArg (QueueKey.own · peer) helse.node
  obtain ⟨taken, htaken⟩ := helse.listed
  refine h.extend helse.node hthere (fun hsome ↦ ?_) (fun seq hlisted ↦ .inl ?_) ?_
  · have hleft : turn.world.database.queues.filesOf (course.turn.own peer) ≠ [] := by
      intro hempty
      refine hsome (List.eq_nil_iff_forall_not_mem.mpr fun seq hmem ↦ ?_)
      have hlisted := Turn.mem_numbers.mp hmem
      rw [Turn.lists, hown, QueueTables.lists_iff_mem_filesOf, hempty] at hlisted
      obtain ⟨file, hfile, -⟩ := hlisted
      cases hfile
    show turn.tail? peer = course.turn.tail? peer
    rw [Turn.tail?, Turn.tail?, hown, QueueTables.tailSeq?, QueueTables.tailSeq?, ← htaken,
      List.getLast?_append, List.getLast?_eq_some_getLast hleft, Option.some_or]
  · rw [Turn.lists, hown, QueueTables.lists_iff_mem_filesOf] at hlisted
    rw [Turn.lists, QueueTables.lists_iff_mem_filesOf, ← htaken]
    obtain ⟨file, hfile, hseq⟩ := hlisted
    exact ⟨file, List.mem_append_right taken hfile, hseq⟩
  · exact fun seq htime ↦ absurd htime not_inTime_nil

theorem extend_of_settles (h : Consistent first peer course)
    (hsettles : course.turn.ground.Settles turn.ground) (hthere : turn.hasQueue peer = true) :
    Consistent first peer (course.extend peer [] turn) := by
  have hnode : turn.engine.node = course.turn.engine.node :=
    congrArg Ground.node hsettles.eq_withQueues
  have hown : turn.own peer = course.turn.own peer := congrArg (QueueKey.own · peer) hnode
  apply h.extend_of_same (.inl rfl) hnode hthere
  intro seq
  rw [Turn.lists, hown]
  exact hsettles.lists_eq h.there (hown ▸ hthere) seq

/-- Every step keeps the history true. -/
theorem moves (h : Consistent first peer course) (hmove : Moves peer course after)
    (hthere : after.turn.hasQueue peer = true) : Consistent first peer after := by
  cases hmove with
  | roll silent => exact h.extend_of_same (.inr ⟨_, rfl⟩) rfl hthere fun _ ↦ rfl
  | commit length => exact h.extend_of_same (.inl rfl) rfl hthere fun _ ↦ rfl
  | notice hplaces hnotice =>
    obtain ⟨htakes, hnode⟩ := Turn.nextLogEvent?_takes hnotice h.there
    exact h.extend_of_takes hnode hthere htakes
  | otherNotice hplaces hnotice =>
    rcases hnotice with hpeer | hqueue
    · exact h.extend_of_settles (Turn.nextPeerEvent?_settles hpeer) hthere
    · exact h.extend_of_settles (Turn.nextQueueEvent?_settles hqueue) hthere
  | poll =>
    exact h.extend_of_takes course.turn.node_poll hthere (Turn.poll_takes h.there hthere)
  | start => exact h.extend_of_settles (Turn.start_settles course.turn) hthere
  | halt =>
    refine h.extend_of_settles ?_ hthere
    rw [Turn.ground_halt]
    exact .refl _
  | elsewhere helse => exact h.extend_of_elsewhere helse hthere

theorem leads (h : Consistent first peer course) (hleads : Leads peer course after) :
    Consistent first peer after := by
  induction hleads with
  | refl => exact h
  | tail _ hstep ih => exact ih.moves hstep.1 hstep.2

end Consistent

/-- While the queue is there, a number that was not listed at first gets listed if and only if it is
offered in time. -/
theorem seen_iff_inTime {turn : Turn} {peer : String} {course : Course}
    (hthere : turn.hasQueue peer = true) (hleads : Leads peer (.opening turn peer) course)
    (seq : UInt64) :
    seq ∈ course.seen ↔ turn.lists peer seq = true ∨ InTime (turn.tail? peer) course.history seq :=
  ((Consistent.opening hthere).leads hleads).seen seq

namespace Sample

def peer : Peer := ⟨"p", "mem://p", true⟩

/-- Node n writes its first file, which is listed on its queue for the peer. -/
def world : World :=
  { World.create (.ofNames ["f"]) with
    database := { Database.empty with
      peers := [peer]
      queues := .run .empty [.create (.own "n" "p") (some (⟨1, "n.0000000001.wal"⟩, 0))] }
    registry := ⟨[⟨peer, 0⟩], true, 1⟩
    storages := [("n", ⟨some (⟨1, "n.0000000001.wal"⟩, 0), 2, .empty Storage.feedCapacity⟩)] }

/-- The engine of the node, not started yet. -/
def engine : Engine where
  settings := .brisk "n"
  state := .created
  facilities := ⟨"n", .brisk, none, ⟨1, [], []⟩, .create ⟨5, 1, 10⟩⟩
  workers := []
  sinks := [("p", .remote "p")]
  places := none
  nextPoll := 0
  coordinator := .off

def down : Course := .opening ⟨world, engine⟩ "p"

def rolled (course : Course) : Course :=
  course.extend "p" [.begun (course.turn.world.storage course.turn.engine.node).next]
    (course.turn.roll false)

def started (course : Course) : Course := course.extend "p" [] course.turn.start.2

def polled (course : Course) : Course :=
  course.extend "p" (offers course.turn.reconciled) course.turn.poll

/-- The engine is started, and a file is begun before it looks after itself. -/
def keptUp : Course := polled (rolled (started down))

/-- Two files are begun before the engine is started and looks after itself. -/
def caughtUp : Course := polled (started (rolled (rolled down)))

end Sample

/-- A file that is begun while the engine runs is listed once the engine looks after itself. -/
theorem seen_rolled_while_up :
    Leads "p" Sample.down Sample.keptUp ∧ 2 ∈ Sample.keptUp.seen := by
  have hleads : Leads "p" Sample.down Sample.keptUp :=
    ((Relation.ReflTransGen.single ⟨.start _, by decide +kernel⟩).tail
      ⟨.roll _ false, by decide +kernel⟩).tail ⟨.poll _, by decide +kernel⟩
  refine ⟨hleads, (seen_iff_inTime (by decide +kernel) hleads 2).mpr (.inr ?_)⟩
  exact ⟨[.begun 2], [], by decide +kernel, by decide +kernel⟩

/-- Of two files that are begun while the engine is down the first is never listed, although the engine
has looked after itself again and no notice is left. -/
theorem not_seen_rolled_while_down :
    Leads "p" Sample.down Sample.caughtUp ∧ Sample.down.turn.tail? "p" = some 1 ∧
      .begun 2 ∈ Sample.caughtUp.history ∧ Sample.caughtUp.turn.nextEvent? = none ∧
      2 ∉ Sample.caughtUp.seen := by
  refine ⟨?_, by decide +kernel, by decide +kernel, ?_, by decide +kernel⟩
  · exact (((Relation.ReflTransGen.single ⟨.roll _ false, by decide +kernel⟩).tail
      ⟨.roll _ false, by decide +kernel⟩).tail ⟨.start _, by decide +kernel⟩).tail
        ⟨.poll _, by decide +kernel⟩
  · exact Option.isNone_iff_eq_none.mp (by decide +kernel)

end Course

end LogShipping.Engine
