import LogShipping.Proofs.Queue.Tiling

/-!
# The order in which files are taken off a queue

A file is compared with those that are listed when it comes, and a queue keeps no memory of what was taken off
it. So the numbers that are taken off ascend strictly as long as the queue does not run empty; and where a file
comes to the empty queue, they go on ascending if its number is above those that were taken off before. A file
that was taken off may come once more then, and is taken off twice.
-/

namespace LogShipping

namespace QueueTables

variable {tables after : QueueTables} {key : QueueKey}

/-- What a queue lists is part of how it looks. -/
theorem lists_of_get?_eq (wf : tables.WellFormed) (wf' : after.WellFormed)
    (h : after.get? key = tables.get? key) (seq : UInt64) : after.lists key seq = tables.lists key seq := by
  cases hoffset : tables.offset? key with
  | none =>
    have habsent : after.offset? key = none := by
      rw [← get?_eq_none_iff, h, get?_eq_none_iff, hoffset]
    rw [wf.not_lists hoffset, wf'.not_lists habsent]
  | some offset =>
    rw [get?_eq_some_iff.mpr ⟨offset, hoffset, rfl⟩] at h
    obtain ⟨_, -, hsame⟩ := get?_eq_some_iff.mp h
    injection hsame with _ hfiles _
    rw [Bool.eq_iff_iff, lists_iff_mem_filesOf, lists_iff_mem_filesOf, hfiles]

/-- What is listed tells which number is the first one. -/
theorem headSeq?_congr (h : ∀ seq, after.lists key seq = tables.lists key seq) :
    after.headSeq? key = tables.headSeq? key := by
  apply Option.ext
  intro seq
  simp only [headSeq?_eq_some_iff, h]

/-- A number that is listed on an empty queue is the first one. -/
theorem headSeq?_of_alone {seq : UInt64} (hempty : ∀ other, tables.lists key other = false)
    (hlists : ∀ other, after.lists key other = (tables.lists key other || seq == other)) :
    after.headSeq? key = some seq := by
  simp only [hempty, Bool.false_or] at hlists
  refine headSeq?_eq_some_iff.mpr ⟨by rw [hlists, beq_self_eq_true], fun other hother ↦ ?_⟩
  rw [hlists, beq_iff_eq] at hother
  exact Int.le_of_eq (congrArg rank hother)

/-- The numbers behind the first one are larger. -/
theorem lt_of_headSeq? (hsmall : tables.AllFiles Small) {head other : UInt64}
    (hhead : tables.headSeq? key = some head) (hother : tables.lists key other = true) (hne : other ≠ head) :
    head < other := by
  obtain ⟨hlisted, hleast⟩ := headSeq?_eq_some_iff.mp hhead
  have hle := hleast other hother
  obtain ⟨first, hfirst, rfl⟩ := lists_iff.mp hlisted
  obtain ⟨later, hlater, rfl⟩ := lists_iff.mp hother
  rw [rank_eq_toNat (hsmall _ hfirst), rank_eq_toNat (hsmall _ hlater)] at hle
  exact UInt64.lt_of_le_of_ne (UInt64.le_iff_toNat_le.mpr (Int.ofNat_le.mp hle)) (Ne.symm hne)

end QueueTables

namespace QueueStore

variable {database : Database} {key : QueueKey} {call : Call} {calls : List Call}

/-! ## Runs on a queue that stays -/

/-- The call neither brings a queue to the key nor takes one away from it. -/
structure Retains (key : QueueKey) (database : Database) (call : Call) : Prop where
  arrival : ∀ event ∈ (serve database call).events, event.arrival? ≠ some key
  departure : ∀ event ∈ (serve database call).events, event.departure? ≠ some key

/-- All along a run, the queue under the key is neither created nor dropped, handed over or merged into. -/
def Retained (key : QueueKey) (database : Database) : List Call → Prop
  | [] => True
  | call :: calls => Retains key database call ∧ Retained key (serve database call).database calls

/-- The number that a call takes off the queue, if it takes one off. -/
def Call.finished? (key : QueueKey) (database : Database) : Call → Option UInt64
  | .finish other seq =>
    if other = key then
      match (QueueStore.finish database key seq).answer with
      | .ok _ => some seq
      | .error _ => none
    else none
  | _ => none

/-- The numbers that a run takes off the queue, in their order. -/
def finished (key : QueueKey) (database : Database) : List Call → List UInt64
  | [] => []
  | call :: calls => (call.finished? key database).toList ++ finished key (serve database call).database calls

theorem finished_append (key : QueueKey) (database : Database) (earlier later : List Call) :
    finished key database (earlier ++ later) =
      finished key database earlier ++ finished key (serveAll database earlier).database later := by
  induction earlier generalizing database with
  | nil => rfl
  | cons call earlier ih =>
    rw [List.cons_append, finished, finished, ih, List.append_assoc]
    rfl

/-! ## One call -/

/-- What a call does to the files of a queue that stays. -/
inductive Change (key : QueueKey) (database : Database) (call : Call) : Prop
  | same (hnone : call.finished? key database = none)
      (hlists : ∀ seq, (serve database call).database.queues.lists key seq = database.queues.lists key seq)
  | listed (file : FileRef) (hcall : call = .enqueue key file)
      (hok : database.queues.enqueue key file = .ok (serve database call).database.queues)
      (hlists : ∀ seq, (serve database call).database.queues.lists key seq =
        (database.queues.lists key seq || file.seq == seq))
      (hlast : ∀ tail, database.queues.tailSeq? key = some tail → tail < file.seq)
  | finished (seq : UInt64) (hsome : call.finished? key database = some seq)
      (hhead : database.queues.headSeq? key = some seq)
      (hlists : ∀ other, (serve database call).database.queues.lists key other =
        (database.queues.lists key other && other != seq))

theorem change_enqueue (database : Database) (key : QueueKey) (file : FileRef) :
    Change key database (.enqueue key file) := by
  rcases quietly_cases database (·.enqueue key file) with ⟨after, hok, hreply⟩ | ⟨error, hreply, -⟩
  · have hafter : (serve database (.enqueue key file)).database.queues = after :=
      congrArg (·.database.queues) hreply
    obtain ⟨-, ⟨-, rfl⟩ | ⟨rfl, -, hlast⟩⟩ := QueueTables.enqueue_eq_ok_iff.mp hok
    · exact .same rfl fun seq ↦ congrArg (·.lists key seq) hafter
    · refine .listed file rfl (hafter ▸ hok) (fun seq ↦ ?_) hlast
      rw [hafter, QueueTables.lists_addFile, beq_self_eq_true, Bool.true_and]
  · have hafter : (serve database (.enqueue key file)).database = database := congrArg (·.database) hreply
    exact .same rfl fun seq ↦ congrArg (·.queues.lists key seq) hafter

theorem change_advance (database : Database) (key : QueueKey) (start : Nat) (target : LogPosition) :
    Change key database (.advance key start target) := by
  refine .same rfl fun seq ↦ ?_
  rcases serve_advance_cases database key start target with ⟨-, hmoves⟩ | ⟨-, hsame⟩
  · rw [hmoves]
    exact QueueTables.lists_setOffset database.queues key key seq target.offset
  · rw [hsame]

theorem change_finish (database : Database) (key : QueueKey) (seq : UInt64) :
    Change key database (.finish key seq) := by
  have hserve : serve database (.finish key seq) = (QueueStore.finish database key seq).effect := rfl
  have hfinished : Call.finished? key database (.finish key seq) =
      match (QueueStore.finish database key seq).answer with
      | .ok _ => some seq
      | .error _ => none := if_pos rfl
  rcases quietly_cases database (·.finish key seq) with ⟨after, hok, hreply⟩ | ⟨error, hreply, -⟩
  · have hanswer : QueueStore.finish database key seq = _ := hreply
    obtain ⟨-, hhead, rfl⟩ := QueueTables.finish_eq_ok_iff.mp hok
    refine .finished seq (by rw [hfinished, hanswer]) hhead fun other ↦ ?_
    rw [hserve, hanswer]
    show ((database.queues.removeFile key seq).setOffset key 0).lists key other = _
    rw [QueueTables.lists_setOffset, QueueTables.lists_removeFile, beq_self_eq_true, Bool.true_and]
    rfl
  · have hanswer : QueueStore.finish database key seq = _ := hreply
    refine .same (by rw [hfinished, hanswer]) fun other ↦ ?_
    rw [hserve, hanswer]
    rfl

/-- On a queue that stays a call lists a file, takes the first one off, or changes nothing about its files. -/
theorem change_of_retains (wf : database.queues.WellFormed) (h : Retains key database call) :
    Change key database call := by
  by_cases hamends : call.Amends key
  case neg =>
    have hget := get?_serve_of_not_amends h.arrival h.departure hamends
    refine .same ?_ (QueueTables.lists_of_get?_eq wf (wellFormed_serve wf call) hget)
    cases call with
    | finish other seq => exact if_neg hamends
    | create | enqueue | advance | transfer | drop => rfl
  case pos =>
    cases call with
    | enqueue other file => exact hamends ▸ change_enqueue database other file
    | advance other start target => exact hamends ▸ change_advance database other start target
    | finish other seq => exact hamends ▸ change_finish database other seq
    | create | transfer | drop => exact hamends.elim

/-! ## A run of calls -/

/-- The tables are well formed, and all numbers in them and in the calls to come are below 2⁶³. -/
structure Ordinary (database : Database) (calls : List Call) : Prop where
  wf : database.queues.WellFormed
  small : database.queues.AllFiles QueueTables.Small
  files : ∀ call ∈ calls, ∀ file ∈ call.operation.file?, QueueTables.Small file

theorem Ordinary.behind (h : Ordinary database (call :: calls)) : Ordinary (serve database call).database calls where
  wf := wellFormed_serve h.wf call
  small := AllFiles.serve h.small (h.files call List.mem_cons_self)
  files other hother := h.files other (List.mem_cons_of_mem call hother)

/-- Nothing is taken off a queue before its first file. -/
theorem finished_of_headSeq? (h : Ordinary database calls) (hretained : Retained key database calls)
    {head : UInt64} (hhead : database.queues.headSeq? key = some head) :
    finished key database calls = [] ∨ ∃ later, finished key database calls = head :: later := by
  induction calls generalizing database with
  | nil => exact .inl rfl
  | cons call calls ih =>
    have hrest (hhead : (serve database call).database.queues.headSeq? key = some head)
        (hnone : call.finished? key database = none) :
        finished key database (call :: calls) = [] ∨
          ∃ later, finished key database (call :: calls) = head :: later := by
      rw [finished, hnone]
      exact ih h.behind hretained.2 hhead
    cases change_of_retains h.wf hretained.1 with
    | same hnone hlists => exact hrest ((QueueTables.headSeq?_congr hlists).trans hhead) hnone
    | listed file hcall hok hlists hlast =>
      subst hcall
      have hfile : QueueTables.Small file := h.files _ List.mem_cons_self file rfl
      refine hrest (QueueTables.headSeq?_enqueue (fun seq hseq ↦ ?_) hfile hok hhead) rfl
      obtain ⟨other, hrow, rfl⟩ := QueueTables.lists_iff.mp hseq
      exact h.small _ hrow
    | finished seq hsome hfirst hlists =>
      obtain rfl := Option.some.inj (hfirst.symm.trans hhead)
      rw [finished, hsome]
      exact .inr ⟨_, rfl⟩

/-- The queue is there, without files. -/
def RunEmpty (key : QueueKey) (database : Database) : Prop :=
  ∃ offset, database.queues.get? key = some ⟨key, [], offset⟩

/-- A file that a run lists on the empty queue, and takes off later, satisfies the condition for what was taken
off by then. -/
def Refills (key : QueueKey) (condition : List UInt64 → UInt64 → Prop) (database : Database)
    (calls : List Call) : Prop :=
  ∀ earlier file later, calls = earlier ++ .enqueue key file :: later →
    RunEmpty key (serveAll database earlier).database →
    file.seq ∈ finished key (serve (serveAll database earlier).database (.enqueue key file)).database later →
    condition (finished key database earlier) file.seq

/-- The same behind the first call, where that one counts with what was taken off. -/
theorem Refills.behind {condition : List UInt64 → UInt64 → Prop}
    (h : Refills key condition database (call :: calls)) :
    Refills key (fun before ↦ condition ((call.finished? key database).toList ++ before))
      (serve database call).database calls := by
  intro earlier file later hcalls hempty hlater
  exact h (call :: earlier) file later (congrArg (call :: ·) hcalls) hempty hlater

theorem runEmpty_of_enqueue {file : FileRef} {after : QueueTables}
    (hok : database.queues.enqueue key file = .ok after) (htail : database.queues.tailSeq? key = none) :
    RunEmpty key database := by
  have hthere := (QueueTables.enqueue_eq_ok_iff.mp hok).1
  obtain ⟨offset, hoffset⟩ := Option.isSome_iff_exists.mp hthere
  rw [QueueTables.tailSeq?, Option.map_eq_none_iff, List.getLast?_eq_none_iff] at htail
  exact ⟨offset, QueueTables.get?_eq_some_iff.mpr ⟨offset, hoffset, by rw [htail]⟩⟩

/-- If all that is listed is above a number, and so is every file that comes to the empty queue and is taken off
later, then all that is taken off is. -/
theorem lt_of_mem_finished (h : Ordinary database calls) (hretained : Retained key database calls) {bound : UInt64}
    (habove : ∀ seq, database.queues.lists key seq = true → bound < seq)
    (hrefills : Refills key (fun _ seq ↦ bound < seq) database calls) :
    ∀ seq ∈ finished key database calls, bound < seq := by
  induction calls generalizing database with
  | nil => exact fun seq hseq ↦ absurd hseq List.not_mem_nil
  | cons call calls ih =>
    have hrest := fun habove ↦ ih h.behind hretained.2 habove hrefills.behind
    cases change_of_retains h.wf hretained.1 with
    | same hnone hlists =>
      rw [finished, hnone]
      exact hrest fun seq hseq ↦ habove seq (hlists seq ▸ hseq)
    | finished seq hsome hhead hlists =>
      rw [finished, hsome]
      intro other hother
      rcases List.mem_cons.mp hother with rfl | hlater
      · exact habove other (QueueTables.headSeq?_eq_some_iff.mp hhead).1
      · refine hrest (fun seq hseq ↦ ?_) other hlater
        rw [hlists, Bool.and_eq_true] at hseq
        exact habove seq hseq.1
    | listed file hcall hok hlists hlast =>
      subst hcall
      have hlater (hnew : bound < file.seq) :
          ∀ seq ∈ finished key database (.enqueue key file :: calls), bound < seq := by
        refine hrest fun seq hseq ↦ ?_
        rw [hlists, Bool.or_eq_true, beq_iff_eq] at hseq
        rcases hseq with hold | rfl
        · exact habove seq hold
        · exact hnew
      cases htail : database.queues.tailSeq? key with
      | some tail =>
        have hlisted := habove tail (QueueTables.tailSeq?_eq_some_iff.mp htail).1
        exact hlater (UInt64.lt_trans hlisted (hlast tail htail))
      | none =>
        -- Alone on the queue, the file is the next one to be taken off, if any is.
        have hhead := QueueTables.headSeq?_of_alone (QueueTables.tailSeq?_eq_none_iff.mp htail) hlists
        have hfinished : finished key database (.enqueue key file :: calls) =
            finished key (serve database (.enqueue key file)).database calls := rfl
        rcases finished_of_headSeq? h.behind hretained.2 hhead with hnil | ⟨rest, hfirst⟩
        · rw [hfinished, hnil]
          exact fun seq hseq ↦ absurd hseq List.not_mem_nil
        · refine hlater (hrefills [] file calls rfl (runEmpty_of_enqueue hok htail) ?_)
          exact hfirst ▸ List.mem_cons_self

/-- The numbers that are taken off ascend if each one that comes to the empty queue is above those before it. -/
theorem pairwise_finished (h : Ordinary database calls) (hretained : Retained key database calls)
    (hrefills : Refills key (fun before seq ↦ ∀ other ∈ before, other < seq) database calls) :
    (finished key database calls).Pairwise (· < ·) := by
  induction calls generalizing database with
  | nil => exact List.Pairwise.nil
  | cons call calls ih =>
    have hbehind := hrefills.behind
    have hrest : (finished key (serve database call).database calls).Pairwise (· < ·) := by
      apply ih h.behind hretained.2
      intro earlier file later hcalls hempty hlater other hother
      exact hbehind earlier file later hcalls hempty hlater other (List.mem_append_right _ hother)
    cases hfinished : call.finished? key database with
    | none =>
      rw [finished, hfinished]
      exact hrest
    | some seq =>
      rw [finished, hfinished]
      refine List.pairwise_cons.mpr ⟨?_, hrest⟩
      cases change_of_retains h.wf hretained.1 with
      | same hnone hlists => cases hnone.symm.trans hfinished
      | listed file hcall hok hlists hlast =>
        subst hcall
        cases hfinished
      | finished first hsome hhead hlists =>
        obtain rfl := Option.some.inj (hsome.symm.trans hfinished)
        refine lt_of_mem_finished h.behind hretained.2 (fun other hother ↦ ?_) ?_
        · rw [hlists, Bool.and_eq_true, bne_iff_ne] at hother
          exact QueueTables.lt_of_headSeq? h.small hhead hother.1 hother.2
        · intro earlier file later hcalls hempty hlater
          refine hbehind earlier file later hcalls hempty hlater first ?_
          rw [hfinished]
          exact List.mem_cons_self

/-- While a queue is neither created nor dropped, handed over or merged into, and all numbers are below 2⁶³, the
numbers that are taken off it ascend strictly if and only if each file that comes to the empty queue and is
taken off later has a number above all that were taken off before. Other calls may come in between. -/
theorem finished_ascending_iff (hreach : database.queues.Reachable)
    (hsmall : database.queues.AllFiles QueueTables.Small)
    (hfiles : ∀ call ∈ calls, ∀ file ∈ call.operation.file?, QueueTables.Small file)
    (hretained : Retained key database calls) :
    (finished key database calls).Pairwise (· < ·) ↔
      Refills key (fun before seq ↦ ∀ other ∈ before, other < seq) database calls := by
  constructor
  · rintro hascending earlier file later rfl - hlater other hother
    rw [finished_append] at hascending
    refine (List.pairwise_append.mp hascending).2.2 other hother file.seq ?_
    rw [finished]
    exact List.mem_append_right _ hlater
  · exact pairwise_finished ⟨hreach.wellFormed, hsmall, hfiles⟩ hretained

/-- A queue with one file. -/
def single : Database :=
  { Database.empty with
    queues := .run .empty [.create (.own "rs-1" "2") (some (⟨4, "rs-1.0000000004.wal"⟩, 0))] }

theorem single_small : single.queues.AllFiles QueueTables.Small := by
  have hfiles : single.queues.files = [(.own "rs-1" "2", ⟨4, "rs-1.0000000004.wal"⟩)] := by decide +kernel
  intro row hrow
  rw [hfiles] at hrow
  obtain rfl := List.mem_singleton.mp hrow
  show (4 : UInt64).toNat < 1 <<< 63
  decide

/-- The queue runs empty, and a new file comes. -/
def refill : List Call :=
  [.advance (.own "rs-1" "2") 0 ⟨4, 100⟩, .enqueue (.own "rs-1" "2") ⟨5, "rs-1.0000000005.wal"⟩,
    .finish (.own "rs-1" "2") 4, .finish (.own "rs-1" "2") 5,
    .enqueue (.own "rs-1" "2") ⟨7, "rs-1.0000000007.wal"⟩, .finish (.own "rs-1" "2") 7]

/-- File 5 is listed, and the queue stands in file 4. -/
def filled : Database :=
  { Database.empty with
    queues :=
      ⟨[(.own "rs-1" "2", 100)],
        [(.own "rs-1" "2", ⟨4, "rs-1.0000000004.wal"⟩), (.own "rs-1" "2", ⟨5, "rs-1.0000000005.wal"⟩)]⟩ }

theorem finish_filled : finish filled (.own "rs-1" "2") 4 =
    ⟨.ok (), filled.withQueues ((filled.queues.removeFile (.own "rs-1" "2") 4).setOffset (.own "rs-1" "2") 0), []⟩ := by
  have hfiles : filled.queues.filesOf (.own "rs-1" "2") =
      [⟨4, "rs-1.0000000004.wal"⟩, ⟨5, "rs-1.0000000005.wal"⟩] :=
    QueueTables.filesOf_eq_of_perm (by decide) (by decide)
  have hhead : filled.queues.headSeq? (.own "rs-1" "2") = some 4 := by
    rw [QueueTables.headSeq?, hfiles]
    rfl
  have hok := QueueTables.finish_eq_ok_iff.mpr ⟨Option.isSome_iff_exists.mpr ⟨100, rfl⟩, hhead, rfl⟩
  rw [finish, quietly_eq, if_pos (show filled.reachable = true from rfl), hok]
  rfl

theorem finished_ascending_refill :
    finished (.own "rs-1" "2") single refill = [4, 5, 7] ∧
      Refills (.own "rs-1" "2") (fun before seq ↦ ∀ other ∈ before, other < seq) single refill := by
  have hfiles : ∀ call ∈ refill, ∀ file ∈ call.operation.file?, file.seq.toNat < 1 <<< 63 := by decide
  have hretained : Retained (.own "rs-1" "2") single refill := by
    refine ⟨⟨?_, ?_⟩, ⟨?_, ?_⟩, ⟨?_, ?_⟩, ⟨?_, ?_⟩, ⟨?_, ?_⟩, ⟨?_, ?_⟩, trivial⟩ <;> decide +kernel
  have hfinished : finished (.own "rs-1" "2") single refill = [4, 5, 7] := by
    have hfilled : (serveAll single (refill.take 2)).database = filled := by decide +kernel
    have hlater : finished (.own "rs-1" "2") filled (refill.drop 2) = [4, 5, 7] := by
      rw [show refill.drop 2 = .finish (.own "rs-1" "2") 4 :: refill.drop 3 from rfl, finished, Call.finished?, serve,
        finish_filled]
      decide +kernel
    rw [← refill.take_append_drop 2, finished_append, hfilled, hlater]
    decide +kernel
  refine ⟨hfinished, (finished_ascending_iff ⟨_, rfl⟩ single_small hfiles hretained).mp ?_⟩
  rw [hfinished]
  decide

/-- The queue runs empty, and the file that was taken off comes once more. -/
def refillAgain : List Call :=
  [.finish (.own "rs-1" "2") 4, .enqueue (.own "rs-1" "2") ⟨4, "rs-1.0000000004.wal"⟩,
    .finish (.own "rs-1" "2") 4]

/-- One file is taken off twice. -/
theorem not_ascending_refillAgain :
    Retained (.own "rs-1" "2") single refillAgain ∧
      finished (.own "rs-1" "2") single refillAgain = [4, 4] ∧
      ¬(finished (.own "rs-1" "2") single refillAgain).Pairwise (· < ·) := by
  have hretained : Retained (.own "rs-1" "2") single refillAgain := by
    refine ⟨⟨?_, ?_⟩, ⟨?_, ?_⟩, ⟨?_, ?_⟩, trivial⟩ <;> decide +kernel
  have hfinished : finished (.own "rs-1" "2") single refillAgain = [4, 4] := by decide +kernel
  refine ⟨hretained, hfinished, ?_⟩
  rw [hfinished]
  decide

end QueueStore

end LogShipping
