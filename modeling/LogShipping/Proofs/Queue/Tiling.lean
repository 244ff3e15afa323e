import LogShipping.Proofs.Queue.Atomicity
import LogShipping.Proofs.Queue.Standing

/-!
# Advances tile the first file

Any number of callers move the offset of a queue, in any order, and other calls come in between. As long as
the queue is not created, dropped, handed over, merged into or has a file taken off, those advances that
moved the offset form a chain: each one begins where the one before it ended and ends further on, so that
together they cover what lies between the offset at the beginning and the one at the end, once. All of them
are in the first file of the queue. Any other advance changes nothing.
-/

namespace LogShipping.QueueStore

variable {database : Database} {key : QueueKey} {call : Call}

/-! ## Calls that leave a queue in its place -/

/-- The call neither brings a queue to the key nor takes one away from it or a file off it. -/
structure Undisturbing (key : QueueKey) (database : Database) (call : Call) : Prop where
  arrival : ∀ event ∈ (serve database call).events, event.arrival? ≠ some key
  departure : ∀ event ∈ (serve database call).events, event.departure? ≠ some key
  finish : ∀ seq, call = .finish key seq → (QueueStore.finish database key seq).answer ≠ .ok ()

/-- What a call announces when it is carried out tells whether it disturbs the queue, unless it takes a file
off. -/
theorem undisturbing_of_announced
    (h : ∀ event ∈ call.announced database.queues, event.arrival? ≠ some key ∧ event.departure? ≠ some key)
    (hfinish : ∀ seq, call ≠ .finish key seq) : Undisturbing key database call := by
  have hevents : ∀ event ∈ (serve database call).events,
      event.arrival? ≠ some key ∧ event.departure? ≠ some key := by
    rcases serve_cases database call with ⟨after, -, hserve⟩ | hserve
    · rw [hserve]
      exact h
    · rw [hserve]
      exact fun event hmem ↦ by cases hmem
  exact ⟨fun event hmem ↦ (hevents event hmem).1, fun event hmem ↦ (hevents event hmem).2,
    fun seq hcall ↦ absurd hcall (hfinish seq)⟩

/-- No call of a run disturbs the queue. -/
def Undisturbed (key : QueueKey) (database : Database) : List Call → Prop
  | [] => True
  | call :: calls => Undisturbing key database call ∧ Undisturbed key (serve database call).database calls

/-- The tables show the same queue, except that its offset may be another one and that files may have been
listed behind those that were there. -/
structure Onward (key : QueueKey) (offset? : Option Nat) (tables after : QueueTables) : Prop where
  offset : after.offset? key = offset?
  head : ∀ seq, tables.headSeq? key = some seq → after.headSeq? key = some seq

/-- A queue that looks the same is where it was. -/
theorem Onward.of_get?_eq {tables after : QueueTables} (wf : tables.WellFormed)
    (h : after.get? key = tables.get? key) : Onward key (tables.offset? key) tables after := by
  cases hoffset : tables.offset? key with
  | none =>
    refine ⟨?_, fun seq hhead ↦ ?_⟩
    · rw [← QueueTables.get?_eq_none_iff, h, QueueTables.get?_eq_none_iff, hoffset]
    · have hlisted := (QueueTables.headSeq?_eq_some_iff.mp hhead).1
      rw [wf.not_lists hoffset] at hlisted
      cases hlisted
  | some offset =>
    rw [QueueTables.get?_eq_some_iff.mpr ⟨offset, hoffset, rfl⟩] at h
    obtain ⟨_, hafter, hsame⟩ := QueueTables.get?_eq_some_iff.mp h
    injection hsame with _ hfiles hkept
    refine ⟨hafter.trans (congrArg some hkept.symm), fun seq hhead ↦ ?_⟩
    rw [QueueTables.headSeq?, ← hfiles]
    exact hhead

/-! ## Advances -/

/-- The queue stands at the offset in the file of the target, before it, and can be reached. -/
structure Fits (database : Database) (key : QueueKey) (start : Nat) (target : LogPosition) : Prop where
  reachable : database.reachable = true
  head : database.queues.headSeq? key = some target.seq
  offset : database.queues.offset? key = some start
  further : start < target.offset

/-- An advance that fits moves the offset, and any other changes nothing. -/
theorem serve_advance_cases (database : Database) (key : QueueKey) (start : Nat) (target : LogPosition) :
    (Fits database key start target ∧ serve database (.advance key start target) =
      ⟨database.withQueues (database.queues.setOffset key target.offset), []⟩) ∨
    (¬Fits database key start target ∧ serve database (.advance key start target) = ⟨database, []⟩) := by
  have hserve : serve database (.advance key start target) = (advance database key start target).effect := rfl
  by_cases hfits : Fits database key start target
  case pos =>
    refine .inl ⟨hfits, ?_⟩
    have hok : database.queues.advance key start target = .ok (database.queues.setOffset key target.offset) :=
      QueueTables.advance_eq_ok_iff.mpr ⟨hfits.head, start, hfits.offset, .inr ⟨hfits.further, rfl, rfl⟩⟩
    rw [hserve, advance, quietly_eq, if_pos hfits.reachable, hok]
    rfl
  case neg =>
    refine .inr ⟨hfits, ?_⟩
    rw [hserve, advance, quietly_eq]
    split
    case isFalse => rfl
    case isTrue hup =>
      cases hadvance : database.queues.advance key start target with
      | error error => rfl
      | ok after =>
        obtain ⟨hhead, current, hcurrent, ⟨-, rfl⟩ | ⟨hlt, rfl, -⟩⟩ :=
          QueueTables.advance_eq_ok_iff.mp hadvance
        · rfl
        · exact absurd ⟨hup, hhead, hcurrent, hlt⟩ hfits

theorem offset?_of_fits {start : Nat} {target : LogPosition} (h : Fits database key start target) :
    (database.queues.setOffset key target.offset).offset? key = some target.offset := by
  rw [QueueTables.offset?_setOffset, if_pos rfl, h.offset]
  rfl

/-- An advance of a queue that was asked for. -/
structure Advance where
  /-- The offset that the caller says it read from. -/
  start : Nat
  target : LogPosition
  deriving Repr, DecidableEq

/-- The advance of the queue that a call is, if it is one and moves the offset. -/
def Call.advance? (key : QueueKey) (database : Database) : Call → Option Advance
  | .advance other start target =>
    if other = key ∧ (serve database (.advance other start target)).database.queues.offset? key ≠
        database.queues.offset? key then
      some ⟨start, target⟩
    else none
  | _ => none

/-- The advances of a run that moved the offset of a queue. -/
def advances (key : QueueKey) (database : Database) : List Call → List Advance
  | [] => []
  | call :: calls => (call.advance? key database).toList ++ advances key (serve database call).database calls

theorem advances_append (key : QueueKey) (database : Database) (earlier later : List Call) :
    advances key database (earlier ++ later) =
      advances key database earlier ++ advances key (serveAll database earlier).database later := by
  induction earlier generalizing database with
  | nil => rfl
  | cons call earlier ih =>
    rw [List.cons_append, advances, advances, ih, List.append_assoc]
    rfl

/-- The advances lead from one offset to the other, each from where the one before it ended to further on. -/
def Tile : (first : Option Nat) → List Advance → (last : Option Nat) → Prop
  | first, [], last => first = last
  | first, advance :: rest, last =>
    first = some advance.start ∧ advance.start < advance.target.offset ∧
      Tile (some advance.target.offset) rest last

/-! ## One call -/

theorem advance?_of_same (hsame : (serve database call).database.queues.offset? key =
    database.queues.offset? key) : call.advance? key database = none := by
  cases call with
  | advance other start target => exact if_neg fun h ↦ h.2 hsame
  | create | enqueue | finish | transfer | drop => rfl

/-- The call asks for a change of the queue where it stands. -/
def Call.Amends (key : QueueKey) : Call → Prop
  | .enqueue other _ | .advance other _ _ | .finish other _ => other = key
  | .create _ _ | .transfer _ _ _ | .drop _ => False

/-- Any other call leaves a queue as it is that it neither brings nor takes away. -/
theorem get?_serve_of_not_amends (harrival : ∀ event ∈ (serve database call).events, event.arrival? ≠ some key)
    (hdeparture : ∀ event ∈ (serve database call).events, event.departure? ≠ some key)
    (hother : ¬call.Amends key) :
    (serve database call).database.queues.get? key = database.queues.get? key := by
  by_cases hnamed : key ∈ call.keys
  case neg => exact get?_serve_of_not_mem database call hnamed
  rcases serve_cases database call with ⟨after, hok, hserve⟩ | hserve
  case inr => rw [hserve]
  have hevents : (serve database call).events = call.announced database.queues := by rw [hserve]
  have hafter : (serve database call).database.queues = after := by rw [hserve]; rfl
  cases call with
  | create created seed =>
    obtain rfl := List.mem_singleton.mp hnamed
    cases hthere : database.queues.offset? key with
    | none =>
      refine absurd rfl (harrival (.created key) ?_)
      rw [hevents, Call.announced, hthere]
      exact List.mem_singleton_self _
    | some offset =>
      have hsame : database.queues.create key seed = (false, database.queues) := by
        unfold QueueTables.create
        rw [hthere]
      rw [hafter, ← Except.ok.inj hok, hsame]
  | transfer membership source newOwner =>
    have hmem : .transferred source (source.withOwner newOwner) ∈
        (serve database (.transfer membership source newOwner)).events := by
      rw [hevents]
      exact List.mem_singleton_self _
    rcases List.mem_cons.mp hnamed with rfl | htarget
    · exact absurd rfl (hdeparture _ hmem)
    · obtain rfl := List.mem_singleton.mp htarget
      exact absurd rfl (harrival _ hmem)
  | drop dropped =>
    obtain rfl := List.mem_singleton.mp hnamed
    cases hthere : database.queues.offset? key with
    | some offset =>
      refine absurd rfl (hdeparture (.dropped key) ?_)
      rw [hevents, Call.announced, hthere]
      exact List.mem_singleton_self _
    | none =>
      obtain rfl : database.queues.remove key = after := Except.ok.inj hok
      rw [hafter, QueueTables.get?_eq_none_iff.mpr hthere, QueueTables.get?_eq_none_iff,
        QueueTables.offset?_remove, if_pos rfl]
  | enqueue other file => exact absurd (List.mem_singleton.mp hnamed).symm hother
  | advance other start target => exact absurd (List.mem_singleton.mp hnamed).symm hother
  | finish other seq => exact absurd (List.mem_singleton.mp hnamed).symm hother

/-- A call that leaves the queue in its place moves its offset by an advance that fits, or not at all. -/
theorem onward_of_undisturbing (wf : database.queues.WellFormed)
    (hsmall : database.queues.AllFiles QueueTables.Small)
    (hfile : ∀ file ∈ call.operation.file?, QueueTables.Small file) (h : Undisturbing key database call) :
    (call.advance? key database = none ∧
      Onward key (database.queues.offset? key) database.queues (serve database call).database.queues) ∨
    ∃ advance, call.advance? key database = some advance ∧
      Fits database key advance.start advance.target ∧
      Onward key (some advance.target.offset) database.queues (serve database call).database.queues := by
  have hstill (hget : (serve database call).database.queues.get? key = database.queues.get? key) :
      call.advance? key database = none ∧
        Onward key (database.queues.offset? key) database.queues (serve database call).database.queues := by
    have honward := Onward.of_get?_eq wf hget
    exact ⟨advance?_of_same honward.offset, honward⟩
  by_cases hamends : call.Amends key
  case neg => exact .inl (hstill (get?_serve_of_not_amends h.arrival h.departure hamends))
  cases call with
  | enqueue listed file =>
    obtain rfl : listed = key := hamends
    have hlisted (seq : UInt64) (hlists : database.queues.lists listed seq = true) : seq.toNat < 1 <<< 63 := by
      obtain ⟨other, hrow, rfl⟩ := QueueTables.lists_iff.mp hlists
      exact hsmall _ hrow
    rcases quietly_cases database (·.enqueue listed file) with ⟨after, hok, hreply⟩ | ⟨error, hreply, -⟩
    case inr => exact .inl (hstill (congrArg (·.database.queues.get? listed) hreply))
    have hafter : (serve database (.enqueue listed file)).database.queues = after :=
      congrArg (·.database.queues) hreply
    refine .inl ⟨rfl, ?_, fun seq hhead ↦ ?_⟩
    · rw [hafter]
      obtain ⟨-, ⟨-, rfl⟩ | ⟨rfl, -, -⟩⟩ := QueueTables.enqueue_eq_ok_iff.mp hok <;> rfl
    · rw [hafter]
      exact QueueTables.headSeq?_enqueue hlisted (hfile file rfl) hok hhead
  | advance moved start target =>
    obtain rfl : moved = key := hamends
    rcases serve_advance_cases database moved start target with ⟨hfits, hmoves⟩ | ⟨-, hsame⟩
    case inr => exact .inl (hstill (by rw [hsame]))
    have hoffset : (serve database (.advance moved start target)).database.queues.offset? moved =
        some target.offset := hmoves ▸ offset?_of_fits hfits
    have hchanged : (serve database (.advance moved start target)).database.queues.offset? moved ≠
        database.queues.offset? moved := by
      rw [hoffset, hfits.offset]
      exact fun hsame ↦ Nat.ne_of_gt hfits.further (Option.some.inj hsame)
    refine .inr ⟨⟨start, target⟩, if_pos ⟨rfl, hchanged⟩, hfits, hoffset, fun seq hhead ↦ ?_⟩
    rw [hmoves]
    exact (QueueTables.headSeq?_setOffset target.offset moved).trans hhead
  | finish finished seq =>
    obtain rfl : finished = key := hamends
    rcases quietly_cases database (·.finish finished seq) with ⟨_, -, hreply⟩ | ⟨error, hreply, -⟩
    · exact absurd (congrArg Reply.answer hreply) (h.finish seq rfl)
    · exact .inl (hstill (congrArg (·.database.queues.get? finished) hreply))
  | create | transfer | drop => exact hamends.elim

/-! ## A run of calls -/

theorem AllFiles.serve (hsmall : database.queues.AllFiles QueueTables.Small)
    (hfile : ∀ file ∈ call.operation.file?, QueueTables.Small file) :
    (serve database call).database.queues.AllFiles QueueTables.Small := by
  rcases serve_cases database call with ⟨after, hok, hserve⟩ | hserve
  · have happlied := hsmall.apply hfile
    rw [QueueTables.apply, hok] at happlied
    rw [hserve]
    exact happlied
  · rw [hserve]
    exact hsmall

theorem wellFormed_serve (wf : database.queues.WellFormed) (call : Call) :
    (serve database call).database.queues.WellFormed := by
  rcases serve_cases database call with ⟨after, hok, hserve⟩ | hserve
  · rw [hserve]
    exact wf.perform call.operation hok
  · rw [hserve]
    exact wf

/-- What a run of calls comes to for a queue that it does not disturb. -/
theorem tile_advances (wf : database.queues.WellFormed) (hsmall : database.queues.AllFiles QueueTables.Small)
    {calls : List Call} (hfiles : ∀ call ∈ calls, ∀ file ∈ call.operation.file?, QueueTables.Small file)
    (h : Undisturbed key database calls) :
    Tile (database.queues.offset? key) (advances key database calls)
        ((serveAll database calls).database.queues.offset? key) ∧
      (∀ seq, database.queues.headSeq? key = some seq →
        (serveAll database calls).database.queues.headSeq? key = some seq) ∧
      ∀ advance ∈ advances key database calls,
        (serveAll database calls).database.queues.headSeq? key = some advance.target.seq := by
  induction calls generalizing database with
  | nil => exact ⟨rfl, fun _ hhead ↦ hhead, fun advance hmem ↦ by cases hmem⟩
  | cons call calls ih =>
    have hfile := hfiles call List.mem_cons_self
    obtain ⟨htile, hhead, hmoved⟩ := ih (wellFormed_serve wf call) (AllFiles.serve hsmall hfile)
      (fun later hlater ↦ hfiles later (List.mem_cons_of_mem call hlater)) h.2
    rcases onward_of_undisturbing wf hsmall hfile h.1 with ⟨hnone, honward⟩ | ⟨advance, hsome, hfits, honward⟩
    · rw [advances, hnone, Option.toList_none, List.nil_append]
      rw [honward.offset] at htile
      exact ⟨htile, fun seq hfirst ↦ hhead seq (honward.head seq hfirst), hmoved⟩
    · rw [advances, hsome, Option.toList_some, List.singleton_append]
      rw [honward.offset] at htile
      refine ⟨⟨hfits.offset, hfits.further, htile⟩, fun seq hfirst ↦ hhead seq (honward.head seq hfirst), ?_⟩
      intro other hmem
      rcases List.mem_cons.mp hmem with rfl | hlater
      · exact hhead _ (honward.head _ hfits.head)
      · exact hmoved other hlater

/-- The advances that move a queue's offset while it is left in its place are in its first file, lead from
the offset at the beginning to the one at the end, and leave no gap and no overlap. Any other advance that
comes in between changes nothing. -/
theorem advances_tile_undisturbed (hreach : database.queues.Reachable)
    (hsmall : database.queues.AllFiles QueueTables.Small) {calls : List Call}
    (hfiles : ∀ call ∈ calls, ∀ file ∈ call.operation.file?, QueueTables.Small file)
    (hquiet : Undisturbed key database calls) :
    Tile (database.queues.offset? key) (advances key database calls)
        ((serveAll database calls).database.queues.offset? key) ∧
      (∀ seq, database.queues.headSeq? key = some seq →
        (serveAll database calls).database.queues.headSeq? key = some seq) ∧
      (∀ advance ∈ advances key database calls,
        (serveAll database calls).database.queues.headSeq? key = some advance.target.seq) ∧
      ∀ earlier start target later, calls = earlier ++ .advance key start target :: later →
        let now := (serveAll database earlier).database
        (Fits now key start target → (serve now (.advance key start target)).database.queues.offset? key =
            some target.offset) ∧
          (now.queues.headSeq? key ≠ some target.seq ∨ now.queues.offset? key ≠ some start ∨
              (∃ current, now.queues.offset? key = some current ∧ target.offset ≤ current) →
            serve now (.advance key start target) = ⟨now, []⟩) := by
  obtain ⟨htile, hhead, hmoved⟩ := tile_advances hreach.wellFormed hsmall hfiles hquiet
  refine ⟨htile, hhead, hmoved, fun earlier start target later _ ↦ ?_⟩
  rcases serve_advance_cases (serveAll database earlier).database key start target with
    ⟨hfits, hmoves⟩ | ⟨hnot, hsame⟩
  · refine ⟨fun _ ↦ hmoves ▸ offset?_of_fits hfits, ?_⟩
    rintro (hother | hother | ⟨current, hcurrent, hback⟩)
    · exact absurd hfits.head hother
    · exact absurd hfits.offset hother
    · obtain rfl : start = current := Option.some.inj (hfits.offset.symm.trans hcurrent)
      exact absurd hfits.further (Nat.not_lt.mpr hback)
  · exact ⟨fun hfits ↦ absurd hfits hnot, fun _ ↦ hsame⟩

/-- The queue of "rs-1", and one that it recovered for the same peer. -/
def shared : Database :=
  { Database.empty with
    queues := .run .empty
      [.create (.own "rs-1" "2") (some (⟨4, "rs-1.0000000004.wal"⟩, 0)),
        .create ⟨"rs-1", "2", "rs-3"⟩ (some (⟨7, "rs-3.0000000007.wal"⟩, 30))] }

/-- Two workers of the one queue, while a file is listed on it and the other queue goes elsewhere. -/
def race : List Call :=
  [.advance (.own "rs-1" "2") 0 ⟨4, 100⟩, .advance (.own "rs-1" "2") 0 ⟨4, 160⟩,
    .enqueue (.own "rs-1" "2") ⟨5, "rs-1.0000000005.wal"⟩,
    .transfer .empty ⟨"rs-1", "2", "rs-3"⟩ "rs-2", .advance (.own "rs-1" "2") 100 ⟨5, 150⟩,
    .advance (.own "rs-1" "2") 100 ⟨4, 150⟩]

/-- File 5 is listed, and the queue stands at 100. -/
def listing : Database :=
  { Database.empty with
    queues :=
      ⟨[(.own "rs-1" "2", 100), (⟨"rs-2", "2", "rs-3"⟩, 30)],
        [(.own "rs-1" "2", ⟨4, "rs-1.0000000004.wal"⟩), (⟨"rs-2", "2", "rs-3"⟩, ⟨7, "rs-3.0000000007.wal"⟩),
          (.own "rs-1" "2", ⟨5, "rs-1.0000000005.wal"⟩)]⟩ }

theorem headSeq?_listing : listing.queues.headSeq? (.own "rs-1" "2") = some 4 := by
  have hfiles : listing.queues.filesOf (.own "rs-1" "2") =
      [⟨4, "rs-1.0000000004.wal"⟩, ⟨5, "rs-1.0000000005.wal"⟩] :=
    QueueTables.filesOf_eq_of_perm (by decide) (by decide)
  rw [QueueTables.headSeq?, hfiles]
  rfl

theorem advances_listing :
    advances (.own "rs-1" "2") listing
      [.advance (.own "rs-1" "2") 100 ⟨5, 150⟩, .advance (.own "rs-1" "2") 100 ⟨4, 150⟩] = [⟨100, ⟨4, 150⟩⟩] := by
  have hwrong : serve listing (.advance (.own "rs-1" "2") 100 ⟨5, 150⟩) = ⟨listing, []⟩ := by
    refine ((serve_advance_cases ..).resolve_left fun hmoves ↦ ?_).2
    have hhead := hmoves.1.head
    rw [headSeq?_listing] at hhead
    cases hhead
  have hright := ((serve_advance_cases listing (.own "rs-1" "2") 100 ⟨4, 150⟩).resolve_right fun hsame ↦
    hsame.1 ⟨rfl, headSeq?_listing, rfl, by decide⟩).2
  rw [advances, advance?_of_same (by rw [hwrong]), hwrong, advances, Call.advance?, hright]
  decide +kernel

/-- The second worker is late once and takes the wrong file once. -/
theorem advances_tile_undisturbed_race :
    Undisturbed (.own "rs-1" "2") shared race ∧
      advances (.own "rs-1" "2") shared race = [⟨0, ⟨4, 100⟩⟩, ⟨100, ⟨4, 150⟩⟩] ∧
      Tile (some 0) (advances (.own "rs-1" "2") shared race) (some 150) ∧
      (serveAll shared race).database.queues.headSeq? (.own "rs-1" "2") = some 4 := by
  have hsmall : shared.queues.AllFiles QueueTables.Small := by
    unfold QueueTables.AllFiles QueueTables.Small
    decide +kernel
  have hquiet : Undisturbed (.own "rs-1" "2") shared race := by
    -- No call of the run finishes a file, and what the calls announce is about the other queue.
    refine ⟨undisturbing_of_announced (by decide) ?_, undisturbing_of_announced (by decide) ?_,
      undisturbing_of_announced (by decide) ?_, undisturbing_of_announced (by decide) ?_,
      undisturbing_of_announced (by decide) ?_, undisturbing_of_announced (by decide) ?_, trivial⟩
    all_goals
      intro seq hcall
      cases hcall
  have hadvances : advances (.own "rs-1" "2") shared race = [⟨0, ⟨4, 100⟩⟩, ⟨100, ⟨4, 150⟩⟩] := by
    have hlisting : (serveAll shared (race.take 4)).database = listing := by decide +kernel
    have hlater : advances (.own "rs-1" "2") listing (race.drop 4) = [⟨100, ⟨4, 150⟩⟩] := advances_listing
    rw [← race.take_append_drop 4, advances_append, hlisting, hlater]
    decide +kernel
  have hfiles : ∀ call ∈ race, ∀ file ∈ call.operation.file?, file.seq.toNat < 1 <<< 63 := by decide
  obtain ⟨htile, hhead, -, -⟩ := advances_tile_undisturbed ⟨_, rfl⟩ hsmall hfiles hquiet
  have hfirst : shared.queues.offset? (.own "rs-1" "2") = some 0 := by decide +kernel
  have hlast : some 150 = (serveAll shared race).database.queues.offset? (.own "rs-1" "2") := by
    rw [hadvances] at htile
    exact htile.2.2.2.2
  rw [hfirst, ← hlast] at htile
  exact ⟨hquiet, hadvances, htile, hhead 4 (by decide +kernel)⟩

end LogShipping.QueueStore
