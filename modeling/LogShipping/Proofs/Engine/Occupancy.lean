import LogShipping.Proofs.Engine.Deeds
import LogShipping.Proofs.Worker.Delivery
import LogShipping.Proofs.Worker.Stages

/-!
# Who takes the places of the bulkhead

A worker takes a place in the bulkhead before it calls its peer, and gives it back only when the peer has
acknowledged or when it stops or wakes up: it keeps the place while it waits after a failure. So in every
state that an engine comes to, each place is taken by one worker, and that worker is making a call, is about
to, or backs off. The places taken are as many as the calls if and only if no worker backs off or is yet to
begin. While others stand in line all places are taken, so workers that back off hold up the rest.
-/

namespace LogShipping

/-! ## The bulkhead -/

namespace Bulkhead

variable {α : Type} {bulkhead : Bulkhead α}

/-- Those who have a place, and then those in line. -/
def guests (bulkhead : Bulkhead α) : List α := bulkhead.users ++ bulkhead.line

/-- Nobody is there twice, and there is a line only before a bulkhead that is full. -/
structure Sound (bulkhead : Bulkhead α) : Prop where
  nodup : bulkhead.guests.Nodup
  within : bulkhead.users.length ≤ bulkhead.capacity
  full : bulkhead.line ≠ [] → bulkhead.users.length = bulkhead.capacity

theorem guests_fill (bulkhead : Bulkhead α) : bulkhead.fill.guests = bulkhead.guests := by
  unfold guests fill
  rw [List.append_assoc, List.take_append_drop]

theorem sound_fill (hnodup : bulkhead.guests.Nodup) (hwithin : bulkhead.users.length ≤ bulkhead.capacity) :
    bulkhead.fill.Sound := by
  have hlength : bulkhead.fill.users.length =
      bulkhead.users.length + min (bulkhead.capacity - bulkhead.users.length) bulkhead.line.length := by
    unfold fill available
    rw [List.length_append, List.length_take]
  have hcapacity : bulkhead.fill.capacity = bulkhead.capacity := rfl
  refine ⟨by rw [guests_fill]; exact hnodup, by omega, fun hline ↦ ?_⟩
  have hrest : bulkhead.capacity - bulkhead.users.length < bulkhead.line.length := by
    by_contra hshort
    exact hline (List.drop_eq_nil_of_le (Nat.le_of_not_lt hshort))
  omega

theorem line_eq_nil (h : bulkhead.Sound) (hroom : bulkhead.users.length < bulkhead.capacity) :
    bulkhead.line = [] := by
  by_contra hline
  exact Nat.ne_of_lt hroom (h.full hline)

section Lawful

variable [BEq α] [LawfulBEq α] {user other : α}

theorem holds_iff : bulkhead.holds user = true ↔ user ∈ bulkhead.users := List.contains_iff_mem

/-- What becomes of those who leave is nothing to the others. -/
theorem mem_guests_leave (h : bulkhead.Sound) :
    other ∈ (bulkhead.leave user).guests ↔ other ≠ user ∧ other ∈ bulkhead.guests := by
  obtain ⟨husers, hline, -⟩ := List.nodup_append.mp h.nodup
  unfold leave
  rw [guests_fill]
  unfold guests
  rw [List.mem_append, List.mem_append, husers.mem_erase_iff, hline.mem_erase_iff]
  tauto

theorem sound_leave (h : bulkhead.Sound) (user : α) : (bulkhead.leave user).Sound := by
  obtain ⟨husers, hline, hapart⟩ := List.nodup_append.mp h.nodup
  refine sound_fill ?_ ?_
  · refine List.nodup_append.mpr ⟨husers.erase user, hline.erase user, fun x hx y hy ↦ ?_⟩
    exact hapart x (List.mem_of_mem_erase hx) y (List.mem_of_mem_erase hy)
  · exact Nat.le_trans (List.length_erase_le) h.within

theorem mem_users_leave (hother : other ∈ bulkhead.users) (hne : other ≠ user) :
    other ∈ (bulkhead.leave user).users :=
  List.mem_append_left _ ((List.mem_erase_of_ne hne).mpr hother)

/-- Whoever asks for a place has one already or stands in line, is let in, or is put in line. -/
theorem enter_cases (bulkhead : Bulkhead α) (user : α) :
    (user ∈ bulkhead.guests ∧ bulkhead.enter user = bulkhead) ∨
      (user ∉ bulkhead.guests ∧ bulkhead.users.length < bulkhead.capacity ∧
        bulkhead.enter user = { bulkhead with users := bulkhead.users ++ [user] }) ∨
      (user ∉ bulkhead.guests ∧ bulkhead.capacity ≤ bulkhead.users.length ∧
        bulkhead.enter user = { bulkhead with line := bulkhead.line ++ [user] }) := by
  have hthere : (bulkhead.holds user || bulkhead.line.contains user) = true ↔ user ∈ bulkhead.guests := by
    rw [Bool.or_eq_true, holds_iff, List.contains_iff_mem, guests, List.mem_append]
  have hfull : bulkhead.isFull = true ↔ bulkhead.capacity ≤ bulkhead.users.length := by
    rw [isFull, available, beq_iff_eq, Nat.sub_eq_zero_iff_le]
  unfold enter tryEnter
  split
  case isTrue h => exact .inl ⟨hthere.mp h, rfl⟩
  case isFalse h =>
    have hnew : user ∉ bulkhead.guests := fun hguest ↦ h (hthere.mpr hguest)
    by_cases hroom : bulkhead.isFull = true
    · rw [if_pos hroom]
      exact .inr (.inr ⟨hnew, hfull.mp hroom, rfl⟩)
    · rw [if_neg hroom]
      exact .inr (.inl ⟨hnew, Nat.lt_of_not_le fun hle ↦ hroom (hfull.mpr hle), rfl⟩)

theorem sound_enter (h : bulkhead.Sound) (user : α) : (bulkhead.enter user).Sound := by
  rcases bulkhead.enter_cases user with ⟨-, henter⟩ | ⟨hnew, hroom, henter⟩ | ⟨hnew, hfull, henter⟩
  · rw [henter]
    exact h
  · have hline := line_eq_nil h hroom
    have hnodup : (bulkhead.users ++ [user]).Nodup := by
      have husers := h.nodup
      unfold guests at husers hnew
      rw [hline, List.append_nil] at husers hnew
      exact List.nodup_append_comm.mp (List.nodup_cons.mpr ⟨hnew, husers⟩)
    rw [henter]
    constructor
    case nodup =>
      unfold guests
      rw [hline, List.append_nil]
      exact hnodup
    case within =>
      rw [List.length_append, List.length_singleton]
      exact hroom
    case full => exact fun hnone ↦ absurd hline hnone
  · have hnodup : (bulkhead.guests ++ [user]).Nodup :=
      List.nodup_append_comm.mp (List.nodup_cons.mpr ⟨hnew, h.nodup⟩)
    rw [henter]
    constructor
    case nodup =>
      unfold guests at hnodup ⊢
      rw [← List.append_assoc]
      exact hnodup
    case within => exact h.within
    case full => exact fun _ ↦ Nat.le_antisymm h.within hfull

theorem mem_guests_enter : other ∈ (bulkhead.enter user).guests ↔ other = user ∨ other ∈ bulkhead.guests := by
  rcases bulkhead.enter_cases user with ⟨hthere, henter⟩ | ⟨-, -, henter⟩ | ⟨-, -, henter⟩
  · rw [henter]
    exact ⟨.inr, fun h ↦ h.elim (fun heq ↦ heq ▸ hthere) id⟩
  · rw [henter]
    unfold guests
    simp only [List.mem_append, List.mem_singleton]
    tauto
  · rw [henter]
    unfold guests
    simp only [List.mem_append, List.mem_singleton]
    tauto

theorem mem_users_enter (h : other ∈ bulkhead.users) : other ∈ (bulkhead.enter user).users := by
  rcases bulkhead.enter_cases user with ⟨-, henter⟩ | ⟨-, -, henter⟩ | ⟨-, -, henter⟩
  · rw [henter]
    exact h
  · rw [henter]
    exact List.mem_append_left _ h
  · rw [henter]
    exact h

/-- One who asks has a place afterwards if it had one before or if there is one left. -/
theorem holds_enter_iff (h : bulkhead.Sound) (user : α) :
    (bulkhead.enter user).holds user = true ↔
      user ∈ bulkhead.users ∨ bulkhead.users.length < bulkhead.capacity := by
  rw [holds_iff]
  rcases bulkhead.enter_cases user with ⟨hthere, henter⟩ | ⟨-, hroom, henter⟩ | ⟨hnew, hfull, henter⟩
  · rw [henter]
    refine ⟨.inl, fun hor ↦ hor.elim id fun hroom ↦ ?_⟩
    unfold guests at hthere
    rw [line_eq_nil h hroom, List.append_nil] at hthere
    exact hthere
  · rw [henter]
    exact ⟨fun _ ↦ .inr hroom, fun _ ↦ List.mem_append_right _ List.mem_cons_self⟩
  · rw [henter]
    exact ⟨.inl, fun hor ↦ hor.elim id fun hroom ↦ absurd hroom (Nat.not_lt_of_le hfull)⟩

end Lawful

end Bulkhead

/-! ## One worker -/

namespace Worker

/-- A place is taken at these stages. -/
def Stage.Seated : Stage → Prop
  | calling | underway | backoff => True
  | _ => False

/-- A place is taken or asked for. -/
def Stage.Attending (stage : Stage) : Prop := stage = .line ∨ stage.Seated

namespace Turn

/-- The worker is at a stage that fits its place. -/
structure Fits (key : QueueKey) (stage : Stage) (places : Bulkhead QueueKey) : Prop where
  sound : places.Sound
  seated : stage.Seated → key ∈ places.users
  attending : key ∈ places.guests → stage.Attending

/-- The others keep their places. -/
structure Spares (key : QueueKey) (before after : Bulkhead QueueKey) : Prop where
  users : ∀ other ≠ key, other ∈ before.users → other ∈ after.users
  guests : ∀ other ≠ key, other ∈ after.guests → other ∈ before.guests

theorem Spares.refl (key : QueueKey) (places : Bulkhead QueueKey) : Spares key places places :=
  ⟨fun _ _ ↦ id, fun _ _ ↦ id⟩

theorem spares_leave {places : Bulkhead QueueKey} (h : places.Sound) (key : QueueKey) :
    Spares key places (places.leave key) where
  users _ hne hother := Bulkhead.mem_users_leave hother hne
  guests _ _ hother := ((Bulkhead.mem_guests_leave h).mp hother).2

theorem spares_enter (key : QueueKey) (places : Bulkhead QueueKey) : Spares key places (places.enter key) where
  users _ _ hother := Bulkhead.mem_users_enter hother
  guests _ hne hother := (Bulkhead.mem_guests_enter.mp hother).resolve_left hne

/-- A step leaves the worker with the place that fits its stage, and the others with theirs. -/
theorem fits_step (turn : Turn) (h : Fits turn.worker.key turn.stage turn.places) :
    Fits turn.worker.key (step turn).stage (step turn).places ∧
      Spares turn.worker.key turn.places (step turn).places := by
  have hdoes := turn.does_step
  unfold Does at hdoes
  generalize (step turn).stage = stage, (step turn).places = places at hdoes ⊢
  have hstays {stage : Stage} (hseated : stage.Seated → turn.worker.key ∈ turn.places.users)
      (hattending : turn.worker.key ∈ turn.places.guests → stage.Attending) :
      Fits turn.worker.key stage turn.places ∧ Spares turn.worker.key turn.places turn.places :=
    ⟨⟨h.sound, hseated, hattending⟩, .refl _ _⟩
  -- At a stage without a place the worker is not in line either.
  have habsent (hstage : ¬turn.stage.Attending) : turn.worker.key ∉ turn.places.guests :=
    fun hguest ↦ hstage (h.attending hguest)
  cases hdoes with
  | leaves =>
    refine ⟨⟨Bulkhead.sound_leave h.sound _, fun hseated ↦ hseated.elim, fun hguest ↦ ?_⟩,
      spares_leave h.sound _⟩
    exact absurd rfl ((Bulkhead.mem_guests_leave h.sound).mp hguest).1
  | aside hstage =>
    refine hstays (fun hseated ↦ hseated.elim) fun hguest ↦ absurd hguest (habsent ?_)
    rw [hstage]
    simp [Stage.Attending, Stage.Seated]
  | looks hphase =>
    refine hstays (fun hseated ↦ hseated.elim) fun hguest ↦ absurd hguest (habsent ?_)
    rw [stage, hphase]
    simp [Stage.Attending, Stage.Seated, Phase.stage]
  | waits hstage =>
    refine hstays (fun hseated ↦ hseated.elim) fun hguest ↦ absurd hguest (habsent ?_)
    rw [hstage]
    simp [Stage.Attending, Stage.Seated]
  | provided => exact hstays (fun hseated ↦ hseated.elim) fun _ ↦ .inl rfl
  | queues =>
    exact ⟨⟨Bulkhead.sound_enter h.sound _, fun hseated ↦ hseated.elim, fun _ ↦ .inl rfl⟩,
      spares_enter _ _⟩
  | enters _ hplace =>
    exact ⟨⟨Bulkhead.sound_enter h.sound _, fun _ ↦ Bulkhead.holds_iff.mp hplace, fun _ ↦ .inr trivial⟩,
      spares_enter _ _⟩
  | opens hstage =>
    exact hstays (fun _ ↦ h.seated (by rw [hstage]; trivial)) fun _ ↦ .inr trivial
  | fails hstage =>
    refine hstays (fun _ ↦ h.seated ?_) fun _ ↦ .inr trivial
    rcases hstage with hstage | hstage
    · rw [hstage]; trivial
    · rw [hstage]; trivial
  | awaits hstage =>
    exact hstays (fun _ ↦ h.seated (by rw [hstage]; trivial)) fun _ ↦ .inr trivial
  | rests hstage =>
    exact hstays (fun _ ↦ h.seated (by rw [hstage]; trivial)) fun _ ↦ .inr trivial

end Turn

end Worker

/-! ## All workers of an engine -/

namespace Engine

open Worker (Stage)

/-- Every place, and every place in line, belongs to a worker at a stage that fits it. -/
structure Seated (places : Bulkhead QueueKey) (workers : List Worker) : Prop where
  distinct : (workers.map (·.key)).Nodup
  sound : places.Sound
  seated : ∀ worker ∈ workers, worker.phase.stage.Seated → worker.key ∈ places.users
  attending : ∀ key ∈ places.guests, ∃ worker ∈ workers, worker.key = key ∧ worker.phase.stage.Attending

namespace Seated

variable {places : Bulkhead QueueKey} {workers : List Worker} {worker : Worker}

theorem unique (h : Seated places workers) {x y : Worker} (hx : x ∈ workers) (hy : y ∈ workers)
    (hkey : x.key = y.key) : x = y := List.inj_on_of_nodup_map h.distinct hx hy hkey

theorem fits (h : Seated places workers) (hworker : worker ∈ workers) :
    Worker.Turn.Fits worker.key worker.phase.stage places where
  sound := h.sound
  seated := h.seated worker hworker
  attending hguest := by
    obtain ⟨other, hother, hkey, hattending⟩ := h.attending worker.key hguest
    rw [← h.unique hother hworker hkey]
    exact hattending

/-- Workers that have nothing to do with the bulkhead are forgotten. -/
theorem filter (h : Seated places workers) {keep : Worker → Bool}
    (hkeep : ∀ worker ∈ workers, worker.phase.stage.Attending → keep worker = true) :
    Seated places (workers.filter keep) where
  distinct := h.distinct.sublist (List.Sublist.map _ List.filter_sublist)
  sound := h.sound
  seated worker hworker := h.seated worker (List.mem_of_mem_filter hworker)
  attending key hkey := by
    obtain ⟨worker, hworker, hsame, hattending⟩ := h.attending key hkey
    exact ⟨worker, List.mem_filter.mpr ⟨hworker, hkeep worker hworker hattending⟩, hsame, hattending⟩

/-- A worker that has nothing to do with the bulkhead is added in the place of such a one. -/
theorem hire (h : Seated places workers) (haside : worker.phase.stage = .aside)
    (hidle : ∀ old ∈ workers, old.key = worker.key → ¬old.phase.stage.Attending) :
    Seated places (workers.filter (·.key != worker.key) ++ [worker]) := by
  have hrest : Seated places (workers.filter (·.key != worker.key)) :=
    h.filter fun old hold hattending ↦ bne_iff_ne.mpr fun hkey ↦ hidle old hold hkey hattending
  constructor
  case distinct =>
    rw [List.map_append, List.map_singleton]
    refine List.nodup_append_comm.mp (List.nodup_cons.mpr ⟨fun hkey ↦ ?_, hrest.distinct⟩)
    obtain ⟨old, hold, hsame⟩ := List.mem_map.mp hkey
    exact bne_iff_ne.mp (List.mem_filter.mp hold).2 hsame
  case sound => exact h.sound
  case seated =>
    intro old hold hseated
    rcases List.mem_append.mp hold with hold | hnew
    · exact hrest.seated old hold hseated
    · rw [List.mem_singleton.mp hnew, haside] at hseated
      exact hseated.elim
  case attending =>
    intro key hkey
    obtain ⟨old, hold, hsame⟩ := hrest.attending key hkey
    exact ⟨old, List.mem_append_left _ hold, hsame⟩

/-- A worker is dismissed. -/
theorem dismiss (h : Seated places workers) (key : QueueKey) :
    Seated (places.leave key) (workers.filter (·.key != key)) where
  distinct := h.distinct.sublist (List.Sublist.map _ List.filter_sublist)
  sound := Bulkhead.sound_leave h.sound key
  seated worker hworker hseated := by
    rw [List.mem_filter, bne_iff_ne] at hworker
    exact Bulkhead.mem_users_leave (h.seated worker hworker.1 hseated) hworker.2
  attending other hother := by
    obtain ⟨hne, hguest⟩ := (Bulkhead.mem_guests_leave h.sound).mp hother
    obtain ⟨worker, hworker, rfl, hattending⟩ := h.attending other hguest
    exact ⟨worker, List.mem_filter.mpr ⟨hworker, bne_iff_ne.mpr hne⟩, rfl, hattending⟩

/-- One worker has worked. -/
theorem replace (h : Seated places workers) (hworker : worker ∈ workers) {after : Worker}
    (hkey : after.key = worker.key) {left : Bulkhead QueueKey}
    (hfits : Worker.Turn.Fits worker.key after.phase.stage left)
    (hspares : Worker.Turn.Spares worker.key places left) :
    Seated left (workers.map fun old ↦ if old.key = after.key then after else old) := by
  constructor
  case distinct =>
    rw [Turn.keys_replaced]
    exact h.distinct
  case sound => exact hfits.sound
  case seated =>
    intro new hnew hseated
    obtain ⟨old, hold, rfl⟩ := List.mem_map.mp hnew
    by_cases hsame : old.key = after.key
    · rw [if_pos hsame] at hseated ⊢
      exact hkey ▸ hfits.seated hseated
    · rw [if_neg hsame] at hseated ⊢
      exact hspares.users old.key (hkey ▸ hsame) (h.seated old hold hseated)
  case attending =>
    intro key hguest
    by_cases hsame : key = worker.key
    · refine ⟨after, List.mem_map.mpr ⟨worker, hworker, if_pos hkey.symm⟩, hkey.trans hsame.symm, ?_⟩
      exact hfits.attending (hsame ▸ hguest)
    · obtain ⟨old, hold, rfl, hattending⟩ := h.attending key (hspares.guests key hsame hguest)
      exact ⟨old, List.mem_map.mpr ⟨old, hold, if_neg (hkey ▸ hsame)⟩, rfl, hattending⟩

theorem wake (h : Seated places workers) : Seated places (workers.map Worker.wake) := by
  have hkey (worker : Worker) : worker.wake.key = worker.key := by
    unfold Worker.wake
    split <;> rfl
  have hstage (worker : Worker) : worker.wake.phase.stage = worker.phase.stage := by
    unfold Worker.wake
    split
    case isTrue hidle => rw [hidle]; rfl
    case isFalse => rfl
  constructor
  case distinct =>
    rw [List.map_map]
    exact (List.map_congr_left fun worker _ ↦ hkey worker) ▸ h.distinct
  case sound => exact h.sound
  case seated =>
    intro worker hworker hseated
    obtain ⟨old, hold, rfl⟩ := List.mem_map.mp hworker
    rw [hkey]
    exact h.seated old hold (hstage old ▸ hseated)
  case attending =>
    intro key hguest
    obtain ⟨worker, hworker, hsame, hattending⟩ := h.attending key hguest
    exact ⟨worker.wake, List.mem_map_of_mem hworker, (hkey worker).trans hsame, (hstage worker).symm ▸ hattending⟩

end Seated

/-! ## Along a run -/

namespace Turn

variable {turn after : Turn}

/-- The places of the bulkhead are taken as the stages of the workers tell. -/
def Accounted (turn : Turn) : Prop := Seated turn.engine.facilities.places turn.engine.workers

/-- A queue without a live worker has at most one that has finished. -/
theorem Accounted.idle (h : turn.Accounted) {key : QueueKey} (hidle : turn.engine.hasLiveWorker key = false)
    {worker : Worker} (hworker : worker ∈ turn.engine.workers) (hkey : worker.key = key) :
    ¬worker.phase.stage.Attending := by
  have hfound : turn.engine.worker? key = some worker := by
    unfold Engine.worker?
    cases hfind : turn.engine.workers.find? (·.key == key) with
    | none => exact absurd (beq_iff_eq.mpr hkey) (List.find?_eq_none.mp hfind worker hworker)
    | some other =>
      have hother : other.key = key := key_of_worker? hfind
      rw [h.unique (List.mem_of_find?_eq_some hfind) hworker (hother.trans hkey.symm)]
  unfold hasLiveWorker at hidle
  rw [hfound, Option.any_some, Bool.not_eq_false', Worker.isFinished, beq_iff_eq] at hidle
  rw [hidle]
  simp [Stage.Attending, Stage.Seated, Worker.Phase.stage]

theorem Accounted.deed (h : turn.Accounted) (hdeed : Deed turn after) : after.Accounted := by
  cases hdeed with
  | books hworld hsettings hworkers hfacilities =>
    obtain ⟨circuits, hfacilities⟩ := hfacilities
    unfold Accounted
    rw [hworkers, hfacilities]
    exact h
  | recruit key sink circuit gate hidle =>
    have haside : (Worker.create key sink circuit gate).phase.stage = .aside := rfl
    exact h.hire haside fun _ ↦ h.idle hidle
  | forget key hidle =>
    exact h.filter fun worker hworker hattending ↦
      bne_iff_ne.mpr fun hkey ↦ h.idle hidle hworker hkey hattending
  | dismiss worker =>
    have hplaces := Worker.Turn.places_vanish ⟨turn.world, turn.engine.facilities, worker⟩
    have hleft : Seated (turn.engine.facilities.places.leave worker.key)
        (turn.engine.workers.filter (·.key != worker.key)) := h.dismiss worker.key
    show Seated (Worker.Turn.vanish ⟨turn.world, turn.engine.facilities, worker⟩).places _
    rw [hplaces]
    exact hleft
  | wake => exact h.wake
  | reap =>
    refine h.filter fun worker _ hattending ↦ ?_
    by_contra hfinished
    rw [Bool.not_eq_true', Bool.not_eq_false, Worker.isFinished, beq_iff_eq] at hfinished
    rw [hfinished] at hattending
    simp [Stage.Attending, Stage.Seated, Worker.Phase.stage] at hattending
  | create | drop | enqueue | refresh => exact h

theorem Accounted.deeds (h : turn.Accounted) (hdeeds : Deeds turn after) : after.Accounted := by
  induction hdeeds with
  | refl => exact h
  | tail _ hdeed ih => exact ih.deed hdeed

theorem Accounted.works (h : turn.Accounted) (hworks : Works turn after) : after.Accounted := by
  obtain ⟨hworker⟩ := hworks
  rename_i key worker
  have hmem := List.mem_of_find?_eq_some hworker
  have hkey : (Worker.step ⟨turn.world, turn.engine.facilities, worker⟩).worker.key = worker.key :=
    congrArg (·.assignment.key) (Worker.Turn.post_step ⟨_, _, worker⟩)
  obtain ⟨hfits, hspares⟩ := Worker.Turn.fits_step ⟨turn.world, turn.engine.facilities, worker⟩
    (Seated.fits h hmem)
  exact Seated.replace h hmem hkey hfits hspares

theorem Accounted.runWorker (h : turn.Accounted) (steps : Nat) (key : QueueKey) : (turn.runWorker steps key).Accounted := by
  have hworks := works_runWorker h.distinct steps key
  generalize turn.runWorker steps key = after at hworks ⊢
  induction hworks with
  | refl => exact h
  | tail _ hwork ih => exact ih.works hwork

theorem Accounted.moves (h : turn.Accounted) (hmove : Moves turn after) : after.Accounted := by
  cases hmove with
  | notice hnext => exact h.deeds (deeds_nextEvent? turn hnext)
  | lookAfter anyway => exact h.deeds (deeds_lookAfter turn anyway)
  | work steps key => exact h.runWorker steps key
  | coordinate hnext =>
    obtain ⟨coordinator, hengine⟩ := engine_coordinate? turn hnext
    unfold Accounted
    rw [hengine]
    exact h
  | start => exact h.deeds (deeds_start turn)
  | shutdown => exact h.deeds (deeds_shutdown turn)
  | halt => exact h.deeds (deeds_halt turn)
  | decommission =>
    obtain ⟨state, hengine⟩ := engine_decommission turn
    unfold Accounted
    rw [hengine]
    exact (h.deeds (deed_setState turn .shuttingDown).deeds).deeds (deeds_quiesce _)
  | addPeer id connection =>
    have hchanged : Accounted { turn with world := (turn.world.addPeer id connection).2 } := h
    exact hchanged.deeds (deeds_addPeer turn id connection)
  | removePeer id =>
    have hchanged : Accounted { turn with world := (turn.world.removePeer id).2 } := h
    exact hchanged.deeds (deeds_removePeer turn id)
  | change | refresh | otherwise => exact h

/-- The engine does something, or anything happens around it. -/
inductive Happens : Turn → Turn → Prop
  | move {turn after : Turn} (h : Moves turn after) : Happens turn after
  | elsewhere (turn : Turn) (world : World) : Happens turn { turn with world }

/-- A new engine comes to this. -/
def Reachable (turn : Turn) : Prop :=
  ∃ settings engine world, Engine.create? settings = some engine ∧
    Relation.ReflTransGen Happens ⟨world, engine⟩ turn

theorem Reachable.accounted (h : turn.Reachable) : turn.Accounted := by
  obtain ⟨settings, engine, world, hcreate, hleads⟩ := h
  induction hleads with
  | refl =>
    obtain ⟨facilities, hfacilities, rfl⟩ := Option.map_eq_some_iff.mp hcreate
    obtain ⟨places, hplaces, rfl⟩ := Option.map_eq_some_iff.mp hfacilities
    unfold Bulkhead.create? at hplaces
    split at hplaces
    case isTrue =>
      obtain rfl := Option.some.inj hplaces
      refine ⟨List.nodup_nil, ⟨List.nodup_nil, Nat.zero_le _, fun hline ↦ absurd rfl hline⟩, ?_, ?_⟩
      · exact fun worker hworker ↦ (List.not_mem_nil hworker).elim
      · exact fun key hkey ↦ (List.not_mem_nil hkey).elim
    case isFalse => cases hplaces
  | tail _ hhappens ih =>
    cases hhappens with
    | move hmove => exact ih.moves hmove
    | elsewhere => exact ih

/-! ## Counting the places -/

/-- How many workers are at a stage. -/
def count (turn : Turn) (stage : Stage) : Nat := turn.engine.workers.countP (·.phase.stage == stage)

def holds (turn : Turn) (worker : Worker) : Bool := turn.engine.facilities.places.holds worker.key

/-- How many workers were given a place while they stood in line, and have not gone on yet. -/
def granted (turn : Turn) : Nat :=
  turn.engine.workers.countP fun worker ↦ worker.phase.stage == .line && turn.holds worker

theorem Accounted.holds_iff (h : turn.Accounted) {worker : Worker} (hworker : worker ∈ turn.engine.workers) :
    turn.holds worker = true ↔
      worker.phase.stage.Seated ∨ worker.phase.stage = .line ∧ turn.holds worker = true := by
  unfold holds
  rw [Bulkhead.holds_iff]
  refine ⟨fun hplace ↦ ?_, fun hor ↦ hor.elim (h.seated worker hworker) (·.2)⟩
  rcases (Seated.fits h hworker).attending (List.mem_append_left _ hplace) with hline | hseated
  · exact .inr ⟨hline, hplace⟩
  · exact .inl hseated

/-- Each place belongs to one worker. -/
theorem Accounted.length_users (h : turn.Accounted) :
    turn.engine.facilities.places.users.length = turn.engine.workers.countP turn.holds := by
  have husers : turn.engine.facilities.places.users.Nodup := (List.nodup_append.mp h.sound.nodup).1
  have hkeys : ((turn.engine.workers.filter turn.holds).map (·.key)).Nodup :=
    h.distinct.sublist (List.Sublist.map _ List.filter_sublist)
  have hperm : turn.engine.facilities.places.users.Perm
      ((turn.engine.workers.filter turn.holds).map (·.key)) := by
    refine (List.perm_ext_iff_of_nodup husers hkeys).mpr fun key ↦ ⟨fun hplace ↦ ?_, fun hmem ↦ ?_⟩
    · obtain ⟨worker, hworker, rfl, -⟩ := h.attending key (List.mem_append_left _ hplace)
      exact List.mem_map_of_mem (List.mem_filter.mpr ⟨hworker, Bulkhead.holds_iff.mpr hplace⟩)
    · obtain ⟨worker, hworker, rfl⟩ := List.mem_map.mp hmem
      exact Bulkhead.holds_iff.mp (List.mem_filter.mp hworker).2
  rw [hperm.length_eq, List.length_map, List.countP_eq_length_filter]

theorem countP_stages (workers : List Worker) {holds : Worker → Bool}
    (h : ∀ worker ∈ workers, holds worker = true ↔
      worker.phase.stage.Seated ∨ worker.phase.stage = .line ∧ holds worker = true) :
    workers.countP holds = workers.countP (·.phase.stage == .underway) +
      workers.countP (·.phase.stage == .calling) +
      workers.countP (fun worker ↦ worker.phase.stage == .line && holds worker) +
      workers.countP (·.phase.stage == .backoff) := by
  induction workers with
  | nil => rfl
  | cons worker rest ih =>
    have hrest := ih fun other hother ↦ h other (List.mem_cons_of_mem worker hother)
    have hfirst := h worker List.mem_cons_self
    simp only [List.countP_cons, hrest]
    cases hstage : worker.phase.stage <;> cases hholds : holds worker <;>
      simp [hstage, hholds, Stage.Seated] at hfirst ⊢ <;> omega

/-- A worker that stands in line goes on once it has a place, and it gets one if one is left. -/
theorem Accounted.calls_iff (h : turn.Accounted) {worker : Worker} (hline : worker.phase.stage = .line)
    (hstays : worker.dismissed = false) :
    (Worker.step ⟨turn.world, turn.engine.facilities, worker⟩).stage = .calling ↔
      turn.holds worker = true ∨
        turn.engine.facilities.places.users.length < turn.engine.facilities.places.capacity := by
  obtain ⟨passage, hphase⟩ : ∃ passage, worker.phase = .awaitingPlace passage := by
    cases hphase : worker.phase with
    | awaitingPlace passage => exact ⟨passage, rfl⟩
    | _ => rw [hphase] at hline; cases hline
  have hplace := Bulkhead.holds_enter_iff h.sound worker.key
  unfold holds
  rw [Bulkhead.holds_iff, ← hplace]
  unfold Worker.step
  dsimp only
  rw [hphase]
  unfold Worker.Turn.takePlace
  dsimp only
  rw [if_neg (Bool.eq_false_iff.mp hstays)]
  split
  case isTrue hholds => exact ⟨fun _ ↦ hholds, fun _ ↦ rfl⟩
  case isFalse hnone =>
    refine ⟨fun hcalling ↦ ?_, fun hholds ↦ absurd hholds hnone⟩
    change worker.phase.stage = .calling at hcalling
    rw [hline] at hcalling
    cases hcalling

/-- The places taken are those of the workers whose call is open or about to be made, of those that were
given a place in line, and of those that back off. A worker in line goes on only when it was given a place
or one is left. -/
theorem places_taken {turn : Turn} (h : turn.Reachable) :
    turn.engine.facilities.places.users.length =
        turn.count .underway + turn.count .calling + turn.granted + turn.count .backoff ∧
      (turn.engine.facilities.places.users.length = turn.count .underway ↔
        turn.count .calling = 0 ∧ turn.granted = 0 ∧ turn.count .backoff = 0) ∧
      (∀ worker ∈ turn.engine.workers, worker.phase.stage = .backoff → turn.holds worker = true) ∧
      ∀ worker ∈ turn.engine.workers, worker.phase.stage = .line → worker.dismissed = false →
        ((Worker.step ⟨turn.world, turn.engine.facilities, worker⟩).stage = .calling ↔
          turn.holds worker = true ∨
            turn.engine.facilities.places.users.length < turn.engine.facilities.places.capacity) := by
  have haccounted := h.accounted
  have hcount : turn.engine.facilities.places.users.length =
      turn.count .underway + turn.count .calling + turn.granted + turn.count .backoff :=
    haccounted.length_users.trans (countP_stages _ fun _ ↦ haccounted.holds_iff)
  refine ⟨hcount, by omega, fun worker hworker hbackoff ↦ ?_, fun worker _ ↦ haccounted.calls_iff⟩
  rw [holds, Bulkhead.holds_iff]
  exact haccounted.seated worker hworker (by rw [hbackoff]; trivial)

end Turn

namespace Sample

def narrow : NodeSettings :=
  let settings := NodeSettings.brisk "n"
  { settings with settings := { settings.settings with
    source := { settings.settings.source with maxConcurrentShips := 1 } } }

/-- Node n writes its first file, and has nothing committed yet. -/
def blank (behaviour : Remote.Behaviour) : World :=
  { World.create (.ofNames ["f"]) with
    directory := ⟨[("w", Worker.Sample.record)]⟩
    remotes := [{ Remote.create "p" with script := [behaviour] }]
    storages := [("n", { Storage.create 2 with active := some (⟨1, "w"⟩, 0) })] }

/-- Node n has two peers, and then it commits an entry. -/
def committed (behaviour : Remote.Behaviour) : Turn :=
  let engine := (Engine.create? narrow).get rfl
  let joined := (((⟨blank behaviour, engine⟩ : Turn).start.2.addPeer "p" "mem://p").2.addPeer "q" "mem://q").2
  { joined with world := joined.world.setStorage "n" ((joined.world.storage "n").commit 42) }

/-- The worker of each peer has gone on until it had to wait. The call of the first ends as it is told. -/
def shared (behaviour : Remote.Behaviour) : Turn :=
  ((committed behaviour).runWorker 9 (.own "n" "p")).runWorker 9 (.own "n" "q")

theorem reachable_shared (behaviour : Remote.Behaviour) : (shared behaviour).Reachable :=
  ⟨narrow, _, blank behaviour, (Option.some_get _).symm,
    (((((Relation.ReflTransGen.single (.move (.start _))).tail (.move (.addPeer _ "p" "mem://p"))).tail
      (.move (.addPeer _ "q" "mem://q"))).tail (.elsewhere _ _)).tail (.move (.work _ 9 _))).tail
      (.move (.work _ 9 _))⟩

end Sample

namespace Turn

/-- While the first worker's call is open it has the only place, and the other waits in line. -/
theorem places_taken_by_call :
    (Sample.shared .hold).count .underway = 1 ∧ (Sample.shared .hold).count .line = 1 ∧
      (Sample.shared .hold).engine.facilities.places.users.length = (Sample.shared .hold).count .underway := by
  refine ⟨by decide +kernel, by decide +kernel, ?_⟩
  exact (places_taken (Sample.reachable_shared .hold)).2.1.mpr (by decide +kernel)

/-- While the first worker backs off no call is open, yet the only place is taken, and the other worker waits
in line where it would have shipped at once had the first peer accepted. -/
theorem place_taken_while_backing_off :
    (Sample.shared .fail).Reachable ∧ (Sample.shared .fail).engine.facilities.places.users.length = 1 ∧
      (Sample.shared .fail).count .underway = 0 ∧ (Sample.shared .fail).count .backoff = 1 ∧
      (Sample.shared .fail).count .line = 1 ∧ ((Sample.shared .fail).world.remote "q").attempts = 0 ∧
      ((Sample.shared .accept).world.remote "q").attempts = 1 := by
  refine ⟨Sample.reachable_shared .fail, ?_⟩
  decide +kernel

end Turn

end Engine

end LogShipping
