import LogShipping.Circuit
import Mathlib.Data.List.Induction

/-!
# When a circuit opens

As long as no circuit is open for long enough to probe, one that was made closed rejects a call if and
only if some stretch of the results before it, as long as the threshold, consisted of failures nearly
throughout, and was not the very beginning of the results. The first results fill the window and are not
judged, so as many failures as the threshold do not open a new circuit: it takes one more. Nearly
throughout means throughout for thresholds up to ninety-nine. From a hundred on a stretch may hold a
success.
-/

namespace LogShipping.Circuit

/-! ## Calls one after the other -/

/-- When a call is made and when it has ended, and whether its operation fails if it is run. -/
structure Call where
  made : Nat
  ended : Nat
  fails : Bool
  deriving Repr, DecidableEq

/-- The answer tells whether the operation was run. -/
def serve (circuit : Circuit) (call : Call) : Bool × Circuit :=
  match circuit.enter call.made with
  | (true, circuit) => (true, circuit.leave call.ended call.fails)
  | (false, circuit) => (false, circuit)

def serveAll (circuit : Circuit) (calls : List Call) : Circuit :=
  calls.foldl (fun circuit call ↦ (circuit.serve call).2) circuit

/-- No call is made after the time in which a circuit recovers from the end of an earlier one. -/
def Unrecovered (recovery : Duration) (calls : List Call) : Prop :=
  calls.Pairwise fun earlier later ↦ later.made ≤ earlier.ended + recovery

/-! ## Stretches of results -/

/-- Nearly all of these results are failures. -/
def NearlyAll (results : List Bool) : Prop := tooManyFailed ⟨results.length, results⟩ = true

/-- Behind the first result there is a stretch of so many results that are failures nearly throughout. -/
def Trips (size : Nat) (results : List Bool) : Prop :=
  ∃ earlier stretch later, results = earlier ++ stretch ++ later ∧ earlier ≠ [] ∧
    stretch.length = size ∧ NearlyAll stretch

section Stretches

variable {size : Nat} {results : List Bool} {failed : Bool}

/-- Below 2²⁴ a count is a single-precision number as it is. -/
theorem single_eq_self {count : Nat} (h : count < 1 <<< 24) : single count = count := by
  have hunit : count.log2 - 23 = 0 := by
    rcases Nat.eq_zero_or_pos count with rfl | hpos
    · rfl
    · rw [Nat.one_shiftLeft] at h
      have := (Nat.log2_lt (Nat.ne_of_gt hpos)).mpr h
      omega
  have hexact : Duration.roundDiv count 1 = count := by
    unfold Duration.roundDiv
    rw [Nat.mod_one, Nat.div_one]
    exact if_pos Nat.one_pos
  show Duration.roundDiv count (1 <<< (count.log2 - 23)) * (1 <<< (count.log2 - 23)) = count
  rw [hunit, Nat.shiftLeft_zero, hexact, Nat.mul_one]

theorem tooManyFailed_of_count {failures : List Bool} (h : failures.count true = size) :
    tooManyFailed ⟨size, failures⟩ = true := by
  rw [tooManyFailed, Window.failed, h, decide_eq_true_iff]
  exact Nat.mul_le_mul_right _ (by decide)

/-- Up to ninety-nine, nearly all of the results are all of them. -/
theorem nearlyAll_iff_of_le (h : results.length ≤ 99) :
    NearlyAll results ↔ results = List.replicate results.length true := by
  have hle : results.count true ≤ results.length := List.count_le_length
  rw [NearlyAll]
  constructor
  · intro hmany
    rw [tooManyFailed, decide_eq_true_iff, Window.failed,
      single_eq_self (Nat.lt_of_le_of_lt h (by decide)),
      single_eq_self (Nat.lt_of_le_of_lt (Nat.le_trans hle h) (by decide))] at hmany
    have hcount : results.count true = results.length := by omega
    exact List.eq_replicate_iff.mpr ⟨rfl, fun result hmem ↦ (List.count_eq_length.mp hcount result hmem).symm⟩
  · intro hall
    apply tooManyFailed_of_count
    conv_lhs => rw [hall]
    exact List.count_replicate_self

/-- Up to ninety-nine it is a stretch of failures. -/
theorem trips_iff_of_le (h : size ≤ 99) :
    Trips size results ↔
      ∃ earlier later, results = earlier ++ List.replicate size true ++ later ∧ earlier ≠ [] := by
  constructor
  · rintro ⟨earlier, stretch, later, rfl, hearlier, rfl, hnearly⟩
    have hall := (nearlyAll_iff_of_le h).mp hnearly
    exact ⟨earlier, later, by rw [← hall], hearlier⟩
  · rintro ⟨earlier, later, rfl, hearlier⟩
    refine ⟨earlier, List.replicate size true, later, rfl, hearlier, List.length_replicate, ?_⟩
    rw [nearlyAll_iff_of_le (by rwa [List.length_replicate]), List.length_replicate]

/-- The stretch that ends with the last result is the content of the window. -/
theorem nearlyAll_drop_iff (h : size ≤ results.length) :
    NearlyAll (results.drop (results.length - size)) ↔
      tooManyFailed ⟨size, results.reverse.take size⟩ = true := by
  have hlength : (results.drop (results.length - size)).length = size := by
    rw [List.length_drop]
    omega
  have hcount : (results.reverse.take size).count true =
      (results.drop (results.length - size)).count true := by
    rw [List.take_reverse, List.count_reverse]
  rw [NearlyAll, hlength, tooManyFailed, tooManyFailed, Window.failed, Window.failed, hcount]

/-- One more result can complete one stretch only, the one it ends. -/
theorem trips_concat_iff (hsize : 0 < size) :
    Trips size (results ++ [failed]) ↔
      Trips size results ∨ (size ≤ results.length ∧
        tooManyFailed ⟨size, (results ++ [failed]).reverse.take size⟩ = true) := by
  have hlength : (results ++ [failed]).length = results.length + 1 := by simp
  constructor
  · rintro ⟨earlier, stretch, later, hsplit, hearlier, hstretch, hnearly⟩
    rcases List.eq_nil_or_concat later with rfl | ⟨before, last, rfl⟩
    · rw [List.append_nil] at hsplit
      have hsum := congrArg List.length hsplit
      rw [hlength, List.length_append, hstretch] at hsum
      have hsome := List.length_pos_iff.mpr hearlier
      refine .inr ⟨by omega, (nearlyAll_drop_iff (by omega)).mp ?_⟩
      rwa [hsplit, List.length_append, hstretch, Nat.add_sub_cancel, List.drop_left]
    · rw [List.concat_eq_append, ← List.append_assoc] at hsplit
      obtain ⟨hbefore, -⟩ := List.append_inj' hsplit rfl
      exact .inl ⟨earlier, stretch, before, hbefore, hearlier, hstretch, hnearly⟩
  · rintro (⟨earlier, stretch, later, rfl, hearlier, hstretch, hnearly⟩ | ⟨hfull, hmany⟩)
    · exact ⟨earlier, stretch, later ++ [failed], by simp only [List.append_assoc], hearlier, hstretch,
        hnearly⟩
    · have hnearly := (nearlyAll_drop_iff (by omega)).mpr hmany
      refine ⟨_, _, [], by rw [List.append_nil, List.take_append_drop], ?_, ?_, hnearly⟩
      · rw [← List.length_pos_iff, List.length_take]
        omega
      · rw [List.length_drop]
        omega

end Stretches

/-! ## What the results make of the circuit -/

/-- The window holds the last results until a stretch has tripped the circuit, which stays open then from
the end of some call on. -/
structure Follows (settings : Settings) (calls : List Call) (circuit : Circuit) : Prop where
  governed : circuit.settings = settings
  closed : ¬Trips settings.closedWindow.size (calls.map (·.fails)) →
    circuit.phase = .closed ⟨settings.closedWindow.size,
      (calls.map (·.fails)).reverse.take settings.closedWindow.size⟩
  opened : Trips settings.closedWindow.size (calls.map (·.fails)) →
    ∃ call ∈ calls, circuit.phase = .opened (call.ended + settings.recovery)

namespace Follows

variable {settings : Settings} {calls : List Call} {circuit : Circuit} {call : Call}

theorem create (name : String) (settings : Settings) : Follows settings [] (create name settings) where
  governed := rfl
  closed := fun _ ↦ by rw [List.map_nil, List.reverse_nil, List.take_nil]; rfl
  opened := by
    rintro ⟨earlier, stretch, later, hsplit, hearlier, -⟩
    rw [List.map_nil, List.nil_eq, List.append_eq_nil_iff, List.append_eq_nil_iff] at hsplit
    exact absurd hsplit.1.1 hearlier

/-- Without recovery no call meets another phase than the one the last call left. -/
theorem phaseAt_eq (h : Follows settings calls circuit)
    (hsoon : ∀ earlier ∈ calls, call.made ≤ earlier.ended + settings.recovery) :
    circuit.phaseAt call.made = circuit.phase := by
  by_cases htrips : Trips settings.closedWindow.size (calls.map (·.fails))
  · obtain ⟨earlier, hmem, hphase⟩ := h.opened htrips
    rw [phaseAt, hphase]
    exact if_neg (Nat.not_lt.mpr (hsoon earlier hmem))
  · rw [phaseAt, h.closed htrips]

theorem rejectsAt_iff (h : Follows settings calls circuit)
    (hsoon : ∀ earlier ∈ calls, call.made ≤ earlier.ended + settings.recovery) :
    circuit.rejectsAt call.made = true ↔ Trips settings.closedWindow.size (calls.map (·.fails)) := by
  rw [rejectsAt, h.phaseAt_eq hsoon]
  by_cases htrips : Trips settings.closedWindow.size (calls.map (·.fails))
  · obtain ⟨earlier, -, hphase⟩ := h.opened htrips
    simp only [hphase, htrips]
  · simp only [h.closed htrips, htrips, Bool.false_eq_true]

theorem serve (h : Follows settings calls circuit)
    (hsoon : ∀ earlier ∈ calls, call.made ≤ earlier.ended + settings.recovery) :
    Follows settings (calls ++ [call]) (circuit.serve call).2 := by
  have hrejects := h.rejectsAt_iff hsoon
  have hphase := h.phaseAt_eq hsoon
  have hsize : 0 < settings.closedWindow.size := by
    show 0 < max settings.failureThreshold 1
    omega
  have hconcat : Trips _ (calls.map (·.fails) ++ [call.fails]) ↔ _ := trips_concat_iff hsize
  rw [← List.map_singleton, ← List.map_append] at hconcat
  by_cases htrips : Trips settings.closedWindow.size (calls.map (·.fails))
  · -- The call is rejected, and the circuit stays open.
    obtain ⟨earlier, hmem, hopen⟩ := h.opened htrips
    have hserve : (circuit.serve call).2 = (circuit.enter call.made).2 := by
      simp [Circuit.serve, enter, hrejects.mpr htrips]
    rw [hserve]
    refine ⟨h.governed, fun hnot ↦ absurd (hconcat.mpr (.inl htrips)) hnot, fun _ ↦ ?_⟩
    exact ⟨earlier, List.mem_append_left _ hmem, hphase.trans hopen⟩
  · -- The call goes through, and the circuit judges its result.
    have hadmits : circuit.rejectsAt call.made = false := Bool.eq_false_iff.mpr fun hr ↦ htrips (hrejects.mp hr)
    have hserve : (circuit.serve call).2 = (circuit.enter call.made).2.leave call.ended call.fails := by
      simp [Circuit.serve, enter, hadmits]
    have hclosed : (circuit.enter call.made).2.phase = _ := hphase.trans (h.closed htrips)
    have hsettings : (circuit.enter call.made).2.settings = settings := h.governed
    have hfull : (⟨settings.closedWindow.size, (calls.map (·.fails)).reverse.take settings.closedWindow.size⟩ :
        Window).isFull = decide (settings.closedWindow.size ≤ (calls.map (·.fails)).length) := by
      rw [Window.isFull, decide_eq_decide]
      dsimp only
      rw [List.length_take, List.length_reverse]
      omega
    have hadd : (⟨settings.closedWindow.size, (calls.map (·.fails)).reverse.take settings.closedWindow.size⟩ :
        Window).add call.fails = ⟨settings.closedWindow.size,
          ((calls ++ [call]).map (·.fails)).reverse.take settings.closedWindow.size⟩ := by
      rw [Window.add, List.map_append, List.map_singleton, List.reverse_append, List.reverse_singleton,
        List.singleton_append]
      obtain ⟨size, hsucc⟩ := Nat.exists_eq_succ_of_ne_zero (Nat.ne_of_gt hsize)
      dsimp only
      rw [hsucc, List.take_succ_cons, List.take_succ_cons, List.take_take, Nat.min_eq_left (Nat.le_succ _)]
    have hjudge := hconcat
    rw [or_iff_right htrips] at hjudge
    rw [hserve]
    have hafter : ((circuit.enter call.made).2.leave call.ended call.fails).phase =
        if settings.closedWindow.size ≤ (calls.map (·.fails)).length ∧
            tooManyFailed ⟨settings.closedWindow.size,
              ((calls ++ [call]).map (·.fails)).reverse.take settings.closedWindow.size⟩ = true then
          .opened (call.ended + settings.recovery)
        else .closed ⟨settings.closedWindow.size,
          ((calls ++ [call]).map (·.fails)).reverse.take settings.closedWindow.size⟩ := by
      rw [leave, judge, hclosed]
      dsimp only
      rw [hadd, hfull, hsettings]
      simp only [Bool.and_eq_true, decide_eq_true_iff]
    refine ⟨hsettings, fun hnot ↦ ?_, fun htrips ↦ ?_⟩
    · rw [hafter, if_neg fun hboth ↦ hnot (hjudge.mpr hboth)]
    · rw [hafter, if_pos (hjudge.mp htrips)]
      exact ⟨call, List.mem_append_right _ List.mem_cons_self, rfl⟩

theorem serveAll (name : String) (h : Unrecovered settings.recovery calls) :
    Follows settings calls ((Circuit.create name settings).serveAll calls) := by
  induction calls using List.reverseRecOn with
  | nil => exact create name settings
  | append_singleton calls call ih =>
    obtain ⟨hearlier, -, hlast⟩ := List.pairwise_append.mp h
    rw [Circuit.serveAll, List.foldl_append, List.foldl_cons, List.foldl_nil]
    exact (ih hearlier).serve fun earlier hmem ↦ hlast earlier hmem call List.mem_cons_self

end Follows

/-! ## Rejections -/

/-- While no time of recovery passes, a new circuit rejects a call, and its operation is not run, if and
only if a stretch of earlier results as long as the threshold, but not the first of all, held failures
nearly throughout. Up to ninety-nine these are failures in a row. -/
theorem serve_rejects_iff (name : String) (settings : Settings) {calls : List Call} {call : Call}
    (hsoon : Unrecovered settings.recovery (calls ++ [call])) :
    ((((create name settings).serveAll calls).serve call).1 = false ↔
        Trips (max settings.failureThreshold 1) (calls.map (·.fails))) ∧
      (max settings.failureThreshold 1 ≤ 99 →
        (Trips (max settings.failureThreshold 1) (calls.map (·.fails)) ↔
          ∃ earlier later, earlier ≠ [] ∧ calls.map (·.fails) =
            earlier ++ List.replicate (max settings.failureThreshold 1) true ++ later)) := by
  obtain ⟨hearlier, -, hlast⟩ := List.pairwise_append.mp hsoon
  have hfollows := Follows.serveAll name hearlier
  have hrejects := hfollows.rejectsAt_iff fun earlier hmem ↦ hlast earlier hmem call List.mem_cons_self
  constructor
  · refine Iff.trans ?_ hrejects
    cases hentry : ((create name settings).serveAll calls).rejectsAt call.made <;>
      simp [serve, enter, hentry]
  · intro hsmall
    rw [trips_iff_of_le hsmall]
    simp only [and_comm]

namespace Sample

/-- A call that is made and has ended at the first tick. -/
def call (fails : Bool) : Call := ⟨0, 0, fails⟩

def pair : Settings := ⟨2, 1, 10⟩

def hundred : Settings := ⟨100, 1, 10⟩

/-- A call that succeeds, and failures behind it. -/
def struck : List Call := call false :: List.replicate 2 (call true)

/-- A success between fifty failures before it and fifty behind it. -/
def mixed : List Call := List.replicate 50 (call true) ++ call false :: List.replicate 50 (call true)

end Sample

/-- Behind a success, two failures open a circuit with the threshold two. -/
theorem serve_rejects_struck :
    Unrecovered Sample.pair.recovery (Sample.struck ++ [Sample.call true]) ∧
      Sample.struck.map (·.fails) = [false] ++ List.replicate 2 true ++ [] ∧
      (((create "peer_2" Sample.pair).serveAll Sample.struck).serve (Sample.call true)).1 = false := by
  have hsoon : Unrecovered Sample.pair.recovery (Sample.struck ++ [Sample.call true]) := by
    unfold Unrecovered
    decide
  obtain ⟨hrejects, hrow⟩ := serve_rejects_iff "peer_2" Sample.pair hsoon
  refine ⟨hsoon, rfl, hrejects.mpr ((hrow (by decide)).mpr ⟨[false], [], List.cons_ne_nil _ _, rfl⟩)⟩

/-- Two failures in a row do not open a new circuit with the threshold two: the next call is run. And with
the threshold a hundred a call is rejected after ninety-nine failures of a hundred results, without a
hundred failures in a row. -/
theorem serve_admits_after_threshold :
    (Unrecovered Sample.pair.recovery (List.replicate 3 (Sample.call true)) ∧
        (List.replicate 2 (Sample.call true)).map (·.fails) = List.replicate 2 true ∧
        (((create "peer_2" Sample.pair).serveAll (List.replicate 2 (Sample.call true))).serve
          (Sample.call true)).1 = true) ∧
      Unrecovered Sample.hundred.recovery (Sample.mixed ++ [Sample.call true]) ∧
        (¬∃ earlier later, Sample.mixed.map (·.fails) =
          earlier ++ List.replicate 100 true ++ later) ∧
        (((create "peer_2" Sample.hundred).serveAll Sample.mixed).serve (Sample.call true)).1 = false := by
  refine ⟨⟨by unfold Unrecovered; decide, rfl, by decide +kernel⟩,
    by unfold Unrecovered; decide +kernel, ?_, by decide +kernel⟩
  rintro ⟨earlier, later, hsplit⟩
  -- A stretch of a hundred would reach over the success in the middle.
  have hlength : 101 = _ := congrArg List.length hsplit
  have hmiddle : some false = _ := congrArg (·[50]?) hsplit
  rw [List.length_append, List.length_append, List.length_replicate] at hlength
  rw [List.append_assoc, List.getElem?_append_right (by omega),
    List.getElem?_append_left (by rw [List.length_replicate]; omega), List.getElem?_replicate_of_lt (by omega)]
    at hmiddle
  cases hmiddle

end LogShipping.Circuit
