import LogShipping.Settings
import Mathlib.Data.Option.Basic

/-!
# Waits between attempts

Whatever the text for the sleep between attempts, it comes to a duration. The wait after some failures is a
multiple of it, which grows with the failures up to a ceiling. It exists as long as the multiple is a duration
too: a sleep of many years may have no double.
-/

namespace LogShipping

namespace Duration

variable {duration sum more nanos count : Nat}

theorem fit?_eq_some_iff {nanoseconds : Nat} :
    fit? nanoseconds = some duration ↔ nanoseconds < bound ∧ nanoseconds = duration := by
  unfold fit?
  split <;> simp [*]

/-! ## Texts -/

theorem lt_of_add? (h : add? duration more nanos = some sum) : sum < bound := by
  simp only [add?, Option.bind_eq_bind, Option.bind_eq_some_iff, fit?_eq_some_iff] at h
  obtain ⟨below, -, whole, -, hlt, rfl⟩ := h
  exact hlt

theorem lt_of_addWhole? {unit : Unit} (h : addWhole? duration unit count = some sum) : sum < bound := by
  simp only [addWhole?, Option.bind_eq_bind, Option.bind_eq_some_iff] at h
  obtain ⟨part, -, hadd⟩ := h
  split at hadd <;> exact lt_of_add? hadd

theorem lt_of_addFraction? {unit : Unit} {numerator denominator : Nat}
    (h : addFraction? duration unit numerator denominator = some sum) : sum < bound := by
  simp only [addFraction?, Option.bind_eq_bind, Option.bind_eq_some_iff] at h
  obtain ⟨-, -, product, -, -, -, hadd⟩ := h
  split at hadd <;> exact lt_of_add? hadd

/-- Every part of a text leaves a duration. -/
theorem lt_of_readParts {parts : Nat} {text : List Char} (h : sum < bound)
    (hread : readParts parts sum text = some duration) : duration < bound := by
  induction parts generalizing sum text with
  | zero => cases hread
  | succ parts ih =>
    rw [readParts] at hread
    split at hread
    · cases hread
      exact h
    · simp only [Option.bind_eq_bind, Option.bind_eq_some_iff] at hread
      obtain ⟨-, -, amount, -, unit, -, whole, hwhole, hread⟩ := hread
      split at hread
      · simp only [Option.bind_some, Option.bind_eq_some_iff] at hread
        obtain ⟨-, -, hread⟩ := hread
        exact ih (lt_of_addWhole? hwhole) hread
      · simp only [Option.bind_eq_some_iff] at hread
        obtain ⟨added, hadded, -, -, hread⟩ := hread
        exact ih (lt_of_addFraction? hadded) hread

theorem lt_of_ofText? {text : String} (h : ofText? text = some duration) : duration < bound := by
  have hzero : 0 < bound := by decide
  unfold ofText? at h
  split at h
  · cases h
    exact hzero
  · split at h
    · cases h
    · exact lt_of_readParts hzero h

theorem ofTextOr_lt {fallback : Duration} (h : fallback < bound) (text : String) :
    ofTextOr fallback text < bound := by
  unfold ofTextOr
  cases htext : ofText? text with
  | none => exact h
  | some duration => exact lt_of_ofText? htext

end Duration

namespace SourceSettings

variable {settings : SourceSettings} {failures fewer more : Nat}

theorem retrySleep_lt (settings : SourceSettings) : settings.retrySleep < Duration.bound :=
  Duration.ofTextOr_lt (by decide) _

/-! ## Multiples -/

/-- The multiple of the sleep that is waited after so many failures. -/
def multiplier (settings : SourceSettings) (failures : Nat) : Nat :=
  max 1 (min failures settings.maxRetriesMultiplier)

theorem multiplier_mono (settings : SourceSettings) (h : fewer ≤ more) :
    settings.multiplier fewer ≤ settings.multiplier more := by
  unfold multiplier
  omega

theorem multiplier_le (settings : SourceSettings) (failures : Nat) :
    settings.multiplier failures ≤ max 1 settings.maxRetriesMultiplier := by
  unfold multiplier
  omega

theorem backoff?_eq (settings : SourceSettings) (failures : Nat) :
    settings.backoff? failures = Duration.fit? (settings.retrySleep * settings.multiplier failures) := by
  have hmultiple : max 1 (min failures (max settings.maxRetriesMultiplier 1)) = settings.multiplier failures := by
    unfold multiplier
    omega
  rw [backoff?, Duration.times?, hmultiple]

theorem backoff?_eq_some_iff {wait : Duration} :
    settings.backoff? failures = some wait ↔
      settings.retrySleep * settings.multiplier failures < Duration.bound ∧
        settings.retrySleep * settings.multiplier failures = wait := by
  rw [backoff?_eq, Duration.fit?_eq_some_iff]

/-- One sleep is always a duration, and so is every multiple of one that is no longer than `2³²` seconds. -/
theorem multiple_lt (h : failures ≤ 1 ∨ settings.maxRetriesMultiplier ≤ 1 ∨
    (settings.maxRetriesMultiplier < UInt32.size ∧ settings.retrySleep ≤ Duration.ofSeconds UInt32.size)) :
    settings.retrySleep * settings.multiplier failures < Duration.bound := by
  have hsleep := settings.retrySleep_lt
  rcases h with h | h | ⟨hmultiplier, hshort⟩
  · have hone : settings.multiplier failures = 1 := by unfold multiplier; omega
    rwa [hone, Nat.mul_one]
  · have hone : settings.multiplier failures = 1 := by unfold multiplier; omega
    rwa [hone, Nat.mul_one]
  · have hle : settings.multiplier failures ≤ UInt32.size - 1 := by
      unfold multiplier
      have : 1 < UInt32.size := by decide
      omega
    calc settings.retrySleep * settings.multiplier failures
        ≤ Duration.ofSeconds UInt32.size * (UInt32.size - 1) := Nat.mul_le_mul hshort hle
      _ < Duration.bound := by decide

/-! ## Waits -/

/-- The waits after some failures and after no fewer exist, are in order, and lie between the sleep and the
ceiling, if and only if the multiple for the greater number is a duration. -/
theorem waits_iff (settings : SourceSettings) {fewer more : Nat} (h : fewer ≤ more) :
    ((∃ short long, settings.backoff? fewer = some short ∧ settings.backoff? more = some long ∧
        short ≤ long ∧ settings.retrySleep ≤ short ∧
        long ≤ settings.retrySleep * max 1 settings.maxRetriesMultiplier) ↔
      settings.retrySleep * max 1 (min more settings.maxRetriesMultiplier) < Duration.bound) ∧
    (more ≤ 1 ∨ settings.maxRetriesMultiplier ≤ 1 ∨ (settings.maxRetriesMultiplier < UInt32.size ∧
        settings.retrySleep ≤ Duration.ofSeconds UInt32.size) →
      settings.retrySleep * max 1 (min more settings.maxRetriesMultiplier) < Duration.bound) := by
  refine ⟨⟨?_, fun hfits ↦ ?_⟩, multiple_lt⟩
  · rintro ⟨-, long, -, hlong, -⟩
    exact (backoff?_eq_some_iff.mp hlong).1
  · have hmono : settings.retrySleep * settings.multiplier fewer ≤ settings.retrySleep * settings.multiplier more :=
      Nat.mul_le_mul_left _ (settings.multiplier_mono h)
    have hpos : 0 < settings.multiplier fewer := Nat.le_max_left 1 _
    exact ⟨_, _, backoff?_eq_some_iff.mpr ⟨Nat.lt_of_le_of_lt hmono hfits, rfl⟩,
      backoff?_eq_some_iff.mpr ⟨hfits, rfl⟩, hmono, Nat.le_mul_of_pos_right _ hpos,
      Nat.mul_le_mul_left _ (settings.multiplier_le more)⟩

/-- With the standard settings the waits after three failures and after twenty are three seconds and ten. -/
theorem waits_standard :
    3 ≤ 20 ∧ standard.retrySleep = Duration.ofSeconds 1 ∧
      ∃ short long, standard.backoff? 3 = some short ∧ standard.backoff? 20 = some long ∧
        short = Duration.ofSeconds 3 ∧ long = Duration.ofSeconds 10 ∧ short ≤ long := by
  have hsleep : standard.retrySleep = Duration.ofSeconds 1 := by decide
  obtain ⟨hwaits, hfits⟩ := waits_iff standard (show 3 ≤ 20 by decide)
  have hmodest : standard.retrySleep ≤ Duration.ofSeconds UInt32.size := by rw [hsleep]; decide
  obtain ⟨short, long, hshort, hlong, hle, -⟩ := hwaits.mpr (hfits (.inr (.inr ⟨by decide, hmodest⟩)))
  have hthree := (backoff?_eq_some_iff.mp hshort).2
  have hten := (backoff?_eq_some_iff.mp hlong).2
  rw [hsleep] at hthree hten
  exact ⟨by decide, hsleep, short, long, hshort, hlong, hthree ▸ rfl, hten ▸ rfl, hle⟩

namespace Sample

/-- The longest sleep that can be written in seconds. -/
def drowsy : SourceSettings := { standard with sleepForRetries := "18446744073709551615s" }

end Sample

/-- The longest sleep has no double, so there is no wait after the second failure in a row. -/
theorem not_waits_longest :
    1 ≤ 2 ∧ Sample.drowsy.backoff? 1 = some (Duration.ofSeconds (UInt64.size - 1)) ∧
      ¬∃ long, Sample.drowsy.backoff? 2 = some long := by
  have hsleep : Sample.drowsy.retrySleep = Duration.ofSeconds (UInt64.size - 1) := by decide
  refine ⟨by decide, backoff?_eq_some_iff.mpr ?_, ?_⟩
  · rw [hsleep]
    decide
  · rintro ⟨long, hlong⟩
    have hlt := (backoff?_eq_some_iff.mp hlong).1
    rw [hsleep] at hlt
    revert hlt
    decide

end SourceSettings

end LogShipping
