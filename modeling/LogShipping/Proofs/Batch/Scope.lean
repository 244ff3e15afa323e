import Mathlib.Order.Bounds.Basic
import LogShipping.Proofs.Batch.Passes

/-!
# Confined data and batches

Two files whose records are alike under the filter, one by one, differ in what never leaves the cluster only.
Their records have other lengths, end at other offsets and are met at other places of a block. Passes with the
same limits over them show the same nevertheless: only kept entries count against the limit on the size, and
a record counts against the limit on the number whatever is in it.
-/

namespace LogShipping

namespace Log

/-- What was written are whole records. -/
theorem records_written {entries : List Entry}
    (hsize : ∀ entry ∈ entries, entry.payload.length ≤ Frame.maxPayload) :
    Records (written entries) entries := by
  induction entries with
  | nil => exact records_nil_iff.mpr rfl
  | cons entry entries ih =>
    have hframe := Frame.decode_encode_append (hsize entry List.mem_cons_self) (written entries)
    refine records_cons_iff.mpr ⟨entry.payload, entry.encode.length, hframe, entry.decode_payload, ?_⟩
    rw [written_cons, List.drop_left]
    exact ih fun other hmem ↦ hsize other (List.mem_cons_of_mem entry hmem)

end Log

namespace Batch

open Log

/-- What a batch shows but for the places in the file. -/
def shown (batch : Batch) : List Entry × Nat × Nat × Bool :=
  (batch.entries, batch.heapSize, batch.read, batch.exhausted)

/-- The answers of passes with these limits, each with a reader opened where the batch before ended. A pass
that fails is made again. -/
def passes (content : Bytes) (schema : Schema) (path : String) (limit : Option Nat) :
    List Limits → Nat → List (Outcome Batch)
  | [], _ => []
  | limits :: rest, offset =>
    match (take (.file content) schema limits (Reader.start path offset limit)).1 with
    | .ok batch => .ok batch :: passes content schema path limit rest batch.stop
    | .error error => .error error :: passes content schema path limit rest offset

section Alike

variable {schema : Schema} {limits : Limits} {left right : Bytes} {reader other : Reader}
  {xs ys : List Entry}

/-- What is kept of entries is told by the filter's answer for each. -/
theorem kept_eq_of_map_eq (h : xs.map (Entry.filter schema) = ys.map (Entry.filter schema)) :
    kept schema xs = kept schema ys := by
  have hmap (entries : List Entry) :
      kept schema entries = (entries.map (Entry.filter schema)).filterMap id := by
    rw [List.filterMap_map]
    rfl
  rw [hmap, hmap, h]

theorem reached_congr (h : xs.map (Entry.filter schema) = ys.map (Entry.filter schema)) :
    limits.Reached schema xs ↔ limits.Reached schema ys := by
  have hlength : xs.length = ys.length := by
    rw [← List.length_map (Entry.filter schema), h, List.length_map]
  rw [Limits.Reached, Limits.Reached, hlength, kept_eq_of_map_eq h]

theorem map_take_congr (h : xs.map (Entry.filter schema) = ys.map (Entry.filter schema)) (count : Nat) :
    (xs.take count).map (Entry.filter schema) = (ys.take count).map (Entry.filter schema) := by
  rw [List.map_take, h, List.map_take]

/-- Ahead of two readers are entries that are alike under the filter, and nothing that cannot be read. -/
structure Alike (schema : Schema) (left right : Bytes) (reader other : Reader) : Prop where
  entries : (upcoming left reader).entries.map (Entry.filter schema) =
    (upcoming right other).entries.map (Entry.filter schema)
  halt : (upcoming left reader).halt = .incomplete
  halt_other : (upcoming right other).halt = .incomplete

/-- Batches of readers with such entries ahead have read the same number of them, and show the same. -/
theorem Alike.shown_eq {batch twin : Batch} (h : Alike schema left right reader other)
    (hbatch : Covers left schema limits reader batch) (htwin : Covers right schema limits other twin) :
    batch.read = twin.read ∧ batch.shown = twin.shown := by
  have hlength : (upcoming left reader).entries.length = (upcoming right other).entries.length := by
    rw [← List.length_map (Entry.filter schema), h.entries, List.length_map]
  have hreached (count : Nat) : limits.Reached schema ((upcoming left reader).entries.take count) ↔
      limits.Reached schema ((upcoming right other).entries.take count) :=
    reached_congr (map_take_congr h.entries count)
  have hread : batch.read = twin.read := by
    have hleast := hbatch.least
    simp only [hreached, hlength] at hleast
    exact IsLeast.unique hleast htwin.least
  have hentries : batch.entries = twin.entries := by
    rw [hbatch.entries, htwin.entries, hread]
    exact kept_eq_of_map_eq (map_take_congr h.entries twin.read)
  have hexhausted : batch.exhausted = twin.exhausted := by
    rw [Bool.eq_iff_iff, hbatch.exhausted, htwin.exhausted, h.halt, h.halt_other, hread, hreached]
  refine ⟨hread, ?_⟩
  rw [shown, shown, hbatch.heapSize, htwin.heapSize, hentries, hread, hexhausted]

end Alike

section Runs

variable {schema : Schema} {left right : Bytes} {path path' : String} {limit limit' : Option Nat}
  {offset offset' : Nat} {xs ys : List Entry}

theorem alike_of_records (hleft : Records ((Reader.start path offset limit).ahead left) xs)
    (hright : Records ((Reader.start path' offset' limit').ahead right) ys)
    (h : xs.map (Entry.filter schema) = ys.map (Entry.filter schema)) :
    Alike schema left right (Reader.start path offset limit) (Reader.start path' offset' limit') where
  entries := by rw [upcoming, upcoming, decoding_of_records hleft, decoding_of_records hright, h]
  halt := by rw [upcoming, decoding_of_records hleft]
  halt_other := by rw [upcoming, decoding_of_records hright]

/-- Without anything that cannot be read, a pass is answered. -/
theorem exists_covers (schema : Schema) (limits : Limits) (hfits : Fits left (Reader.start path offset limit))
    (hhalt : (upcoming left (Reader.start path offset limit)).halt = .incomplete) :
    ∃ batch, (take (.file left) schema limits (Reader.start path offset limit)).1 = .ok batch ∧
      Covers left schema limits (Reader.start path offset limit) batch := by
  have hconforms := conforms_start schema limits hfits
  cases htake : (take (.file left) schema limits (Reader.start path offset limit)).1 with
  | error error =>
    rw [htake] at hconforms
    exact absurd hhalt hconforms.2.1
  | ok batch =>
    rw [htake] at hconforms
    exact ⟨batch, rfl, hconforms.1⟩

/-- Behind batches that cover as many records, the entries ahead are alike again. -/
theorem Alike.behind {limits : Limits} {batch twin : Batch}
    (h : Alike schema left right (Reader.start path offset limit) (Reader.start path' offset' limit'))
    (hbatch : Covers left schema limits (Reader.start path offset limit) batch)
    (htwin : Covers right schema limits (Reader.start path' offset' limit') twin) :
    Alike schema left right (Reader.start path batch.stop limit) (Reader.start path' twin.stop limit') := by
  obtain ⟨hentries, hhalt⟩ := hbatch.behind
  obtain ⟨hothers, hother⟩ := htwin.behind
  constructor
  case entries =>
    have hmap := h.entries
    have hfront := map_take_congr hmap twin.read
    rw [hentries, hothers, List.map_append, List.map_append, (h.shown_eq hbatch htwin).1, hfront] at hmap
    exact List.append_cancel_left hmap
  case halt => rw [← hhalt, h.halt]
  case halt_other => rw [← hother, h.halt_other]

/-- Over two files whose records are alike under the filter, passes with the same limits are all answered, and
show the same: what is kept, its size, how many entries were read, and whether the end was reached. -/
theorem shown_passes_eq (choice : List Limits)
    (hleft : Records ((Reader.start path offset limit).ahead left) xs)
    (hright : Records ((Reader.start path' offset' limit').ahead right) ys)
    (h : xs.map (Entry.filter schema) = ys.map (Entry.filter schema))
    (hfits : max offset left.length + Reader.block ≤ Reader.maxOffset)
    (hfits' : max offset' right.length + Reader.block ≤ Reader.maxOffset) :
    ∃ batches twins : List Batch, passes left schema path limit choice offset = batches.map .ok ∧
      passes right schema path' limit' choice offset' = twins.map .ok ∧
      batches.map shown = twins.map shown := by
  have halike := alike_of_records hleft hright h
  replace hfits : Fits left (Reader.start path offset limit) := hfits
  replace hfits' : Fits right (Reader.start path' offset' limit') := hfits'
  clear hleft hright h
  induction choice generalizing offset offset' with
  | nil => exact ⟨[], [], rfl, rfl, rfl⟩
  | cons limits rest ih =>
    obtain ⟨batch, htake, hbatch⟩ := exists_covers schema limits hfits halike.halt
    obtain ⟨twin, htake', htwin⟩ := exists_covers schema limits hfits' halike.halt_other
    obtain ⟨batches, twins, hbatches, htwins, hshown⟩ :=
      ih (halike.behind hbatch htwin) (hbatch.fits hfits) (htwin.fits hfits')
    refine ⟨batch :: batches, twin :: twins, ?_, ?_, ?_⟩
    · rw [passes, htake]
      dsimp only
      rw [hbatches, List.map_cons]
    · rw [passes, htake']
      dsimp only
      rw [htwins, List.map_cons]
    · rw [List.map_cons, List.map_cons, hshown, (halike.shown_eq hbatch htwin).2]

/-- The entry `putEntry` with a confined cell in front. -/
def mixedEntry : Entry :=
  { putEntry with cells := ⟨[0x73], "x", [], 0, .put, [1, 2, 3]⟩ :: putEntry.cells }

/-- An entry of a confined cell only. -/
def confinedEntry : Entry := { bareEntry with cells := [⟨[0x73], "x", [], 0, .put, [1, 2, 3]⟩] }

theorem shown_passes_eq_confined :
    ∃ batches twins : List Batch,
      passes (written [putEntry, bareEntry, putEntry]) (.ofNames ["f"]) "a.wal" none
        [⟨1, 2⟩, ⟨1000, 2⟩, ⟨1, 1⟩] 0 = batches.map .ok ∧
      passes (written [mixedEntry, confinedEntry, mixedEntry]) (.ofNames ["f"]) "b.wal" none
        [⟨1, 2⟩, ⟨1000, 2⟩, ⟨1, 1⟩] 0 = twins.map .ok ∧
      batches.map shown = twins.map shown := by
  have hleft : Records (written [putEntry, bareEntry, putEntry]) [putEntry, bareEntry, putEntry] :=
    records_written (by decide +kernel)
  have hright : Records (written [mixedEntry, confinedEntry, mixedEntry])
      [mixedEntry, confinedEntry, mixedEntry] :=
    records_written (by decide +kernel)
  exact shown_passes_eq _ hleft hright (by decide +kernel) (by decide +kernel) (by decide +kernel)

end Runs

end Batch

end LogShipping
