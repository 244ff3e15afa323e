import LogShipping.Log.Writer
import LogShipping.Proofs.Log.Written

/-!
# Reading what a writer committed

A writer frames a payload of any size, and counts its record as committed; a reader takes a record of more
than the admissible size for corruption. So what a writer appended is read back if and only if no payload
exceeds that size.
-/

namespace LogShipping

/-! ## Files of a directory -/

namespace Directory

variable {directory : Directory} {name : String} {content : Bytes}

theorem lookup_map_of_any {files : List (String × Bytes)} (h : files.any (·.1 == name) = true) :
    (files.map fun file ↦ if file.1 = name then (name, content) else file).lookup name = some content := by
  induction files with
  | nil => cases h
  | cons file files ih =>
    rw [List.map_cons]
    by_cases hname : file.1 = name
    case pos => rw [if_pos hname, List.lookup_cons_self]
    case neg =>
      rw [List.any_cons, beq_eq_false_iff_ne.mpr hname, Bool.false_or] at h
      rw [if_neg hname, List.lookup_cons, beq_eq_false_iff_ne.mpr (Ne.symm hname), ih h]

theorem lookup_of_not_any {files : List (String × Bytes)} (h : ¬files.any (·.1 == name) = true) :
    files.lookup name = none := by
  rw [List.lookup_eq_none_iff]
  intro file hmem
  rw [List.any_eq_true] at h
  exact bne_iff_ne.mpr fun hname ↦ h ⟨file, hmem, beq_iff_eq.mpr hname.symm⟩

/-- A file holds what was written last. -/
theorem content?_write (directory : Directory) (name : String) (content : Bytes) :
    (directory.write name content).content? name = some content := by
  unfold write
  split
  case isTrue h => exact lookup_map_of_any h
  case isFalse h => rw [content?, List.lookup_append, lookup_of_not_any h, Option.none_or, List.lookup_cons_self]

theorem content?_append (h : directory.content? name = some content) (more : Bytes) :
    (directory.append name more).content? name = some (content ++ more) := by
  rw [append, content?_write, h, Option.getD_some]

/-- Where steps lead to does not depend on the files. -/
theorem walk_eq_ok {other : Directory} {place : Place} {steps : List String}
    (h : directory.walk steps = .ok place) : other.walk steps = .ok place := by
  fun_induction walk directory steps with
  | case1 => exact h
  | case2 rest ih => exact ih h
  | case3 rest ih => exact ih h
  | case4 => cases h
  | case5 rest hall hblank hdot hlong =>
    rw [walk.eq_4 _ _ _ hblank hdot, if_neg hlong, if_pos rfl, if_pos hall]
    exact h
  | case6 => cases h
  | case7 step rest hblank hdot hlong hparent hlast =>
    rw [walk.eq_4 _ _ _ hblank hdot, if_neg hlong, if_neg hparent, if_pos hlast]
    exact h
  | case8 => cases h
  | case9 => cases h

/-- What a path names does not depend on the files. -/
theorem locate_eq_ok {other : Directory} {place : Place} {path : String}
    (h : directory.locate path = .ok place) : other.locate path = .ok place := by
  unfold locate at h ⊢
  split at h
  case isTrue => cases h
  case isFalse hzero =>
    split at h
    case isTrue => cases h
    case isFalse hempty =>
      split at h
      case isTrue => cases h
      case isFalse hlong =>
        rw [if_neg hzero, if_neg hempty, if_neg hlong]
        split at h
        case isTrue hroot => rwa [if_pos hroot]
        case isFalse hroot =>
          rw [if_neg hroot]
          exact walk_eq_ok h

theorem open?_of_locate {path : String} (hplace : directory.locate path = .ok (.name name))
    (hcontent : directory.content? name = some content) : directory.open? path = .ok (.file content) := by
  rw [open?, hplace]
  dsimp only
  rw [hcontent]

end Directory

namespace Log

/-! ## Appending -/

namespace Writer

/-- The writer and the directory after the entries were appended one after the other. -/
def appendAll (writer : Writer) (directory : Directory) (entries : List Entry) : Writer × Directory :=
  entries.foldl (fun state entry ↦ state.1.append state.2 entry) (writer, directory)

variable {writer : Writer} {directory : Directory} {content : Bytes}

/-- Appending keeps the file, puts the records behind what it holds, and counts their octets. -/
theorem appendAll_spec (hcontent : directory.content? writer.name = some content) (entries : List Entry) :
    (writer.appendAll directory entries).1 =
        { writer with length := writer.length + (written entries).length } ∧
      (writer.appendAll directory entries).2.content? writer.name = some (content ++ written entries) := by
  induction entries generalizing writer directory content with
  | nil => exact ⟨rfl, by rw [written, List.flatMap_nil, List.append_nil]; exact hcontent⟩
  | cons entry entries ih =>
    have happended : (writer.append directory entry).2.content? (writer.append directory entry).1.name =
        some (content ++ entry.encode) := Directory.content?_append hcontent entry.encode
    obtain ⟨hwriter, hfile⟩ := ih happended
    have hstep : writer.appendAll directory (entry :: entries) =
        (writer.append directory entry).1.appendAll (writer.append directory entry).2 entries := rfl
    rw [hstep, written_cons, List.length_append, ← List.append_assoc, ← Nat.add_assoc]
    exact ⟨hwriter, hfile⟩

/-- A new writer's file is empty, and lies where the writer's path leads in any directory. -/
theorem create_spec {node : String} {seq : UInt64} {created : Directory}
    (h : create directory node seq = .ok (writer, created)) :
    writer.length = 0 ∧ created.content? writer.name = some [] ∧
      ∀ other : Directory, other.locate writer.file.path = .ok (.name writer.name) := by
  unfold create at h
  dsimp only at h
  split at h
  case h_1 => cases h
  case h_2 name made hmade =>
    cases h
    unfold Directory.create at hmade
    split at hmade
    case h_1 => cases hmade
    case h_2 => cases hmade
    case h_3 hplace =>
      cases hmade
      exact ⟨rfl, Directory.content?_write directory name [], fun _ ↦ Directory.locate_eq_ok hplace⟩

/-- The first file of a node in a directory without files. -/
theorem create_first :
    create Directory.empty "a" 1 =
      .ok (⟨⟨1, "./a.0000000001.wal"⟩, "a.0000000001.wal", 0⟩, ⟨[("a.0000000001.wal", [])]⟩) := by
  have hname : Path.join "." (logFileName "a" 1) = "./a.0000000001.wal" := by decide +kernel
  have hsteps : (Path.splitSlashes "./a.0000000001.wal".toList).map String.ofList =
      [".", "a.0000000001.wal"] := by decide +kernel
  have hplace : Directory.empty.locate "./a.0000000001.wal" = .ok (.name "a.0000000001.wal") := by
    rw [Directory.locate, if_neg (by decide +kernel), if_neg (by decide +kernel),
      if_neg (by decide +kernel), if_neg (by decide +kernel), hsteps]
    rfl
  unfold create
  dsimp only
  rw [hname, Directory.create, hplace]
  rfl

end Writer

/-! ## Reading back -/

/-- A reader that is opened at the beginning of the writer's file, with the length the writer answered
last for its limit, answers these entries and then none. -/
def ReadsBack (state : Writer × Directory) (entries : List Entry) : Prop :=
  ∃ content reader after, state.2.open? state.1.file.path = .ok (.file content) ∧
    Reader.openAt state.2 state.1.file.path 0 (some state.1.length) = .ok reader ∧
    Reader.Reads (Reader.next content) reader entries (.ok ()) after

namespace Reader

variable {content : Bytes} {reader : Reader} {entries : List Entry}

/-- A record of more than the admissible size is an error. -/
theorem next_of_oversize {entry : Entry} {more : Bytes} (hcursor : reader.cursor = reader.position)
    (hsize : Frame.maxPayload < entry.payload.length)
    (hahead : reader.ahead content = entry.encode ++ more) :
    ∃ error after, reader.next content = (.error error, after) := by
  rcases Frame.decode_encode_of_oversize hsize more with ⟨fault, hframe⟩ | ⟨count, hcount, hframe⟩
  · rw [← Entry.encode, ← hahead] at hframe
    obtain ⟨cursor, hnext⟩ := next_of_corrupt hcursor hframe
    exact ⟨_, _, hnext⟩
  · rw [← Entry.encode, ← hahead] at hframe
    obtain ⟨error, hentry⟩ := entry.decode_take_payload hcount
    have hnext := next_of_complete hcursor hframe
    rw [hentry] at hnext
    exact ⟨_, _, hnext⟩

/-- Whoever reads all records that lie ahead finds none of them too large. -/
theorem Reads.size_le {after : Reader} {result : Outcome Unit} (hcursor : reader.cursor = reader.position)
    (hahead : reader.ahead content = written entries)
    (h : Reads (next content) reader entries result after) :
    ∀ entry ∈ entries, entry.payload.length ≤ Frame.maxPayload := by
  induction entries generalizing reader with
  | nil => nofun
  | cons entry entries ih =>
    cases h with
    | entry hnext hrest =>
      rw [written_cons] at hahead
      by_cases hsize : Frame.maxPayload < entry.payload.length
      case pos =>
        obtain ⟨error, stopped, hfail⟩ := next_of_oversize hcursor hsize hahead
        cases hfail.symm.trans hnext
      case neg =>
        have hpass := next_of_written hcursor (Nat.not_lt.mp hsize) hahead
        cases hpass.symm.trans hnext
        have hbehind : (reader.pass entry.encode.length).ahead content = written entries := by
          rw [ahead_pass, hahead, List.drop_left]
        intro other hmem
        rcases List.mem_cons.mp hmem with rfl | hmem
        · exact Nat.not_lt.mp hsize
        · exact ih rfl hbehind hrest other hmem

end Reader

section

variable {directory created : Directory} {node : String} {seq : UInt64} {writer : Writer}
  (hcreate : Writer.create directory node seq = .ok (writer, created)) {entries : List Entry}

include hcreate

/-- A writer's file holds what it appended, and opens with all of it ahead. -/
theorem open_appendAll (entries : List Entry) :
    (writer.appendAll created entries).2.open? (writer.appendAll created entries).1.file.path =
        .ok (.file (written entries)) ∧
      ∃ reader, Reader.openAt (writer.appendAll created entries).2
          (writer.appendAll created entries).1.file.path 0
          (some (writer.appendAll created entries).1.length) = .ok reader ∧
        reader.cursor = reader.position ∧ reader.ahead (written entries) = written entries := by
  obtain ⟨hlength, hempty, hplace⟩ := Writer.create_spec hcreate
  obtain ⟨hwriter, hcontent⟩ := Writer.appendAll_spec hempty entries
  have hfile : (writer.appendAll created entries).2.open? writer.file.path = .ok (.file (written entries)) :=
    Directory.open?_of_locate (hplace _) hcontent
  rw [hwriter, hlength, Nat.zero_add]
  refine ⟨hfile, Reader.start writer.file.path 0 (some (written entries).length), ?_, rfl,
    List.take_length⟩
  rw [Reader.openAt, hfile]
  rfl

theorem ReadsBack.size_le (h : ReadsBack (writer.appendAll created entries) entries) :
    ∀ entry ∈ entries, entry.payload.length ≤ Frame.maxPayload := by
  obtain ⟨hfile, reader, hopen, hcursor, hahead⟩ := open_appendAll hcreate entries
  obtain ⟨content, other, after, hcontent, hreader, hread⟩ := h
  cases hfile.symm.trans hcontent
  cases hopen.symm.trans hreader
  exact Reader.Reads.size_le hcursor hahead hread

theorem readsBack_of_size_le (hsize : ∀ entry ∈ entries, entry.payload.length ≤ Frame.maxPayload) :
    ReadsBack (writer.appendAll created entries) entries := by
  obtain ⟨hfile, reader, hopen, hcursor, hahead⟩ := open_appendAll hcreate entries
  have hend : (reader.pass (written entries).length).ahead (written entries) = [] := by
    rw [Reader.ahead_pass, hahead, List.drop_length]
  have hlast := Reader.next_of_incomplete rfl (by rw [hend]; rfl)
  exact ⟨_, reader, _, hfile, hopen,
    .of_written hcursor hsize (hahead.trans (List.append_nil _).symm) (.ended hlast)⟩

/-- What a writer appended is read back if and only if no payload exceeds the size that a reader accepts. -/
theorem readsBack_iff (entries : List Entry) :
    ReadsBack (writer.appendAll created entries) entries ↔
      ∀ entry ∈ entries, entry.payload.length ≤ Frame.maxPayload :=
  ⟨ReadsBack.size_le hcreate, readsBack_of_size_le hcreate⟩

end

theorem readsBack_two_entries :
    ∃ writer created, Writer.create Directory.empty "a" 1 = .ok (writer, created) ∧
      ReadsBack (writer.appendAll created [bareEntry, putEntry]) [bareEntry, putEntry] :=
  ⟨_, _, Writer.create_first, (readsBack_iff Writer.create_first _).mpr (by decide +kernel)⟩

/-- An entry of one cell whose value has `count` octets of three digits. -/
def wide (count : Nat) : Entry :=
  ⟨"t", 1, 0, [⟨[0x72], "f", [0x71], 0, .put, List.replicate count 0xFF⟩]⟩

theorem length_payload_wide_gt (count : Nat) : 4 * count < (wide count).payload.length := by
  have hdigits : ∀ byte ∈ List.replicate count (0xFF : UInt8), 100 ≤ byte.toNat := by
    intro byte hmem
    rw [List.eq_of_mem_replicate hmem]
    decide
  have hcell : ⟨[0x72], "f", [0x71], 0, .put, List.replicate count 0xFF⟩ ∈ (wide count).cells :=
    List.mem_cons_self
  calc 4 * count
      = 4 * (List.replicate count (0xFF : UInt8)).length := by rw [List.length_replicate]
    _ < (Json.write (.octets (List.replicate count 0xFF))).length := Json.length_write_octets_gt hdigits
    _ ≤ (wide count).payload.length := Entry.length_value_le_payload hcell

/-- An entry with a value of 16 MiB is appended and counted as committed, but not read back. -/
theorem not_readsBack_wide :
    ∃ writer created, Writer.create Directory.empty "a" 1 = .ok (writer, created) ∧
      ¬ReadsBack (writer.appendAll created [wide 16777216]) [wide 16777216] := by
  refine ⟨_, _, Writer.create_first, fun hread ↦ ?_⟩
  have hsize := hread.size_le Writer.create_first _ (List.mem_singleton_self _)
  have hlarge := length_payload_wide_gt 16777216
  rw [Frame.maxPayload] at hsize
  omega

end Log

end LogShipping
