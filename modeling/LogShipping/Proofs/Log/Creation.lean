import LogShipping.Log.Writer
import LogShipping.Proofs.Log.Names
import Mathlib.Data.List.DropRight

/-!
# No two logs share a file

The name of a log file tells the node and the number, whatever the node's id looks like: between the last two
dots there are digits only, and these are the one numeral of the number. So the file that a new writer empties
has the name of no other node and number. An id with slashes makes the name a path, though, of which what follows
the last slash is the name of the file: such an id may share its files with the id that follows its last slash,
but with no id that ends otherwise. An id with a slash in front has no files in the directory at all.
-/

namespace LogShipping

/-! ## What follows the last slash -/

namespace Path

/-- What follows the last slash of a path. -/
def last (path : String) : String := String.ofList (path.toList.rtakeWhile (· ≠ '/'))

variable {path name : String} {front more : List Char}

theorem rtakeWhile_of_not_mem (h : '/' ∉ more) : more.rtakeWhile (· ≠ '/') = more := by
  rw [List.rtakeWhile_eq_self_iff]
  intro c hmem
  exact decide_eq_true (ne_of_mem_of_not_mem hmem h)

/-- What has no slash comes behind the last slash of what stands in front of it. -/
theorem rtakeWhile_append_of_not_mem (h : '/' ∉ more) :
    (front ++ more).rtakeWhile (· ≠ '/') = front.rtakeWhile (· ≠ '/') ++ more := by
  have hall : ∀ c ∈ more.reverse, decide (c ≠ '/') = true := fun c hmem ↦
    decide_eq_true (ne_of_mem_of_not_mem (List.mem_reverse.mp hmem) h)
  rw [List.rtakeWhile, List.rtakeWhile, List.reverse_append, List.takeWhile_append_of_pos hall,
    List.reverse_append, List.reverse_reverse]

/-- What stands in front of a slash does not matter. -/
theorem rtakeWhile_append_slash : (front ++ '/' :: more).rtakeWhile (· ≠ '/') = more.rtakeWhile (· ≠ '/') := by
  have hreverse : (front ++ '/' :: more).reverse = more.reverse ++ '/' :: front.reverse := by
    rw [List.reverse_append, List.reverse_cons, List.append_assoc, List.singleton_append]
  rw [List.rtakeWhile, List.rtakeWhile, hreverse, List.takeWhile_append, List.takeWhile_cons_of_neg (by decide)]
  split
  case isTrue hall => rw [List.append_nil, (List.takeWhile_prefix _).eq_of_length hall]
  case isFalse => rfl

theorem last_eq_self (h : '/' ∉ path.toList) : last path = path := by
  rw [last, rtakeWhile_of_not_mem h, String.ofList_toList]

theorem last_eq_of_split (hname : '/' ∉ name.toList) (h : path.toList = front ++ '/' :: name.toList) :
    last path = name := by
  rw [last, h, rtakeWhile_append_slash, rtakeWhile_of_not_mem hname, String.ofList_toList]

theorem last_join (directory path : String) : last (join directory path) = last path := by
  have hsplit : (directory ++ "/" ++ path).toList = directory.toList ++ '/' :: path.toList := by
    rw [String.toList_append, String.toList_append, List.append_assoc]
    rfl
  unfold join
  split
  case isTrue => rfl
  case isFalse => rw [last, hsplit, rtakeWhile_append_slash, last]

theorem last_logFileName (node : String) (seq : UInt64) :
    last (logFileName node seq) = logFileName (last node) seq := by
  have hnumber : '/' ∉ ".".toList ++ ((Decimal.padded 10 seq.toNat).toList ++ ".wal".toList) := by
    rw [List.mem_append, List.mem_append, not_or, not_or]
    exact ⟨by decide, Decimal.slash_not_mem_padded 10 _, by decide⟩
  rw [← String.toList_inj, toList_logFileName, last, last, String.toList_ofList, String.toList_ofList,
    toList_logFileName, List.append_assoc, List.append_assoc, rtakeWhile_append_of_not_mem hnumber,
    List.append_assoc, List.append_assoc]

end Path

/-- A path leads to what follows its last slash. -/
theorem Directory.eq_last_of_locate {directory : Directory} {path name : String}
    (h : directory.locate path = .ok (.name name)) : name = Path.last path := by
  obtain ⟨hslash, rfl | ⟨front, hfront⟩⟩ := name_of_locate h
  · exact (Path.last_eq_self hslash).symm
  · exact (Path.last_eq_of_split hslash hfront).symm

namespace Log

/-! ## New writers -/

variable {directory after : Directory} {writer : Writer} {node node' : String} {seq seq' : UInt64}

/-- A new writer empties the file that its path leads to. -/
theorem Writer.after_create (h : Writer.create directory node seq = .ok (writer, after)) :
    writer.name = logFileName (Path.last node) seq ∧ after = directory.write writer.name [] := by
  unfold Writer.create at h
  dsimp only at h
  split at h
  case h_1 => cases h
  case h_2 name made hmade =>
    cases h
    unfold Directory.create at hmade
    split at hmade
    case h_1 => cases hmade
    case h_2 => cases hmade
    case h_3 hplace =>
      cases hmade
      rw [Directory.eq_last_of_locate hplace, Path.last_join, Path.last_logFileName]
      exact ⟨rfl, rfl⟩

theorem content?_file_create (h : Writer.create directory node seq = .ok (writer, after)) :
    content? after writer.file = some [] := by
  obtain ⟨-, hempty, hplace⟩ := Writer.create_spec h
  rw [content?, Directory.open?_of_locate (hplace after) hempty]

/-- It leaves alone what the other paths of logs lead to, unless they end alike. -/
theorem content?_create_of_ne (h : Writer.create directory node seq = .ok (writer, after))
    (hne : ¬(Path.last node = Path.last node' ∧ seq = seq')) :
    content? after (logFile node' seq') = content? directory (logFile node' seq') := by
  obtain ⟨hname, rfl⟩ := Writer.after_create h
  refine content?_congr fun name hplace ↦ Directory.content?_write_of_ne ?_ []
  rw [hname, Directory.eq_last_of_locate hplace]
  intro hsame
  have hnames : logFileName (Path.last node) seq = logFileName (Path.last node') seq' :=
    hsame.symm.trans (Path.last_logFileName node' seq')
  exact hne (logFileName_inj.mp hnames)

/-- No two nodes and numbers have one name of a log file. So a new writer, which empties its own file, changes no
file of another node and number by its name. Only where an id has slashes in it, so that the name is a path, may
the file be that of another id, which ends alike behind its last slash. -/
theorem logFileName_eq_iff_and_create_spares (node node' : String) (seq seq' : UInt64) :
    (logFileName node seq = logFileName node' seq' ↔ node = node' ∧ seq = seq') ∧
      ∀ (directory after : Directory) (writer : Writer),
        Writer.create directory node seq = .ok (writer, after) →
          content? after writer.file = some [] ∧
            (content? after (logFile node' seq') ≠ content? directory (logFile node' seq') →
              Path.last node = Path.last node' ∧ seq = seq') ∧
            ('/' ∉ node.toList → '/' ∉ node'.toList →
              content? after (logFile node' seq') ≠ content? directory (logFile node' seq') →
                node = node' ∧ seq = seq') := by
  refine ⟨logFileName_inj, fun directory after writer hcreate ↦ ?_⟩
  have hlast (hchanged : content? after (logFile node' seq') ≠ content? directory (logFile node' seq')) :
      Path.last node = Path.last node' ∧ seq = seq' := by
    by_contra hne
    exact hchanged (content?_create_of_ne hcreate hne)
  refine ⟨content?_file_create hcreate, hlast, fun hnode hnode' hchanged ↦ ?_⟩
  obtain ⟨hsame, hseq⟩ := hlast hchanged
  rw [Path.last_eq_self hnode, Path.last_eq_self hnode'] at hsame
  exact ⟨hsame, hseq⟩

/-- A node may be called as a file of another node is. Its file is still there when the other's is emptied. -/
theorem create_spares_longer_name :
    let directory : Directory := ⟨[("a.0000000001.wal.0000000001.wal", [7]), ("a.0000000001.wal", [8])]⟩
    ∃ writer after, Writer.create directory "a" 1 = .ok (writer, after) ∧
      content? after writer.file = some [] ∧ content? after (logFile "a.0000000001.wal" 1) = some [7] := by
  intro directory
  have hpath : Path.join "." (logFileName "a" 1) = "./a.0000000001.wal" := by decide +kernel
  have hplace : directory.locate "./a.0000000001.wal" = .ok (.name "a.0000000001.wal") :=
    (Writer.create_spec Writer.create_first).2.2 directory
  have hcreate : Writer.create directory "a" 1 =
      .ok (⟨⟨1, "./a.0000000001.wal"⟩, "a.0000000001.wal", 0⟩, directory.write "a.0000000001.wal" []) := by
    unfold Writer.create
    dsimp only
    rw [hpath, Directory.create, hplace]
  have hbefore : content? directory (logFile "a.0000000001.wal" 1) = some [7] := by decide +kernel
  obtain ⟨hempty, -, hspared⟩ := (logFileName_eq_iff_and_create_spares "a" "a.0000000001.wal" 1 1).2 _ _ _ hcreate
  refine ⟨_, _, hcreate, hempty, ?_⟩
  by_contra hchanged
  rw [← hbefore] at hchanged
  exact absurd (hspared (by decide) (by decide) hchanged).1 (by decide)

end Log

end LogShipping
