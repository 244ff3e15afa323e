import LogShipping.Proofs.Log.Committed

/-!
# The names of log files

The number of a log file is part of its name, so no two files of a node's log share one. Whatever is written
to one of them leaves the others as they are, even where the node's name has slashes in it and the paths
lead somewhere else.
-/

namespace LogShipping

/-! ## Numerals -/

namespace Decimal

/-- The number a run of digits stands for. -/
def valueOf (run : List Char) : Nat := run.foldl (fun value c ↦ 10 * value + (c.toNat - 48)) 0

theorem toNat_digit : ∀ value < 10, (Char.ofNat (48 + value)).toNat = 48 + value := by decide

theorem valueOf_chars (value : Nat) : valueOf (chars value) = value := by
  induction value using chars.induct with
  | case1 value hlt =>
    rw [chars, if_pos hlt, valueOf, List.foldl_cons, List.foldl_nil, toNat_digit _ hlt]
    omega
  | case2 value hge ih =>
    have hdigit : value % 10 < 10 := Nat.mod_lt _ (by decide)
    have hvalue : valueOf (chars (value / 10) ++ [Char.ofNat (48 + value % 10)]) =
        10 * valueOf (chars (value / 10)) + value % 10 := by
      rw [valueOf, List.foldl_append, List.foldl_cons, List.foldl_nil, toNat_digit _ hdigit,
        Nat.add_sub_cancel_left, ← valueOf]
    rw [chars, if_neg hge, hvalue, ih]
    omega

/-- Zeros in front change nothing. -/
theorem valueOf_zeros (count : Nat) (run : List Char) :
    valueOf (List.replicate count '0' ++ run) = valueOf run := by
  induction count with
  | zero => rfl
  | succ count ih => exact ih

theorem padded_injective (width : Nat) : Function.Injective (padded width) := by
  intro x y h
  have hruns := congrArg (fun text : String ↦ valueOf text.toList) h
  simpa only [padded, String.toList_ofList, valueOf_zeros, valueOf_chars] using hruns

theorem isDigit_of_mem_chars {value : Nat} {c : Char} (h : c ∈ chars value) : c.isDigit = true := by
  have hdigit : ∀ digit < 10, (Char.ofNat (48 + digit)).isDigit = true := by decide
  induction value using chars.induct with
  | case1 value hlt =>
    rw [chars, if_pos hlt] at h
    exact List.mem_singleton.mp h ▸ hdigit _ hlt
  | case2 value hge ih =>
    rw [chars, if_neg hge] at h
    rcases List.mem_append.mp h with hfront | hlast
    · exact ih hfront
    · exact List.mem_singleton.mp hlast ▸ hdigit _ (Nat.mod_lt _ (by decide))

theorem isDigit_of_mem_padded {width value : Nat} {c : Char} (h : c ∈ (padded width value).toList) :
    c.isDigit = true := by
  rw [padded, String.toList_ofList, List.mem_append] at h
  rcases h with hzero | hdigit
  · rw [List.eq_of_mem_replicate hzero]
    decide
  · exact isDigit_of_mem_chars hdigit

theorem slash_not_mem_padded (width value : Nat) : '/' ∉ (padded width value).toList :=
  fun h ↦ absurd (isDigit_of_mem_padded h) (by decide)

theorem dot_not_mem_padded (width value : Nat) : '.' ∉ (padded width value).toList :=
  fun h ↦ absurd (isDigit_of_mem_padded h) (by decide)

end Decimal

/-! ## Names -/

/-- Texts that are split at the last place where a character stands are split in one way only. -/
theorem append_cons_inj_of_not_mem {c : Char} {x y more more' : List Char} (hmore : c ∉ more) (hmore' : c ∉ more')
    (h : x ++ c :: more = y ++ c :: more') : x = y ∧ more = more' := by
  have hnone {between more more' : List Char} (hmore : c ∉ more) (h : c :: more = between ++ c :: more') :
      between = [] := by
    cases between with
    | nil => rfl
    | cons first between =>
      obtain ⟨-, rfl⟩ := List.cons.inj h
      exact absurd (List.mem_append_right between List.mem_cons_self) hmore
  rcases List.append_eq_append_iff.mp h with ⟨between, rfl, hrest⟩ | ⟨between, rfl, hrest⟩
  · obtain rfl := hnone hmore hrest
    exact ⟨(List.append_nil x).symm, (List.cons.inj hrest).2⟩
  · obtain rfl := hnone hmore' hrest
    exact ⟨List.append_nil y, (List.cons.inj hrest).2.symm⟩

theorem toList_logFileName (node : String) (seq : UInt64) : (logFileName node seq).toList =
    node.toList ++ ".".toList ++ (Decimal.padded 10 seq.toNat).toList ++ ".wal".toList := by
  rw [logFileName, String.toList_append, String.toList_append, String.toList_append]

/-- The name of a file tells whose it is and which: the number stands behind the last dot but one. -/
theorem logFileName_inj {node node' : String} {seq seq' : UInt64} :
    logFileName node seq = logFileName node' seq' ↔ node = node' ∧ seq = seq' := by
  constructor
  · intro h
    have hnames := congrArg String.toList h
    rw [toList_logFileName, toList_logFileName, List.append_left_inj, List.append_assoc, List.append_assoc] at hnames
    obtain ⟨hnode, hnumber⟩ := append_cons_inj_of_not_mem (Decimal.dot_not_mem_padded 10 _)
      (Decimal.dot_not_mem_padded 10 _) hnames
    exact ⟨String.toList_inj.mp hnode,
      UInt64.toNat_inj.mp (Decimal.padded_injective 10 (String.toList_inj.mp hnumber))⟩
  · rintro ⟨rfl, rfl⟩
    rfl

/-- If the name of one file of a log has no slash, none has. -/
theorem slash_not_mem_logFileName {node : String} {seq : UInt64} (h : '/' ∉ (logFileName node seq).toList)
    (other : UInt64) : '/' ∉ (logFileName node other).toList := by
  rw [toList_logFileName] at h ⊢
  simp only [List.mem_append, not_or] at h ⊢
  exact ⟨⟨h.1.1, Decimal.slash_not_mem_padded 10 _⟩, h.2⟩

/-! ## Paths -/

theorem Path.splitSlashes_ne_nil (text : List Char) : splitSlashes text ≠ [] := by
  cases text with
  | nil => exact List.cons_ne_nil _ _
  | cons c rest =>
    unfold splitSlashes
    split
    case isTrue => exact List.cons_ne_nil _ _
    case isFalse => split <;> exact List.cons_ne_nil _ _

/-- The last of the texts between slashes is what follows the last slash. -/
theorem Path.last_of_splitSlashes {text : List Char} {earlier : List (List Char)} {last : List Char}
    (h : splitSlashes text = earlier ++ [last]) :
    '/' ∉ last ∧ (earlier = [] → text = last) ∧ (earlier ≠ [] → ∃ front, text = front ++ '/' :: last) := by
  induction text generalizing earlier last with
  | nil =>
    have hwhole : [] ++ [[]] = earlier ++ [last] := h
    obtain ⟨rfl, hlast⟩ := List.append_inj' hwhole rfl
    obtain rfl := List.singleton_inj.mp hlast
    exact ⟨List.not_mem_nil, fun _ ↦ rfl, fun hsome ↦ absurd rfl hsome⟩
  | cons c rest ih =>
    unfold splitSlashes at h
    split at h
    case isTrue hslash =>
      cases earlier with
      | nil =>
        rw [List.nil_append, List.cons.injEq] at h
        exact absurd h.2 (splitSlashes_ne_nil rest)
      | cons first others =>
        rw [List.cons_append, List.cons.injEq] at h
        obtain ⟨hlast, hwhole, hbehind⟩ := ih h.2
        refine ⟨hlast, fun hnone ↦ absurd hnone (List.cons_ne_nil _ _), fun _ ↦ ?_⟩
        by_cases hothers : others = []
        case pos => exact ⟨[], by rw [hslash, hwhole hothers, List.nil_append]⟩
        case neg =>
          obtain ⟨front, rfl⟩ := hbehind hothers
          exact ⟨c :: front, rfl⟩
    case isFalse hslash =>
      split at h
      case h_1 hnone => exact absurd hnone (splitSlashes_ne_nil rest)
      case h_2 part parts hparts =>
        cases earlier with
        | nil =>
          rw [List.nil_append, List.cons.injEq] at h
          obtain ⟨rfl, rfl⟩ := h
          have hwhole : splitSlashes rest = [] ++ [part] := hparts
          obtain ⟨hlast, hrest, -⟩ := ih hwhole
          refine ⟨fun hmem ↦ ?_, fun _ ↦ by rw [hrest rfl], fun hsome ↦ absurd rfl hsome⟩
          exact (List.mem_cons.mp hmem).elim (fun hc ↦ hslash hc.symm) hlast
        | cons first others =>
          rw [List.cons_append, List.cons.injEq] at h
          obtain ⟨-, rfl⟩ := h
          have hwhole : splitSlashes rest = (part :: others) ++ [last] := hparts
          obtain ⟨hlast, -, hbehind⟩ := ih hwhole
          obtain ⟨front, rfl⟩ := hbehind (List.cons_ne_nil _ _)
          exact ⟨hlast, fun hnone ↦ absurd hnone (List.cons_ne_nil _ _), fun _ ↦ ⟨c :: front, rfl⟩⟩

namespace Directory

variable {directory : Directory} {name other : String}

theorem content?_write_of_ne (hne : other ≠ name) (content : Bytes) :
    (directory.write name content).content? other = directory.content? other := by
  unfold write
  split
  case isTrue =>
    unfold content?
    induction directory.files with
    | nil => rfl
    | cons file files ih =>
      rw [List.map_cons, List.lookup_cons, List.lookup_cons, ih]
      by_cases hname : file.1 = name
      · rw [if_pos hname, hname, beq_eq_false_iff_ne.mpr hne]
      · rw [if_neg hname]
  case isFalse =>
    rw [content?, List.lookup_append, List.lookup_cons, beq_eq_false_iff_ne.mpr hne, List.lookup_nil,
      Option.or_none, content?]

/-- Steps that lead to a name end with it. -/
theorem last_of_walk {steps : List String} (h : directory.walk steps = .ok (.name name)) :
    ∃ earlier, steps = earlier ++ [name] := by
  fun_induction walk directory steps with
  | case1 => cases h
  | case2 rest ih | case3 rest ih =>
    obtain ⟨earlier, rfl⟩ := ih h
    exact ⟨_ :: earlier, rfl⟩
  | case7 step rest hblank hdot hlong hparent hlast =>
    cases h
    exact ⟨[], by rw [List.isEmpty_iff.mp hlast, List.nil_append]⟩
  | _ => cases h

/-- The name that a path leads to is what follows the path's last slash. -/
theorem name_of_locate {path : String} (h : directory.locate path = .ok (.name name)) :
    '/' ∉ name.toList ∧ (path = name ∨ ∃ front, path.toList = front ++ '/' :: name.toList) := by
  have hwalk : directory.walk ((Path.splitSlashes path.toList).map String.ofList) = .ok (.name name) := by
    unfold locate at h
    repeat' split at h
    all_goals first | cases h | exact h
  obtain ⟨earlier, hparts⟩ := last_of_walk hwalk
  obtain ⟨front, last, hsplit, -, hlast⟩ := List.map_eq_append_iff.mp hparts
  obtain ⟨part, rest, rfl, rfl, hrest⟩ := List.map_eq_cons_iff.mp hlast
  rw [List.map_eq_nil_iff.mp hrest] at hsplit
  obtain ⟨hslash, hwhole, hbehind⟩ := Path.last_of_splitSlashes hsplit
  rw [String.toList_ofList]
  refine ⟨hslash, ?_⟩
  by_cases hfront : front = []
  case pos => exact .inl (by rw [← String.toList_inj, String.toList_ofList, hwhole hfront])
  case neg => exact .inr (hbehind hfront)

/-- A path without slashes is the name that it leads to. -/
theorem eq_of_locate {path : String} (h : directory.locate path = .ok (.name name)) (hslash : '/' ∉ path.toList) :
    path = name := by
  rcases (name_of_locate h).2 with hpath | ⟨front, hfront⟩
  · exact hpath
  · rw [hfront] at hslash
    exact absurd (List.mem_append_right front List.mem_cons_self) hslash

end Directory

namespace Log

variable {directory other : Directory} {node : String} {seq written : UInt64}

/-- The file that a node gives a number. -/
def logFile (node : String) (seq : UInt64) : FileRef := ⟨seq, logFileName node seq⟩

/-- What a reference leads to depends on the file of one name only. -/
theorem content?_congr {file : FileRef}
    (h : ∀ name, directory.locate file.path = .ok (.name name) → other.content? name = directory.content? name) :
    content? other file = content? directory file := by
  unfold content? Directory.open?
  cases hplace : directory.locate file.path with
  | ok place =>
    rw [Directory.locate_eq_ok hplace]
    cases place with
    | folder => rfl
    | name name =>
      dsimp only
      rw [h name hplace]
  | error fault =>
    cases hother : other.locate file.path with
    | ok place => cases hplace.symm.trans (Directory.locate_eq_ok hother)
    | error => rfl

/-- Writing to one file of a log leaves the others as they are. -/
theorem content?_write_of_ne (hne : seq ≠ written) (content : Bytes) :
    content? (directory.write (logFileName node written) content) (logFile node seq) =
      content? directory (logFile node seq) := by
  refine content?_congr fun name hplace ↦ Directory.content?_write_of_ne ?_ content
  rintro rfl
  have hslash := slash_not_mem_logFileName (Directory.name_of_locate hplace).1 seq
  exact hne (logFileName_inj.mp (Directory.eq_of_locate hplace hslash)).2

/-- What is appended to a file of a log comes behind what it holds. -/
theorem content?_append {content : Bytes} (h : content? directory (logFile node seq) = some content)
    (octets : Bytes) :
    ∃ more, content? (directory.append (logFileName node seq) octets) (logFile node seq) =
      some (content ++ more) := by
  by_cases hplace : directory.locate (logFileName node seq) = .ok (.name (logFileName node seq))
  · have hhere : directory.content? (logFileName node seq) = some content := by
      unfold content? Directory.open? logFile at h
      rw [hplace] at h
      dsimp only at h
      split at h
      case h_2 => cases h
      case h_1 read hread =>
        split at hread
        case h_1 found hfound =>
          cases hread
          cases h
          exact hfound
        case h_2 => cases hread
    refine ⟨octets, ?_⟩
    unfold content? logFile
    rw [Directory.open?_of_locate (Directory.locate_eq_ok hplace) (Directory.content?_append hhere octets)]
  · refine ⟨[], ?_⟩
    rw [List.append_nil, ← h]
    refine content?_congr fun name hname ↦ Directory.content?_write_of_ne ?_ _
    rintro rfl
    exact hplace hname

end Log

end LogShipping
