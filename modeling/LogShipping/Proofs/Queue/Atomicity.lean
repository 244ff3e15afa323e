import LogShipping.Proofs.Queue.Calls

/-!
# Transactions, statement by statement

The operations of the queue store are stated as functions from tables to tables. Here each of them is a
script, which reads and writes one statement at a time, on a working copy that counts only if the script
commits, and which asks the membership in between. The database may turn a script away at any statement,
and a script that was turned away because the database was busy is played again from the start. However
that goes, an operation that ends with an error has changed nothing, one that ends well has changed no
queue that it does not name, and a queue is handed over only if its owner was reported dead every time the
script asked. A script that is never turned away does what the operation does.
-/

namespace LogShipping

/-! ## Statements -/

namespace QueueTables

/-- A statement changes the rows of one table that its keys select. -/
inductive Statement
  | insertQueue (key : QueueKey) (offset : Nat)
  | insertFile (key : QueueKey) (file : FileRef)
  /-- Only if the number is not there. -/
  | insertMissing (key : QueueKey) (file : FileRef)
  | setOffset (key : QueueKey) (offset : Nat)
  | deleteFile (key : QueueKey) (seq : UInt64)
  | deleteFiles (key : QueueKey)
  | deleteQueue (key : QueueKey)
  | renameQueue (key target : QueueKey)
  | renameFiles (key target : QueueKey)

namespace Statement

def apply (tables : QueueTables) : Statement → QueueTables
  | insertQueue key offset => { tables with offsets := tables.offsets ++ [(key, offset)] }
  | insertFile key file => tables.addFile key file
  | insertMissing key file => tables.addMissing key file
  | setOffset key offset => tables.setOffset key offset
  | deleteFile key seq => tables.removeFile key seq
  | deleteFiles key => { tables with files := tables.files.filter (·.1 != key) }
  | deleteQueue key => { tables with offsets := tables.offsets.filter (·.1 != key) }
  | renameQueue key target =>
    { tables with offsets := tables.offsets.map fun row ↦ if row.1 = key then (target, row.2) else row }
  | renameFiles key target =>
    { tables with files := tables.files.map fun row ↦ if row.1 = key then (target, row.2) else row }

/-- The queues whose rows a statement may change. -/
def keys : Statement → List QueueKey
  | insertQueue key _ | insertFile key _ | insertMissing key _ | setOffset key _ | deleteFile key _
  | deleteFiles key | deleteQueue key => [key]
  | renameQueue key target | renameFiles key target => [key, target]

end Statement

/-- The rows of the queue are the same, in both tables. -/
structure SameRows (key : QueueKey) (tables after : QueueTables) : Prop where
  offsets : after.offsets.filter (·.1 == key) = tables.offsets.filter (·.1 == key)
  files : after.files.filter (·.1 == key) = tables.files.filter (·.1 == key)

section Rows

variable {α : Type} {key other : QueueKey} {tables after last : QueueTables}

theorem SameRows.refl (key : QueueKey) (tables : QueueTables) : SameRows key tables tables := ⟨rfl, rfl⟩

theorem SameRows.trans (h : SameRows key tables after) (hlast : SameRows key after last) :
    SameRows key tables last := ⟨hlast.offsets.trans h.offsets, hlast.files.trans h.files⟩

theorem filter_rows_append (hne : other ≠ key) (rows : List (QueueKey × α)) (value : α) :
    (rows ++ [(key, value)]).filter (·.1 == other) = rows.filter (·.1 == other) := by
  rw [List.filter_append, List.filter_cons_of_neg (by simpa using Ne.symm hne), List.filter_nil,
    List.append_nil]

theorem filter_rows_filter (keep : QueueKey × α → Bool) (hkeep : ∀ value, keep (other, value) = true)
    (rows : List (QueueKey × α)) :
    (rows.filter keep).filter (·.1 == other) = rows.filter (·.1 == other) := by
  rw [List.filter_filter]
  apply List.filter_congr
  rintro ⟨owner, value⟩ _
  by_cases howner : owner = other
  · rw [howner, hkeep, Bool.and_true]
  · rw [beq_eq_false_iff_ne.mpr howner, Bool.false_and]

/-- Rows of one queue that are rewritten, possibly for another. -/
theorem filter_rows_map {target : QueueKey} (hne : other ≠ key) (htarget : other ≠ target) (value : α → α)
    (rows : List (QueueKey × α)) :
    (rows.map fun row ↦ if row.1 = key then (target, value row.2) else row).filter (·.1 == other) =
      rows.filter (·.1 == other) := by
  induction rows with
  | nil => rfl
  | cons row rest ih =>
    rw [List.map_cons]
    by_cases hrow : row.1 = key
    · rw [if_pos hrow, List.filter_cons_of_neg (by simpa using Ne.symm htarget),
        List.filter_cons_of_neg (by simpa [hrow] using Ne.symm hne), ih]
    · rw [if_neg hrow, List.filter_cons, List.filter_cons, ih]

/-- What a queue is seen as depends on its own rows only. -/
theorem SameRows.get?_eq (h : SameRows key tables after) : after.get? key = tables.get? key := by
  have hlookup (rows : List (QueueKey × Nat)) :
      rows.lookup key = (rows.filter (·.1 == key)).head?.map (·.2) := by
    induction rows with
    | nil => rfl
    | cons row rest ih =>
      rw [lookup_row]
      by_cases hrow : row.1 = key
      · rw [if_pos hrow.symm, List.filter_cons_of_pos (by simpa using hrow)]
        rfl
      · rw [if_neg (Ne.symm hrow), List.filter_cons_of_neg (by simpa using hrow), ih]
  have hlisted (rows : List (QueueKey × FileRef)) :
      (rows.filterMap fun row ↦ if row.1 = key then some row.2 else none) =
        (rows.filter (·.1 == key)).map (·.2) := by
    induction rows with
    | nil => rfl
    | cons row rest ih =>
      rw [List.filterMap_cons, List.filter_cons, ih]
      by_cases hrow : row.1 = key <;> simp [hrow]
  have hoffset : after.offset? key = tables.offset? key := by
    rw [offset?, offset?, hlookup, hlookup, h.offsets]
  have hfiles : after.filesOf key = tables.filesOf key := by
    rw [filesOf, filesOf, hlisted, hlisted, h.files]
  rw [get?, get?, hoffset, hfiles]

/-- A statement leaves the rows of every queue that it does not name. -/
theorem Statement.sameRows_apply (tables : QueueTables) {statement : Statement}
    (hother : other ∉ statement.keys) : SameRows other tables (statement.apply tables) := by
  cases statement with
  | insertQueue key offset => exact ⟨filter_rows_append (List.ne_of_not_mem_cons hother) _ offset, rfl⟩
  | insertFile key file => exact ⟨rfl, filter_rows_append (List.ne_of_not_mem_cons hother) _ file⟩
  | insertMissing key file =>
    show SameRows other tables (tables.addMissing key file)
    unfold addMissing
    split
    case isTrue => exact .refl other tables
    case isFalse => exact ⟨rfl, filter_rows_append (List.ne_of_not_mem_cons hother) _ file⟩
  | setOffset key offset =>
    have hne := List.ne_of_not_mem_cons hother
    exact ⟨filter_rows_map hne hne (fun _ ↦ offset) _, rfl⟩
  | deleteFile key seq =>
    refine ⟨rfl, filter_rows_filter _ (fun file ↦ ?_) _⟩
    rw [beq_eq_false_iff_ne.mpr (List.ne_of_not_mem_cons hother)]
    rfl
  | deleteFiles key =>
    have hkept := bne_iff_ne.mpr (List.ne_of_not_mem_cons hother)
    exact ⟨rfl, filter_rows_filter (·.1 != key) (fun _ ↦ hkept) _⟩
  | deleteQueue key =>
    have hkept := bne_iff_ne.mpr (List.ne_of_not_mem_cons hother)
    exact ⟨filter_rows_filter (·.1 != key) (fun _ ↦ hkept) _, rfl⟩
  | renameQueue key target =>
    have htarget := List.ne_of_not_mem_cons (List.not_mem_of_not_mem_cons hother)
    exact ⟨filter_rows_map (List.ne_of_not_mem_cons hother) htarget id _, rfl⟩
  | renameFiles key target =>
    have htarget := List.ne_of_not_mem_cons (List.not_mem_of_not_mem_cons hother)
    exact ⟨rfl, filter_rows_map (List.ne_of_not_mem_cons hother) htarget id _⟩

end Rows

end QueueTables

namespace QueueStore

open QueueTables (Statement SameRows)

/-! ## Scripts -/

/-- What a transaction does, one statement after the other. Which error it ends with is left open. -/
inductive Script (α : Type)
  /-- Ends with an error. -/
  | refuse
  /-- Ends well, but without a commit. -/
  | leave (answer : α)
  | commit (answer : α)
  /-- The database does not carry out what comes next. -/
  | turnAway
  | read (next : QueueTables → Script α)
  | write (statement : Statement) (next : Script α)
  /-- Asks the membership whether a node is alive. -/
  | ask (node : String) (next : Bool → Script α)

inductive Result (α : Type)
  | answered (answer : α)
  | refused
  | turnedAway
  deriving DecidableEq

structure Ending (α : Type) where
  result : Result α
  tables : QueueTables
  membership : Membership
  /-- What was asked, with the reports. -/
  heard : List (String × Bool)
  deriving DecidableEq

def Result.answer? {α : Type} : Result α → Option α
  | .answered answer => some answer
  | .refused | .turnedAway => none

def Result.wasTurnedAway {α : Type} : Result α → Bool
  | .turnedAway => true
  | .answered _ | .refused => false

namespace Script

variable {α : Type}

/-- Plays a script on a copy of the tables. Only a commit makes the copy count. -/
def play (tables : QueueTables) : Script α → (copy : QueueTables) → Membership → Ending α
  | refuse, _, membership => ⟨.refused, tables, membership, []⟩
  | leave answer, _, membership => ⟨.answered answer, tables, membership, []⟩
  | commit answer, copy, membership => ⟨.answered answer, copy, membership, []⟩
  | turnAway, _, membership => ⟨.turnedAway, tables, membership, []⟩
  | read next, copy, membership => (next copy).play tables copy membership
  | write statement next, copy, membership => next.play tables (statement.apply copy) membership
  | ask node next, copy, membership =>
    let (alive, membership) := membership.isAlive node
    let rest := (next alive).play tables copy membership
    { rest with heard := (node, alive) :: rest.heard }

/-- The script that is turned away after so many statements. -/
def cut : Nat → Script α → Script α
  | _, refuse => refuse
  | _, leave answer => leave answer
  | _, turnAway => turnAway
  | served, ask node next => ask node fun alive ↦ (next alive).cut served
  | 0, commit _ | 0, read _ | 0, write _ _ => turnAway
  | _ + 1, commit answer => commit answer
  | served + 1, read next => read fun tables ↦ (next tables).cut served
  | served + 1, write statement next => write statement (next.cut served)

/-- Several statements. -/
def writeAll (statements : List Statement) (next : Script α) : Script α := statements.foldr write next

end Script

/-- The database carries out some statements and turns the script away at the next. -/
structure Trouble where
  served : Nat
  /-- The script may be played again. -/
  busy : Bool

/-- Plays a script that may meet troubles, one at each attempt, and is played again so many times. -/
def Script.run {α : Type} (script : Script α) (tables : QueueTables) :
    (retries : Nat) → List Trouble → Membership → Ending α
  | _, [], membership => script.play tables tables membership
  | retries, trouble :: troubles, membership =>
    let first := (script.cut trouble.served).play tables tables membership
    if first.result.wasTurnedAway && trouble.busy && decide (0 < retries) then
      let last := script.run tables (retries - 1) troubles first.membership
      { last with heard := first.heard ++ last.heard }
    else first

/-- How often a script is played again at most. -/
def retries : Nat := 4

namespace Call

/-- What a call answers. -/
abbrev Answer : Call → Type
  | create .. | drop _ => Bool
  | enqueue .. | advance .. | finish .. => Unit
  | transfer .. => QueueKey

/-- Goes on only where the queue is there. -/
def ifThere {α : Type} (key : QueueKey) (next : Nat → Script α) : Script α :=
  .read fun tables ↦
    match tables.offset? key with
    | none => .refuse
    | some offset => next offset

/-- Goes on only where the owner is reported dead. -/
def ifDead {α : Type} (owner : String) (next : Script α) : Script α :=
  .ask owner fun alive ↦ if alive then .refuse else next

/-- Folds a queue into another, statement by statement. -/
def mergeInto {α : Type} (key : QueueKey) (offset : Nat) (target : QueueKey) (there : Nat)
    (next : Script α) : Script α :=
  .read fun first ↦ .read fun second ↦
    let files := first.filesOf key
    let kept := QueueTables.mergedOffset files.head? (second.filesOf target).head? offset there
    .writeAll (files.map (.insertMissing target))
      (.write (.setOffset target kept) (.write (.deleteFiles key) (.write (.deleteQueue key) next)))

/-- The script of a call. A transfer asks once more after it has written all. -/
def script : (call : Call) → Script call.Answer
  | create key seed =>
    .read fun tables ↦
      match tables.offset? key, seed with
      | some _, _ => .commit false
      | none, none => .write (.insertQueue key 0) (.commit true)
      | none, some (file, offset) =>
        .write (.insertQueue key offset) (.write (.insertFile key file) (.commit true))
  | enqueue key file =>
    ifThere key fun _ ↦ .read fun tables ↦
      match tables.tailSeq? key with
      | none => .write (.insertFile key file) (.commit ())
      | some tail =>
        if tail = file.seq then .leave ()
        else if file.seq < tail then .refuse
        -- the key of the table forbids a second row
        else if tables.lists key file.seq then .refuse
        else .write (.insertFile key file) (.commit ())
  | advance key start target =>
    ifThere key fun current ↦ .read fun tables ↦
      if tables.headSeq? key ≠ some target.seq then .refuse
      else if target.offset < current then .refuse
      else if target.offset = current then .leave ()
      else if start ≠ current then .refuse
      else .write (.setOffset key target.offset) (.commit ())
  | finish key seq =>
    ifThere key fun _ ↦ .read fun tables ↦
      if tables.headSeq? key ≠ some seq then .refuse
      else .write (.deleteFile key seq) (.write (.setOffset key 0) (.commit ()))
  | transfer _ key newOwner =>
    let target := key.withOwner newOwner
    ifDead key.owner (ifThere key fun offset ↦ .read fun tables ↦
      match tables.offset? target with
      | none =>
        .write (.renameQueue key target) (.write (.renameFiles key target)
          (ifDead key.owner (.commit target)))
      | some there =>
        if target.isRecovered then .refuse
        else mergeInto key offset target there (ifDead key.owner (.commit target)))
  | drop key =>
    .write (.deleteFiles key) (.read fun tables ↦
      .write (.deleteQueue key) (.commit (tables.offset? key).isSome))

/-- The queues that a call names. A transfer names the old key and the new one. -/
def keys : Call → List QueueKey
  | create key _ | enqueue key _ | advance key _ _ | finish key _ | drop key => [key]
  | transfer _ key newOwner => [key, key.withOwner newOwner]

/-- The membership that a call finds. Only a transfer asks it. -/
def membership : Call → Membership
  | transfer membership _ _ => membership
  | _ => .empty

/-- The node that a call asks about. -/
def owner? : Call → Option String
  | transfer _ key _ => some key.owner
  | _ => none

/-- How often a call asks at least if it is carried out. -/
def questions : Call → Nat
  | transfer .. => 2
  | _ => 0

end Call

/-- The operation itself, with the membership after it. -/
def perform (database : Database) : (call : Call) → Reply call.Answer × Membership
  | .create key seed => (create database key seed, .empty)
  | .enqueue key file => (enqueue database key file, .empty)
  | .advance key start target => (advance database key start target, .empty)
  | .finish key seq => (finish database key seq, .empty)
  | .transfer membership key newOwner => transfer database membership key newOwner
  | .drop key => (drop database key, .empty)

/-- While the database cannot be reached, no statement is carried out. -/
def troubles (database : Database) : List Trouble := if database.reachable then [] else [⟨0, false⟩]

/-! ## What every script keeps -/

/-- What a script has done at its end. -/
structure Fair {α : Type} (keys : List QueueKey) (owner? : Option String) (questions : Nat)
    (tables : QueueTables) (ending : Ending α) : Prop where
  /-- An error leaves the tables as they were. -/
  failed : ending.result.answer? = none → ending.tables = tables
  /-- Queues that are not named are as they were: there or not, with the same files and offset. -/
  kept : ∀ key ∉ keys, ending.tables.get? key = tables.get? key
  /-- Nobody asked about was alive, or the script was refused. -/
  heeded : ending.result ≠ .refused → ∀ question ∈ ending.heard, owner? = some question.1 ∧ question.2 = false
  asked : ∀ answer, ending.result = .answered answer → questions ≤ ending.heard.length

theorem Fair.refused {α : Type} {keys : List QueueKey} {owner? : Option String} {questions : Nat}
    (tables : QueueTables) (membership : Membership) (heard : List (String × Bool)) :
    Fair keys owner? questions tables (⟨.refused, tables, membership, heard⟩ : Ending α) where
  failed _ := rfl
  kept _ _ := rfl
  heeded hnot := absurd rfl hnot
  asked _ hanswer := nomatch hanswer

namespace Script

variable {α : Type} {tables copy : QueueTables} {keys : List QueueKey} {owner? : Option String}
  {questions : Nat} {script : Script α}

/-- All statements change rows of these queues only. All questions are about this node, and one that is
answered with yes ends the script with an error. There are so many before it can end well. -/
def Keeps (keys : List QueueKey) (owner? : Option String) : (questions : Nat) → Script α → Prop
  | _, refuse | _, turnAway => True
  | questions, leave _ | questions, commit _ => questions = 0
  | questions, read next => ∀ tables, (next tables).Keeps keys owner? questions
  | questions, write statement next => statement.keys ⊆ keys ∧ next.Keeps keys owner? questions
  | questions, ask node next =>
    owner? = some node ∧ next true = refuse ∧ (next false).Keeps keys owner? (questions - 1)

/-- Being turned away breaks no rule. -/
theorem Keeps.cut (h : script.Keeps keys owner? questions) (served : Nat) :
    (script.cut served).Keeps keys owner? questions := by
  induction script generalizing questions served with
  | refuse | leave | turnAway => cases served <;> exact h
  | commit =>
    cases served with
    | zero => trivial
    | succ served => exact h
  | read next ih =>
    cases served with
    | zero => trivial
    | succ served => exact fun tables ↦ ih tables (h tables) served
  | write statement next ih =>
    cases served with
    | zero => trivial
    | succ served => exact ⟨h.1, ih h.2 served⟩
  | ask node next ih =>
    obtain ⟨howner, hrefuse, hnext⟩ := h
    have hcut (served : Nat) :
        ((ask node fun alive ↦ (next alive).cut served) : Script α).Keeps keys owner? questions := by
      refine ⟨howner, ?_, ih false hnext served⟩
      dsimp only
      rw [hrefuse]
      cases served <;> rfl
    cases served <;> exact hcut _

/-- The copy differs from the tables in the rows of the named queues only. Since it counts only after a
commit, the induction is on the script, for any copy. -/
theorem Keeps.fair_play (h : script.Keeps keys owner? questions) (membership : Membership)
    (hcopy : ∀ key ∉ keys, SameRows key tables copy) :
    Fair keys owner? questions tables (script.play tables copy membership) := by
  induction script generalizing questions copy membership with
  | refuse => exact .refused tables membership _
  | turnAway =>
    exact ⟨fun _ ↦ rfl, fun _ _ ↦ rfl, fun _ _ hmem ↦ (nomatch hmem), fun _ hanswer ↦ (nomatch hanswer)⟩
  | leave answer =>
    exact ⟨fun _ ↦ rfl, fun _ _ ↦ rfl, fun _ _ hmem ↦ (nomatch hmem), fun _ _ ↦ Nat.le_of_eq h⟩
  | commit answer =>
    exact ⟨fun hnone ↦ (nomatch hnone), fun key hkey ↦ (hcopy key hkey).get?_eq,
      fun _ _ hmem ↦ (nomatch hmem), fun _ _ ↦ Nat.le_of_eq h⟩
  | read next ih => exact ih copy (h copy) membership hcopy
  | write statement next ih =>
    refine ih h.2 membership fun key hkey ↦ (hcopy key hkey).trans ?_
    exact Statement.sameRows_apply copy fun hmem ↦ hkey (h.1 hmem)
  | ask node next ih =>
    obtain ⟨howner, hrefuse, hnext⟩ := h
    simp only [play]
    cases (membership.isAlive node).1 with
    | true =>
      rw [hrefuse]
      exact .refused tables _ _
    | false =>
      obtain ⟨hfailed, hkept, hheeded, hasked⟩ := ih false hnext (membership.isAlive node).2 hcopy
      refine ⟨hfailed, hkept, fun hnot question hmem ↦ ?_, fun answer hanswer ↦ ?_⟩
      · rcases List.mem_cons.mp hmem with rfl | hlater
        · exact ⟨howner, rfl⟩
        · exact hheeded hnot question hlater
      · have hlater := hasked answer hanswer
        rw [List.length_cons]
        omega

/-- An attempt that was turned away has changed nothing, and all that it asked about were dead. -/
theorem Keeps.fair_run (h : script.Keeps keys owner? questions) (retries : Nat) (troubles : List Trouble)
    (membership : Membership) :
    Fair keys owner? questions tables (script.run tables retries troubles membership) := by
  induction troubles generalizing retries membership with
  | nil => exact h.fair_play membership fun key _ ↦ .refl key tables
  | cons trouble troubles ih =>
    have hfirst : Fair keys owner? questions tables
        ((script.cut trouble.served).play tables tables membership) :=
      (h.cut trouble.served).fair_play membership fun key _ ↦ .refl key tables
    simp only [run]
    split
    case isTrue haway =>
      obtain ⟨hfailed, hkept, hheeded, hasked⟩ :=
        ih (retries - 1) ((script.cut trouble.served).play tables tables membership).membership
      refine ⟨hfailed, hkept, fun hnot question hmem ↦ ?_, fun answer hanswer ↦ ?_⟩
      · rcases List.mem_append.mp hmem with hbefore | hlater
        · refine hfirst.heeded ?_ question hbefore
          intro hrefused
          rw [hrefused] at haway
          cases haway
        · exact hheeded hnot question hlater
      · have hlater := hasked answer hanswer
        rw [List.length_append]
        omega
    case isFalse => exact hfirst

/-- The owner joins again while the script, which was turned away once, writes its last statement. -/
example :
    let tables : QueueTables := (QueueTables.empty.create (.own "rs-1" "2") (some (⟨4, "rs-1.4"⟩, 200))).2
    let call : Call := .transfer (.expect .empty "rs-1" [false, false, true]) (.own "rs-1" "2") "rs-2"
    call.script.run tables retries [⟨3, true⟩] call.membership =
      ⟨.refused, tables, .expect .empty "rs-1" [], [("rs-1", false), ("rs-1", false), ("rs-1", true)]⟩ := by
  decide

theorem keeps_writeAll {statements : List Statement} {next : Script α}
    (hkeys : ∀ statement ∈ statements, statement.keys ⊆ keys) (h : next.Keeps keys owner? questions) :
    (writeAll statements next).Keeps keys owner? questions := by
  induction statements with
  | nil => exact h
  | cons statement rest ih =>
    obtain ⟨hfirst, hrest⟩ := List.forall_mem_cons.mp hkeys
    exact ⟨hfirst, ih hrest⟩

end Script

section Keeping

variable {α : Type} {keys : List QueueKey} {owner? : Option String} {questions : Nat} {next other : Script α}

theorem keeps_ite {condition : Prop} [Decidable condition] (h : next.Keeps keys owner? questions)
    (hother : other.Keeps keys owner? questions) :
    (if condition then next else other).Keeps keys owner? questions := by
  split
  · exact h
  · exact hother

theorem keeps_ifThere (key : QueueKey) {next : Nat → Script α}
    (h : ∀ offset, (next offset).Keeps keys owner? questions) :
    (Call.ifThere key next).Keeps keys owner? questions := by
  intro tables
  dsimp only
  split
  · trivial
  · exact h _

theorem keeps_ifDead {owner : String} (h : next.Keeps keys (some owner) questions) :
    (Call.ifDead owner next).Keeps keys (some owner) (questions + 1) := ⟨rfl, rfl, h⟩

theorem keeps_mergeInto {key target : QueueKey} (hkey : key ∈ keys) (htarget : target ∈ keys)
    (offset there : Nat) (h : next.Keeps keys owner? questions) :
    (Call.mergeInto key offset target there next).Keeps keys owner? questions := by
  intro first second
  apply Script.keeps_writeAll
  · intro statement hmem
    obtain ⟨file, -, rfl⟩ := List.mem_map.mp hmem
    exact List.cons_subset.mpr ⟨htarget, List.nil_subset keys⟩
  · exact ⟨List.cons_subset.mpr ⟨htarget, List.nil_subset keys⟩,
      List.cons_subset.mpr ⟨hkey, List.nil_subset keys⟩, List.cons_subset.mpr ⟨hkey, List.nil_subset keys⟩, h⟩

end Keeping

theorem keeps_script (call : Call) : call.script.Keeps call.keys call.owner? call.questions := by
  have hself (keys : List QueueKey) : keys ⊆ keys := List.Subset.refl keys
  cases call with
  | create key seed =>
    intro tables
    dsimp only
    split
    case h_1 => exact rfl
    case h_2 => exact ⟨hself _, rfl⟩
    case h_3 => exact ⟨hself _, hself _, rfl⟩
  | enqueue key file =>
    refine keeps_ifThere key fun _ tables ↦ ?_
    dsimp only
    split
    case h_1 => exact ⟨hself _, rfl⟩
    case h_2 tail _ => exact keeps_ite rfl (keeps_ite trivial (keeps_ite trivial ⟨hself _, rfl⟩))
  | advance key start target =>
    refine keeps_ifThere key fun _ tables ↦ ?_
    exact keeps_ite trivial (keeps_ite trivial (keeps_ite rfl (keeps_ite trivial ⟨hself _, rfl⟩)))
  | finish key seq =>
    exact keeps_ifThere key fun _ tables ↦ keeps_ite trivial ⟨hself _, hself _, rfl⟩
  | transfer membership key newOwner =>
    apply keeps_ifDead
    refine keeps_ifThere key fun offset tables ↦ ?_
    dsimp only
    split
    case h_1 => exact ⟨hself _, hself _, keeps_ifDead rfl⟩
    case h_2 there _ =>
      refine keeps_ite trivial (keeps_mergeInto ?_ ?_ offset there (keeps_ifDead rfl))
      · exact List.mem_cons_self
      · exact List.mem_cons_of_mem _ (List.mem_singleton_self _)
  | drop key => exact ⟨hself _, fun _ ↦ ⟨hself _, rfl⟩⟩

/-! ## Scripts and operations -/

namespace Script

variable {α : Type} {tables copy : QueueTables}

/-- A trouble that does not pass is not tried again. -/
theorem run_lasting (script : Script α) (retries served : Nat) (membership : Membership) :
    script.run tables retries [⟨served, false⟩] membership =
      (script.cut served).play tables tables membership := by
  simp only [run, Bool.and_false, Bool.false_and]
  rfl

theorem play_writeAll (statements : List Statement) (next : Script α) (copy : QueueTables)
    (membership : Membership) :
    (writeAll statements next).play tables copy membership =
      next.play tables (statements.foldl Statement.apply copy) membership := by
  induction statements generalizing copy with
  | nil => rfl
  | cons statement rest ih => exact ih (statement.apply copy)

end Script

/-- An operation and its script end in the same way. -/
structure Agree {α : Type} (database : Database) (done : Reply α × Membership) (ending : Ending α) :
    Prop where
  answer : done.1.answer.toOption = ending.result.answer?
  tables : done.1.database = database.withQueues ending.tables
  reports : done.2 = ending.membership

/-- The script of an operation that announces nothing ends as the operation does on the tables. -/
structure Ends (tables : QueueTables) (outcome : Outcome QueueTables) (ending : Ending Unit) : Prop where
  answer : (outcome.map fun _ ↦ ()).toOption = ending.result.answer?
  tables : ending.tables = tables.settle outcome
  reports : ending.membership = .empty

theorem quietly_eq (database : Database) (run : QueueTables → Outcome QueueTables) :
    quietly database run =
      if database.reachable then
        ⟨(run database.queues).map fun _ ↦ (),
          database.withQueues (database.queues.settle (run database.queues)), []⟩
      else ⟨.error Database.unreachable, database, []⟩ := by
  simp only [quietly, Database.transact]
  split
  · cases run database.queues <;> rfl
  · rfl

section Undisturbed

variable {tables : QueueTables} {key : QueueKey}

theorem Ends.ite {condition : Prop} [Decidable condition] {outcome other : Outcome QueueTables}
    {script next : Script Unit} (h : Ends tables outcome (script.play tables tables .empty))
    (hother : Ends tables other (next.play tables tables .empty)) :
    Ends tables (if condition then outcome else other)
      ((if condition then script else next).play tables tables .empty) := by
  split
  · exact h
  · exact hother

theorem ends_enqueue (file : FileRef) :
    Ends tables (tables.enqueue key file) ((Call.enqueue key file).script.play tables tables .empty) := by
  simp only [Call.script, Call.ifThere, Script.play, QueueTables.enqueue]
  cases tables.offset? key with
  | none => exact ⟨rfl, rfl, rfl⟩
  | some offset =>
    simp only [Script.play]
    cases tables.tailSeq? key with
    | none => exact ⟨rfl, rfl, rfl⟩
    | some tail => exact .ite ⟨rfl, rfl, rfl⟩ (.ite ⟨rfl, rfl, rfl⟩ (.ite ⟨rfl, rfl, rfl⟩ ⟨rfl, rfl, rfl⟩))

theorem ends_advance (start : Nat) (target : LogPosition) :
    Ends tables (tables.advance key start target)
      ((Call.advance key start target).script.play tables tables .empty) := by
  simp only [Call.script, Call.ifThere, Script.play, QueueTables.advance]
  cases tables.offset? key with
  | none => exact ⟨rfl, rfl, rfl⟩
  | some current =>
    exact .ite ⟨rfl, rfl, rfl⟩ (.ite ⟨rfl, rfl, rfl⟩ (.ite ⟨rfl, rfl, rfl⟩ (.ite ⟨rfl, rfl, rfl⟩ ⟨rfl, rfl, rfl⟩)))

theorem ends_finish (seq : UInt64) :
    Ends tables (tables.finish key seq) ((Call.finish key seq).script.play tables tables .empty) := by
  simp only [Call.script, Call.ifThere, Script.play, QueueTables.finish]
  cases tables.offset? key with
  | none => exact ⟨rfl, rfl, rfl⟩
  | some current => exact .ite ⟨rfl, rfl, rfl⟩ ⟨rfl, rfl, rfl⟩

end Undisturbed

theorem agree_quietly {database : Database} (operation : QueueTables → Outcome QueueTables)
    {script : Script Unit} (h : Ends database.queues (operation database.queues)
      (script.play database.queues database.queues .empty))
    (hcut : script.cut 0 = .turnAway) :
    Agree database (quietly database operation, .empty)
      (script.run database.queues retries (troubles database) .empty) := by
  rw [quietly_eq, troubles]
  split
  case isTrue => exact ⟨h.answer, congrArg database.withQueues h.tables.symm, h.reports.symm⟩
  case isFalse =>
    rw [Script.run_lasting, hcut]
    exact ⟨rfl, rfl, rfl⟩

theorem transfer_eq (database : Database) (membership : Membership) (key : QueueKey) (newOwner : String) :
    transfer database membership key newOwner =
      let first := membership.isAlive key.owner
      let second := first.2.isAlive key.owner
      if first.1 then (⟨.error (.sourceStillAlive key.owner), database, []⟩, first.2)
      else if database.reachable then
        match database.queues.handOver key newOwner with
        | .error error => (⟨.error error, database, []⟩, first.2)
        | .ok after =>
          if second.1 then (⟨.error (.sourceStillAlive key.owner), database, []⟩, second.2)
          else
            (⟨.ok (key.withOwner newOwner), database.withQueues after,
              [.transferred key (key.withOwner newOwner)]⟩, second.2)
      else (⟨.error Database.unreachable, database, []⟩, first.2) := by
  simp only [transfer, Database.transact]
  by_cases halive : (membership.isAlive key.owner).1 = true
  · rw [if_pos halive, if_pos halive]
  · rw [if_neg halive, if_neg halive]
    by_cases hup : database.reachable = true
    · rw [if_pos hup, if_pos hup]
      cases database.queues.handOver key newOwner <;> rfl
    · rw [if_neg hup, if_neg hup]

section Questions

variable {α : Type} {database : Database} {done : Reply α × Membership} {next : Script α} {copy : QueueTables}
  {membership : Membership} {owner : String}

theorem agree_ifDead (h : Agree database done (next.play database.queues copy (membership.isAlive owner).2))
    (error : Error) :
    Agree database
      (if (membership.isAlive owner).1 then (⟨.error error, database, []⟩, (membership.isAlive owner).2)
        else done)
      ((Call.ifDead owner next).play database.queues copy membership) := by
  simp only [Call.ifDead, Script.play]
  cases (membership.isAlive owner).1 with
  | true => exact ⟨rfl, rfl, rfl⟩
  | false => exact ⟨h.answer, h.tables, h.reports⟩

theorem cut_ifDead (owner : String) (next : Script α) :
    (Call.ifDead owner next).cut 0 = Call.ifDead owner (next.cut 0) := by
  simp only [Call.ifDead, Script.cut]
  congr 1
  funext alive
  cases alive <;> rfl

end Questions

theorem play_mergeInto {α : Type} (tables : QueueTables) (key : QueueKey) (offset : Nat) (target : QueueKey)
    (there : Nat) (next : Script α) (membership : Membership) :
    (Call.mergeInto key offset target there next).play tables tables membership =
      next.play tables (tables.merge key offset target there) membership := by
  simp only [Call.mergeInto, Script.play, Script.play_writeAll, List.foldl_map]
  rfl

theorem agree_transfer (database : Database) (membership : Membership) (key : QueueKey) (newOwner : String) :
    Agree database (transfer database membership key newOwner)
      ((Call.transfer membership key newOwner).script.run database.queues retries (troubles database)
        membership) := by
  rw [transfer_eq, troubles]
  split
  case isFalse =>
    rw [Script.run_lasting, Call.script, cut_ifDead]
    exact agree_ifDead ⟨rfl, rfl, rfl⟩ _
  case isTrue =>
    apply agree_ifDead
    simp only [Call.ifThere, Script.play, QueueTables.handOver]
    cases database.queues.offset? key with
    | none => exact ⟨rfl, rfl, rfl⟩
    | some offset =>
      simp only [Script.play]
      cases database.queues.offset? (key.withOwner newOwner) with
      | none => exact agree_ifDead ⟨rfl, rfl, rfl⟩ _
      | some there =>
        dsimp only
        by_cases hrecovered : (key.withOwner newOwner).isRecovered = true
        · rw [if_pos hrecovered, if_pos hrecovered]
          exact ⟨rfl, rfl, rfl⟩
        · rw [if_neg hrecovered, if_neg hrecovered, play_mergeInto]
          exact agree_ifDead ⟨rfl, rfl, rfl⟩ _

theorem agree_script (database : Database) (call : Call) :
    Agree database (perform database call)
      (call.script.run database.queues retries (troubles database) call.membership) := by
  cases call with
  | create key seed =>
    rw [perform, create_eq, troubles]
    split
    case isTrue =>
      simp only [Call.script, Script.run, Script.play, QueueTables.create]
      cases database.queues.offset? key <;> cases seed <;> exact ⟨rfl, rfl, rfl⟩
    case isFalse => exact ⟨rfl, rfl, rfl⟩
  | enqueue key file => exact agree_quietly (·.enqueue key file) (ends_enqueue file) rfl
  | advance key start target => exact agree_quietly (·.advance key start target) (ends_advance start target) rfl
  | finish key seq => exact agree_quietly (·.finish key seq) (ends_finish seq) rfl
  | transfer membership key newOwner => exact agree_transfer database membership key newOwner
  | drop key =>
    rw [perform, drop_eq, troubles]
    split <;> exact ⟨rfl, rfl, rfl⟩

/-- An operation is carried out as a whole, or not at all, and only on the queues that it names. -/
structure Atomic (database : Database) (call : Call) : Prop where
  failed : ∀ error, (perform database call).1.answer = .error error → (perform database call).1.database = database
  /-- Nothing but the queue tables is changed, and of these only what the call names. -/
  kept : ∃ after, (perform database call).1.database = database.withQueues after ∧
    ∀ key ∉ call.keys, after.get? key = database.queues.get? key
  /-- A transfer asks twice, before and after it writes. -/
  heeded : ∀ answer owner, (perform database call).1.answer = .ok answer → call.owner? = some owner →
    (call.membership.isAlive owner).1 = false ∧
      ((call.membership.isAlive owner).2.isAlive owner).1 = false ∧
      (perform database call).2 = ((call.membership.isAlive owner).2.isAlive owner).2

theorem isAlive_of_transfer {database : Database} {membership : Membership} {key target : QueueKey}
    {newOwner : String} (hok : (transfer database membership key newOwner).1.answer = .ok target) :
    (membership.isAlive key.owner).1 = false ∧
      ((membership.isAlive key.owner).2.isAlive key.owner).1 = false ∧
      (transfer database membership key newOwner).2 = ((membership.isAlive key.owner).2.isAlive key.owner).2 := by
  rw [transfer_eq] at hok ⊢
  dsimp only at hok ⊢
  cases hfirst : (membership.isAlive key.owner).1 with
  | true =>
    rw [hfirst, if_pos rfl] at hok
    cases hok
  | false =>
    rw [hfirst, if_neg Bool.false_ne_true] at hok
    rw [if_neg Bool.false_ne_true]
    by_cases hup : database.reachable = true
    · rw [if_pos hup] at hok ⊢
      cases hover : database.queues.handOver key newOwner with
      | error error =>
        rw [hover] at hok
        cases hok
      | ok after =>
        rw [hover] at hok
        cases hsecond : ((membership.isAlive key.owner).2.isAlive key.owner).1 with
        | true =>
          simp only [hsecond, if_true] at hok
          cases hok
        | false => exact ⟨rfl, rfl, rfl⟩
    · rw [if_neg hup] at hok
      cases hok

theorem atomic_of_fair {database : Database} {call : Call} {ending : Ending call.Answer}
    (hfair : Fair call.keys call.owner? call.questions database.queues ending)
    (hagree : Agree database (perform database call) ending) : Atomic database call where
  failed error herror := by
    have hanswer := hagree.answer
    rw [herror] at hanswer
    rw [hagree.tables, hfair.failed hanswer.symm]
    rfl
  kept := ⟨ending.tables, hagree.tables, hfair.kept⟩
  heeded answer owner hok howner := by
    cases call with
    | transfer membership key newOwner =>
      obtain rfl := Option.some.inj howner
      exact isAlive_of_transfer hok
    | create | enqueue | advance | finish | drop => cases howner

/-- Queues that a call does not name are as they were. -/
theorem get?_serve_of_not_mem (database : Database) (call : Call) {key : QueueKey} (hkey : key ∉ call.keys) :
    (serve database call).database.queues.get? key = database.queues.get? key := by
  have hatomic : Atomic database call :=
    atomic_of_fair ((keeps_script call).fair_run retries (troubles database) call.membership)
      (agree_script database call)
  have hserve : (serve database call).database = (perform database call).1.database := by
    cases call <;> rfl
  obtain ⟨after, hafter, hkept⟩ := hatomic.kept
  rw [hserve, hafter]
  exact hkept key hkey

/-- Every operation, with any arguments and reports, on any database, is atomic, and so is its script
under any troubles, which does the same as the operation if it is not disturbed. -/
theorem atomic_perform (database : Database) (call : Call) :
    Atomic database call ∧
      (∀ troubles, Fair call.keys call.owner? call.questions database.queues
        (call.script.run database.queues retries troubles call.membership)) ∧
      Agree database (perform database call)
        (call.script.run database.queues retries (troubles database) call.membership) := by
  have hfair (troubles : List Trouble) : Fair call.keys call.owner? call.questions database.queues
      (call.script.run database.queues retries troubles call.membership) :=
    (keeps_script call).fair_run retries troubles call.membership
  have hagree := agree_script database call
  exact ⟨atomic_of_fair (hfair (troubles database)) hagree, hfair, hagree⟩

end QueueStore

end LogShipping
