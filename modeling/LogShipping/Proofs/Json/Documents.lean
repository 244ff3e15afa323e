import LogShipping.Proofs.Json.Leaves

/-!
# Written documents are read back

A document of integers, texts, arrays and objects is read back from what is written for it, with all that
follows left over. The reader's fuel, two units for each octet, is enough: an item of an array costs two
calls, and is followed by a comma or a bracket.
-/

namespace LogShipping.Json

/-- Nothing in the document is malformed, and every number is an integer. -/
inductive Plain : Json → Prop
  | null : Plain .null
  | bool (value : Bool) : Plain (.bool value)
  | integer (negative : Bool) (magnitude : Nat) : Plain (.number (.integer negative magnitude))
  | text (value : String) : Plain (.text value)
  | array (items : List Json) (h : ∀ item ∈ items, Plain item) : Plain (.array items)
  | object (members : List (String × Json)) (h : ∀ member ∈ members, Plain member.2) :
      Plain (.object members)

/-- The document is read back with two units of fuel for each octet. -/
def ReadBack (json : Json) : Prop :=
  ∀ fuel rest, 2 * (write json).length ≤ fuel → Stops rest →
    readValue fuel (write json ++ rest) = some (json, rest)

/-! ## How written documents begin -/

theorem skipBlanks_cons {byte : UInt8} (rest : Bytes) (h : isBlank byte = false) :
    skipBlanks (byte :: rest) = byte :: rest := by
  rw [skipBlanks, List.dropWhile_cons_of_neg (by rw [h]; exact Bool.false_ne_true)]

theorem write_integer_cons (negative : Bool) (magnitude : Nat) :
    ∃ byte more, write (.number (.integer negative magnitude)) = byte :: more ∧
      (byte = 0x2D ∨ Decimal.isDigit byte = true) := by
  rw [write, writeNumber]
  cases negative with
  | true => exact ⟨0x2D, _, rfl, .inl rfl⟩
  | false =>
    cases hdigits : Decimal.digits magnitude with
    | nil => exact absurd hdigits (Decimal.digits_ne_nil magnitude)
    | cons byte run =>
      have hdigit := Decimal.isDigit_of_mem_digits magnitude byte (by rw [hdigits]; exact List.mem_cons_self)
      exact ⟨byte, run, rfl, .inr hdigit⟩

/-- An octet that begins a number begins nothing else. -/
theorem number_first {byte : UInt8} (h : byte = 0x2D ∨ Decimal.isDigit byte = true) :
    isBlank byte = false ∧ byte ≠ 0x22 ∧ byte ≠ 0x5B ∧ byte ≠ 0x5D ∧ byte ≠ 0x7B ∧ byte ≠ 0x6E ∧
      byte ≠ 0x74 ∧ byte ≠ 0x66 := by
  have hall : ∀ value < 58, value = 0x2D ∨ 48 ≤ value → (fun byte : UInt8 ↦
      isBlank byte = false ∧ byte ≠ 0x22 ∧ byte ≠ 0x5B ∧ byte ≠ 0x5D ∧ byte ≠ 0x7B ∧ byte ≠ 0x6E ∧
        byte ≠ 0x74 ∧ byte ≠ 0x66) (UInt8.ofNat value) := by
    decide
  have hbyte : byte.toNat < 58 ∧ (byte.toNat = 0x2D ∨ 48 ≤ byte.toNat) := by
    rcases h with rfl | h
    · decide
    · rw [Decimal.isDigit, Bool.and_eq_true, decide_eq_true_iff, decide_eq_true_iff,
        UInt8.le_iff_toNat_le, UInt8.le_iff_toNat_le] at h
      exact ⟨Nat.lt_succ_of_le h.2, .inr h.1⟩
  have hfirst := hall byte.toNat hbyte.1 hbyte.2
  rwa [UInt8.ofNat_toNat] at hfirst

/-- A document begins with neither a blank nor the end of an array. -/
theorem write_cons {json : Json} (h : Plain json) :
    ∃ byte more, write json = byte :: more ∧ isBlank byte = false ∧ byte ≠ 0x5D := by
  cases h with
  | null => exact ⟨_, _, rfl, by decide, by decide⟩
  | bool value => cases value <;> exact ⟨_, _, rfl, by decide, by decide⟩
  | text value => exact ⟨_, _, rfl, by decide, by decide⟩
  | array items _ => cases items <;> exact ⟨_, _, rfl, by decide, by decide⟩
  | object members _ => cases members <;> exact ⟨_, _, rfl, by decide, by decide⟩
  | integer negative magnitude =>
    obtain ⟨byte, more, hwrite, hbyte⟩ := write_integer_cons negative magnitude
    obtain ⟨hblank, -, -, hbracket, -⟩ := number_first hbyte
    exact ⟨byte, more, hwrite, hblank, hbracket⟩

/-! ## What the reader does, by the first octet -/

section Reader

variable (fuel : Nat) (rest : Bytes)

theorem readValue_text :
    readValue (fuel + 1) (0x22 :: rest) =
      (pieces rest).map fun read ↦ ((textOf? read.1).elim .malformed .text, read.2) := by
  show (pieces rest).bind _ = _
  cases pieces rest <;> rfl

theorem readValue_array :
    readValue (fuel + 1) (0x5B :: rest) =
      match skipBlanks rest with
      | 0x5D :: rest => some (.array [], rest)
      | rest => (readItems fuel rest).map fun read ↦ (.array read.1, read.2) := by
  show (match skipBlanks rest with
    | 0x5D :: rest => some (Json.array [], rest)
    | rest => (readItems fuel rest).bind _) = _
  split
  · rfl
  · cases readItems fuel _ <;> rfl

theorem readValue_items {byte : UInt8} (hblank : isBlank byte = false) (hbracket : byte ≠ 0x5D) :
    readValue (fuel + 1) (0x5B :: byte :: rest) =
      (readItems fuel (byte :: rest)).map fun read ↦ (.array read.1, read.2) := by
  rw [readValue_array, skipBlanks_cons rest hblank]
  split
  case h_1 h => exact absurd (List.cons.inj h).1 hbracket
  case h_2 => rfl

theorem readValue_object :
    readValue (fuel + 1) (0x7B :: rest) =
      match skipBlanks rest with
      | 0x7D :: rest => some (.object [], rest)
      | rest => readMembers fuel rest := rfl

theorem readValue_number {byte : UInt8} (h : byte = 0x2D ∨ Decimal.isDigit byte = true) :
    readValue (fuel + 1) (byte :: rest) =
      (readNumber (byte :: rest)).map fun read ↦ (.number read.1, read.2) := by
  obtain ⟨hblank, hquote, hbracket, -, hbrace, hnull, htrue, hfalse⟩ := number_first h
  rw [readValue, skipBlanks_cons rest hblank]
  split
  case h_8 => cases readNumber (byte :: rest) <;> rfl
  all_goals simp_all

theorem readItems_succ :
    readItems (fuel + 1) rest =
      (readValue fuel rest).bind fun read ↦
        match skipBlanks read.2 with
        | 0x5D :: rest => some ([read.1], rest)
        | 0x2C :: rest => (readItems fuel rest).map fun more ↦ (read.1 :: more.1, more.2)
        | _ => none := by
  rw [readItems]
  cases readValue fuel rest with
  | none => rfl
  | some read =>
    show (match skipBlanks read.2 with
      | 0x5D :: rest => some ([read.1], rest)
      | 0x2C :: rest => (readItems fuel rest).bind _
      | _ => none) = _
    rw [Option.bind_some]
    split
    · rfl
    · cases readItems fuel _ <;> rfl
    · rfl

theorem readMembers_succ :
    readMembers (fuel + 1) (0x22 :: rest) =
      (pieces rest).bind fun name ↦
        match skipBlanks name.2 with
        | 0x3A :: rest =>
          (readValue fuel rest).bind fun read ↦
            match skipBlanks read.2 with
            | 0x7D :: rest => some (addMember (textOf? name.1) read.1 (.object []), rest)
            | 0x2C :: rest =>
              (readMembers fuel rest).map fun more ↦
                (addMember (textOf? name.1) read.1 more.1, more.2)
            | _ => none
        | _ => none := by
  show (pieces rest).bind _ = _
  cases pieces rest with
  | none => rfl
  | some name =>
    show (match skipBlanks name.2 with
      | 0x3A :: rest => (readValue fuel rest).bind _
      | _ => none) = _
    rw [Option.bind_some]
    split
    · cases readValue fuel _ with
      | none => rfl
      | some read =>
        show (match skipBlanks read.2 with
          | 0x7D :: rest => some (addMember (textOf? name.1) read.1 (.object []), rest)
          | 0x2C :: rest => (readMembers fuel rest).bind _
          | _ => none) = _
        rw [Option.bind_some]
        split
        · rfl
        · cases readMembers fuel _ <;> rfl
        · rfl
    · rfl

end Reader

/-! ## Values -/

theorem readBack_integer (negative : Bool) (magnitude : Nat) :
    ReadBack (.number (.integer negative magnitude)) := by
  intro fuel rest hfuel hstop
  obtain ⟨byte, more, hwrite, hbyte⟩ := write_integer_cons negative magnitude
  have hread := readNumber_writeNumber negative magnitude hstop
  obtain ⟨fuel, rfl⟩ : ∃ less, fuel = less + 1 := by
    rw [hwrite, List.length_cons] at hfuel
    exact ⟨fuel - 1, by omega⟩
  rw [← write, hwrite] at hread
  rw [hwrite, List.cons_append, readValue_number fuel _ hbyte, ← List.cons_append, hread]
  rfl

theorem writeText_append (text : String) (rest : Bytes) :
    writeText text ++ rest = 0x22 :: ((Bytes.ofText text).flatMap escape ++ 0x22 :: rest) := by
  simp [writeText]

theorem readBack_text (value : String) : ReadBack (.text value) := by
  intro fuel rest hfuel hstop
  obtain ⟨fuel, rfl⟩ : ∃ less, fuel = less + 1 := by
    rw [write, writeText, List.length_append, List.length_cons] at hfuel
    exact ⟨fuel - 1, by omega⟩
  rw [write, writeText_append, readValue_text, pieces_flatMap_escape, Option.map_some,
    textOf?_map_pieceOf]
  rfl

/-! ## Items and members -/

theorem writeItems_stops (items : List Json) (rest : Bytes) : Stops (writeItems items ++ rest) := by
  cases items with
  | nil => exact .inr ⟨_, _, rfl, .inr (.inl rfl)⟩
  | cons item items => exact .inr ⟨_, _, rfl, .inl rfl⟩

theorem readItems_write (items : List Json) (item : Json) (hitem : ReadBack item)
    (hitems : ∀ item ∈ items, ReadBack item) (fuel : Nat) (rest : Bytes)
    (hfuel : 2 * (write item ++ writeItems items).length ≤ fuel) :
    readItems fuel (write item ++ (writeItems items ++ rest)) = some (item :: items, rest) := by
  rw [List.length_append] at hfuel
  induction items generalizing item fuel with
  | nil =>
    rw [writeItems, List.length_singleton] at hfuel
    obtain ⟨fuel, rfl⟩ : ∃ less, fuel = less + 1 := ⟨fuel - 1, by omega⟩
    rw [readItems_succ, hitem fuel _ (by omega) (writeItems_stops [] rest)]
    rfl
  | cons next items ih =>
    rw [writeItems, List.length_append, List.length_cons] at hfuel
    obtain ⟨fuel, rfl⟩ : ∃ less, fuel = less + 1 := ⟨fuel - 1, by omega⟩
    rw [readItems_succ, hitem fuel _ (by omega) (writeItems_stops _ rest), Option.bind_some, writeItems,
      List.append_assoc, List.cons_append, skipBlanks_cons _ rfl]
    show (readItems fuel (write next ++ (writeItems items ++ rest))).map _ = _
    rw [ih next (hitems next List.mem_cons_self)
      (fun item hmem ↦ hitems item (List.mem_cons_of_mem next hmem)) fuel (by omega)]
    rfl

theorem writeMembers_cons (name : String) (value : Json) (members : List (String × Json)) :
    writeMembers ((name, value) :: members) =
      0x2C :: (writeText name ++ 0x3A :: (write value ++ writeMembers members)) := by
  rw [writeMembers, List.cons_append, List.cons_append, List.append_assoc, List.cons_append]

theorem write_object_cons (name : String) (value : Json) (members : List (String × Json)) :
    write (.object ((name, value) :: members)) =
      0x7B :: (writeText name ++ 0x3A :: (write value ++ writeMembers members)) := by
  rw [write, List.cons_append, List.cons_append, List.append_assoc, List.cons_append]

theorem writeMembers_stops (members : List (String × Json)) (rest : Bytes) :
    Stops (writeMembers members ++ rest) := by
  cases members with
  | nil => exact .inr ⟨_, _, rfl, .inr (.inr rfl)⟩
  | cons member members => exact .inr ⟨_, _, rfl, .inl rfl⟩

theorem readMembers_write (members : List (String × Json)) (name : String) (value : Json)
    (hvalue : ReadBack value) (hmembers : ∀ member ∈ members, ReadBack member.2) (fuel : Nat)
    (rest : Bytes)
    (hfuel : 2 * (writeText name ++ 0x3A :: (write value ++ writeMembers members)).length ≤ fuel) :
    readMembers fuel (writeText name ++ 0x3A :: (write value ++ (writeMembers members ++ rest))) =
      some (.object ((name, value) :: members), rest) := by
  rw [List.length_append, List.length_cons, List.length_append] at hfuel
  induction members generalizing name value fuel with
  | nil =>
    rw [writeMembers, List.length_singleton] at hfuel
    obtain ⟨fuel, rfl⟩ : ∃ less, fuel = less + 1 := ⟨fuel - 1, by omega⟩
    rw [writeText_append, readMembers_succ, pieces_flatMap_escape, Option.bind_some,
      skipBlanks_cons _ rfl]
    show (readValue fuel (write value ++ (writeMembers [] ++ rest))).bind _ = _
    rw [hvalue fuel _ (by omega) (writeMembers_stops [] rest), Option.bind_some, textOf?_map_pieceOf]
    rfl
  | cons member members ih =>
    obtain ⟨next, following⟩ := member
    rw [writeMembers_cons, List.length_cons, List.length_append, List.length_cons,
      List.length_append] at hfuel
    obtain ⟨fuel, rfl⟩ : ∃ less, fuel = less + 1 := ⟨fuel - 1, by omega⟩
    rw [writeText_append, readMembers_succ, pieces_flatMap_escape, Option.bind_some,
      skipBlanks_cons _ rfl]
    show (readValue fuel (write value ++ (writeMembers ((next, following) :: members) ++ rest))).bind _ = _
    rw [hvalue fuel _ (by omega) (writeMembers_stops _ rest), Option.bind_some, textOf?_map_pieceOf,
      writeMembers_cons, List.cons_append, List.append_assoc, List.cons_append, List.append_assoc,
      skipBlanks_cons _ rfl]
    show (readMembers fuel
      (writeText next ++ 0x3A :: (write following ++ (writeMembers members ++ rest)))).map _ = _
    rw [ih next following (hmembers _ List.mem_cons_self)
      (fun member hmem ↦ hmembers member (List.mem_cons_of_mem _ hmem)) fuel (by omega)]
    rfl

/-! ## Documents -/

theorem fuel_succ {json : Json} (h : Plain json) {fuel : Nat} (hfuel : 2 * (write json).length ≤ fuel) :
    ∃ less, fuel = less + 1 := by
  obtain ⟨byte, more, hwrite, -⟩ := write_cons h
  rw [hwrite, List.length_cons] at hfuel
  exact ⟨fuel - 1, by omega⟩

theorem readBack_array (items : List Json) (hplain : ∀ item ∈ items, Plain item)
    (h : ∀ item ∈ items, ReadBack item) : ReadBack (.array items) := by
  intro fuel rest hfuel hstop
  obtain ⟨fuel, rfl⟩ := fuel_succ (.array items hplain) hfuel
  cases items with
  | nil => rfl
  | cons item items =>
    obtain ⟨byte, more, hwrite, hblank, hbracket⟩ := write_cons (hplain item List.mem_cons_self)
    rw [write, List.cons_append, List.length_cons] at hfuel
    have hitems := readItems_write items item (h item List.mem_cons_self)
      (fun item hmem ↦ h item (List.mem_cons_of_mem _ hmem)) fuel rest (by omega)
    rw [write, List.cons_append, List.cons_append, List.append_assoc]
    rw [hwrite, List.cons_append] at hitems ⊢
    rw [readValue_items fuel _ hblank hbracket, hitems]
    rfl

theorem readBack_object (members : List (String × Json)) (hplain : ∀ member ∈ members, Plain member.2)
    (h : ∀ member ∈ members, ReadBack member.2) : ReadBack (.object members) := by
  intro fuel rest hfuel hstop
  obtain ⟨fuel, rfl⟩ := fuel_succ (.object members hplain) hfuel
  match members with
  | [] => rfl
  | (name, value) :: members =>
    rw [write_object_cons, List.length_cons] at hfuel
    have hmembers := readMembers_write members name value (h _ List.mem_cons_self)
      (fun member hmem ↦ h member (List.mem_cons_of_mem _ hmem)) fuel rest (by omega)
    rw [write_object_cons, List.cons_append, List.append_assoc, List.cons_append, List.append_assoc,
      readValue_object, writeText_append, skipBlanks_cons _ rfl]
    rw [writeText_append] at hmembers
    exact hmembers

/-- What is written for a plain document is read back, in front of whatever may follow a value. -/
theorem readBack_of_plain {json : Json} (h : Plain json) : ReadBack json := by
  induction h with
  | integer negative magnitude => exact readBack_integer negative magnitude
  | text value => exact readBack_text value
  | array items hplain ih => exact readBack_array items hplain ih
  | object members hplain ih => exact readBack_object members hplain ih
  | null =>
    intro fuel rest hfuel hstop
    obtain ⟨fuel, rfl⟩ := fuel_succ .null hfuel
    rfl
  | bool value =>
    intro fuel rest hfuel hstop
    obtain ⟨fuel, rfl⟩ := fuel_succ (.bool value) hfuel
    cases value <;> rfl

theorem read?_write {json : Json} (h : Plain json) : read? (write json) = some json := by
  have hread := readBack_of_plain h (fuelFor (write json)) [] (by rw [fuelFor]; omega) (.inl rfl)
  rw [List.append_nil] at hread
  rw [read?, hread]
  rfl

end LogShipping.Json
