import LogShipping.Proofs.Json.Documents

/-!
# Cut documents

A value that has been read is read again if the octets go on and the fuel is larger; only a number that
reaches to the end of the octets may go on with them. So a proper part from the front of a written document
is no document, unless it is a number.
-/

namespace LogShipping.Json

/-! ## Leaves -/

theorem skipBlanks_append {bytes rest : Bytes} {byte : UInt8} (h : skipBlanks bytes = byte :: rest)
    (more : Bytes) : skipBlanks (bytes ++ more) = byte :: (rest ++ more) := by
  rw [skipBlanks] at h ⊢
  rw [List.dropWhile_append, h]
  rfl

theorem skipBlanks_skipBlanks (bytes : Bytes) : skipBlanks (skipBlanks bytes) = skipBlanks bytes := by
  cases h : skipBlanks bytes with
  | nil => rfl
  | cons byte rest =>
    have hblank := List.head?_dropWhile_not isBlank bytes
    rw [← skipBlanks, h] at hblank
    exact skipBlanks_cons rest hblank

theorem withPiece_eq_some {piece : Piece} {read : Option (List Piece × Bytes)} {parts : List Piece}
    {rest : Bytes} (h : withPiece piece read = some (parts, rest)) :
    ∃ tail, parts = piece :: tail ∧ read = some (tail, rest) := by
  obtain ⟨⟨tail, left⟩, hread, heq⟩ := Option.map_eq_some_iff.mp h
  cases heq
  exact ⟨tail, rfl, hread⟩

theorem pieces_append {bytes rest : Bytes} {parts : List Piece} (h : pieces bytes = some (parts, rest))
    (more : Bytes) : pieces (bytes ++ more) = some (parts, rest ++ more) := by
  induction bytes using pieces.induct generalizing parts rest with
  | case1 => cases h
  | case2 bytes =>
    cases h
    rfl
  | case3 a b c d bytes ih =>
    cases hunit : hexUnit? a b c d with
    | none =>
      rw [pieces, hunit] at h
      cases h
    | some value =>
      rw [pieces_number bytes hunit] at h
      obtain ⟨tail, rfl, hread⟩ := withPiece_eq_some h
      simp only [List.cons_append]
      rw [pieces_number _ hunit, ih hread]
      rfl
  | case4 letter bytes hunit ih =>
    cases hbyte : unescape? letter with
    | none =>
      rw [pieces.eq_4 letter bytes hunit, hbyte] at h
      cases h
    | some byte =>
      have hletter : letter ≠ 0x75 := by
        rintro rfl
        cases hbyte
      rw [pieces_letter bytes hletter hbyte] at h
      obtain ⟨tail, rfl, hread⟩ := withPiece_eq_some h
      simp only [List.cons_append]
      rw [pieces_letter _ hletter hbyte, ih hread]
      rfl
  | case5 byte bytes hquote hunit hletter ih =>
    by_cases hplain : 0x20 ≤ byte ∧ byte ≠ 0x5C
    case neg =>
      rw [pieces.eq_5 byte bytes hquote hunit hletter, guard, if_neg hplain] at h
      cases h
    case pos =>
      rw [pieces_plain bytes hquote hplain.2 hplain.1] at h
      obtain ⟨tail, rfl, hread⟩ := withPiece_eq_some h
      rw [List.cons_append, pieces_plain _ hquote hplain.2 hplain.1, ih hread]
      rfl

theorem word?_append {word : String} {bytes rest : Bytes} (h : word? word bytes = some rest)
    (more : Bytes) : word? word (bytes ++ more) = some (rest ++ more) := by
  unfold word? at h ⊢
  dsimp only at h ⊢
  split at h
  case isFalse => cases h
  case isTrue htake =>
    cases h
    have hlength : (Bytes.ofText word).length ≤ bytes.length := by
      rw [← htake, List.length_take]
      exact Nat.min_le_right _ _
    rw [List.take_append_of_le_length hlength, List.drop_append_of_le_length hlength, if_pos htake]

/-! ## Numbers -/

section Numbers

variable {bytes run rest : Bytes}

theorem digitRun_eq_some (h : digitRun bytes = some (run, rest)) :
    bytes = run ++ rest ∧ (∀ byte ∈ run, Decimal.isDigit byte = true) ∧ run ≠ [] ∧
      ∀ byte ∈ rest.head?, Decimal.isDigit byte = false := by
  unfold digitRun at h
  split at h
  case h_1 => cases h
  case h_2 hne =>
    cases h
    refine ⟨List.takeWhile_append_dropWhile.symm, List.all_eq_true.mp List.all_takeWhile, hne, ?_⟩
    intro byte hbyte
    have hnot := List.head?_dropWhile_not Decimal.isDigit bytes
    rw [Option.mem_def.mp hbyte] at hnot
    exact hnot

/-- A number goes on with what follows it only if it reaches to the end. -/
theorem digitRun_more (h : digitRun bytes = some (run, rest)) (hrest : rest ≠ []) (more : Bytes) :
    digitRun (bytes ++ more) = some (run, rest ++ more) := by
  obtain ⟨rfl, hrun, hne, hhead⟩ := digitRun_eq_some h
  obtain ⟨byte, tail, rfl⟩ := List.exists_cons_of_ne_nil hrest
  rw [List.append_assoc]
  exact digitRun_append hrun hne hhead

/-- More octets do not change the first one. -/
theorem append_ne_cons {byte : UInt8} (hne : bytes ≠ []) (h : ∀ tail, bytes = byte :: tail → False)
    (more tail : Bytes) : bytes ++ more ≠ byte :: tail := by
  obtain ⟨first, left, rfl⟩ := List.exists_cons_of_ne_nil hne
  intro heq
  injection heq with hfirst
  exact h left (by rw [hfirst])

theorem fraction_more {part : Option Bytes} (h : fraction bytes = some (part, rest)) (hrest : rest ≠ [])
    (more : Bytes) : fraction (bytes ++ more) = some (part, rest ++ more) := by
  unfold fraction at h
  split at h
  case h_1 tail =>
    obtain ⟨⟨run, left⟩, hrun, heq⟩ := Option.map_eq_some_iff.mp h
    cases heq
    rw [List.cons_append, fraction, digitRun_more hrun hrest more]
    rfl
  case h_2 hpoint =>
    cases h
    exact fraction.eq_2 _ (append_ne_cons hrest hpoint more)

theorem exponent_more {power : Option Int} (h : exponent bytes = some (power, rest)) (hrest : rest ≠ [])
    (more : Bytes) : exponent (bytes ++ more) = some (power, rest ++ more) := by
  unfold exponent at h
  split at h
  case h_1 =>
    cases h
    exact absurd rfl hrest
  case h_2 mark tail =>
    split at h
    case isFalse hmark =>
      cases h
      exact if_neg hmark
    case isTrue hmark =>
      split at h
      all_goals
        obtain ⟨⟨run, left⟩, hrun, heq⟩ := Option.map_eq_some_iff.mp h
        cases heq
        have hmore := digitRun_more hrun hrest more
      case h_1 => rw [List.cons_append, List.cons_append, exponent.eq_2, if_pos hmark, hmore]; rfl
      case h_2 => rw [List.cons_append, List.cons_append, exponent.eq_3, if_pos hmark, hmore]; rfl
      case h_3 hminus hplus =>
        have hne : tail ≠ [] := by
          rintro rfl
          cases hrun
        rw [List.cons_append, exponent.eq_4 mark _ (append_ne_cons hne hminus more)
          (append_ne_cons hne hplus more), if_pos hmark, hmore]
        rfl

theorem magnitude_more {negative : Bool} {number : Number}
    (h : magnitude negative bytes = some (number, rest)) (hrest : rest ≠ []) (more : Bytes) :
    magnitude negative (bytes ++ more) = some (number, rest ++ more) := by
  unfold magnitude at h ⊢
  simp only [Option.bind_eq_bind, Option.bind_eq_some_iff, Prod.exists] at h
  obtain ⟨whole, behind, hwhole, ⟨⟩, hguard, part, left, hpart, power, last, hpower, h⟩ := h
  have hlast : last = rest := by
    split at h <;> cases h <;> rfl
  subst hlast
  have hleft : left ≠ [] := by
    rintro rfl
    cases hpower
    exact hrest rfl
  have hbehind : behind ≠ [] := by
    rintro rfl
    cases hpart
    exact hleft rfl
  rw [digitRun_more hwhole hbehind]
  simp only [Option.bind_eq_bind, Option.bind_some, hguard, fraction_more hpart hleft,
    exponent_more hpower hrest]
  split at h <;> cases h <;> rfl

theorem readNumber_more {number : Number} (h : readNumber bytes = some (number, rest))
    (hrest : rest ≠ []) (more : Bytes) : readNumber (bytes ++ more) = some (number, rest ++ more) := by
  unfold readNumber at h
  split at h
  case h_1 => exact magnitude_more h hrest more
  case h_2 hminus =>
    have hne : bytes ≠ [] := by
      rintro rfl
      cases h
    rw [readNumber.eq_2 _ (append_ne_cons hne hminus more)]
    exact magnitude_more h hrest more

/-- A number begins with a digit or the sign. -/
theorem readNumber_first {number : Number} (h : readNumber bytes = some (number, rest)) :
    ∃ byte tail, bytes = byte :: tail ∧ (byte = 0x2D ∨ Decimal.isDigit byte = true) := by
  unfold readNumber at h
  split at h
  case h_1 tail => exact ⟨0x2D, tail, rfl, .inl rfl⟩
  case h_2 =>
    unfold magnitude at h
    simp only [Option.bind_eq_bind, Option.bind_eq_some_iff, Prod.exists] at h
    obtain ⟨run, behind, hrun, -⟩ := h
    obtain ⟨rfl, hdigits, hne, -⟩ := digitRun_eq_some hrun
    obtain ⟨byte, tail, rfl⟩ := List.exists_cons_of_ne_nil hne
    exact ⟨byte, tail ++ behind, rfl, .inr (hdigits byte List.mem_cons_self)⟩

end Numbers

/-! ## Documents -/

/-- The answer stays the same for more fuel and more octets. -/
def Stays {α : Type} (read : (fuel : Nat) → Bytes → Option (α × Bytes)) (fuel : Nat) (bytes : Bytes)
    (value : α) (rest : Bytes) : Prop :=
  ∀ larger more, fuel ≤ larger → read larger (bytes ++ more) = some (value, rest ++ more)

/-- Not a number that reaches to the end. -/
def Closed (value : Json) (rest : Bytes) : Prop := rest ≠ [] ∨ ∀ number, value ≠ .number number

theorem closed_of_skipBlanks {value : Json} {rest tail : Bytes} {byte : UInt8}
    (h : skipBlanks rest = byte :: tail) : Closed value rest := by
  refine .inl ?_
  rintro rfl
  cases h

/-- Blanks in front of a value are passed over. -/
theorem readValue_skipBlanks (fuel : Nat) (bytes : Bytes) :
    readValue (fuel + 1) (skipBlanks bytes) = readValue (fuel + 1) bytes := by
  rw [readValue, readValue, skipBlanks_skipBlanks]

theorem readMembers_skipBlanks (fuel : Nat) (bytes : Bytes) :
    readMembers (fuel + 1) (skipBlanks bytes) = readMembers (fuel + 1) bytes := by
  rw [readMembers, readMembers, skipBlanks_skipBlanks]

theorem readItems_nil (fuel : Nat) : readItems fuel [] = none := by
  match fuel with
  | 0 | 1 => rfl
  | fuel + 2 => rfl

theorem readMembers_nil (fuel : Nat) : readMembers fuel [] = none := by
  cases fuel <;> rfl

section Steps

variable {fuel larger : Nat} {bytes tail rest : Bytes} {value : Json}

theorem readValue_array_more (hlarger : fuel ≤ larger)
    (hitems : ∀ {bytes items rest}, readItems fuel bytes = some (items, rest) →
      Stays readItems fuel bytes items rest)
    (h : readValue (fuel + 1) (0x5B :: tail) = some (value, rest)) (more : Bytes) :
    readValue (larger + 1) (0x5B :: (tail ++ more)) = some (value, rest ++ more) := by
  rw [readValue_array] at h ⊢
  split at h
  case h_1 hend =>
    cases h
    rw [skipBlanks_append hend]
    rfl
  case h_2 hopen =>
    obtain ⟨⟨items, left⟩, hread, heq⟩ := Option.map_eq_some_iff.mp h
    cases heq
    cases hfront : skipBlanks tail with
    | nil =>
      rw [hfront, readItems_nil] at hread
      cases hread
    | cons first behind =>
      have hstays := hitems hread larger more hlarger
      rw [hfront] at hstays
      rw [skipBlanks_append hfront]
      split
      case h_1 heq => exact absurd (by rw [hfront, (List.cons.inj heq).1]) (hopen behind)
      case h_2 => exact congrArg (Option.map _) hstays

theorem readValue_object_more (hlarger : fuel ≤ larger)
    (hmembers : ∀ {bytes value rest}, readMembers fuel bytes = some (value, rest) →
      Stays readMembers fuel bytes value rest)
    (h : readValue (fuel + 1) (0x7B :: tail) = some (value, rest)) (more : Bytes) :
    readValue (larger + 1) (0x7B :: (tail ++ more)) = some (value, rest ++ more) := by
  rw [readValue_object] at h ⊢
  split at h
  case h_1 hend =>
    cases h
    rw [skipBlanks_append hend]
    rfl
  case h_2 hopen =>
    cases hfront : skipBlanks tail with
    | nil =>
      rw [hfront, readMembers_nil] at h
      cases h
    | cons first behind =>
      have hstays := hmembers h larger more hlarger
      rw [hfront] at hstays
      rw [skipBlanks_append hfront]
      split
      case h_1 heq => exact absurd (by rw [hfront, (List.cons.inj heq).1]) (hopen behind)
      case h_2 => exact hstays

theorem readValue_stays (hclosed : Closed value rest)
    (hitems : ∀ {bytes items rest}, readItems fuel bytes = some (items, rest) →
      Stays readItems fuel bytes items rest)
    (hmembers : ∀ {bytes value rest}, readMembers fuel bytes = some (value, rest) →
      Stays readMembers fuel bytes value rest)
    (h : readValue (fuel + 1) bytes = some (value, rest)) :
    Stays readValue (fuel + 1) bytes value rest := by
  intro larger more hlarger
  obtain ⟨larger, rfl⟩ : ∃ less, larger = less + 1 := ⟨larger - 1, by omega⟩
  rw [Nat.add_le_add_iff_right] at hlarger
  rw [← readValue_skipBlanks] at h ⊢
  cases hskip : skipBlanks bytes with
  | nil =>
    rw [hskip] at h
    cases h
  | cons byte tail =>
    have hagain := skipBlanks_skipBlanks bytes
    rw [hskip] at h hagain
    rw [skipBlanks_append hskip]
    -- The first octet tells what is read.
    have hcases := h
    rw [readValue, hagain] at hcases
    split at hcases
    case h_1 heq => cases heq
    case h_3 heq =>
      cases heq
      exact readValue_array_more hlarger hitems h more
    case h_4 heq =>
      cases heq
      exact readValue_object_more hlarger hmembers h more
    case h_8 =>
      obtain ⟨⟨number, left⟩, hread, heq⟩ := Option.bind_eq_some_iff.mp hcases
      cases heq
      obtain ⟨first, behind, heq, hfirst⟩ := readNumber_first hread
      cases heq
      have hrest : rest ≠ [] := hclosed.resolve_right fun hnumber ↦ hnumber number rfl
      have hmore := readNumber_more hread hrest more
      rw [List.cons_append] at hmore
      rw [readValue_number larger _ hfirst, hmore]
      rfl
    case h_2 heq =>
      cases heq
      obtain ⟨⟨parts, left⟩, hparts, heq⟩ := Option.bind_eq_some_iff.mp hcases
      cases heq
      rw [readValue_text, pieces_append hparts]
      rfl
    all_goals
      rename_i heq
      cases heq
      obtain ⟨left, hword, heq⟩ := Option.map_eq_some_iff.mp hcases
      cases heq
      exact congrArg (Option.map _) (word?_append hword more)

theorem readItems_stays {items : List Json}
    (hvalue : ∀ {bytes value rest}, readValue fuel bytes = some (value, rest) → Closed value rest →
      Stays readValue fuel bytes value rest)
    (hitems : ∀ {bytes items rest}, readItems fuel bytes = some (items, rest) →
      Stays readItems fuel bytes items rest)
    (h : readItems (fuel + 1) bytes = some (items, rest)) :
    Stays readItems (fuel + 1) bytes items rest := by
  intro larger more hlarger
  obtain ⟨larger, rfl⟩ : ∃ less, larger = less + 1 := ⟨larger - 1, by omega⟩
  rw [Nat.add_le_add_iff_right] at hlarger
  rw [readItems_succ] at h ⊢
  obtain ⟨⟨item, left⟩, hitem, h⟩ := Option.bind_eq_some_iff.mp h
  dsimp only at h
  split at h
  case h_1 hskip =>
    cases h
    rw [hvalue hitem (closed_of_skipBlanks hskip) larger more hlarger, Option.bind_some,
      skipBlanks_append hskip]
    rfl
  case h_2 hskip =>
    obtain ⟨⟨others, last⟩, hothers, heq⟩ := Option.map_eq_some_iff.mp h
    cases heq
    rw [hvalue hitem (closed_of_skipBlanks hskip) larger more hlarger, Option.bind_some,
      skipBlanks_append hskip]
    exact congrArg (Option.map _) (hitems hothers larger more hlarger)
  case h_3 => cases h

theorem readMembers_stays
    (hvalue : ∀ {bytes value rest}, readValue fuel bytes = some (value, rest) → Closed value rest →
      Stays readValue fuel bytes value rest)
    (hmembers : ∀ {bytes value rest}, readMembers fuel bytes = some (value, rest) →
      Stays readMembers fuel bytes value rest)
    (h : readMembers (fuel + 1) bytes = some (value, rest)) :
    Stays readMembers (fuel + 1) bytes value rest := by
  intro larger more hlarger
  obtain ⟨larger, rfl⟩ : ∃ less, larger = less + 1 := ⟨larger - 1, by omega⟩
  rw [Nat.add_le_add_iff_right] at hlarger
  obtain ⟨tail, hquote⟩ : ∃ tail, skipBlanks bytes = 0x22 :: tail := by
    rw [readMembers] at h
    split at h
    case h_1 tail hquote => exact ⟨tail, hquote⟩
    case h_2 => cases h
  rw [← readMembers_skipBlanks, hquote, readMembers_succ] at h
  rw [← readMembers_skipBlanks, skipBlanks_append hquote, readMembers_succ]
  obtain ⟨⟨name, left⟩, hname, h⟩ := Option.bind_eq_some_iff.mp h
  rw [pieces_append hname, Option.bind_some]
  dsimp only at h ⊢
  split at h
  case h_2 => cases h
  case h_1 hcolon =>
    rw [skipBlanks_append hcolon]
    show (readValue larger _).bind _ = _
    obtain ⟨⟨member, left⟩, hmember, h⟩ := Option.bind_eq_some_iff.mp h
    dsimp only at h
    split at h
    case h_1 hskip =>
      cases h
      rw [hvalue hmember (closed_of_skipBlanks hskip) larger more hlarger, Option.bind_some,
        skipBlanks_append hskip]
      rfl
    case h_2 hskip =>
      obtain ⟨⟨others, last⟩, hothers, heq⟩ := Option.map_eq_some_iff.mp h
      cases heq
      rw [hvalue hmember (closed_of_skipBlanks hskip) larger more hlarger, Option.bind_some,
        skipBlanks_append hskip]
      exact congrArg (Option.map _) (hmembers hothers larger more hlarger)
    case h_3 => cases h

end Steps

/-- By induction on the fuel, for the three readers at once. -/
theorem reads_stay (fuel : Nat) :
    (∀ {bytes value rest}, readValue fuel bytes = some (value, rest) → Closed value rest →
      Stays readValue fuel bytes value rest) ∧
    (∀ {bytes items rest}, readItems fuel bytes = some (items, rest) →
      Stays readItems fuel bytes items rest) ∧
    (∀ {bytes value rest}, readMembers fuel bytes = some (value, rest) →
      Stays readMembers fuel bytes value rest) := by
  induction fuel with
  | zero => exact ⟨nofun, nofun, nofun⟩
  | succ fuel ih =>
    obtain ⟨hvalue, hitems, hmembers⟩ := ih
    exact ⟨fun h hclosed ↦ readValue_stays hclosed hitems hmembers h, readItems_stays hvalue hitems,
      readMembers_stays hvalue hmembers⟩

/-- A proper part from the front of a written document is no document, or a number. -/
theorem number_of_read?_prefix {json value : Json} {front more : Bytes} (hplain : Plain json)
    (hcut : front ++ more = write json) (hmore : more ≠ []) (h : read? front = some value) :
    ∃ number, value = .number number := by
  obtain ⟨⟨read, rest⟩, hread, h⟩ := Option.bind_eq_some_iff.mp h
  obtain ⟨-, -, h⟩ := Option.bind_eq_some_iff.mp h
  cases h
  refine Classical.byContradiction fun hnone ↦ ?_
  have hclosed : Closed value rest := .inr fun number hnumber ↦ hnone ⟨number, hnumber⟩
  have hfuel : fuelFor front ≤ fuelFor (write json) := by
    rw [fuelFor, fuelFor, ← hcut, List.length_append]
    omega
  have hmade := (reads_stay _).1 hread hclosed _ more hfuel
  have hback := readBack_of_plain hplain (fuelFor (write json)) [] (by rw [fuelFor]; omega) (.inl rfl)
  rw [hcut] at hmade
  rw [List.append_nil, hmade] at hback
  have hrest := congrArg Prod.snd (Option.some.inj hback)
  exact hmore (List.append_eq_nil_iff.mp hrest).2

end LogShipping.Json
