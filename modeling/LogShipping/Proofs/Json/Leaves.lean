import LogShipping.Json.Reader
import LogShipping.Json.Writer
import Mathlib.Data.Option.Basic

/-!
# Numerals and quoted texts

What is written for an integer or a text is read back, whatever comes behind it: a numeral ends before
anything that cannot go on with it, and a text at its closing quotation mark.
-/

namespace LogShipping

/-! ## Octets of a text -/

theorem Bytes.text?_ofText (text : String) : Bytes.text? (Bytes.ofText text) = some text :=
  dif_pos text.isValidUTF8

namespace Decimal

/-! ## Numerals -/

theorem isDigit_digit {value : Nat} (h : value < 10) : isDigit (digit value) = true := by
  revert value
  decide

theorem digitValue_digit {value : Nat} (h : value < 10) : digitValue (digit value) = value := by
  revert value
  decide

theorem digits_of_lt {value : Nat} (h : value < 10) : digits value = [digit value] := by
  rw [digits, if_pos h]

theorem digits_of_le {value : Nat} (h : 10 ≤ value) :
    digits value = digits (value / 10) ++ [digit (value % 10)] := by
  rw [digits, if_neg (Nat.not_lt.mpr h)]

theorem isDigit_of_mem_digits (value : Nat) : ∀ byte ∈ digits value, isDigit byte = true := by
  induction value using digits.induct with
  | case1 value h =>
    rw [digits_of_lt h]
    intro byte hmem
    rw [List.mem_singleton.mp hmem]
    exact isDigit_digit h
  | case2 value h ih =>
    rw [digits_of_le (Nat.not_lt.mp h)]
    intro byte hmem
    rcases List.mem_append.mp hmem with hmem | hmem
    · exact ih byte hmem
    · rw [List.mem_singleton.mp hmem]
      exact isDigit_digit (Nat.mod_lt _ (by decide))

theorem ofDigits_digits (value : Nat) : ofDigits (digits value) = value := by
  induction value using digits.induct with
  | case1 value h =>
    rw [digits_of_lt h, ofDigits, List.foldl_cons, List.foldl_nil, digitValue_digit h]
    omega
  | case2 value h ih =>
    rw [digits_of_le (Nat.not_lt.mp h), ofDigits, List.foldl_append, ← ofDigits, ih, List.foldl_cons,
      List.foldl_nil, digitValue_digit (Nat.mod_lt _ (by decide))]
    omega

theorem digits_ne_nil (value : Nat) : digits value ≠ [] := by
  rw [digits]
  split <;> simp

/-- A numeral of more than one digit does not begin with zero. -/
theorem head?_digits (value : Nat) : (digits value).head? ≠ some 0x30 ∨ (digits value).length = 1 := by
  induction value using digits.induct with
  | case1 value h => exact .inr (by rw [digits_of_lt h, List.length_singleton])
  | case2 value h ih =>
    have hle := Nat.not_lt.mp h
    have hhead : (digits value).head? = (digits (value / 10)).head? := by
      rw [digits_of_le hle]
      cases hfirst : digits (value / 10) with
      | nil => exact absurd hfirst (digits_ne_nil _)
      | cons byte rest => rfl
    refine .inl ?_
    rw [hhead]
    rcases ih with hfirst | hone
    · exact hfirst
    · have hsmall : value / 10 < 10 := by
        refine Nat.lt_of_not_le fun hlarge ↦ ?_
        rw [digits_of_le hlarge, List.length_append, List.length_singleton] at hone
        have := List.length_pos_iff.mpr (digits_ne_nil (value / 10 / 10))
        omega
      have hpos : 0 < value / 10 := Nat.div_pos hle (by decide)
      rw [digits_of_lt hsmall, List.head?_cons]
      generalize value / 10 = first at hsmall hpos
      revert first
      decide

end Decimal

namespace Json

open Decimal

/-- What may come behind a value in a document: the end, or a mark of an array or object. -/
def Stops (rest : Bytes) : Prop :=
  rest = [] ∨ ∃ mark more, rest = mark :: more ∧ (mark = 0x2C ∨ mark = 0x5D ∨ mark = 0x7D)

theorem digitRun_append {run rest : Bytes} (hrun : ∀ byte ∈ run, isDigit byte = true) (hne : run ≠ [])
    (hrest : ∀ byte ∈ rest.head?, isDigit byte = false) : digitRun (run ++ rest) = some (run, rest) := by
  have hstop : rest.takeWhile isDigit = [] ∧ rest.dropWhile isDigit = rest := by
    cases rest with
    | nil => exact ⟨rfl, rfl⟩
    | cons byte rest =>
      have hbyte := hrest byte rfl
      simp [hbyte]
  have htake : (run ++ rest).takeWhile isDigit = run := by
    rw [List.takeWhile_append_of_pos hrun, hstop.1, List.append_nil]
  have hdrop : (run ++ rest).dropWhile isDigit = rest := by
    rw [List.dropWhile_append_of_pos hrun, hstop.2]
  unfold digitRun
  rw [htake, hdrop]
  cases run with
  | nil => exact absurd rfl hne
  | cons byte run => rfl

theorem magnitude_digits (negative : Bool) (value : Nat) {rest : Bytes} (hstop : Stops rest) :
    magnitude negative (digits value ++ rest) = some (.integer negative value, rest) := by
  have hrest : (∀ byte ∈ rest.head?, isDigit byte = false) ∧ fraction rest = some (none, rest) ∧
      exponent rest = some (none, rest) := by
    rcases hstop with rfl | ⟨mark, more, rfl, rfl | rfl | rfl⟩
    · exact ⟨by simp, rfl, rfl⟩
    all_goals
      refine ⟨?_, rfl, rfl⟩
      rintro _ ⟨⟩
      rfl
  unfold magnitude
  rw [digitRun_append (isDigit_of_mem_digits value) (digits_ne_nil value) hrest.1]
  simp only [Option.bind_eq_bind, Option.bind_some, guard, if_pos (head?_digits value), hrest.2.1,
    hrest.2.2, ofDigits_digits, Option.pure_def]

theorem readNumber_writeNumber (negative : Bool) (value : Nat) {rest : Bytes} (hstop : Stops rest) :
    readNumber (writeNumber (.integer negative value) ++ rest) =
      some (.integer negative value, rest) := by
  cases negative with
  | true => exact magnitude_digits true value hstop
  | false =>
    show readNumber (digits value ++ rest) = _
    rw [← magnitude_digits false value hstop]
    cases hdigits : digits value with
    | nil => exact absurd hdigits (digits_ne_nil value)
    | cons byte run =>
      have hdigit := isDigit_of_mem_digits value byte (by rw [hdigits]; exact List.mem_cons_self)
      rw [List.cons_append, readNumber]
      rintro rest' h
      injection h with hbyte
      subst hbyte
      exact absurd hdigit (by decide)

/-! ## Quoted texts -/

/-- The piece that is read where an octet of a text was written: control octets without a letter of
their own are given by their number. -/
def pieceOf (byte : UInt8) : Piece :=
  if byte < 0x20 ∧ byte ∉ [0x08, 0x0C, 0x0A, 0x0D, 0x09] then .unit byte.toNat else .octet byte

theorem hexUnit?_control {byte : UInt8} (h : byte < 0x20) :
    hexUnit? 0x30 0x30 (0x30 + byte / 16)
      (if byte % 16 < 10 then 0x30 + byte % 16 else 0x57 + byte % 16) = some byte.toNat := by
  have hall : ∀ value < 32, hexUnit? 0x30 0x30 (0x30 + UInt8.ofNat value / 16)
      (if UInt8.ofNat value % 16 < 10 then 0x30 + UInt8.ofNat value % 16
        else 0x57 + UInt8.ofNat value % 16) = some (UInt8.ofNat value).toNat := by
    decide
  have hbyte := hall byte.toNat h
  rwa [UInt8.ofNat_toNat] at hbyte

/-- One more piece in front of those that are read behind it. -/
def withPiece (piece : Piece) (read : Option (List Piece × Bytes)) : Option (List Piece × Bytes) :=
  read.map fun read ↦ (piece :: read.1, read.2)

theorem pieces_letter {letter byte : UInt8} (rest : Bytes) (hletter : letter ≠ 0x75)
    (h : unescape? letter = some byte) :
    pieces (0x5C :: letter :: rest) = withPiece (.octet byte) (pieces rest) := by
  rw [pieces.eq_4 letter rest fun _ _ _ _ _ hu _ ↦ hletter hu, h]
  cases pieces rest <;> rfl

theorem pieces_number {a b c d : UInt8} {value : Nat} (rest : Bytes) (h : hexUnit? a b c d = some value) :
    pieces (0x5C :: 0x75 :: a :: b :: c :: d :: rest) = withPiece (.unit value) (pieces rest) := by
  rw [pieces, h]
  cases pieces rest <;> rfl

theorem pieces_plain {byte : UInt8} (rest : Bytes) (hquote : byte ≠ 0x22) (hslash : byte ≠ 0x5C)
    (hlarge : 0x20 ≤ byte) : pieces (byte :: rest) = withPiece (.octet byte) (pieces rest) := by
  rw [pieces.eq_5 byte rest hquote (fun _ _ _ _ _ h _ ↦ hslash h) fun _ _ h _ ↦ hslash h, guard,
    if_pos ⟨hlarge, hslash⟩]
  cases pieces rest <;> rfl

/-- An octet is read back from what stands for it in a quoted text. -/
theorem pieces_escape (byte : UInt8) (rest : Bytes) :
    pieces (escape byte ++ rest) = withPiece (pieceOf byte) (pieces rest) := by
  have hcases (byte : UInt8) : byte = 0x22 ∨ byte = 0x5C ∨ byte = 0x08 ∨ byte = 0x0C ∨ byte = 0x0A ∨
      byte = 0x0D ∨ byte = 0x09 ∨ (byte ≠ 0x22 ∧ byte ≠ 0x5C ∧ byte ∉ [0x08, 0x0C, 0x0A, 0x0D, 0x09]) := by
    simp only [List.mem_cons, List.not_mem_nil]
    grind
  rcases hcases byte with rfl | rfl | rfl | rfl | rfl | rfl | rfl | ⟨hquote, hslash, hletter⟩
  case inr.inr.inr.inr.inr.inr.inr =>
    simp only [List.mem_cons, List.not_mem_nil, not_or] at hletter
    obtain ⟨h8, hC, hA, hD, h9, -⟩ := hletter
    unfold escape
    rw [if_neg hquote, if_neg hslash, if_neg h8, if_neg hC, if_neg hA, if_neg hD, if_neg h9]
    by_cases hcontrol : byte < 0x20
    case pos =>
      have hnumber : byte < 0x20 ∧ byte ∉ [0x08, 0x0C, 0x0A, 0x0D, 0x09] := ⟨hcontrol, by simp [*]⟩
      rw [if_pos hcontrol, pieceOf, if_pos hnumber]
      exact pieces_number rest (hexUnit?_control hcontrol)
    case neg =>
      rw [if_neg hcontrol, pieceOf, if_neg fun h ↦ hcontrol h.1]
      exact pieces_plain rest hquote hslash (UInt8.not_lt.mp hcontrol)
  all_goals exact pieces_letter rest (by decide) rfl

theorem pieces_flatMap_escape (bytes rest : Bytes) :
    pieces (bytes.flatMap escape ++ 0x22 :: rest) = some (bytes.map pieceOf, rest) := by
  induction bytes with
  | nil => rfl
  | cons byte bytes ih =>
    rw [List.flatMap_cons, List.append_assoc, pieces_escape, ih]
    rfl

theorem utf8_of_control {value : Nat} (h : value < 32) : utf8 value = [UInt8.ofNat value] := by
  revert value
  decide +kernel

theorem joinPieces_pieceOf (byte : UInt8) (rest : List Piece) :
    joinPieces (pieceOf byte :: rest) = (joinPieces rest).map (byte :: ·) := by
  unfold pieceOf
  split
  case isTrue h =>
    have hsmall : byte.toNat < 32 := h.1
    have hword : utf8 byte.toNat = [byte] := by rw [utf8_of_control hsmall, UInt8.ofNat_toNat]
    have hhigh : ¬0xD800 ≤ byte.toNat := by omega
    have hlow : ¬0xDC00 ≤ byte.toNat := by omega
    have hfirst : joinPieces (.unit byte.toNat :: rest) = do
        return utf8 byte.toNat ++ (← joinPieces rest) := by
      match rest with
      | [] => simp [joinPieces, guard, hhigh]
      | .unit low :: rest => simp [joinPieces, guard, hhigh, hlow]
      | .octet next :: rest => simp [joinPieces, guard, hhigh]
    rw [hfirst, hword]
    cases joinPieces rest <;> rfl
  case isFalse =>
    rw [joinPieces]
    cases joinPieces rest <;> rfl

theorem joinPieces_map_pieceOf (bytes : Bytes) : joinPieces (bytes.map pieceOf) = some bytes := by
  induction bytes with
  | nil => rfl
  | cons byte bytes ih =>
    rw [List.map_cons, joinPieces_pieceOf, ih]
    rfl

/-- A text is read back, up to its closing quotation mark. -/
theorem textOf?_map_pieceOf (text : String) : textOf? ((Bytes.ofText text).map pieceOf) = some text := by
  rw [textOf?, joinPieces_map_pieceOf, Option.bind_some, Bytes.text?_ofText]

end Json

end LogShipping
