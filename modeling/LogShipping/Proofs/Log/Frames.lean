import LogShipping.Proofs.Checksum.Crc32
import LogShipping.Proofs.Log.Records
import Mathlib.Algebra.Group.Nat.Defs

/-!
# Written frames

A frame that is written for a payload of admissible size decodes to that payload, whatever follows it. Of
its octets, a part from the front is incomplete, and a change of one octet behind the length is corrupt: it
changes the stored checksum or the computed one, and not both. What is written for a larger payload
never decodes to the whole of it, since the length in the header is that of a part at most.
-/

namespace LogShipping

namespace Bytes

/-! ## Numbers in octets -/

theorem length_littleEndian (width value : Nat) : (littleEndian width value).length = width := by
  induction width generalizing value with
  | zero => rfl
  | succ width ih => rw [littleEndian, List.length_cons, ih]

theorem ofLittleEndian_littleEndian (width value : Nat) :
    ofLittleEndian (littleEndian width value) = value % 256 ^ width := by
  induction width generalizing value with
  | zero => rw [littleEndian, ofLittleEndian, Nat.pow_zero, Nat.mod_one]
  | succ width ih =>
    rw [littleEndian, ofLittleEndian, ih, UInt8.toNat_ofNat']
    show value % 256 + 256 * (value / 256 % 256 ^ width) = _
    rw [Nat.pow_succ', Nat.mod_mul]

theorem ofLittleEndian_word (word : UInt32) : ofLittleEndian (littleEndian 4 word.toNat) = word.toNat := by
  have hword := word.toNat_lt
  rw [ofLittleEndian_littleEndian]
  exact Nat.mod_eq_of_lt (by omega)

theorem ofLittleEndian_lt (bytes : Bytes) : ofLittleEndian bytes < 256 ^ bytes.length := by
  induction bytes with
  | nil => decide
  | cons byte bytes ih =>
    have hbyte : byte.toNat < 256 := byte.toNat_lt
    rw [ofLittleEndian, List.length_cons, Nat.pow_succ']
    omega

theorem ofLittleEndian_inj {xs ys : Bytes} (hlength : xs.length = ys.length)
    (h : ofLittleEndian xs = ofLittleEndian ys) : xs = ys := by
  induction xs generalizing ys with
  | nil => exact (List.length_eq_zero_iff.mp hlength.symm).symm
  | cons x xs ih =>
    cases ys with
    | nil => cases hlength
    | cons y ys =>
      have hx : x.toNat < 256 := x.toNat_lt
      have hy : y.toNat < 256 := y.toNat_lt
      rw [ofLittleEndian, ofLittleEndian] at h
      have hbyte : x.toNat = y.toNat := by omega
      rw [UInt8.toNat_inj.mp hbyte, ih (Nat.succ.inj hlength) (by omega)]

/-! ## Damaged octets -/

variable {bytes : Bytes} {index : Nat} {mask : UInt8}

theorem length_flip (bytes : Bytes) (index : Nat) (mask : UInt8) :
    (bytes.flip index mask).length = bytes.length :=
  List.length_modify ..

theorem flip_ne (hindex : index < bytes.length) (hmask : mask ≠ 0) : bytes.flip index mask ≠ bytes := by
  intro h
  have hbyte : (bytes.flip index mask)[index]? = bytes[index]? := by rw [h]
  rw [flip, List.getElem?_modify_eq, List.getElem?_eq_getElem hindex] at hbyte
  exact xor_ne hmask _ (Option.some.inj hbyte)

theorem flip_append_left (hindex : index < bytes.length) (more : Bytes) (mask : UInt8) :
    (bytes ++ more).flip index mask = bytes.flip index mask ++ more := by
  induction bytes generalizing index with
  | nil => cases hindex
  | cons byte bytes ih =>
    cases index with
    | zero => rfl
    | succ index => exact congrArg (byte :: ·) (ih (Nat.lt_of_succ_lt_succ hindex))

theorem flip_append_right {length : Nat} (hlength : bytes.length = length) (more : Bytes) (index : Nat)
    (mask : UInt8) : (bytes ++ more).flip (length + index) mask = bytes ++ more.flip index mask := by
  subst hlength
  induction bytes with
  | nil => rw [List.length_nil, Nat.zero_add, List.nil_append, List.nil_append]
  | cons byte bytes ih =>
    rw [List.length_cons, Nat.add_right_comm]
    exact congrArg (byte :: ·) ih

end Bytes

namespace Frame

open Checksum

/-! ## The parts of a frame -/

section Parts

variable {length sum : Bytes} (hlength : length.length = 4) (hsum : sum.length = 4) (behind : Bytes)

include hlength

theorem payloadLength_parts : payloadLength (length ++ behind) = Bytes.ofLittleEndian length := by
  rw [payloadLength, ← hlength, List.take_left]

include hsum

theorem storedChecksum_parts :
    storedChecksum (length ++ (sum ++ behind)) = UInt32.ofNat (Bytes.ofLittleEndian sum) := by
  rw [storedChecksum, ← hlength, List.drop_left, hlength, ← hsum, List.take_left]

theorem drop_parts : (length ++ (sum ++ behind)).drop headerSize = behind := by
  rw [← List.append_assoc]
  exact List.drop_left' (by rw [List.length_append, hlength, hsum, headerSize])

/-- The payload stands whole behind a header that gives its length. -/
theorem decode_parts {payload : Bytes} (hpayload : Bytes.ofLittleEndian length = payload.length)
    (hsize : payload.length ≤ maxPayload) (more : Bytes) :
    decode (length ++ (sum ++ (payload ++ more))) =
      if Crc32.checksum payload = UInt32.ofNat (Bytes.ofLittleEndian sum) then
        .complete payload (headerSize + payload.length)
      else .corrupt (.checksum (UInt32.ofNat (Bytes.ofLittleEndian sum)) (Crc32.checksum payload)) := by
  have htotal : (length ++ (sum ++ (payload ++ more))).length =
      headerSize + payload.length + more.length := by
    rw [List.length_append, List.length_append, List.length_append, hlength, hsum, headerSize]
    omega
  unfold decode
  dsimp only
  rw [payloadLength_parts hlength, hpayload, storedChecksum_parts hlength hsum, drop_parts hlength hsum,
    List.take_left, htotal, if_neg (by omega), if_neg (Nat.not_lt.mpr hsize), if_neg (by omega)]

end Parts

/-! ## Whole frames -/

variable {payload : Bytes}

theorem length_encode (payload : Bytes) : (encode payload).length = headerSize + payload.length := by
  rw [encode, List.length_append, List.length_append, Bytes.length_littleEndian,
    Bytes.length_littleEndian, headerSize]
  omega

theorem encode_append (payload more : Bytes) :
    encode payload ++ more = Bytes.littleEndian 4 payload.length ++
      (Bytes.littleEndian 4 (Crc32.checksum payload).toNat ++ (payload ++ more)) := by
  rw [encode, List.append_assoc, List.append_assoc]

theorem ofNat_ofLittleEndian_word (word : UInt32) :
    UInt32.ofNat (Bytes.ofLittleEndian (Bytes.littleEndian 4 word.toNat)) = word := by
  rw [Bytes.ofLittleEndian_word, UInt32.ofNat_toNat]

theorem ofLittleEndian_length (hsize : payload.length ≤ maxPayload) :
    Bytes.ofLittleEndian (Bytes.littleEndian 4 payload.length) = payload.length := by
  rw [maxPayload] at hsize
  rw [Bytes.ofLittleEndian_littleEndian]
  exact Nat.mod_eq_of_lt (by omega)

/-- A written frame is decoded, whatever follows it. -/
theorem decode_encode_append (hsize : payload.length ≤ maxPayload) (more : Bytes) :
    decode (encode payload ++ more) = .complete payload (encode payload).length := by
  rw [encode_append, decode_parts (Bytes.length_littleEndian ..) (Bytes.length_littleEndian ..)
    (ofLittleEndian_length hsize) hsize, if_pos (ofNat_ofLittleEndian_word _).symm, length_encode]

/-! ## Cut frames -/

/-- Of a written frame a part from the front is incomplete. -/
theorem decode_take_encode (hsize : payload.length ≤ maxPayload) {cut : Nat}
    (hcut : cut < (encode payload).length) : decode ((encode payload).take cut) = .incomplete := by
  rw [decode_eq_incomplete_iff, List.length_take, Nat.min_eq_left (Nat.le_of_lt hcut)]
  by_cases hheader : cut < headerSize
  case pos => exact .inl hheader
  case neg =>
    have hnumber : payloadLength ((encode payload).take cut) = payload.length := by
      rw [payloadLength_take _ (Nat.not_lt.mp hheader), encode,
        payloadLength_parts (Bytes.length_littleEndian ..), ofLittleEndian_length hsize]
    rw [hnumber, ← length_encode]
    exact .inr ⟨hsize, hcut⟩

/-! ## Damaged frames -/

section Damage

variable {index : Nat} {mask : UInt8}

/-- A damaged word is another one. -/
theorem ofNat_ofLittleEndian_flip_ne (word : UInt32) (hindex : index < 4) (hmask : mask ≠ 0) :
    UInt32.ofNat (Bytes.ofLittleEndian ((Bytes.littleEndian 4 word.toNat).flip index mask)) ≠ word := by
  have hlength : ((Bytes.littleEndian 4 word.toNat).flip index mask).length =
      (Bytes.littleEndian 4 word.toNat).length := Bytes.length_flip ..
  have hbound := Bytes.ofLittleEndian_lt ((Bytes.littleEndian 4 word.toNat).flip index mask)
  rw [hlength, Bytes.length_littleEndian] at hbound
  intro h
  have hvalue := congrArg UInt32.toNat h
  rw [UInt32.toNat_ofNat_of_lt' hbound] at hvalue
  refine Bytes.flip_ne (by rwa [Bytes.length_littleEndian]) hmask
    (Bytes.ofLittleEndian_inj hlength ?_)
  rw [hvalue, Bytes.ofLittleEndian_word]

/-- A change of one octet of a written frame behind the length is detected. -/
theorem decode_flip_encode (hsize : payload.length ≤ maxPayload) (hlow : 4 ≤ index)
    (hindex : index < (encode payload).length) (hmask : mask ≠ 0) (more : Bytes) :
    ∃ fault, decode ((encode payload).flip index mask ++ more) = .corrupt fault := by
  have hword (value : Nat) : (Bytes.littleEndian 4 value).length = 4 := Bytes.length_littleEndian 4 value
  obtain ⟨index, rfl⟩ := Nat.exists_eq_add_of_le hlow
  rw [length_encode, headerSize] at hindex
  rw [encode, Bytes.flip_append_right (hword _)]
  by_cases hheader : index < 4
  case pos =>
    -- The stored checksum is another one.
    have hother := ofNat_ofLittleEndian_flip_ne (Crc32.checksum payload) hheader hmask
    rw [Bytes.flip_append_left (by rwa [hword]), List.append_assoc, List.append_assoc,
      decode_parts (hword _) (by rw [Bytes.length_flip, hword]) (ofLittleEndian_length hsize) hsize,
      if_neg hother.symm]
    exact ⟨_, rfl⟩
  case neg =>
    -- The payload has another checksum.
    obtain ⟨index, rfl⟩ := Nat.exists_eq_add_of_le (Nat.not_lt.mp hheader)
    have hother : Crc32.checksum (payload.flip index mask) ≠ Crc32.checksum payload :=
      Crc32.checksum_flip_ne (by omega) hmask
    have hlength : (payload.flip index mask).length = payload.length := Bytes.length_flip ..
    rw [Bytes.flip_append_right (hword _), List.append_assoc, List.append_assoc,
      decode_parts (hword _) (hword _) (by rw [hlength]; exact ofLittleEndian_length hsize)
        (by rw [hlength]; exact hsize),
      ofNat_ofLittleEndian_word, if_neg hother]
    exact ⟨_, rfl⟩

end Damage

/-! ## Oversize payloads -/

/-- What is written for a payload of more than the admissible size is corrupt, or decodes to a part of
it: the length in the header is too large, or has lost its high octets. -/
theorem decode_encode_of_oversize (hsize : maxPayload < payload.length) (more : Bytes) :
    (∃ fault, decode (encode payload ++ more) = .corrupt fault) ∨
      ∃ count, count < payload.length ∧
        decode (encode payload ++ more) = .complete (payload.take count) (headerSize + count) := by
  have hword (value : Nat) : (Bytes.littleEndian 4 value).length = 4 := Bytes.length_littleEndian 4 value
  have hcount : Bytes.ofLittleEndian (Bytes.littleEndian 4 payload.length) ≤ payload.length := by
    rw [Bytes.ofLittleEndian_littleEndian]
    exact Nat.mod_le _ _
  generalize hgiven : Bytes.ofLittleEndian (Bytes.littleEndian 4 payload.length) = count at hcount
  by_cases hlarge : maxPayload < count
  case pos =>
    refine .inl ⟨.oversize count, ?_⟩
    unfold decode
    dsimp only
    rw [encode_append, payloadLength_parts (hword _), hgiven, ← encode_append, List.length_append,
      length_encode, if_neg (by omega), if_pos hlarge]
  case neg =>
    have htaken : (payload.take count).length = count := by
      rw [List.length_take, Nat.min_eq_left hcount]
    have hdecode := decode_parts (hword payload.length) (hword (Crc32.checksum payload).toNat)
      (hgiven.trans htaken.symm) (by omega) (payload.drop count ++ more)
    rw [← List.append_assoc (payload.take count), List.take_append_drop, ← encode_append, htaken] at hdecode
    rw [hdecode]
    split
    case isTrue => exact .inr ⟨count, by omega, rfl⟩
    case isFalse => exact .inl ⟨_, rfl⟩

end Frame

end LogShipping
