import LogShipping.Proofs.Log.Frames

/-!
# One frame for each payload

The header of a frame is written in one way only: its eight octets are those of the length and of the checksum
they stand for. So the octets of a whole frame are the very ones that are written for its payload, and a payload
is decoded from some octets if and only if they begin with its frame. Once the octets at hand tell what a frame
is, whole or corrupt, more octets behind them do not change the answer. A reader that comes back to a file that
has grown therefore finds again all that it found before.
-/

namespace LogShipping

/-- Octets are those of the number they stand for. -/
theorem Bytes.littleEndian_ofLittleEndian {bytes : Bytes} {width : Nat} (hwidth : bytes.length = width) :
    littleEndian width (ofLittleEndian bytes) = bytes := by
  subst hwidth
  apply ofLittleEndian_inj (length_littleEndian ..)
  rw [ofLittleEndian_littleEndian]
  exact Nat.mod_eq_of_lt (ofLittleEndian_lt bytes)

namespace Frame

open Checksum

variable {bytes payload : Bytes} {consumed : Nat}

/-! ## Headers -/

section Header

variable (hheader : headerSize ≤ bytes.length)

include hheader

theorem littleEndian_payloadLength : Bytes.littleEndian 4 (payloadLength bytes) = bytes.take 4 := by
  rw [headerSize] at hheader
  apply Bytes.littleEndian_ofLittleEndian
  rw [List.length_take]
  omega

theorem littleEndian_storedChecksum :
    Bytes.littleEndian 4 (storedChecksum bytes).toNat = (bytes.drop 4).take 4 := by
  rw [headerSize] at hheader
  have hlength : ((bytes.drop 4).take 4).length = 4 := by
    rw [List.length_take, List.length_drop]
    omega
  -- The octets of the checksum stand for a word, so none is lost on the way through one.
  have hword := Bytes.ofLittleEndian_lt ((bytes.drop 4).take 4)
  rw [hlength] at hword
  rw [storedChecksum, UInt32.toNat_ofNat_of_lt' hword]
  exact Bytes.littleEndian_ofLittleEndian hlength

end Header

/-! ## Whole frames -/

theorem length_of_decode (h : decode bytes = .complete payload consumed) :
    payload.length = payloadLength bytes := by
  obtain ⟨rfl, -, hlength, rfl, -⟩ := decode_eq_complete_iff.mp h
  rw [List.length_take, List.length_drop]
  omega

/-- What is decoded has been written: the octets of a whole frame are the frame of its payload. -/
theorem take_of_decode (h : decode bytes = .complete payload consumed) :
    bytes.take consumed = encode payload := by
  have hcount := length_of_decode h
  obtain ⟨rfl, -, hlength, hpayload, hsum⟩ := decode_eq_complete_iff.mp h
  have hheader : headerSize ≤ bytes.length := by omega
  have hparts : bytes.take headerSize = bytes.take 4 ++ (bytes.drop 4).take 4 :=
    List.take_add (i := 4) (j := 4)
  calc bytes.take (headerSize + payloadLength bytes)
      = bytes.take headerSize ++ (bytes.drop headerSize).take (payloadLength bytes) := List.take_add
    _ = (bytes.take 4 ++ (bytes.drop 4).take 4) ++ payload := by rw [hparts, hpayload]
    _ = Bytes.littleEndian 4 payload.length ++ Bytes.littleEndian 4 (Crc32.checksum payload).toNat ++ payload := by
        rw [hcount, hsum, littleEndian_payloadLength hheader, littleEndian_storedChecksum hheader]
    _ = encode payload := List.append_assoc ..

/-- A payload is decoded from the octets that begin with its frame, and from no others. -/
theorem decode_eq_complete_iff_take :
    decode bytes = .complete payload consumed ↔
      payload.length ≤ maxPayload ∧ consumed = (encode payload).length ∧ bytes.take consumed = encode payload := by
  constructor
  · intro h
    have hwritten := take_of_decode h
    obtain ⟨-, hsize, hlength, -, -⟩ := decode_eq_complete_iff.mp h
    refine ⟨?_, ?_, hwritten⟩
    · rwa [length_of_decode h]
    · rw [← hwritten, List.length_take, Nat.min_eq_left hlength]
  · rintro ⟨hsize, rfl, hwritten⟩
    calc decode bytes
        = decode (bytes.take (encode payload).length ++ bytes.drop (encode payload).length) := by
          rw [List.take_append_drop]
      _ = decode (encode payload ++ bytes.drop (encode payload).length) := by rw [hwritten]
      _ = .complete payload (encode payload).length := decode_encode_append hsize _

/-- The format is canonical: the octets that a whole frame takes are those that are written for its payload, and
what is written for a payload of admissible size is decoded to it, whatever follows. And it is stable: octets
from which a frame or a fault is decoded are decoded to the same with more behind them. -/
theorem decode_canonical_and_stable (bytes payload more : Bytes) (consumed : Nat) :
    (decode bytes = .complete payload consumed ↔
        payload.length ≤ maxPayload ∧ consumed = (encode payload).length ∧
          bytes.take consumed = encode payload) ∧
      (payload.length ≤ maxPayload →
        decode (encode payload ++ more) = .complete payload (encode payload).length) ∧
      (decode bytes ≠ .incomplete → decode (bytes ++ more) = decode bytes) := by
  refine ⟨decode_eq_complete_iff_take, ?_, ?_⟩
  · intro hsize
    exact decode_encode_append hsize more
  · intro htold
    exact decode_append htold more

/-- A frame of one octet, with the beginning of the next behind it, and with more of that. -/
theorem decode_canonical_and_stable_followed :
    decode (encode [0x68] ++ [2, 0]) = .complete [0x68] 9 ∧
      (encode [0x68] ++ [2, 0]).take 9 = encode [0x68] ∧
      decode (encode [0x68] ++ [2, 0] ++ [0, 0]) = .complete [0x68] 9 := by
  have hwhole : decode (encode [0x68] ++ [2, 0]) = .complete [0x68] 9 :=
    (decode_canonical_and_stable [] [0x68] [2, 0] 0).2.1 (by decide)
  obtain ⟨hcanonical, -, hstable⟩ := decode_canonical_and_stable (encode [0x68] ++ [2, 0]) [0x68] [0, 0] 9
  exact ⟨hwhole, (hcanonical.mp hwhole).2.2, (hstable (told_of_complete hwhole)).trans hwhole⟩

end Frame

end LogShipping
