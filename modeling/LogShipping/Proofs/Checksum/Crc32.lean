import LogShipping.Checksum.Crc32
import Mathlib.Logic.Function.Basic

/-!
# One damaged octet changes the checksum

Dividing the register by the indeterminate loses nothing: the bit that is shifted out decides whether the
generator, whose highest bit is set, is taken in, and so comes back as the highest bit. Hence each octet
that is absorbed keeps different registers apart, and so do all octets that follow.
-/

namespace LogShipping

theorem Bytes.xor_ne {mask : UInt8} (hmask : mask ≠ 0) (byte : UInt8) : byte ^^^ mask ≠ byte := by
  intro hsame
  refine hmask ((UInt8.xor_right_inj byte).mp ?_)
  rw [hsame, UInt8.xor_zero]

namespace Checksum.Crc32

open Function

/-! ## One shift -/

theorem low_bit_iff (register : UInt32) :
    register &&& 1 = 1 ↔ register.toBitVec.getLsbD 0 = true := by
  rw [← UInt32.toBitVec_inj, UInt32.toBitVec_and]
  show register.toBitVec &&& 1#32 = 1#32 ↔ _
  rw [BitVec.and_one_eq_setWidth_ofBool_getLsbD]
  cases register.toBitVec.getLsbD 0 <;> decide

/-- The highest bit after a shift is the lowest one before. -/
theorem high_bit_shift (register : UInt32) :
    (shift register).toBitVec.getLsbD 31 = register.toBitVec.getLsbD 0 := by
  unfold shift
  split
  case isTrue h =>
    rw [(low_bit_iff register).mp h, UInt32.toBitVec_xor, BitVec.getLsbD_xor]
    have hpast : (register >>> 1).toBitVec.getLsbD 31 = false := by
      show (register.toBitVec >>> 1).getLsbD 31 = false
      rw [BitVec.getLsbD_ushiftRight]
      exact BitVec.getLsbD_of_ge _ _ (by decide)
    rw [hpast]
    rfl
  case isFalse h =>
    rw [low_bit_iff, Bool.not_eq_true] at h
    rw [h]
    show (register.toBitVec >>> 1).getLsbD 31 = false
    rw [BitVec.getLsbD_ushiftRight]
    exact BitVec.getLsbD_of_ge _ _ (by decide)

/-- The generator is taken in by both registers or by neither. -/
theorem rest_eq_of_shift_eq {x y : UInt32} (hlow : x.toBitVec.getLsbD 0 = y.toBitVec.getLsbD 0)
    (h : shift x = shift y) : x >>> 1 = y >>> 1 := by
  unfold shift at h
  simp only [low_bit_iff, ← hlow] at h
  split at h
  case isTrue => exact (UInt32.xor_left_inj polynomial).mp h
  case isFalse => exact h

theorem shift_injective : Injective shift := by
  intro x y h
  have hlow : x.toBitVec.getLsbD 0 = y.toBitVec.getLsbD 0 := by
    rw [← high_bit_shift, ← high_bit_shift, h]
  have hrest : x.toBitVec >>> 1 = y.toBitVec >>> 1 :=
    congrArg UInt32.toBitVec (rest_eq_of_shift_eq hlow h)
  rw [← UInt32.toBitVec_inj]
  refine BitVec.eq_of_getLsbD_eq fun index hindex ↦ ?_
  cases index with
  | zero => exact hlow
  | succ index =>
    have hbit := congrArg (BitVec.getLsbD · index) hrest
    simp only [BitVec.getLsbD_ushiftRight] at hbit
    rwa [Nat.add_comm] at hbit

theorem shiftOctet_injective : Injective shiftOctet := by
  have h := shift_injective
  exact h.comp <| h.comp <| h.comp <| h.comp <| h.comp <| h.comp <| h.comp h

/-! ## Absorbing octets -/

theorem absorb_injective (byte : UInt8) : Injective (absorb · byte) := by
  intro x y h
  exact (UInt32.xor_left_inj byte.toUInt32).mp (shiftOctet_injective h)

/-- The register tells which octet was absorbed last. -/
theorem absorb_injective_right (register : UInt32) : Injective (absorb register) := by
  intro x y h
  have hword := (UInt32.xor_right_inj register).mp (shiftOctet_injective h)
  exact UInt8.toNat_inj.mp (by simpa using congrArg UInt32.toNat hword)

theorem foldl_absorb_injective (bytes : Bytes) : Injective (bytes.foldl absorb ·) := by
  induction bytes with
  | nil => exact injective_id
  | cons byte bytes ih => exact ih.comp (absorb_injective byte)

/-- Octet strings that differ in one place leave different registers behind. -/
theorem foldl_absorb_modify_ne {change : UInt8 → UInt8} (hchange : ∀ byte, change byte ≠ byte) :
    ∀ (bytes : Bytes) (index : Nat) (register : UInt32), index < bytes.length →
      (bytes.modify index change).foldl absorb register ≠ bytes.foldl absorb register
  | byte :: bytes, 0, register, _ => by
    rw [List.modify_zero_cons, List.foldl_cons, List.foldl_cons]
    refine (foldl_absorb_injective bytes).ne fun h ↦ ?_
    exact hchange byte (absorb_injective_right register h)
  | byte :: bytes, index + 1, register, hindex => by
    rw [List.modify_succ_cons, List.foldl_cons, List.foldl_cons]
    exact foldl_absorb_modify_ne hchange bytes index _ (Nat.lt_of_succ_lt_succ hindex)

/-- A checksum does not survive a change of one octet. -/
theorem checksum_flip_ne {bytes : Bytes} {index : Nat} {mask : UInt8} (hindex : index < bytes.length)
    (hmask : mask ≠ 0) : checksum (bytes.flip index mask) ≠ checksum bytes := by
  intro h
  exact foldl_absorb_modify_ne (Bytes.xor_ne hmask) bytes index _ hindex (UInt32.not_inj.mp h)

end Checksum.Crc32

end LogShipping
