import LogShipping.Proofs.Log.Frames
import LogShipping.Zstd.Frame
import Mathlib.Data.Option.Basic

/-!
# Stored frames are read back

A frame that holds octets as they are decompresses to them. Its blocks are read one by one: each adds its
octets to what was read before it, and the last one ends the frame.
-/

namespace LogShipping.Zstd

/-- What is compressed begins as a frame does, and decompresses to what it was. -/
structure Lossless (compress : Bytes → Bytes) : Prop where
  marked : ∀ content, magic <+: compress content
  restored : ∀ content, decompress? (compress content) = some content

/-! ## Blocks -/

theorem Header.number?_littleEndian {width value : Nat} (h : value < 256 ^ width) (rest : Bytes) :
    number? width (Bytes.littleEndian width value ++ rest) = some (value, rest) := by
  have hlength := Bytes.length_littleEndian width value
  rw [number?, if_pos (by rw [List.length_append]; omega), List.take_left' hlength, List.drop_left' hlength,
    Bytes.ofLittleEndian_littleEndian, Nat.mod_eq_of_lt h]

namespace Progress

variable (progress : Progress) (before after : Bytes)

theorem append_append : (progress.append before).append after = progress.append (before ++ after) := by
  simp only [append, List.foldl_append]

theorem toList_written_append (octets : Bytes) :
    (progress.append octets).written.toList = progress.written.toList ++ octets := by
  simp [append]

end Progress

/-- A stored block adds its octets. -/
theorem blocks?_storedBlock {octets : Bytes} (hsize : octets.length ≤ maxBlock) (last : Bool) (turns : Nat)
    (progress : Progress) (rest : Bytes) :
    blocks? maxBlock (turns + 1) progress (storedBlock last octets ++ rest) =
      if last then some (progress.append octets, rest)
      else blocks? maxBlock turns (progress.append octets) rest := by
  have hflag : last.toNat ≤ 1 := Bool.toNat_le last
  have hheader : last.toNat + 8 * octets.length < 256 ^ 3 := by
    have : maxBlock = 131072 := rfl
    omega
  have hcount : (last.toNat + 8 * octets.length) / 8 = octets.length := by omega
  have hkind : (last.toNat + 8 * octets.length) / 2 % 4 = 0 := by omega
  have hlast : (last.toNat + 8 * octets.length) % 2 = last.toNat := by omega
  rw [storedBlock, List.append_assoc, blocks?, Header.number?_littleEndian hheader]
  unfold guard
  simp only [Option.bind_eq_bind, Option.bind_some, hcount, hkind, hlast, hsize, if_true,
    List.length_append, Nat.le_add_right, List.take_left, List.drop_left]
  cases last <;> simp

theorem length_storedBlock (last : Bool) (octets : Bytes) :
    (storedBlock last octets).length = 3 + octets.length := by
  rw [storedBlock, List.length_append, Bytes.length_littleEndian]

/-- The blocks of some content add it, if there is a turn for each octet they take. -/
theorem blocks?_storedBlocks {left : Nat} {content : Bytes} (hleft : content.length ≤ left) {turns : Nat}
    (hturns : (storedBlocks left content).length ≤ turns) (progress : Progress) (rest : Bytes) :
    blocks? maxBlock turns progress (storedBlocks left content ++ rest) = some (progress.append content, rest) := by
  have hfew {octets : Bytes} {turns : Nat} (h : (storedBlock true octets).length ≤ turns)
      (hsize : octets.length ≤ maxBlock) (progress : Progress) :
      blocks? maxBlock turns progress (storedBlock true octets ++ rest) = some (progress.append octets, rest) := by
    rw [length_storedBlock] at h
    obtain ⟨turns, rfl⟩ : ∃ less, turns = less + 1 := ⟨turns - 1, by omega⟩
    exact blocks?_storedBlock hsize true turns progress rest
  induction left generalizing content turns progress with
  | zero => exact hfew hturns (Nat.le_trans hleft (Nat.zero_le _)) progress
  | succ left ih =>
    rw [storedBlocks] at hturns ⊢
    split at hturns
    case isTrue hsize =>
      rw [if_pos hsize]
      exact hfew hturns hsize progress
    case isFalse hlarge =>
      have hfull : (content.take maxBlock).length = maxBlock := by
        rw [List.length_take]
        omega
      rw [List.length_append, length_storedBlock] at hturns
      obtain ⟨turns, rfl⟩ : ∃ less, turns = less + 1 := ⟨turns - 1, by omega⟩
      have hless : (content.drop maxBlock).length ≤ left := by
        have : maxBlock = 131072 := rfl
        rw [List.length_drop]
        omega
      rw [if_neg hlarge, List.append_assoc, blocks?_storedBlock (Nat.le_of_eq hfull), if_neg Bool.false_ne_true,
        ih hless (by omega), Progress.append_append, List.take_append_drop]

/-! ## Frames -/

theorem Header.read?_stored (rest : Bytes) :
    read? (0x00 :: 0x38 :: rest) = some (⟨maxBlock, none, false⟩, rest) := by
  have hone : number? 1 (0x38 :: rest) = some (0x38, rest) := rfl
  have hnone : number? 0 rest = some (0, rest) := rfl
  have hflags : UInt8.toNat 0 = 0 := rfl
  have hwindow : windowOf (UInt8.ofNat 0x38) = maxBlock := rfl
  have hlimit : maxBlock ≤ maxWindow := by decide
  -- A general `simp` evaluates the size that stands for none in unary, which the kernel cannot follow.
  unfold read? guard
  simp only [hone, hnone, hflags, hwindow, hlimit, Option.bind_eq_bind, Option.bind_some, Option.map_some,
    Nat.zero_div, Nat.zero_mod, if_true, if_false, List.getD_cons_zero, Nat.zero_ne_one, decide_false,
    Bool.false_eq_true, Bool.toNat_false, ne_eq, not_true, false_and]
  rfl

theorem frame?_stored (content rest : Bytes) :
    frame? (0x00 :: 0x38 :: (storedBlocks content.length content ++ rest)) = some (content, rest) := by
  have hturns : (storedBlocks content.length content).length ≤
      (0x00 :: 0x38 :: (storedBlocks content.length content ++ rest)).length := by
    rw [List.length_cons, List.length_cons, List.length_append]
    omega
  have hblocks := blocks?_storedBlocks (Nat.le_refl content.length) hturns .start rest
  have hcontent : (Progress.start.append content).written.toList = content :=
    Progress.start.toList_written_append content
  rw [frame?, Header.read?_stored]
  simp only [Option.bind_eq_bind, Option.bind_some, Header.blockLimit, Nat.min_self, hblocks, hcontent]
  rfl

/-- Frames that hold octets as they are lose nothing. -/
theorem lossless_store : Lossless store where
  marked content := by
    rw [store, List.append_assoc]
    exact List.prefix_append _ _
  restored content := by
    have hframe := frame?_stored content []
    rw [List.append_nil] at hframe
    show frames? (_ + 1) (0x28 :: 0xB5 :: 0x2F :: 0xFD :: 0x00 :: 0x38 :: storedBlocks content.length content) = _
    rw [frames?, hframe]
    simp [frames?]

end LogShipping.Zstd
