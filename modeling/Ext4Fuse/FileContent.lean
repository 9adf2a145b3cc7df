import Ext4Fuse.Extents.Lookup
import Ext4Fuse.Library.Bytes
import Mathlib.Data.Nat.Bitwise

/-! The logical content of a file over a flat device, and the rounding to block boundaries. -/
namespace Ext4Fuse.FileContent
open Machine Ext4Fuse.Types Super Extents Library.Bytes

/-- `ALIGN_TO_BLOCKSIZE` of an `off_t`: the complement of the block size, a `uint32_t`, has 32 bits. -/
def alignToBlocksize (blockSize n : Nat) : Nat :=
  if n % blockSize ≠ 0 then (n &&& (2^32 - blockSize)) + blockSize else n

theorem and_two_pow_mul (n k m : Nat) : n &&& 2^k * m = 2^k * (n / 2^k &&& m) := by
  apply Nat.eq_of_testBit_eq
  intro i
  rw [Nat.testBit_and,Nat.testBit_two_pow_mul,Nat.testBit_two_pow_mul,Nat.testBit_and,Nat.testBit_div_two_pow]
  rcases Nat.lt_or_ge i k with below | above
  · simp [Nat.not_le.mpr below]
  · simp [above,Nat.sub_add_cancel above]

/-- The mask keeps the low 32 bits and clears the last ones of them. -/
theorem and_mask (n k : Nat) (small : k ≤ 32) : n &&& (2^32 - 2^k) = n % 2^32 - n % 2^k := by
  have parts : 2^32 = 2^k * 2^(32 - k) := by rw [← Nat.pow_add,Nat.add_sub_cancel' small]
  have mask : 2^32 - 2^k = 2^k * (2^(32 - k) - 1) := by rw [Nat.mul_sub,Nat.mul_one,← parts]
  rw [mask,and_two_pow_mul,Nat.and_two_pow_sub_one_eq_mod,parts,Nat.mod_mul,Nat.add_sub_cancel_left]

theorem alignToBlocksize_low {n k : Nat} (small : k ≤ 32) (low : n < 2^32) (unaligned : n % 2^k ≠ 0) :
    alignToBlocksize (2^k) n = n - n % 2^k + 2^k := by
  rw [alignToBlocksize,if_pos unaligned,and_mask n k small,Nat.mod_eq_of_lt low]

/-- From 2^32 on the high bits are lost. -/
theorem alignToBlocksize_high {n k : Nat} (small : k ≤ 32) (high : 2^32 ≤ n) (unaligned : n % 2^k ≠ 0) :
    alignToBlocksize (2^k) n ≤ n - 2^32 + 2^k := by
  rw [alignToBlocksize,if_pos unaligned,and_mask n k small]
  have lost := Nat.mod_le (n - 2^32) (2^32)
  have same : n % 2^32 = (n - 2^32) % 2^32 := Nat.mod_eq_sub_mod high
  omega

/-- What `ALIGN_TO_BLOCKSIZE(offset) - offset` leaves of the block, as a `size_t`. -/
theorem align_rest_low {blockSize n k : Nat} (power : blockSize = 2^k) (small : k ≤ 16) (low : n < 2^32)
    (unaligned : n % blockSize ≠ 0) : u64 (alignToBlocksize blockSize n - n : Int) = blockSize - n % blockSize := by
  subst power
  have off := Nat.mod_lt n (Nat.two_pow_pos k)
  have rest := Nat.mod_le n (2^k)
  have most : 2^k ≤ 2^16 := Nat.pow_le_pow_right Nat.zero_lt_two small
  rw [alignToBlocksize_low (by omega) low unaligned]
  generalize 2^k = b at *
  rw [show ((n - n % b + b : Nat) - n : Int) = ((b - n % b : Nat) : Int) by omega]
  exact u64_small _ (by omega)

theorem align_rest_high {blockSize n k : Nat} (power : blockSize = 2^k) (small : k ≤ 16) (high : 2^32 ≤ n) (place : n < 2^63)
    (unaligned : n % blockSize ≠ 0) : 2^63 ≤ u64 (alignToBlocksize blockSize n - n : Int) := by
  subst power
  have most : 2^k ≤ 2^16 := Nat.pow_le_pow_right Nat.zero_lt_two small
  have lost := alignToBlocksize_high (show k ≤ 32 by omega) high unaligned
  generalize alignToBlocksize (2^k) n = aligned at lost ⊢
  unfold u64
  omega

theorem same_block {blockSize : Nat} (positive : 0 < blockSize) (n m : Nat) :
    n / blockSize = (n + m) / blockSize ↔ n % blockSize + m < blockSize := by
  have parts := Nat.div_add_mod n blockSize
  have quotient : (n + m) / blockSize = n / blockSize + (n % blockSize + m) / blockSize := by
    rw [← Nat.mul_add_div positive,← Nat.add_assoc,parts]
  rw [quotient,← Nat.div_eq_zero_iff_lt positive]
  omega

/-- The 32-bit numbers of the first and the last block of a request are equal when it lies in one block. -/
theorem endLblock_same {blockSize size offset : Nat} (positive : 0 < blockSize) (some_ : size ≠ 0) (short : size < 2^31)
    (place : offset < 2^63) : u32 (offset / blockSize : Nat) = u32 (u64 (offset + u64 (size - 1 : Int) : Nat) / blockSize : Nat) ↔
      offset % blockSize + size ≤ blockSize := by
  have minus : u64 (size - 1 : Int) = size - 1 := by
    rw [show (size - 1 : Int) = ((size - 1 : Nat) : Int) by omega]
    exact u64_small _ (by omega)
  have near : (offset + (size - 1)) / blockSize ≤ offset / blockSize + (size - 1) :=
    Nat.le_of_lt_succ (Nat.div_lt_of_lt_mul (by
      have parts := Nat.div_add_mod offset blockSize
      have off := Nat.mod_lt offset positive
      have more := Nat.le_mul_of_pos_left (size - 1) positive
      rw [Nat.succ_eq_add_one,Nat.mul_add,Nat.mul_add]
      omega))
  have order : offset / blockSize ≤ (offset + (size - 1)) / blockSize := Nat.div_le_div_right (Nat.le_add_right _ _)
  have within := same_block positive offset (size - 1)
  rw [minus,u64_small (offset + (size - 1)) (by omega),u32_cast,u32_cast]
  generalize offset / blockSize = b at *
  generalize (offset + (size - 1)) / blockSize = b' at *
  omega

/-- The byte at a position of the file: the device's for a mapped block, 0 in a hole and
in an unwritten extent. -/
def content (blockSize : Nat) (device : Nat → UInt8) (extents : List Slot) (k : Nat) : UInt8 :=
  match mapping extents (k / blockSize) with
  | some (p,false) => device (p * blockSize + k % blockSize)
  | _ => 0

/-- The position lies in a block that no extent covers. -/
def inHole (blockSize : Nat) (extents : List Slot) (k : Nat) : Prop := ∀ x ∈ extents, ¬covers x (k / blockSize)

theorem content_hole {blockSize : Nat} (device : Nat → UInt8) {extents : List Slot} {k : Nat}
    (hole : inHole blockSize extents k) : content blockSize device extents k = 0 := by
  rw [content,mapping_none hole]

/-- From a block on, the bytes that its extent maps lie one after another on the device. -/
theorem content_extent {blockSize d low high : Nat} {t : Tree d} (wf : Wf d low t high) (positive : 0 < blockSize)
    (device : Nat → UInt8) {x : Slot} (member : x ∈ flat d t) (written : ext4ExtIsUnwritten x = false) {b i : Nat}
    (covered : covers x b) (inside : i < (extentStop x - b) * blockSize) :
    ¬inHole blockSize (flat d t) (b * blockSize + i) ∧
      content blockSize device (flat d t) (b * blockSize + i) =
        device ((ext4ExtPblock x + (b - x.eeBlock)) * blockSize + i) := by
  have quotient : (b * blockSize + i) / blockSize = b + i / blockSize := by
    rw [Nat.mul_comm,Nat.mul_add_div positive]
  have remainder : (b * blockSize + i) % blockSize = i % blockSize := by
    rw [Nat.mul_comm,Nat.mul_add_mod]
  have near : i / blockSize < extentStop x - b := Nat.div_lt_of_lt_mul (by rwa [Nat.mul_comm])
  have here : covers x (b + i / blockSize) := by
    generalize i / blockSize = j at near
    exact ⟨Nat.le_trans covered.1 (Nat.le_add_right _ _),by omega⟩
  refine ⟨fun hole => hole x member (by rwa [quotient]),?_⟩
  have parts := Nat.div_add_mod i blockSize
  have start := covered.1
  have position : (ext4ExtPblock x + (b + i / blockSize - x.eeBlock)) * blockSize + i % blockSize =
      (ext4ExtPblock x + (b - x.eeBlock)) * blockSize + i := by
    rw [show ext4ExtPblock x + (b + i / blockSize - x.eeBlock) = ext4ExtPblock x + (b - x.eeBlock) + i / blockSize by
      generalize i / blockSize = j
      omega,Nat.add_mul,Nat.mul_comm (i / blockSize),Nat.add_assoc,parts]
  rw [content,quotient,remainder,mapping_some member here fun y other both => covers_unique wf member other here both,written]
  exact congrArg device position

end Ext4Fuse.FileContent
