import Mathlib.Data.Int.Basic
import Mathlib.Algebra.Group.Int.Defs
import Mathlib.Algebra.Group.Nat.Defs

/-! The fixed-width conversions the C code makes when it assigns one integer
type to another, and the block sizes a superblock can name. -/
namespace Ext4Fuse.Machine

def u8 (x : Int) : Nat := (x % 2^8).toNat
def u16 (x : Int) : Nat := (x % 2^16).toNat
def u32 (x : Int) : Nat := (x % 2^32).toNat
def u64 (x : Int) : Nat := (x % 2^64).toNat
def i32 (x : Int) : Int := x.bmod (2^32)

theorem u16_small (x : Nat) (bound : x < 2^16) : u16 x = x := by
  unfold u16
  omega

theorem u32_small (x : Nat) (bound : x < 2^32) : u32 x = x := by
  unfold u32
  omega

theorem u32_cast (x : Nat) : u32 x = x % 2^32 := by
  unfold u32
  omega

theorem u64_small (x : Nat) (bound : x < 2^64) : u64 x = x := by
  unfold u64
  omega

theorem u32_lt (x : Int) : u32 x < 2^32 := by
  unfold u32
  omega

theorem i32_small (x : Int) (low : -2^31 ≤ x) (high : x < 2^31) : i32 x = x := by
  unfold i32
  rw [Int.bmod_def]
  omega

theorem i32_lt (x : Int) : i32 x < 2^31 := by
  unfold i32
  rw [Int.bmod_def]
  omega

/-- A block size: `super_block_size` shifts 1024 left by `s_log_block_size`,
which ext4 bounds by six. -/
structure BlockSize where
  log : Nat
  log_le : log ≤ 6
  deriving DecidableEq

/-- Blocks of 1 KiB are the smallest. -/
def smallBlock : BlockSize := ⟨0,Nat.zero_le 6⟩

def BlockSize.bytes (block : BlockSize) : Nat := 2^(block.log + 10)

theorem BlockSize.bytes_le (block : BlockSize) : block.bytes ≤ 65536 := by
  have bound : block.log + 10 ≤ 16 := by have := block.log_le; omega
  exact Nat.pow_le_pow_right (Nat.zero_lt_two) bound

theorem BlockSize.le_bytes (block : BlockSize) : 1024 ≤ block.bytes := by
  have bound : 10 ≤ block.log + 10 := by omega
  exact Nat.pow_le_pow_right (Nat.zero_lt_two) bound

theorem BlockSize.pos (block : BlockSize) : 0 < block.bytes := by
  have := block.le_bytes
  omega

end Ext4Fuse.Machine
