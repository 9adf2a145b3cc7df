import Ext4Fuse.Super
import Ext4Fuse.FlatDevice

/-! Where an inode is on the device: the group, the index in the group and the byte offset
that `inode_get_by_number` and `inode_set_by_number` make of its number. -/
namespace Ext4Fuse.InodeTable
open Machine Ext4Fuse.Types Super FlatDevice Library.Bytes

/-- `sizeof(struct ext4_inode)`. -/
def sizeofInode : Nat := 156

variable (sb : SuperBlock) (gdesc : Nat → GroupDesc)

/-- `super_group_inode_table_offset`; a failing assertion has no result. -/
def superGroupInodeTableOffset (inodeNum : Nat) : Option Int :=
  let nGroup := inodeNum / superInodesPerGroup sb
  if nGroup < superNBlockGroups sb then
    some (i64 (u64 (ext4InodeTable sb (gdesc nGroup) * superBlockSize sb : Nat)))
  else none

/-- The product is one of two `uint32_t`. -/
def inodeOffset (n : Nat) : Option Int :=
  (superGroupInodeTableOffset sb gdesc n).map fun off =>
    off + u32 (n % superInodesPerGroup sb * superInodeSize sb : Nat)

def inodeBytes : Nat := min (superInodeSize sb) sizeofInode

def enoent : Int := 2

/-- What is returned, and the caller's `struct ext4_inode`. -/
def inodeGetByNumber (device : Device) (n : Nat) (inode : Nat → UInt8) : Option (Int × (Nat → UInt8)) :=
  if n = 0 then some (-enoent,inode)
  else do
    let off ← inodeOffset sb gdesc (n - 1)
    let bytes ← diskRead device off (inodeBytes sb)
    return (0,overlay inode 0 bytes)

def inodeSetByNumber (device : Device) (n : Nat) (inode : Nat → UInt8) : Option (Int × Device) :=
  if n = 0 then some (-enoent,device)
  else do
    let off ← inodeOffset sb gdesc (n - 1)
    let device ← diskWrite device off (slice inode 0 (inodeBytes sb))
    return (0,device)

/-! Where the inodes are. -/

/-- The first byte of a group's table. -/
def tableStart (g : Nat) : Nat := ext4InodeTable sb (gdesc g) * superBlockSize sb

def tableBytes : Nat := superInodesPerGroup sb * superInodeSize sb

/-- Inode sizes that ext4 has, and tables on the device that do not overlap; `inodesCount` is
the number of the last inode. -/
structure Layout (inodesCount : Nat) : Prop where
  block : sb.sLogBlockSize.toNat ≤ 6
  power : ∃ e, superInodeSize sb = 2^e
  size : 128 ≤ superInodeSize sb ∧ superInodeSize sb ≤ superBlockSize sb
  group : 0 < superInodesPerGroup sb
  count : inodesCount ≤ superInodesPerGroup sb * superNBlockGroups sb
  fits : ∀ g, g < superNBlockGroups sb → tableStart sb gdesc g + tableBytes sb ≤ 2^63
  apart : ∀ g h, g < superNBlockGroups sb → h < superNBlockGroups sb → g ≠ h →
    tableStart sb gdesc g + tableBytes sb ≤ tableStart sb gdesc h ∨ tableStart sb gdesc h + tableBytes sb ≤ tableStart sb gdesc g

/-- The first byte of an inode. -/
def inodeStart (n : Nat) : Nat :=
  tableStart sb gdesc ((n - 1) / superInodesPerGroup sb) + (n - 1) % superInodesPerGroup sb * superInodeSize sb

/-- An inode is stored under its number and read back, and nothing else changes. -/
def Framed (inodesCount : Nat) : Prop :=
  ∀ n, 1 ≤ n → n ≤ inodesCount → ∀ device x, ∃ device', inodeSetByNumber sb gdesc device n x = some (0,device') ∧
    (∀ buf, ∃ y, inodeGetByNumber sb gdesc device' n buf = some (0,y) ∧ ∀ i, i < inodeBytes sb → y i = x i) ∧
    (∀ m buf, 1 ≤ m → m ≤ inodesCount → m ≠ n →
      inodeGetByNumber sb gdesc device' m buf = inodeGetByNumber sb gdesc device m buf) ∧
    ∀ p, p < inodeStart sb gdesc n ∨ inodeStart sb gdesc n + inodeBytes sb ≤ p → device' p = device p

variable {sb gdesc} {inodesCount n : Nat}

theorem superGroupInodeTableOffset_map {α : Type} (x : α) (inodeNum : Nat) :
    (superGroupInodeTableOffset sb gdesc inodeNum).map (fun _ => x) =
      if inodeNum / superInodesPerGroup sb < superNBlockGroups sb then some x else none := by
  simp only [superGroupInodeTableOffset]
  generalize i64 _ = off
  split
  · rfl
  · rfl

theorem Layout.inGroup (layout : Layout sb gdesc inodesCount) (first : 1 ≤ n) (last : n ≤ inodesCount) :
    (n - 1) / superInodesPerGroup sb < superNBlockGroups sb := by
  have count := layout.count
  exact (Nat.div_lt_iff_lt_mul layout.group).mpr (by rw [Nat.mul_comm]; omega)

/-- An inode lies in its group's table. -/
theorem Layout.inTable (layout : Layout sb gdesc inodesCount) :
    (n - 1) % superInodesPerGroup sb * superInodeSize sb + superInodeSize sb ≤ tableBytes sb := by
  have index := Nat.mod_lt (n - 1) layout.group
  have rows := Nat.mul_le_mul_right (superInodeSize sb) (Nat.succ_le_of_lt index)
  rw [Nat.succ_mul] at rows
  exact rows

/-- Different inodes do not share a byte. -/
theorem Layout.inodes_apart (layout : Layout sb gdesc inodesCount) {m : Nat} (first : 1 ≤ n) (last : n ≤ inodesCount)
    (first' : 1 ≤ m) (last' : m ≤ inodesCount) (other : m ≠ n) :
    inodeStart sb gdesc m + superInodeSize sb ≤ inodeStart sb gdesc n ∨
      inodeStart sb gdesc n + superInodeSize sb ≤ inodeStart sb gdesc m := by
  have here := layout.inTable (n := n)
  have there := layout.inTable (n := m)
  unfold inodeStart
  by_cases groups : (m - 1) / superInodesPerGroup sb = (n - 1) / superInodesPerGroup sb
  · have parts := Nat.div_add_mod (n - 1) (superInodesPerGroup sb)
    have parts' := Nat.div_add_mod (m - 1) (superInodesPerGroup sb)
    rw [groups] at parts' ⊢
    rcases Nat.lt_or_gt_of_ne (show (m - 1) % superInodesPerGroup sb ≠ (n - 1) % superInodesPerGroup sb by omega) with less | more
    · have rows := Nat.mul_le_mul_right (superInodeSize sb) (Nat.succ_le_of_lt less)
      rw [Nat.succ_mul] at rows
      omega
    · have rows := Nat.mul_le_mul_right (superInodeSize sb) (Nat.succ_le_of_lt more)
      rw [Nat.succ_mul] at rows
      omega
  · have tables := layout.apart _ _ (layout.inGroup first' last') (layout.inGroup first last) groups
    omega

theorem Layout.tableOffset (layout : Layout sb gdesc inodesCount) (first : 1 ≤ n) (last : n ≤ inodesCount) :
    superGroupInodeTableOffset sb gdesc (n - 1) = some (tableStart sb gdesc ((n - 1) / superInodesPerGroup sb) : Int) := by
  have group := layout.inGroup first last
  have fits := layout.fits _ group
  have small : 0 < tableBytes sb := Nat.mul_pos layout.group (by have := layout.size; omega)
  have bound : tableStart sb gdesc ((n - 1) / superInodesPerGroup sb) < 2^63 := by omega
  rw [superGroupInodeTableOffset]
  simp only [if_pos group]
  rw [← tableStart,u64_small _ (Nat.lt_trans bound (by decide)),i64_nat bound]

/-- The bytes the program takes for an inode are its own as long as the product fits 32 bits. -/
theorem Layout.inodeOffset (layout : Layout sb gdesc inodesCount) (first : 1 ≤ n) (last : n ≤ inodesCount)
    (fits : (n - 1) % superInodesPerGroup sb * superInodeSize sb < 2^32) :
    inodeOffset sb gdesc (n - 1) = some (inodeStart sb gdesc n : Int) := by
  rw [InodeTable.inodeOffset,layout.tableOffset first last,Option.map_some,u32_small _ fits,inodeStart,Nat.cast_add]

theorem inodeBytes_le : inodeBytes sb ≤ superInodeSize sb := Nat.min_le_left _ _

theorem inodeSetByNumber_eq {off : Nat} (first : 1 ≤ n) (place : inodeOffset sb gdesc (n - 1) = some (off : Int))
    (device : Device) (x : Nat → UInt8) :
    inodeSetByNumber sb gdesc device n x = some (0,overlay device off (slice x 0 (inodeBytes sb))) := by
  rw [inodeSetByNumber,if_neg (by omega),place]
  simp [diskWrite_nat]

theorem inodeGetByNumber_eq {off : Nat} (first : 1 ≤ n) (place : inodeOffset sb gdesc (n - 1) = some (off : Int))
    (device : Device) (buf : Nat → UInt8) :
    inodeGetByNumber sb gdesc device n buf = some (0,overlay buf 0 (slice device off (inodeBytes sb))) := by
  rw [inodeGetByNumber,if_neg (by omega),place]
  simp [diskRead_nat]

/-- The products of the indices that inodes have are below the product for one more. -/
theorem index_lt (layout : Layout sb gdesc inodesCount) (fits : min (superInodesPerGroup sb) inodesCount * superInodeSize sb ≤ 2^32)
    (first : 1 ≤ n) (last : n ≤ inodesCount) : (n - 1) % superInodesPerGroup sb * superInodeSize sb < 2^32 := by
  have index := Nat.mod_lt (n - 1) layout.group
  have low := Nat.mod_le (n - 1) (superInodesPerGroup sb)
  have size := layout.size
  have bound : (n - 1) % superInodesPerGroup sb + 1 ≤ min (superInodesPerGroup sb) inodesCount := by omega
  have rows := Nat.mul_le_mul_right (superInodeSize sb) bound
  rw [Nat.succ_mul] at rows
  omega

theorem framed_of_fits (layout : Layout sb gdesc inodesCount)
    (fits : min (superInodesPerGroup sb) inodesCount * superInodeSize sb ≤ 2^32) : Framed sb gdesc inodesCount := by
  intro n first last device x
  have place := layout.inodeOffset first last (index_lt layout fits first last)
  have part := @inodeBytes_le sb
  refine ⟨_,inodeSetByNumber_eq first place device x,fun buf => ⟨_,inodeGetByNumber_eq first place _ buf,fun i inside => ?_⟩,
    fun m buf first' last' other => ?_,fun p outside => ?_⟩
  · have written := slice_overlay device (inodeStart sb gdesc n) (slice x 0 (inodeBytes sb))
    rw [slice_length] at written
    rw [written]
    have read := overlay_inside buf 0 (slice x 0 (inodeBytes sb)) i (by rwa [slice_length])
    rw [Nat.zero_add] at read
    rw [read,slice_getElem,Nat.zero_add]
  · have place' := layout.inodeOffset first' last' (index_lt layout fits first' last')
    have apart := layout.inodes_apart first last first' last' other
    rw [inodeGetByNumber_eq first' place',inodeGetByNumber_eq first' place',slice_overlay_apart]
    rw [slice_length]
    omega
  · exact overlay_outside _ _ _ _ (by rwa [slice_length])

/-- Among the powers of two that a 16-bit size can be, one beyond the bound divides it. -/
theorem wrapping_index (layout : Layout sb gdesc inodesCount)
    (large : 2^32 < min (superInodesPerGroup sb) inodesCount * superInodeSize sb) :
    ∃ k, k < superInodesPerGroup sb ∧ k < inodesCount ∧ k * superInodeSize sb = 2^32 := by
  obtain ⟨e,power⟩ := layout.power
  have word : superInodeSize sb < 2^16 := sb.sInodeSize.toNat_lt
  have small : e < 16 := by
    rw [power] at word
    exact (Nat.pow_lt_pow_iff_right (by decide)).mp word
  have split : 2^(32 - e) * 2^e = 2^32 := by rw [← Nat.pow_add,Nat.sub_add_cancel (by omega)]
  have beyond : 2^(32 - e) < min (superInodesPerGroup sb) inodesCount := by
    rw [power,← split] at large
    exact Nat.lt_of_mul_lt_mul_right large
  exact ⟨2^(32 - e),by omega,by omega,by rw [power,split]⟩

theorem fits_of_framed (layout : Layout sb gdesc inodesCount) (framed : Framed sb gdesc inodesCount) :
    min (superInodesPerGroup sb) inodesCount * superInodeSize sb ≤ 2^32 := by
  by_contra large
  obtain ⟨k,inGroup,inVolume,product⟩ := wrapping_index layout (Nat.not_le.mp large)
  have first : 1 ≤ k + 1 := by omega
  have last : k + 1 ≤ inodesCount := by omega
  have index : (k + 1 - 1) % superInodesPerGroup sb = k := Nat.mod_eq_of_lt inGroup
  have group : (k + 1 - 1) / superInodesPerGroup sb = 0 := Nat.div_eq_of_lt inGroup
  have start : inodeStart sb gdesc (k + 1) = tableStart sb gdesc 0 + 2^32 := by rw [inodeStart,index,group,product]
  -- the product wraps to the place of the first inode
  have place : inodeOffset sb gdesc (k + 1 - 1) = some (tableStart sb gdesc 0 : Int) := by
    rw [InodeTable.inodeOffset,layout.tableOffset first last,Option.map_some,index,product,group,u32_cast]
    rfl
  obtain ⟨device',stored,_,_,kept⟩ := framed (k + 1) first last (fun _ => 0) (fun _ => 1)
  rw [inodeSetByNumber_eq first place] at stored
  obtain ⟨_,rfl⟩ := Prod.mk.inj (Option.some.inj stored)
  have same := kept (tableStart sb gdesc 0) (Or.inl (by rw [start]; exact Nat.lt_add_of_pos_right (by decide)))
  have some_ : 0 < (slice (fun _ => (1 : UInt8)) 0 (inodeBytes sb)).length := by
    rw [slice_length]
    exact Nat.lt_min.mpr ⟨by have := layout.size; omega,by decide⟩
  have written := overlay_inside (fun _ => (0 : UInt8)) (tableStart sb gdesc 0) _ 0 some_
  rw [Nat.add_zero,slice_getElem] at written
  exact absurd (written.symm.trans same) (by decide)

theorem framed_iff (layout : Layout sb gdesc inodesCount) :
    Framed sb gdesc inodesCount ↔ min (superInodesPerGroup sb) inodesCount * superInodeSize sb ≤ 2^32 :=
  ⟨fits_of_framed layout,framed_of_fits layout⟩

/-- One group with its inode table at block 16. -/
def oneTable (sLogBlockSize sInodesPerGroup : UInt32) (sInodeSize : UInt16) : SuperBlock where
  sBlocksCountLo := 524288
  sBlocksCountHi := 0
  sFreeBlocksCountLo := 0
  sFreeBlocksCountHi := 0
  sFirstDataBlock := 0
  sLogBlockSize := sLogBlockSize
  sBlocksPerGroup := 524288
  sInodesPerGroup := sInodesPerGroup
  sInodeSize := sInodeSize
  sDescSize := 0
  sFirstMetaBg := 0
  sReservedGdtBlocks := 0
  sFeatureIncompat := 0
  sFeatureRoCompat := 0

def tableAt16 (_ : Nat) : GroupDesc := ⟨0,0,0,0,16,0,0,0,0⟩

theorem oneTable_groups (log inodes : UInt32) (size : UInt16) : superNBlockGroups (oneTable log inodes size) = 1 :=
  show superNBlockGroups (oneTable 0 0 0) = 1 by decide

theorem oneTable_layout {log inodes : UInt32} {size : UInt16} (block : log.toNat ≤ 6) (power : ∃ e, size.toNat = 2^e)
    (sizes : 128 ≤ size.toNat ∧ size.toNat ≤ superBlockSize (oneTable log inodes size)) (some_ : 0 < inodes.toNat)
    (fits : tableStart (oneTable log inodes size) tableAt16 0 + tableBytes (oneTable log inodes size) ≤ 2^63) :
    Layout (oneTable log inodes size) tableAt16 inodes.toNat where
  block := block
  power := power
  size := sizes
  group := some_
  count := by rw [oneTable_groups,Nat.mul_one]; exact Nat.le_refl _
  fits g _ := fits
  apart g h first second other := by
    rw [oneTable_groups] at first second
    omega

theorem framed_small : Framed (oneTable 2 8192 256) tableAt16 8192 :=
  (framed_iff (@oneTable_layout 2 8192 256 (by decide) ⟨8,rfl⟩ (by decide) (by decide) (by decide))).mpr (by decide)

/-- Inodes of 32768 bytes in blocks of 65536: that of inode 131073 begins 2^32 bytes into the
table, and is stored over the first one. -/
theorem framed_not : Layout (oneTable 6 262144 32768) tableAt16 262144 ∧ ¬Framed (oneTable 6 262144 32768) tableAt16 262144 := by
  have layout := @oneTable_layout 6 262144 32768 (by decide) ⟨15,rfl⟩ (by decide) (by decide) (by decide)
  exact ⟨layout,fun framed => absurd (fits_of_framed layout framed) (by decide)⟩

end Ext4Fuse.InodeTable
