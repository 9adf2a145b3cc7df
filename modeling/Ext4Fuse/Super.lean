import Ext4Fuse.Types

/-! `super.c`: what the superblock and the group descriptors say, and the two bitmaps'
bookkeeping. Little-endian conversions are the identity, as in `ext4_basic.h`. -/
namespace Ext4Fuse.Super
open Machine Ext4Fuse.Types Bitmap

/-- What the superblock, `gdesc_table` and the cached bitmap blocks hold. The table has
`super_n_block_groups()` entries, and an access past them has no result. -/
structure Volume where
  superBlock : SuperBlock
  gdesc : Nat → GroupDesc
  bitmap : Nat → Mem

variable (sb : SuperBlock)

def featureRoCompatSparseSuper : UInt32 := 0x0001
def featureRoCompatHugeFile : UInt32 := 0x0008
def featureIncompatMetaBg : UInt32 := 0x0010
def featureIncompatFlexBg : UInt32 := 0x0200
def bgBlockUninit : UInt16 := 0x0002
def hugeFileFl : UInt32 := 0x00040000

def hasRoCompatFeature (mask : UInt32) : Bool := sb.sFeatureRoCompat &&& mask != 0
def hasIncompatFeature (mask : UInt32) : Bool := sb.sFeatureIncompat &&& mask != 0

def ext4BlocksCount : Nat := sb.sBlocksCountHi.toNat * 2^32 + sb.sBlocksCountLo.toNat
def ext4FreeBlocksCount : Nat := sb.sFreeBlocksCountHi.toNat * 2^32 + sb.sFreeBlocksCountLo.toNat

def ext4FreeBlocksCountSet (blk : Nat) : SuperBlock :=
  {sb with sFreeBlocksCountLo := UInt32.ofNat blk,sFreeBlocksCountHi := UInt32.ofNat (blk / 2^32)}

def superBlocksPerGroup : Nat := sb.sBlocksPerGroup.toNat
def superFirstDataBlock : Nat := sb.sFirstDataBlock.toNat

def ext4GroupFirstBlockNo (groupNo : Nat) : Nat :=
  u64 (groupNo * superBlocksPerGroup sb + superFirstDataBlock sb : Nat)

def superNBlockGroups : Nat :=
  u32 (u64 (ext4BlocksCount sb + superBlocksPerGroup sb - 1 : Int) / superBlocksPerGroup sb : Nat)

def superGroupDescSize : Nat := if sb.sDescSize = 0 then 32 else 64

def superBlockSize : Nat := u32 (2^(sb.sLogBlockSize.toNat + 10) : Nat)
def superBlockSizeBits : Nat := sb.sLogBlockSize.toNat + 10
def superInodesPerGroup : Nat := sb.sInodesPerGroup.toNat
def superInodeSize : Nat := sb.sInodeSize.toNat
def superInodesPerBlock : Nat := superBlockSize sb / superInodeSize sb
def superItbPerGroup : Nat := superInodesPerGroup sb / superInodesPerBlock sb
def ext4DescPerBlock : Nat := superBlockSize sb / superGroupDescSize sb
def superNGdb : Nat := u32 (superNBlockGroups sb + ext4DescPerBlock sb - 1 : Int) / ext4DescPerBlock sb

/-- A value kept in a low half and, with 64-byte descriptors, in a high half. -/
def descValue (lo hi shift : Nat) : Nat := if 64 ≤ superGroupDescSize sb then hi * 2^shift + lo else lo

def ext4BlockBitmap (bg : GroupDesc) : Nat := descValue sb bg.bgBlockBitmapLo.toNat bg.bgBlockBitmapHi.toNat 32
def ext4InodeBitmap (bg : GroupDesc) : Nat := descValue sb bg.bgInodeBitmapLo.toNat bg.bgInodeBitmapHi.toNat 32
def ext4InodeTable (bg : GroupDesc) : Nat := descValue sb bg.bgInodeTableLo.toNat bg.bgInodeTableHi.toNat 32
def ext4FreeBlksCount (bg : GroupDesc) : Nat :=
  descValue sb bg.bgFreeBlocksCountLo.toNat bg.bgFreeBlocksCountHi.toNat 16

def ext4FreeBlksSet (bg : GroupDesc) (count : Nat) : GroupDesc :=
  let bg := {bg with bgFreeBlocksCountLo := UInt16.ofNat count}
  if 64 ≤ superGroupDescSize sb then {bg with bgFreeBlocksCountHi := UInt16.ofNat (count / 2^16)} else bg

/-- `ext4_get_group_no_and_offset`: what it stores as the group and as the offset. -/
def ext4GetGroupNoAndOffset (blocknr : Nat) : Nat × Nat :=
  let blocknr := u64 (blocknr - superFirstDataBlock sb : Int)
  (u32 blocknr,blocknr / superBlocksPerGroup sb)

def ext4BlockInGroup (blk blockGroup : Nat) : Bool := (ext4GetGroupNoAndOffset sb blk).1 = blockGroup

/-- The `while` loop of `test_root`, whose product wraps in 32 bits: a loop that makes
2^32 rounds has come back to a value and never ends. -/
def testRootLoop (a b : Nat) : Nat → Nat → Option Bool
  | 0, _ => none
  | rounds+1, num => if num < a then testRootLoop a b rounds (u32 (num * b : Nat)) else some (num = a)

def testRoot (a b : Nat) : Option Bool := testRootLoop a b (2^32 + 1) b

def ext4GroupSparse (group : Nat) : Option Bool :=
  if group ≤ 1 then some true
  else if group % 2 = 0 then some false
  else do
    if ← testRoot group 7 then return true
    if ← testRoot group 5 then return true
    testRoot group 3

def ext4BgHasSuper (group : Nat) : Option Nat :=
  if hasRoCompatFeature sb featureRoCompatSparseSuper then
    (ext4GroupSparse group).map fun sparse => if sparse then 1 else 0
  else some 1

def ext4BgNumGdbMeta (group : Nat) : Nat :=
  let metagroup := group / ext4DescPerBlock sb
  let first := u32 (metagroup * ext4DescPerBlock sb : Nat)
  let last := u32 (first + ext4DescPerBlock sb - 1 : Int)
  if group = first ∨ group = u32 (first + 1 : Nat) ∨ group = last then 1 else 0

def ext4BgNumGdbNometa (group : Nat) : Option Nat :=
  (ext4BgHasSuper sb group).map fun super => if super ≠ 0 then superNGdb sb else 0

def ext4BgNumGdb (group : Nat) : Option Nat :=
  let metagroup := group / ext4DescPerBlock sb
  if !hasIncompatFeature sb featureIncompatMetaBg || metagroup < sb.sFirstMetaBg.toNat then ext4BgNumGdbNometa sb group
  else some (ext4BgNumGdbMeta sb group)

/-- The blocks of the group's inode table, as the loops over it count them. -/
def itableBlocks (bg : GroupDesc) : List Nat :=
  (List.range (superItbPerGroup sb)).map fun i => ext4InodeTable sb bg + i

def ext4GroupUsedMetaBlocks (bg : GroupDesc) (blockGroup : Nat) : Int :=
  let usedBlocks : Int := superItbPerGroup sb + 2
  if hasIncompatFeature sb featureIncompatFlexBg then
    let outside := fun blk => if ext4BlockInGroup sb blk blockGroup then (0 : Int) else 1
    usedBlocks - outside (ext4BlockBitmap sb bg) - outside (ext4InodeBitmap sb bg) -
      ((itableBlocks sb bg).map outside).sum
  else usedBlocks

/-- `ext4_set_bit` in a bitmap block: a bit outside the block has no result. -/
def ext4SetBit (nr : Int) (mem : Mem) : Option Mem :=
  if 0 ≤ nr ∧ nr < superBlockSize sb * 8 then some (setBit nr.toNat mem 0) else none

/-- `mark_bitmap_end`: bit by bit up to the next byte, then whole bytes. -/
def markBitmapEnd (startBit endBit : Nat) (mem : Mem) : Option Mem := do
  if endBit ≤ startBit then return mem
  let byte := (startBit + 7) / 8 * 8
  let mem ← (List.range' startBit (byte - startBit)).foldlM (fun mem i => ext4SetBit sb i mem) mem
  return if byte < endBit then filled mem 0 byte (byte + (endBit - byte) / 8 * 8) true else mem

def ext4IsBlockBitmapInited (bg : GroupDesc) : Bool := bg.bgFlags &&& bgBlockUninit == 0

/-- `group_blocks` of `ext4_init_block_bitmap`. -/
def groupBlocks (blockGroup : Nat) : Nat :=
  if blockGroup = u32 (superNBlockGroups sb - 1 : Int) then
    u32 (ext4BlocksCount sb - superFirstDataBlock sb - superBlocksPerGroup sb * (superNBlockGroups sb - 1) : Int)
  else u32 (superBlocksPerGroup sb : Nat)

/-- The blocks at the start of a group that hold the superblock and the descriptors. -/
def backupBlocks (blockGroup : Nat) : Option Nat := do
  let bitMax ← ext4BgHasSuper sb blockGroup
  if !hasIncompatFeature sb featureIncompatMetaBg || blockGroup < sb.sFirstMetaBg.toNat * ext4DescPerBlock sb then
    if bitMax ≠ 0 then return bitMax + (← ext4BgNumGdb sb blockGroup) + sb.sReservedGdtBlocks.toNat
    else return bitMax
  else return bitMax + (← ext4BgNumGdb sb blockGroup)

/-- `ext4_init_block_bitmap`: the bitmap, the descriptor without its flag, and the
number of free blocks that it returns. -/
def ext4InitBlockBitmap (bg : GroupDesc) (blockGroup : Nat) : Option (Mem × GroupDesc × Nat) := do
  let bitMax ← backupBlocks sb blockGroup
  let groupBlocks := groupBlocks sb blockGroup
  let freeBlocks := u32 (groupBlocks - bitMax : Int)
  let start := ext4GroupFirstBlockNo sb blockGroup
  let flexBg := hasIncompatFeature sb featureIncompatFlexBg
  let setOwn := fun (mem : Mem) (blk : Nat) =>
    if !flexBg || ext4BlockInGroup sb blk blockGroup then ext4SetBit sb (blk - start) mem else some mem
  let mem ← (List.range bitMax).foldlM (fun mem bit => ext4SetBit sb bit mem) (fun _ => false)
  let mem ← setOwn mem (ext4BlockBitmap sb bg)
  let mem ← setOwn mem (ext4InodeBitmap sb bg)
  let mem ← (itableBlocks sb bg).foldlM setOwn mem
  let mem ← markBitmapEnd sb groupBlocks (superBlockSize sb * 8) mem
  let bg := {bg with bgFlags := bg.bgFlags &&& ~~~bgBlockUninit}
  return (mem,bg,u64 (u32 (freeBlocks - ext4GroupUsedMetaBlocks sb bg blockGroup) : Nat))

/-- The descriptor of a group, which the table must have. -/
def Volume.desc (v : Volume) (blockGroup : Nat) : Option GroupDesc :=
  if blockGroup < superNBlockGroups v.superBlock then some (v.gdesc blockGroup) else none

def Volume.setDesc (v : Volume) (blockGroup : Nat) (bg : GroupDesc) : Volume :=
  {v with gdesc := Function.update v.gdesc blockGroup bg}

def Volume.setBitmap (v : Volume) (blk : Nat) (mem : Mem) : Volume :=
  {v with bitmap := Function.update v.bitmap blk mem}

def ext4TryToInitBlockBitmap (v : Volume) (blockGroup : Nat) : Option Volume := do
  let bg ← v.desc blockGroup
  if ext4IsBlockBitmapInited bg then return v
  let (mem,bg',_) ← ext4InitBlockBitmap v.superBlock bg blockGroup
  return (v.setDesc blockGroup bg').setBitmap (ext4BlockBitmap v.superBlock bg) mem

def ext4InodeBlocks (raw : RawInode) : Nat :=
  if hasRoCompatFeature sb featureRoCompatHugeFile then
    let iBlocks := raw.lIBlocksHigh.toNat * 2^32 + raw.iBlocksLo.toNat
    if raw.iFlags &&& hugeFileFl != 0 then iBlocks else iBlocks / 2^(superBlockSizeBits sb - 9)
  else raw.iBlocksLo.toNat / 2^(superBlockSizeBits sb - 9)

def ext4SetInodeBlocks (inode : Inode) (blocks : Nat) : Inode :=
  let raw := inode.rawInode
  let shifted := u64 (blocks * 2^(superBlockSizeBits sb - 9) : Nat)
  let wide : Nat → RawInode := fun blocks =>
    {raw with iBlocksLo := UInt32.ofNat blocks,lIBlocksHigh := UInt16.ofNat (blocks / 2^32)}
  let stored :=
    if hasRoCompatFeature sb featureRoCompatHugeFile then
      if raw.iFlags &&& hugeFileFl != 0 then wide blocks else wide shifted
    else {raw with iBlocksLo := UInt32.ofNat shifted}
  inodeMarkDirty {inode with rawInode := stored}

/-! Storing a free count changes nothing else. -/

section Counts
variable (blk : Nat)

@[simp] theorem superNBlockGroups_set : superNBlockGroups (ext4FreeBlocksCountSet sb blk) = superNBlockGroups sb := rfl
@[simp] theorem superBlocksPerGroup_set : superBlocksPerGroup (ext4FreeBlocksCountSet sb blk) = superBlocksPerGroup sb := rfl
@[simp] theorem superFirstDataBlock_set : superFirstDataBlock (ext4FreeBlocksCountSet sb blk) = superFirstDataBlock sb := rfl
@[simp] theorem ext4BlocksCount_set : ext4BlocksCount (ext4FreeBlocksCountSet sb blk) = ext4BlocksCount sb := rfl
@[simp] theorem superBlockSize_set : superBlockSize (ext4FreeBlocksCountSet sb blk) = superBlockSize sb := rfl
@[simp] theorem superGroupDescSize_set : superGroupDescSize (ext4FreeBlocksCountSet sb blk) = superGroupDescSize sb := rfl
@[simp] theorem ext4BlockBitmap_set (bg : GroupDesc) :
    ext4BlockBitmap (ext4FreeBlocksCountSet sb blk) bg = ext4BlockBitmap sb bg := rfl
@[simp] theorem ext4FreeBlksCount_set (bg : GroupDesc) :
    ext4FreeBlksCount (ext4FreeBlocksCountSet sb blk) bg = ext4FreeBlksCount sb bg := rfl

theorem ext4FreeBlocksCount_stored (bound : blk < 2^64) :
    ext4FreeBlocksCount (ext4FreeBlocksCountSet sb blk) = blk := by
  simp only [ext4FreeBlocksCount,ext4FreeBlocksCountSet,UInt32.toNat_ofNat']
  omega

theorem ext4FreeBlocksCountSet_self : ext4FreeBlocksCountSet sb (ext4FreeBlocksCount sb) = sb := by
  have low : UInt32.ofNat (ext4FreeBlocksCount sb) = sb.sFreeBlocksCountLo := by
    rw [← UInt32.toNat_inj,UInt32.toNat_ofNat',ext4FreeBlocksCount]
    have bound := sb.sFreeBlocksCountLo.toNat_lt
    omega
  have high : UInt32.ofNat (ext4FreeBlocksCount sb / 2^32) = sb.sFreeBlocksCountHi := by
    rw [← UInt32.toNat_inj,UInt32.toNat_ofNat',ext4FreeBlocksCount]
    have bound := sb.sFreeBlocksCountLo.toNat_lt
    have bound' := sb.sFreeBlocksCountHi.toNat_lt
    omega
  rw [ext4FreeBlocksCountSet,low,high]

theorem ext4FreeBlocksCount_lt : ext4FreeBlocksCount sb < 2^64 := by
  have low := sb.sFreeBlocksCountLo.toNat_lt
  have high := sb.sFreeBlocksCountHi.toNat_lt
  unfold ext4FreeBlocksCount
  omega

end Counts

/-- The free counts a group descriptor can hold. -/
def freeBlksLimit : Nat := if 64 ≤ superGroupDescSize sb then 2^32 else 2^16

theorem freeBlksLimit_le : freeBlksLimit sb ≤ 2^32 := by
  unfold freeBlksLimit
  split <;> omega

theorem ext4FreeBlksCount_lt (bg : GroupDesc) : ext4FreeBlksCount sb bg < freeBlksLimit sb := by
  have low := bg.bgFreeBlocksCountLo.toNat_lt
  have high := bg.bgFreeBlocksCountHi.toNat_lt
  unfold ext4FreeBlksCount descValue freeBlksLimit
  split <;> omega

theorem ext4FreeBlksCount_stored (bg : GroupDesc) (count : Nat) (bound : count < freeBlksLimit sb) :
    ext4FreeBlksCount sb (ext4FreeBlksSet sb bg count) = count := by
  unfold freeBlksLimit at bound
  unfold ext4FreeBlksCount ext4FreeBlksSet descValue
  split at bound
  · rename_i wide
    simp only [if_pos wide,UInt16.toNat_ofNat']
    omega
  · rename_i narrow
    simp only [if_neg narrow,UInt16.toNat_ofNat']
    omega

@[simp] theorem ext4BlockBitmap_freeBlksSet (bg : GroupDesc) (count : Nat) :
    ext4BlockBitmap sb (ext4FreeBlksSet sb bg count) = ext4BlockBitmap sb bg := by
  unfold ext4FreeBlksSet
  split <;> rfl

@[simp] theorem ext4IsBlockBitmapInited_freeBlksSet (bg : GroupDesc) (count : Nat) :
    ext4IsBlockBitmapInited (ext4FreeBlksSet sb bg count) = ext4IsBlockBitmapInited bg := by
  unfold ext4FreeBlksSet
  split <;> rfl

/-! The groups of a volume. -/

/-- The blocks that group number `g` has. -/
def groupLength (g : Nat) : Nat :=
  if g + 1 = superNBlockGroups sb then
    ext4BlocksCount sb - superFirstDataBlock sb - superBlocksPerGroup sb * (superNBlockGroups sb - 1)
  else superBlocksPerGroup sb

def groupStart (g : Nat) : Nat := superFirstDataBlock sb + g * superBlocksPerGroup sb

/-- A group's bitmap fits its block, the group count its type, and the last group has a block. -/
structure Geometry : Prop where
  small : sb.sLogBlockSize.toNat ≤ 6
  positive : 0 < superBlocksPerGroup sb
  fits : superBlocksPerGroup sb ≤ superBlockSize sb * 8
  groups : (ext4BlocksCount sb + superBlocksPerGroup sb - 1) / superBlocksPerGroup sb < 2^32
  last : superFirstDataBlock sb + superBlocksPerGroup sb * (superNBlockGroups sb - 1) < ext4BlocksCount sb

/-- What `Geometry` says of the sizes alone. -/
structure Sizes : Prop where
  small : sb.sLogBlockSize.toNat ≤ 6
  positive : 0 < superBlocksPerGroup sb
  fits : superBlocksPerGroup sb ≤ superBlockSize sb * 8
  groups : (ext4BlocksCount sb + superBlocksPerGroup sb - 1) / superBlocksPerGroup sb < 2^32

@[simp] theorem groupLength_set (blk g : Nat) :
    groupLength (ext4FreeBlocksCountSet sb blk) g = groupLength sb g := rfl
@[simp] theorem groupStart_set (blk g : Nat) : groupStart (ext4FreeBlocksCountSet sb blk) g = groupStart sb g := rfl
@[simp] theorem freeBlksLimit_set (blk : Nat) : freeBlksLimit (ext4FreeBlocksCountSet sb blk) = freeBlksLimit sb := rfl

variable {sb}

theorem superBlockSize_eq (small : sb.sLogBlockSize.toNat ≤ 6) : superBlockSize sb = 2^superBlockSizeBits sb := by
  have power : 2^(sb.sLogBlockSize.toNat + 10) ≤ 2^16 :=
    Nat.pow_le_pow_right Nat.zero_lt_two (Nat.add_le_add_right small 10)
  rw [superBlockSize,u32_small _ (Nat.lt_of_le_of_lt power (by decide)),superBlockSizeBits]

theorem superBlockSize_le (small : sb.sLogBlockSize.toNat ≤ 6) : superBlockSize sb ≤ 65536 := by
  rw [superBlockSize_eq small]
  have power : 2^superBlockSizeBits sb ≤ 2^16 := Nat.pow_le_pow_right Nat.zero_lt_two (Nat.add_le_add_right small 10)
  exact power

theorem superBlockSize_ge (small : sb.sLogBlockSize.toNat ≤ 6) : 1024 ≤ superBlockSize sb := by
  rw [superBlockSize_eq small]
  have power : 2^10 ≤ 2^superBlockSizeBits sb := Nat.pow_le_pow_right Nat.zero_lt_two (Nat.le_add_left 10 _)
  exact power

theorem Geometry.sizes (geometry : Geometry sb) : Sizes sb :=
  ⟨geometry.small,geometry.positive,geometry.fits,geometry.groups⟩

theorem Sizes.blockSize_le (sizes : Sizes sb) : superBlockSize sb ≤ 65536 := superBlockSize_le sizes.small

theorem Geometry.blockSize_le (geometry : Geometry sb) : superBlockSize sb ≤ 65536 := superBlockSize_le geometry.small

theorem superBlocksPerGroup_lt (sb : SuperBlock) : superBlocksPerGroup sb < 2^32 := sb.sBlocksPerGroup.toNat_lt

theorem superFirstDataBlock_lt (sb : SuperBlock) : superFirstDataBlock sb < 2^32 := sb.sFirstDataBlock.toNat_lt

/-- The group count, where its type has room for it. -/
theorem superNBlockGroups_eq (positive : 0 < superBlocksPerGroup sb)
    (groups : (ext4BlocksCount sb + superBlocksPerGroup sb - 1) / superBlocksPerGroup sb < 2^32) :
    superNBlockGroups sb = (ext4BlocksCount sb + superBlocksPerGroup sb - 1) / superBlocksPerGroup sb := by
  have per := superBlocksPerGroup_lt sb
  have bound := (Nat.div_lt_iff_lt_mul positive).mp groups
  have cast : (ext4BlocksCount sb + superBlocksPerGroup sb - 1 : Int) =
      ((ext4BlocksCount sb + superBlocksPerGroup sb - 1 : Nat) : Int) := by omega
  rw [superNBlockGroups,cast,u64_small _ (by omega),u32_small _ groups]

theorem Sizes.blocksCount_lt (sizes : Sizes sb) :
    ext4BlocksCount sb + superBlocksPerGroup sb - 1 < 2^32 * superBlocksPerGroup sb :=
  (Nat.div_lt_iff_lt_mul sizes.positive).mp sizes.groups

theorem Sizes.nBlockGroups (sizes : Sizes sb) :
    superNBlockGroups sb = (ext4BlocksCount sb + superBlocksPerGroup sb - 1) / superBlocksPerGroup sb :=
  superNBlockGroups_eq sizes.positive sizes.groups

theorem Geometry.nBlockGroups (geometry : Geometry sb) :
    superNBlockGroups sb = (ext4BlocksCount sb + superBlocksPerGroup sb - 1) / superBlocksPerGroup sb :=
  geometry.sizes.nBlockGroups

theorem Sizes.nBlockGroups_lt (sizes : Sizes sb) : superNBlockGroups sb < 2^32 := by
  rw [sizes.nBlockGroups]
  exact sizes.groups

/-- Every block of the volume from the first data block on lies in a group. -/
theorem Sizes.group_lt (sizes : Sizes sb) {block : Nat} (inside : block < ext4BlocksCount sb) :
    (block - superFirstDataBlock sb) / superBlocksPerGroup sb < superNBlockGroups sb := by
  have positive := sizes.positive
  rw [sizes.nBlockGroups]
  have least := Nat.div_le_div_right (c := superBlocksPerGroup sb) (show block - superFirstDataBlock sb + superBlocksPerGroup sb ≤
    ext4BlocksCount sb + superBlocksPerGroup sb - 1 by omega)
  rw [Nat.add_div_right _ positive] at least
  exact least

theorem Geometry.nBlockGroups_pos (geometry : Geometry sb) : 0 < superNBlockGroups sb := by
  have last := geometry.last
  rw [geometry.nBlockGroups]
  exact Nat.div_pos (by omega) geometry.positive

theorem Geometry.nBlockGroups_lt (geometry : Geometry sb) : superNBlockGroups sb < 2^32 := geometry.sizes.nBlockGroups_lt

/-- The last group holds what the groups before it leave. -/
theorem Geometry.lastPart (geometry : Geometry sb) :
    ext4BlocksCount sb = superBlocksPerGroup sb * (superNBlockGroups sb - 1) +
      if ext4BlocksCount sb % superBlocksPerGroup sb = 0 then superBlocksPerGroup sb
      else ext4BlocksCount sb % superBlocksPerGroup sb := by
  have positive := geometry.positive
  have last := geometry.last
  have groups := geometry.nBlockGroups
  generalize ext4BlocksCount sb = count at *
  generalize superBlocksPerGroup sb = per at *
  have parts := Nat.div_add_mod count per
  have part := Nat.mod_lt count positive
  split
  · rename_i whole
    have quotient : (count + per - 1) / per = count / per := by
      rw [show count + per - 1 = (per - 1) + per * (count / per) by omega,Nat.add_mul_div_left _ _ positive,
        Nat.div_eq_of_lt (by omega),Nat.zero_add]
    have one : 1 ≤ count / per := Nat.div_pos (Nat.le_of_dvd (by omega) (Nat.dvd_of_mod_eq_zero whole)) positive
    obtain ⟨q,before⟩ := Nat.exists_eq_add_of_le' one
    rw [groups,quotient,before,Nat.add_sub_cancel,← Nat.mul_succ,Nat.succ_eq_add_one,← before]
    omega
  · rename_i some
    have quotient : (count + per - 1) / per = count / per + 1 := by
      rw [show count + per - 1 = (count % per - 1) + per * (count / per + 1) by rw [Nat.mul_succ]; omega,
        Nat.add_mul_div_left _ _ positive,Nat.div_eq_of_lt (by omega),Nat.zero_add]
    rw [groups,quotient,Nat.add_sub_cancel]
    exact parts.symm

theorem Geometry.groupLength_le (geometry : Geometry sb) (g : Nat) :
    groupLength sb g ≤ superBlocksPerGroup sb := by
  have part := geometry.lastPart
  have below := Nat.mod_lt (ext4BlocksCount sb) geometry.positive
  unfold groupLength
  split
  · split at part <;> omega
  · exact Nat.le_refl _

theorem groupStart_group (positive : 0 < superBlocksPerGroup sb) (g i : Nat) (inside : i < superBlocksPerGroup sb) :
    (groupStart sb g + i - superFirstDataBlock sb) / superBlocksPerGroup sb = g := by
  rw [groupStart,show superFirstDataBlock sb + g * superBlocksPerGroup sb + i - superFirstDataBlock sb =
    i + superBlocksPerGroup sb * g by rw [Nat.mul_comm g]; omega,Nat.add_mul_div_left _ _ positive,
    Nat.div_eq_of_lt inside,Nat.zero_add]

/-- Groups share no block. -/
theorem groupStart_apart (positive : 0 < superBlocksPerGroup sb) {g g' i i' : Nat}
    (inside : i < superBlocksPerGroup sb) (inside' : i' < superBlocksPerGroup sb)
    (same : groupStart sb g + i = groupStart sb g' + i') : g = g' ∧ i = i' := by
  have left := groupStart_group positive g i inside
  have right := groupStart_group positive g' i' inside'
  rw [same,right] at left
  subst left
  exact ⟨rfl,Nat.add_left_cancel same⟩

end Ext4Fuse.Super
