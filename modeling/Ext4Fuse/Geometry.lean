import Ext4Fuse.Super
import Ext4Fuse.Library.Bytes

/-! Mounting a superblock image. `main` looks at the magic number only; every other field
goes into the sizes that the program divides by as it stands on the disk. -/
namespace Ext4Fuse.Geometry
open Machine Ext4Fuse.Types Super Library.Bytes

/-- A little-endian field of the image. -/
def field (image : Nat → UInt8) (offset width : Nat) : Nat := leValue (slice image offset width)

def sMagic (image : Nat → UInt8) : Nat := field image 0x38 2

/-- `struct ext4_super_block`, for the fields that the model has. -/
def superBlockOf (image : Nat → UInt8) : SuperBlock where
  sBlocksCountLo := UInt32.ofNat (field image 0x04 4)
  sBlocksCountHi := UInt32.ofNat (field image 0x150 4)
  sFreeBlocksCountLo := UInt32.ofNat (field image 0x0c 4)
  sFreeBlocksCountHi := UInt32.ofNat (field image 0x158 4)
  sFirstDataBlock := UInt32.ofNat (field image 0x14 4)
  sLogBlockSize := UInt32.ofNat (field image 0x18 4)
  sBlocksPerGroup := UInt32.ofNat (field image 0x20 4)
  sInodesPerGroup := UInt32.ofNat (field image 0x28 4)
  sInodeSize := UInt16.ofNat (field image 0x58 2)
  sDescSize := UInt16.ofNat (field image 0xfe 2)
  sFirstMetaBg := UInt32.ofNat (field image 0x104 4)
  sReservedGdtBlocks := UInt16.ofNat (field image 0xce 2)
  sFeatureIncompat := UInt32.ofNat (field image 0x60 4)
  sFeatureRoCompat := UInt32.ofNat (field image 0x64 4)

variable (sb : SuperBlock)

/-- The shift of `super_block_size`, whose sum wraps in 32 bits. -/
def blockSizeShift : Nat := u32 (sb.sLogBlockSize.toNat + 10 : Nat)

/-- `super_block_size`: a shift by 64 or more has no result. -/
def superBlockSizeChecked : Option Nat :=
  if blockSizeShift sb < 64 then some (u32 (u64 (2^blockSizeShift sb : Nat) : Nat)) else none

/-- A division by zero has no result. -/
def divide (a b : Nat) : Option Nat := if b = 0 then none else some (a / b)

/-- `super_n_block_groups`. -/
def superNBlockGroupsChecked : Option Nat :=
  (divide (u64 (ext4BlocksCount sb + superBlocksPerGroup sb - 1 : Int)) (superBlocksPerGroup sb)).map fun n : Nat => u32 n

/-- `super_fill`, whose `fs_cache_init` does not fail. Its log lines have the sizes computed. -/
def superFill (image : Nat → UInt8) : Option SuperBlock := do
  let sb := superBlockOf image
  let _ ← superBlockSizeChecked sb
  let _ ← superNBlockGroupsChecked sb
  return sb

inductive Mount
  | refused
  | mounted (sb : SuperBlock)

/-- `main`, then `super_fill`. -/
def mount (image : Nat → UInt8) : Option Mount :=
  if sMagic image ≠ 0xEF53 then some .refused else (superFill image).map .mounted

/-- What the program divides by. -/
structure Sizes where
  blockSize : Nat
  blocksPerGroup : Nat
  inodesPerGroup : Nat
  inodesPerBlock : Nat
  descPerBlock : Nat
  deriving DecidableEq

def sizes : Option Sizes := do
  let blockSize ← superBlockSizeChecked sb
  let inodesPerBlock ← divide blockSize (superInodeSize sb)
  let descPerBlock ← divide blockSize (superGroupDescSize sb)
  return ⟨blockSize,superBlocksPerGroup sb,superInodesPerGroup sb,inodesPerBlock,descPerBlock⟩

def Sizes.Nonzero (s : Sizes) : Prop :=
  s.blockSize ≠ 0 ∧ s.blocksPerGroup ≠ 0 ∧ s.inodesPerGroup ≠ 0 ∧ s.inodesPerBlock ≠ 0 ∧ s.descPerBlock ≠ 0

/-- The fields that give sizes to divide by. -/
structure Divisible : Prop where
  shift : blockSizeShift sb < 32
  groups : sb.sBlocksPerGroup ≠ 0
  inodes : sb.sInodesPerGroup ≠ 0
  inode : sb.sInodeSize ≠ 0
  inode_le : superInodeSize sb ≤ 2^blockSizeShift sb
  desc_le : superGroupDescSize sb ≤ 2^blockSizeShift sb

variable {sb}

theorem superBlockSizeChecked_small (small : blockSizeShift sb < 32) :
    superBlockSizeChecked sb = some (2^blockSizeShift sb) := by
  have bound : 2^blockSizeShift sb < 2^32 := Nat.pow_lt_pow_right (by decide) small
  rw [superBlockSizeChecked,if_pos (by omega),u64_small _ (by omega),u32_small _ bound]

/-- A shift that the 32 bits of the result do not hold. -/
theorem superBlockSizeChecked_large (large : 32 ≤ blockSizeShift sb) (size : Nat)
    (computed : superBlockSizeChecked sb = some size) : size = 0 := by
  unfold superBlockSizeChecked at computed
  split at computed
  · rename_i defined
    obtain rfl := Option.some.inj computed
    have bound : 2^blockSizeShift sb < 2^64 := Nat.pow_lt_pow_right (by decide) defined
    rw [u64_small _ bound,u32_cast]
    exact Nat.mod_eq_zero_of_dvd (Nat.pow_dvd_pow 2 large)
  · nomatch computed

theorem superBlockSizeChecked_eq (small : sb.sLogBlockSize.toNat < 22) :
    superBlockSizeChecked sb = some (superBlockSize sb) := by
  have shift : blockSizeShift sb = sb.sLogBlockSize.toNat + 10 := u32_small _ (by omega)
  have bound : 2^(sb.sLogBlockSize.toNat + 10) < 2^32 := Nat.pow_lt_pow_right (by decide) (by omega)
  rw [superBlockSizeChecked_small (by omega),shift,superBlockSize,u32_small _ bound]

theorem divide_eq {a b q : Nat} : divide a b = some q ↔ b ≠ 0 ∧ a / b = q := by
  unfold divide
  split
  · simp [*]
  · simp [*]

theorem sizes_eq {s : Sizes} : sizes sb = some s ↔
    superBlockSizeChecked sb = some s.blockSize ∧ divide s.blockSize (superInodeSize sb) = some s.inodesPerBlock ∧
      divide s.blockSize (superGroupDescSize sb) = some s.descPerBlock ∧
      s.blocksPerGroup = superBlocksPerGroup sb ∧ s.inodesPerGroup = superInodesPerGroup sb := by
  obtain ⟨blockSize,blocksPerGroup,inodesPerGroup,inodesPerBlock,descPerBlock⟩ := s
  constructor
  · intro computed
    obtain ⟨size,shifted,computed⟩ := Option.bind_eq_some_iff.mp computed
    obtain ⟨inodes,divided,computed⟩ := Option.bind_eq_some_iff.mp computed
    obtain ⟨descs,divided',computed⟩ := Option.bind_eq_some_iff.mp computed
    obtain ⟨rfl,rfl,rfl,rfl,rfl⟩ := Sizes.mk.inj (Option.some.inj computed)
    exact ⟨shifted,divided,divided',rfl,rfl⟩
  · rintro ⟨shifted,divided,divided',rfl,rfl⟩
    simp only at shifted divided divided'
    simp [sizes,shifted,divided,divided']

theorem toNat_ne_zero {x : UInt32} : x.toNat ≠ 0 ↔ x ≠ 0 :=
  not_congr (UInt32.toNat_inj (b := 0))

/-- The sizes can all be computed and divided by exactly when the fields say so. -/
theorem sizes_nonzero_iff : (∃ s, sizes sb = some s ∧ s.Nonzero) ↔ Divisible sb := by
  constructor
  · rintro ⟨s,computed,size,groups,inodes,perBlock,perDesc⟩
    obtain ⟨shifted,divided,divided',blocksPerGroup,inodesPerGroup⟩ := sizes_eq.mp computed
    obtain ⟨some_,quotient⟩ := divide_eq.mp divided
    obtain ⟨_,quotient'⟩ := divide_eq.mp divided'
    have small : blockSizeShift sb < 32 := by
      by_contra large
      exact size (superBlockSizeChecked_large (Nat.not_lt.mp large) _ shifted)
    have power := Option.some.inj ((superBlockSizeChecked_small small).symm.trans shifted)
    rw [← quotient,← power] at perBlock
    rw [← quotient',← power] at perDesc
    exact {
      shift := small
      groups := toNat_ne_zero.mp fun zero => groups (blocksPerGroup.trans zero)
      inodes := toNat_ne_zero.mp fun zero => inodes (inodesPerGroup.trans zero)
      inode := fun zero => some_ (congrArg UInt16.toNat zero)
      inode_le := Nat.not_lt.mp fun less => perBlock (Nat.div_eq_of_lt less)
      desc_le := Nat.not_lt.mp fun less => perDesc (Nat.div_eq_of_lt less)}
  · intro divisible
    have inode : superInodeSize sb ≠ 0 := fun zero => divisible.inode (UInt16.toNat_inj.mp zero)
    have desc : superGroupDescSize sb ≠ 0 := by
      unfold superGroupDescSize
      split <;> decide
    refine ⟨⟨2^blockSizeShift sb,superBlocksPerGroup sb,superInodesPerGroup sb,2^blockSizeShift sb / superInodeSize sb,
      2^blockSizeShift sb / superGroupDescSize sb⟩,sizes_eq.mpr ⟨superBlockSizeChecked_small divisible.shift,
      divide_eq.mpr ⟨inode,rfl⟩,divide_eq.mpr ⟨desc,rfl⟩,rfl,rfl⟩,?_⟩
    exact ⟨Nat.pos_iff_ne_zero.mp (Nat.two_pow_pos _),toNat_ne_zero.mpr divisible.groups,toNat_ne_zero.mpr divisible.inodes,
      Nat.pos_iff_ne_zero.mp (Nat.div_pos divisible.inode_le (Nat.pos_of_ne_zero inode)),
      Nat.pos_iff_ne_zero.mp (Nat.div_pos divisible.desc_le (Nat.pos_of_ne_zero desc))⟩

theorem superFill_some {image : Nat → UInt8} (filled : superFill image = some sb) : sb = superBlockOf image := by
  obtain ⟨_,_,filled⟩ := Option.bind_eq_some_iff.mp filled
  obtain ⟨_,_,filled⟩ := Option.bind_eq_some_iff.mp filled
  exact (Option.some.inj filled).symm

/-- What the log lines divide by is not zero either. -/
theorem superFill_eq {image : Nat → UInt8} (divisible : Divisible (superBlockOf image)) : superFill image = some (superBlockOf image) := by
  have groups : superNBlockGroupsChecked (superBlockOf image) = some (superNBlockGroups (superBlockOf image)) := by
    have some_ : superBlocksPerGroup (superBlockOf image) ≠ 0 := toNat_ne_zero.mpr divisible.groups
    rw [superNBlockGroupsChecked,divide,if_neg some_]
    rfl
  rw [superFill,superBlockSizeChecked_small divisible.shift,groups]
  rfl

/-- An image is refused, or mounted with sizes that can be divided by. -/
def Safe (image : Nat → UInt8) : Prop :=
  ∃ m, mount image = some m ∧ ∀ sb, m = .mounted sb → ∃ s, sizes sb = some s ∧ s.Nonzero

theorem safe_iff {image : Nat → UInt8} (magic : sMagic image = 0xEF53) :
    Safe image ↔ Divisible (superBlockOf image) := by
  have mount_eq : mount image = (superFill image).map .mounted := if_neg (not_not_intro magic)
  unfold Safe
  rw [mount_eq]
  constructor
  · rintro ⟨m,mounted,nonzero⟩
    obtain ⟨sb,filled,rfl⟩ := Option.map_eq_some_iff.mp mounted
    obtain rfl := superFill_some filled
    exact sizes_nonzero_iff.mp (nonzero _ rfl)
  · intro divisible
    refine ⟨_,congrArg (Option.map Mount.mounted) (superFill_eq divisible),?_⟩
    rintro sb ⟨⟩
    exact sizes_nonzero_iff.mpr divisible

/-- The image with these bytes and zeros elsewhere. -/
def imageOf (bytes : List (Nat × UInt8)) : Nat → UInt8 := fun i => (bytes.lookup i).getD 0

def magicBytes : List (Nat × UInt8) := [(0x38,0x53),(0x39,0xEF)]

/-- 4096-byte blocks, 32768 blocks and 8192 inodes per group, 256-byte inodes. -/
def plainImage : Nat → UInt8 := imageOf (magicBytes ++ [(0x18,2),(0x21,0x80),(0x29,0x20),(0x59,1)])

theorem safe_plain : Safe plainImage :=
  (safe_iff (by decide)).mpr ⟨by decide,by decide,by decide,by decide,by decide,by decide⟩

/-- The magic number alone, with every other field zero, is not refused: the number of groups is divided by zero. -/
theorem safe_not : sMagic (imageOf magicBytes) = 0xEF53 ∧ ¬Safe (imageOf magicBytes) := by
  refine ⟨by decide,?_⟩
  rintro ⟨m,mounted,_⟩
  have undefined : superFill (imageOf magicBytes) = none := by decide
  rw [mount,if_neg (by decide),undefined] at mounted
  cases mounted

end Ext4Fuse.Geometry
