import Ext4Fuse.Machine
import Ext4Fuse.Library.Bytes
import Ext4Fuse.Library.Radix
import Mathlib.Algebra.Order.Ring.Nat

/-! `inode_get_data_pblock` for an inode without extents: the direct blocks and the single,
double and triple indirect tables of ext2 and ext3. A failing `ASSERT` has no result. -/
namespace Ext4Fuse.IndirectBlocks
open Machine Library.Bytes Library.Radix

/-- The size of an inode and its `i_block` array. -/
structure IndirectInode where
  size : Nat
  iBlock : Nat → UInt32

def ext4NdirBlocks : Nat := 12
def ext4IndBlock : Nat := ext4NdirBlocks
def ext4DindBlock : Nat := ext4IndBlock + 1
def ext4TindBlock : Nat := ext4DindBlock + 1

section Code
variable (block : BlockSize) (device : Nat → UInt8)

def bytes2blocks (bytes : Nat) : Nat := bytes / block.bytes + if bytes % block.bytes ≠ 0 then 1 else 0
def blocks2bytes (blks : Nat) : Nat := blks * block.bytes

def diskReadU32 (where_ : Nat) : Nat := leValue (slice device where_ 4)

def addressesInIndBlock : Nat := block.bytes / 4
def addressesInDindBlock : Nat := addressesInIndBlock block * addressesInIndBlock block
def addressesInTindBlock : Nat := addressesInDindBlock block * addressesInIndBlock block
def maxIndBlock : Nat := ext4NdirBlocks + addressesInIndBlock block
def maxDindBlock : Nat := maxIndBlock block + addressesInDindBlock block
def maxTindBlock : Nat := maxDindBlock block + addressesInTindBlock block

def inodeGetDataPblockInd (lblock indexBlock : Nat) : Option Nat :=
  if lblock < addressesInIndBlock block then some (diskReadU32 device (blocks2bytes block indexBlock + lblock * 4))
  else none

def inodeGetDataPblockDind (lblock dindexBlock : Nat) : Option Nat :=
  if lblock < addressesInDindBlock block then
    let indexBlockOffsetInDindex := u32 (lblock / addressesInIndBlock block * 4 : Nat)
    let lblock := lblock % addressesInIndBlock block
    let indexBlock := diskReadU32 device (blocks2bytes block dindexBlock + indexBlockOffsetInDindex)
    inodeGetDataPblockInd block device lblock indexBlock
  else none

def inodeGetDataPblockTind (lblock tindexBlock : Nat) : Option Nat :=
  if lblock < addressesInTindBlock block then
    let dindexBlockOffsetInTindex := u32 (lblock / addressesInDindBlock block * 4 : Nat)
    let lblock := lblock % addressesInDindBlock block
    let dindexBlock := diskReadU32 device (blocks2bytes block tindexBlock + dindexBlockOffsetInTindex)
    inodeGetDataPblockDind block device lblock dindexBlock
  else none

/-- `inode_get_data_pblock`, whose `extent_len` is then 1. -/
def inodeGetDataPblock (inode : IndirectInode) (lblock : Nat) (create : Bool) : Option Nat :=
  if bytes2blocks block inode.size < lblock then none
  else if create then none
  else if lblock < ext4NdirBlocks then some (inode.iBlock lblock).toNat
  else if lblock < maxIndBlock block then
    inodeGetDataPblockInd block device (u32 (lblock - ext4NdirBlocks : Int)) (inode.iBlock ext4IndBlock).toNat
  else if lblock < maxDindBlock block then
    inodeGetDataPblockDind block device (u32 (lblock - maxIndBlock block : Int)) (inode.iBlock ext4DindBlock).toNat
  else if lblock < maxTindBlock block then
    inodeGetDataPblockTind block device (u32 (lblock - maxDindBlock block : Int)) (inode.iBlock ext4TindBlock).toNat
  else none

/-- Entry `i` of the table in a block. -/
def tableEntry (table i : Nat) : Nat := diskReadU32 device (blocks2bytes block table + i * 4)

end Code

/-! Which blocks the slots of `i_block` stand for. -/

/-- The first block that a slot stands for: each of them has as many as its tables can name. -/
def slotStart (n : Nat) : Nat → Nat
  | 0 => 0
  | slot+1 => slotStart n slot + n^(slot - 11)

/-- The slot and the indices into its tables that name a block. -/
structure Place (n lblock slot : Nat) (indices : List Nat) : Prop where
  valid : slot < 15
  levels : indices.length = slot - 11
  inside : ∀ i ∈ indices, i < n
  number : lblock = slotStart n slot + numberOf n indices

theorem slotStart_mono (n : Nat) {a b : Nat} (less : a ≤ b) : slotStart n a ≤ slotStart n b := by
  induction less with
  | refl => exact Nat.le_refl _
  | step _ ih => exact Nat.le_trans ih (Nat.le_add_right _ _)

theorem Place.bounds {n lblock slot : Nat} {indices : List Nat} (place : Place n lblock slot indices) :
    slotStart n slot ≤ lblock ∧ lblock < slotStart n (slot + 1) := by
  have last := numberOf_lt place.inside
  rw [place.levels] at last
  rw [place.number,slotStart]
  omega

theorem place_exists {n : Nat} (positive : 0 < n) {slot lblock : Nat} (valid : slot < 15) (low : slotStart n slot ≤ lblock)
    (high : lblock < slotStart n (slot + 1)) : Place n lblock slot (indicesOf n (slot - 11) (lblock - slotStart n slot)) := by
  rw [slotStart] at high
  have bound : lblock - slotStart n slot < n^(slot - 11) := by omega
  refine ⟨valid,indicesOf_length _ _ _,indicesOf_lt positive bound,?_⟩
  rw [numberOf_indicesOf positive bound]
  omega

/-- No block has two places. -/
theorem place_unique {n : Nat} (positive : 0 < n) {lblock slot slot' : Nat} {indices indices' : List Nat}
    (one : Place n lblock slot indices) (other : Place n lblock slot' indices') : slot' = slot ∧ indices' = indices := by
  obtain ⟨low,high⟩ := one.bounds
  obtain ⟨low',high'⟩ := other.bounds
  obtain rfl : slot' = slot := by
    rcases Nat.lt_trichotomy slot' slot with before | equal | after
    · have : slotStart n (slot' + 1) ≤ slotStart n slot := slotStart_mono n before
      omega
    · exact equal
    · have : slotStart n (slot + 1) ≤ slotStart n slot' := slotStart_mono n after
      omega
  refine ⟨rfl,?_⟩
  have same : numberOf n indices' = numberOf n indices := Nat.add_left_cancel (other.number.symm.trans one.number)
  rw [← indicesOf_numberOf positive other.inside,same,other.levels,← one.levels,indicesOf_numberOf positive one.inside]

theorem slotStart_direct (n : Nat) {slot : Nat} (direct : slot ≤ 12) : slotStart n slot = slot := by
  induction slot with
  | zero => rfl
  | succ slot ih => rw [slotStart,ih (by omega),show slot - 11 = 0 by omega,Nat.pow_zero]

section Ranges
variable (block : BlockSize)

theorem addresses_pos : 0 < addressesInIndBlock block := by
  have := block.le_bytes
  unfold addressesInIndBlock
  omega

theorem addresses_le : addressesInIndBlock block ≤ 16384 := by
  have := block.bytes_le
  unfold addressesInIndBlock
  omega

/-- The borders of the four ranges. -/
theorem slotStart_ind : slotStart (addressesInIndBlock block) 13 = maxIndBlock block := by
  rw [slotStart,slotStart_direct _ (Nat.le_refl 12),Nat.pow_one,maxIndBlock,ext4NdirBlocks]

theorem slotStart_dind : slotStart (addressesInIndBlock block) 14 = maxDindBlock block := by
  rw [slotStart,slotStart_ind,Nat.pow_two,maxDindBlock,addressesInDindBlock]

theorem slotStart_tind : slotStart (addressesInIndBlock block) 15 = maxTindBlock block := by
  rw [slotStart,slotStart_dind,Nat.pow_succ,Nat.pow_two,maxTindBlock,addressesInTindBlock,addressesInDindBlock]

end Ranges

section Walks
variable {block : BlockSize} {device : Nat → UInt8} {lblock table : Nat}

theorem inodeGetDataPblockInd_walk (bound : lblock < addressesInIndBlock block) :
    inodeGetDataPblockInd block device lblock table =
      some (walk (tableEntry block device) table (indicesOf (addressesInIndBlock block) 1 lblock)) := by
  rw [inodeGetDataPblockInd,if_pos bound,indicesOf,Nat.pow_zero,Nat.div_one]
  rfl

/-- The position of an entry within its table does not wrap. -/
theorem offset_small {index : Nat} (bound : index < addressesInIndBlock block) : u32 (index * 4 : Nat) = index * 4 := by
  have := addresses_le block
  exact u32_small _ (by omega)

theorem inodeGetDataPblockDind_walk (bound : lblock < addressesInDindBlock block) :
    inodeGetDataPblockDind block device lblock table =
      some (walk (tableEntry block device) table (indicesOf (addressesInIndBlock block) 2 lblock)) := by
  have index : lblock / addressesInIndBlock block < addressesInIndBlock block := Nat.div_lt_of_lt_mul bound
  rw [inodeGetDataPblockDind,if_pos bound]
  simp only [offset_small index]
  rw [inodeGetDataPblockInd_walk (Nat.mod_lt _ (addresses_pos block)),indicesOf_succ _ 1,Nat.pow_one,walk_cons,tableEntry]

theorem inodeGetDataPblockTind_walk (bound : lblock < addressesInTindBlock block) :
    inodeGetDataPblockTind block device lblock table =
      some (walk (tableEntry block device) table (indicesOf (addressesInIndBlock block) 3 lblock)) := by
  have positive : 0 < addressesInDindBlock block := Nat.mul_pos (addresses_pos block) (addresses_pos block)
  have index : lblock / addressesInDindBlock block < addressesInIndBlock block := Nat.div_lt_of_lt_mul bound
  rw [inodeGetDataPblockTind,if_pos bound]
  simp only [offset_small index]
  rw [inodeGetDataPblockDind_walk (Nat.mod_lt _ positive),indicesOf_succ _ 2,Nat.pow_two,walk_cons,tableEntry,addressesInDindBlock]

end Walks

section Lookup
variable (block : BlockSize) (device : Nat → UInt8) (inode : IndirectInode)

/-- The walk of a block that has a place, with zero pointers taken for tables. -/
def walkTo (slot : Nat) (indices : List Nat) : Nat := walk (tableEntry block device) (inode.iBlock slot).toNat indices

theorem inodeGetDataPblock_walk {lblock : Nat} (known : lblock < maxTindBlock block)
    (size : lblock ≤ bytes2blocks block inode.size) (bits : lblock < 2^32) :
    ∃ slot indices, Place (addressesInIndBlock block) lblock slot indices ∧
      inodeGetDataPblock block device inode lblock false = some (walkTo block device inode slot indices) := by
  have positive := addresses_pos block
  have ind := slotStart_ind block
  have dind := slotStart_dind block
  have tind := slotStart_tind block
  have direct := slotStart_direct (addressesInIndBlock block) (Nat.le_refl 12)
  have ndir : ext4NdirBlocks = 12 := rfl
  have rest (first : Nat) (less : first ≤ lblock) : u32 (lblock - first : Int) = lblock - first := by
    rw [← Int.ofNat_sub less]
    exact u32_small _ (by omega)
  rw [inodeGetDataPblock,if_neg (Nat.not_lt.mpr size),if_neg Bool.false_ne_true]
  rcases Nat.lt_or_ge lblock ext4NdirBlocks with low | low
  · have start := @slotStart_direct (addressesInIndBlock block) lblock (by omega)
    refine ⟨lblock,_,place_exists positive (by omega) (Nat.le_of_eq start) ?_,?_⟩
    · rw [slotStart_direct _ (by omega)]
      omega
    · rw [if_pos low,show lblock - 11 = 0 by omega]
      rfl
  rw [if_neg (Nat.not_lt.mpr low)]
  rcases Nat.lt_or_ge lblock (maxIndBlock block) with single | single
  · refine ⟨12,_,place_exists positive (by decide) (direct.trans_le low) (single.trans_eq ind.symm),?_⟩
    rw [if_pos single,rest _ low,inodeGetDataPblockInd_walk (by unfold maxIndBlock at single; omega),direct]
    rfl
  rw [if_neg (Nat.not_lt.mpr single)]
  rcases Nat.lt_or_ge lblock (maxDindBlock block) with double | double
  · refine ⟨13,_,place_exists positive (by decide) (ind.trans_le single) (double.trans_eq dind.symm),?_⟩
    rw [if_pos double,rest _ single,inodeGetDataPblockDind_walk (by unfold maxDindBlock at double; omega),ind]
    rfl
  · refine ⟨14,_,place_exists positive (by decide) (dind.trans_le double) (known.trans_eq tind.symm),?_⟩
    rw [if_neg (Nat.not_lt.mpr double),if_pos known,rest _ double,
      inodeGetDataPblockTind_walk (by unfold maxTindBlock at known; omega),dind]
    rfl

/-- The lookup gives what the walk of the block's one place comes to, and 0 where a pointer on it is 0. -/
def Resolves (lblock : Nat) : Prop :=
  ∃ slot indices, Place (addressesInIndBlock block) lblock slot indices ∧
    (∀ slot' indices', Place (addressesInIndBlock block) lblock slot' indices' → slot' = slot ∧ indices' = indices) ∧
    inodeGetDataPblock block device inode lblock false =
      some (sparseWalk (tableEntry block device) (inode.iBlock slot).toNat indices)

/-- The lookup is right unless a table on the walk is missing, and block 0, read in its place,
leads to something. -/
theorem inodeGetDataPblock_resolves_iff {lblock : Nat} (known : lblock < maxTindBlock block)
    (size : lblock ≤ bytes2blocks block inode.size) (bits : lblock < 2^32) : Resolves block device inode lblock ↔
      ∀ slot indices, Place (addressesInIndBlock block) lblock slot indices →
        0 ∉ tables (tableEntry block device) (inode.iBlock slot).toNat indices ∨ walkTo block device inode slot indices = 0 := by
  obtain ⟨slot,indices,place,found⟩ := inodeGetDataPblock_walk block device inode known size bits
  have only := fun slot' indices' (other : Place (addressesInIndBlock block) lblock slot' indices') =>
    place_unique (addresses_pos block) place other
  constructor
  · rintro ⟨slot₁,indices₁,place₁,_,right⟩ slot' indices' other
    obtain ⟨rfl,rfl⟩ := only slot₁ indices₁ place₁
    obtain ⟨rfl,rfl⟩ := only slot' indices' other
    exact (walk_eq_sparseWalk _ _).mp (Option.some.inj (found.symm.trans right))
  · intro fits
    exact ⟨slot,indices,place,only,found.trans (congrArg some ((walk_eq_sparseWalk _ _).mpr (fits slot indices place)))⟩

end Lookup

/-- A file of 600 blocks whose double indirect table is in block 5, with one more table in block 6 as its second entry. -/
def doubleInode : IndirectInode := ⟨614400,fun slot => if slot = ext4DindBlock then 5 else 0⟩

def twoTables (p : Nat) : UInt8 := if p = 5124 then 6 else if p = 6152 then 7 else 0

/-- Block 526 is the third of the second table. -/
theorem inodeGetDataPblock_resolves_double : Resolves smallBlock twoTables doubleInode 526 ∧
    inodeGetDataPblock smallBlock twoTables doubleInode 526 false = some 7 := by
  refine ⟨(inodeGetDataPblock_resolves_iff smallBlock twoTables doubleInode (by decide) (by decide) (by decide)).mpr ?_,by decide⟩
  intro slot indices place
  have third := @place_exists _ (addresses_pos smallBlock) 13 526 (by decide) (by decide) (by decide)
  obtain ⟨rfl,rfl⟩ := place_unique (addresses_pos smallBlock) third place
  exact Or.inl (by decide)

/-- A sparse file of twenty blocks without a block. -/
def sparseInode : IndirectInode := ⟨20480,fun _ => 0⟩

/-- Block 12 of the sparse file: block 0 is read as a table, and its bytes as a pointer. -/
theorem inodeGetDataPblock_missing_table :
    inodeGetDataPblock smallBlock (fun _ => 7) sparseInode 12 false = some 0x07070707 ∧
      ¬Resolves smallBlock (fun _ => 7) sparseInode 12 := by
  have found : inodeGetDataPblock smallBlock (fun _ => 7) sparseInode 12 false = some 0x07070707 := by decide
  refine ⟨found,?_⟩
  rintro ⟨slot,indices,place,_,right⟩
  have first := @place_exists _ (addresses_pos smallBlock) 12 12 (by decide) (by decide) (by decide)
  obtain ⟨rfl,rfl⟩ := place_unique (addresses_pos smallBlock) first place
  rw [found] at right
  exact absurd (Option.some.inj right) (by decide)

end Ext4Fuse.IndirectBlocks
