import Ext4Fuse.Alloc

/-! How the block groups part the volume. The group count leaves the first data block out,
and so does the search for a free block in the last group. -/
namespace Ext4Fuse.Groups
open Machine Ext4Fuse.Types Super Alloc

variable {sb : SuperBlock}

theorem ext4GroupFirstBlockNo_eq {g : Nat} (bound : g < 2^32) :
    ext4GroupFirstBlockNo sb g = g * superBlocksPerGroup sb + superFirstDataBlock sb := by
  have few := superBlocksPerGroup_lt sb
  have first := superFirstDataBlock_lt sb
  have product : g * superBlocksPerGroup sb ≤ (2^32 - 1) * (2^32 - 1) :=
    Nat.mul_le_mul (Nat.le_sub_one_of_lt bound) (Nat.le_sub_one_of_lt few)
  exact u64_small _ (Nat.lt_of_le_of_lt (Nat.add_le_add product (Nat.le_of_lt first)) (by decide))

def inGroup (sb : SuperBlock) (block g : Nat) : Prop :=
  ext4GroupFirstBlockNo sb g ≤ block ∧ block < ext4GroupFirstBlockNo sb g + superBlocksPerGroup sb

/-- Every block of the volume lies in one group, and every group has a block of the volume. -/
def Partitions (sb : SuperBlock) : Prop :=
  (∀ b, superFirstDataBlock sb ≤ b → b < ext4BlocksCount sb → ∃! g, g < superNBlockGroups sb ∧ inGroup sb b g) ∧
    ∀ g, g < superNBlockGroups sb → ∃ b, superFirstDataBlock sb ≤ b ∧ b < ext4BlocksCount sb ∧ inGroup sb b g

section Ceiling
variable {count per : Nat}

/-- A rounded up quotient is one more than that of the number before. -/
theorem ceil_eq (positive : 0 < per) (some_ : 0 < count) : (count + per - 1) / per = (count - 1) / per + 1 := by
  rw [show count + per - 1 = count - 1 + per by omega,Nat.add_div_right _ positive]

/-- What is left for the last of the parts. -/
theorem last_part (some_ : 0 < count) : per * ((count - 1) / per) + (count - 1) % per + 1 = count := by
  rw [Nat.div_add_mod]
  omega

end Ceiling

theorem partitions_iff (positive : 1 ≤ superBlocksPerGroup sb) (inside : superFirstDataBlock sb < ext4BlocksCount sb)
    (groups : (ext4BlocksCount sb + superBlocksPerGroup sb - 1) / superBlocksPerGroup sb < 2^32) :
    Partitions sb ↔ superFirstDataBlock sb ≤ (ext4BlocksCount sb - 1) % superBlocksPerGroup sb := by
  have number := superNBlockGroups_eq positive groups
  have part := @last_part (ext4BlocksCount sb) (superBlocksPerGroup sb) (by omega)
  rw [ceil_eq positive (by omega)] at number groups
  have starts (g : Nat) (before : g < superNBlockGroups sb) :
      ext4GroupFirstBlockNo sb g = g * superBlocksPerGroup sb + superFirstDataBlock sb :=
    ext4GroupFirstBlockNo_eq (Nat.lt_trans before (number ▸ groups))
  unfold Partitions inGroup
  generalize superNBlockGroups sb = n at *
  generalize superBlocksPerGroup sb = per at *
  generalize superFirstDataBlock sb = first at *
  generalize ext4BlocksCount sb = count at *
  constructor
  · rintro ⟨_,some_⟩
    obtain ⟨b,_,most,start,_⟩ := some_ ((count - 1) / per) (by omega)
    rw [starts _ (by omega),Nat.mul_comm] at start
    omega
  · intro fits
    refine ⟨fun b least most => ?_,fun g before => ?_⟩
    · have parts := Nat.div_add_mod (b - first) per
      have rest := Nat.mod_lt (b - first) positive
      have last : (b - first) / per < n := by
        rw [number]
        exact Nat.lt_succ_of_le (Nat.div_le_div_right (by omega))
      refine ⟨(b - first) / per,⟨last,?_⟩,fun g ⟨before,start,stop⟩ => ?_⟩
      · rw [starts _ last,Nat.mul_comm]
        omega
      · rw [starts g before] at start stop
        have quotient : (b - first) / per = g := by
          rw [show b - first = (b - first - g * per) + per * g by rw [Nat.mul_comm per]; omega,Nat.add_mul_div_left _ _ positive,
            Nat.div_eq_of_lt (by omega),Nat.zero_add]
        exact quotient.symm
    · have low : g * per ≤ (count - 1) / per * per := Nat.mul_le_mul_right per (by omega)
      rw [Nat.mul_comm ((count - 1) / per)] at low
      refine ⟨g * per + first,Nat.le_add_left _ _,by omega,?_⟩
      rw [starts g before]
      omega

/-- A volume of one full group of 8192 blocks and of some more blocks, from block 1 on. -/
def oneKiB (blocks : UInt32) : SuperBlock := {oneFree.superBlock with
  sBlocksCountLo := blocks,sFirstDataBlock := 1,sBlocksPerGroup := 8192}

theorem partitions_twoGroups : Partitions (oneKiB 9000) :=
  (partitions_iff (by decide) (by decide) (by decide)).mpr (by decide)

/-- Blocks 1 to 8192 fill the first group, and a second one is counted. -/
theorem partitions_phantom : superFirstDataBlock (oneKiB 8193) < ext4BlocksCount (oneKiB 8193) ∧
    superNBlockGroups (oneKiB 8193) = 2 ∧ ¬Partitions (oneKiB 8193) := by
  refine ⟨by decide,by decide,fun parts => ?_⟩
  obtain ⟨b,_,most,start,_⟩ := parts.2 1 (by decide)
  rw [show ext4BlocksCount (oneKiB 8193) = 8193 by decide] at most
  rw [show ext4GroupFirstBlockNo (oneKiB 8193) 1 = 8193 by decide] at start
  omega

/-! The length of the last group. -/

/-- `bitmap_len` of `ext4_new_meta_blocks`, an `int`. -/
def searchedLen (sb : SuperBlock) (blockGroup : Nat) : Int := i32 (bitmapLen sb blockGroup)

/-- The blocks that the groups before the last one leave. -/
def lastBlocks (sb : SuperBlock) : Int :=
  ext4BlocksCount sb - superFirstDataBlock sb - superBlocksPerGroup sb * (superNBlockGroups sb - 1)

/-- The search and the initialisation take the last group to be as long as it is, and no bit
that is searched stands for a block behind the volume. -/
def LastAgrees (sb : SuperBlock) : Prop :=
  let last := superNBlockGroups sb - 1
  searchedLen sb last = lastBlocks sb ∧ (groupBlocks sb last : Int) = lastBlocks sb ∧
    ∀ i : Nat, i < searchedLen sb last → ext4GroupFirstBlockNo sb last + i < ext4BlocksCount sb

theorem bitmapLen_last {count per : Nat} (positive : 0 < per) (some_ : 0 < count) :
    (if count % per = 0 then per else count % per) = (count - 1) % per + 1 := by
  have part := @last_part count per some_
  have below := Nat.mod_lt (count - 1) positive
  generalize (count - 1) % per = r at *
  generalize (count - 1) / per = q at *
  rcases Nat.lt_or_ge (r + 1) per with less | full
  · rw [show count = (r + 1) + per * q by omega,Nat.add_mul_mod_self_left,Nat.mod_eq_of_lt less,if_neg (by omega)]
  · rw [show count = per * (q + 1) by rw [Nat.mul_succ]; omega,Nat.mul_mod_right,if_pos rfl]
    omega

theorem i32_positive {x : Nat} (bound : x < 2^32) (positive : 0 < i32 x) : x < 2^31 := by
  unfold i32 at positive
  rw [Int.bmod_def] at positive
  omega

theorem i32_nat {x : Nat} (bound : x < 2^31) : i32 x = x :=
  i32_small _ (by omega) (by omega)

/-- The group count is that of the groups up to the last block, cut off to 32 bits. -/
theorem superNBlockGroups_mod (positive : 0 < superBlocksPerGroup sb) (some_ : 0 < ext4BlocksCount sb)
    (counted : 0 < superNBlockGroups sb) :
    superNBlockGroups sb = ((ext4BlocksCount sb - 1) / superBlocksPerGroup sb + 1) % 2^32 := by
  have top : ext4BlocksCount sb < 2^64 := by
    have low := sb.sBlocksCountLo.toNat_lt
    have high := sb.sBlocksCountHi.toNat_lt
    unfold ext4BlocksCount
    omega
  have few := superBlocksPerGroup_lt sb
  have cast : (ext4BlocksCount sb + superBlocksPerGroup sb - 1 : Int) =
      ((ext4BlocksCount sb + superBlocksPerGroup sb - 1 : Nat) : Int) := by omega
  unfold superNBlockGroups at counted ⊢
  rw [cast] at counted ⊢
  generalize superBlocksPerGroup sb = per at *
  generalize ext4BlocksCount sb = count at *
  rcases Nat.lt_or_ge (count + per - 1) (2^64) with fits | wraps
  · rw [u64_small _ fits,u32_cast,ceil_eq positive some_]
  · have rest : u64 ((count + per - 1 : Nat) : Int) < per := by
      unfold u64
      omega
    rw [Nat.div_eq_of_lt rest] at counted
    exact absurd counted (by decide)

theorem bitmapLen_lastGroup (positive : 0 < superBlocksPerGroup sb) (some_ : 0 < ext4BlocksCount sb)
    (counted : 0 < superNBlockGroups sb) :
    bitmapLen sb (superNBlockGroups sb - 1) = (ext4BlocksCount sb - 1) % superBlocksPerGroup sb + 1 := by
  have bound : superNBlockGroups sb < 2^32 := u32_lt _
  have last : superNBlockGroups sb - 1 = u32 (superNBlockGroups sb - 1 : Int) := by
    rw [show (superNBlockGroups sb - 1 : Int) = ((superNBlockGroups sb - 1 : Nat) : Int) by omega,u32_small _ (by omega)]
  rw [bitmapLen,if_pos last]
  exact bitmapLen_last positive some_

theorem groupBlocks_lastGroup (counted : 0 < superNBlockGroups sb) :
    groupBlocks sb (superNBlockGroups sb - 1) = u32 (lastBlocks sb) := by
  have bound : superNBlockGroups sb < 2^32 := u32_lt _
  have last : superNBlockGroups sb - 1 = u32 (superNBlockGroups sb - 1 : Int) := by
    rw [show (superNBlockGroups sb - 1 : Int) = ((superNBlockGroups sb - 1 : Nat) : Int) by omega,u32_small _ (by omega)]
  rw [groupBlocks,if_pos last]
  rfl

theorem lastAgrees_iff (positive : 0 < superBlocksPerGroup sb) (counted : 0 < superNBlockGroups sb)
    (some_ : superFirstDataBlock sb + superBlocksPerGroup sb * (superNBlockGroups sb - 1) < ext4BlocksCount sb) :
    LastAgrees sb ↔ superFirstDataBlock sb = 0 ∧
      (ext4BlocksCount sb + superBlocksPerGroup sb - 1) / superBlocksPerGroup sb < 2^32 ∧
      (ext4BlocksCount sb - 1) % superBlocksPerGroup sb + 1 < 2^31 := by
  have number := superNBlockGroups_mod positive (show 0 < ext4BlocksCount sb by omega) counted
  have part := @last_part (ext4BlocksCount sb) (superBlocksPerGroup sb) (by omega)
  have few := superBlocksPerGroup_lt sb
  have low := superFirstDataBlock_lt sb
  have held : 0 < ext4BlocksCount sb - superFirstDataBlock sb - superBlocksPerGroup sb * (superNBlockGroups sb - 1) := by omega
  have below := Nat.mod_lt (ext4BlocksCount sb - 1) positive
  have bound : superNBlockGroups sb < 2^32 := u32_lt _
  have starts := @ext4GroupFirstBlockNo_eq sb (superNBlockGroups sb - 1) (by omega)
  have left : lastBlocks sb = ((ext4BlocksCount sb - superFirstDataBlock sb -
      superBlocksPerGroup sb * (superNBlockGroups sb - 1) : Nat) : Int) := by
    rw [lastBlocks,show (superNBlockGroups sb - 1 : Int) = ((superNBlockGroups sb - 1 : Nat) : Int) by omega,← Nat.cast_mul]
    omega
  unfold LastAgrees searchedLen
  simp only [bitmapLen_lastGroup positive (show 0 < ext4BlocksCount sb by omega) counted,groupBlocks_lastGroup counted,left,starts]
  rw [ceil_eq positive (by omega),Nat.mul_comm (superNBlockGroups sb - 1)]
  generalize superNBlockGroups sb = n at *
  generalize superBlocksPerGroup sb = per at *
  generalize superFirstDataBlock sb = first at *
  generalize ext4BlocksCount sb = count at *
  generalize (count - 1) % per = r at *
  generalize quotient : (count - 1) / per = q at *
  constructor
  · rintro ⟨searched,_,_⟩
    have short : r + 1 < 2^31 := by
      refine i32_positive (Nat.lt_of_le_of_lt below few) ?_
      rw [searched]
      exact Int.natCast_pos.mpr held
    rw [i32_nat short] at searched
    obtain ⟨k,wrapped⟩ : ∃ k, q = n - 1 + 2^32 * k := ⟨(q + 1) / 2^32,by omega⟩
    have split : per * q = per * (n - 1) + 2^32 * (per * k) := by rw [wrapped,Nat.mul_add,Nat.mul_left_comm]
    have lost : first = 2^32 * (per * k) := by
      clear low few bound number wrapped
      omega
    have zero : k = 0 := by
      by_contra some_wraps
      have wraps := Nat.mul_pos positive (Nat.pos_of_ne_zero some_wraps)
      exact absurd low (Nat.not_lt.mpr (lost ▸ Nat.le_mul_of_pos_right (2^32) wraps))
    rw [zero] at lost wrapped
    rw [Nat.mul_zero,Nat.add_zero] at wrapped
    exact ⟨lost,by rw [wrapped,Nat.sub_add_cancel counted]; exact bound,short⟩
  · rintro ⟨rfl,counts,short⟩
    obtain rfl : n = q + 1 := by omega
    rw [Nat.add_sub_cancel,show count - 0 - per * q = r + 1 by omega,i32_nat short,u32_small _ (by omega)]
    exact ⟨rfl,rfl,fun i inside => by omega⟩

/-- From block 0 on, two full groups of 8192 blocks and one of 3616. -/
def threeGroups : SuperBlock := {oneFree.superBlock with sBlocksCountLo := 20000,sBlocksPerGroup := 8192}

theorem lastAgrees_threeGroups : superNBlockGroups threeGroups = 3 ∧ searchedLen threeGroups 2 = 3616 ∧ LastAgrees threeGroups :=
  ⟨by decide,by decide,(lastAgrees_iff (by decide) (by decide) (by decide)).mpr (by decide)⟩

/-- With 9000 blocks, block 0 aside, the second group has 807 blocks, and 808 bits are searched. -/
theorem lastAgrees_oneKiB : superFirstDataBlock (oneKiB 9000) + superBlocksPerGroup (oneKiB 9000) *
    (superNBlockGroups (oneKiB 9000) - 1) < ext4BlocksCount (oneKiB 9000) ∧ ¬LastAgrees (oneKiB 9000) := by
  refine ⟨by decide,fun agrees => ?_⟩
  have searched := agrees.1
  exact absurd searched (by decide)

/-! The group of a block. -/

/-- The group and the offset that are stored for a block lead back to it, and it is in the
group that begins at or before it and ends behind it, and in no other. -/
structure Inverts (sb : SuperBlock) (block : Nat) : Prop where
  back : ext4GroupFirstBlockNo sb (ext4GetGroupNoAndOffset sb block).1 + (ext4GetGroupNoAndOffset sb block).2 = block
  below : (ext4GetGroupNoAndOffset sb block).2 < superBlocksPerGroup sb
  group : ∀ g, g < 2^32 → (ext4BlockInGroup sb block g = true ↔ groupStart sb g ≤ block ∧ block < groupStart sb (g + 1))

/-- The distance of a block from the first data block. -/
def distance (sb : SuperBlock) (block : Nat) : Nat := block - superFirstDataBlock sb

theorem ext4GetGroupNoAndOffset_eq {block : Nat} (start : superFirstDataBlock sb ≤ block) (bound : block < 2^64) :
    ext4GetGroupNoAndOffset sb block = (distance sb block % 2^32,distance sb block / superBlocksPerGroup sb) := by
  have cast : (block - superFirstDataBlock sb : Int) = (distance sb block : Nat) := by
    unfold distance
    omega
  have small : distance sb block < 2^64 := Nat.lt_of_le_of_lt (Nat.sub_le _ _) bound
  simp only [ext4GetGroupNoAndOffset,cast,u64_small _ small,u32_cast]

/-- A group begins at or before a block and ends behind it if it has the block's quotient. -/
theorem quotient_iff (positive : 1 ≤ superBlocksPerGroup sb) {block : Nat} (start : superFirstDataBlock sb ≤ block) (g : Nat) :
    (groupStart sb g ≤ block ∧ block < groupStart sb (g + 1)) ↔ distance sb block / superBlocksPerGroup sb = g := by
  rw [Nat.div_eq_iff positive,groupStart,groupStart,Nat.succ_mul]
  unfold distance
  omega

/-- The quotient is stored as the offset and the distance as the group. -/
theorem inverts_iff (positive : 1 ≤ superBlocksPerGroup sb) {block : Nat} (start : superFirstDataBlock sb ≤ block)
    (bound : block < 2^64) (fits : distance sb block / superBlocksPerGroup sb < 2^32) :
    Inverts sb block ↔ distance sb block % superBlocksPerGroup sb = distance sb block / superBlocksPerGroup sb ∧
      distance sb block % 2^32 = distance sb block / superBlocksPerGroup sb := by
  have stored := ext4GetGroupNoAndOffset_eq start bound
  have parts := Nat.div_add_mod (distance sb block) (superBlocksPerGroup sb)
  have rest := Nat.mod_lt (distance sb block) positive
  have first (g : Nat) (low : g < 2^32) : ext4GroupFirstBlockNo sb g + distance sb block / superBlocksPerGroup sb = block ↔
      g * superBlocksPerGroup sb + distance sb block / superBlocksPerGroup sb = distance sb block := by
    rw [ext4GroupFirstBlockNo_eq low]
    unfold distance
    omega
  have number : distance sb block % 2^32 < 2^32 := Nat.mod_lt _ (by decide)
  constructor
  · intro inverts
    have back := inverts.back
    have inside := (inverts.group _ fits).mpr ((quotient_iff positive start _).mpr rfl)
    simp only [ext4BlockInGroup,stored,decide_eq_true_eq] at inside
    rw [stored] at back
    rw [first _ number,inside,Nat.mul_comm] at back
    exact ⟨by omega,inside⟩
  · rintro ⟨offset,group⟩
    refine ⟨?_,?_,fun g low => ?_⟩
    · rw [stored]
      rw [first _ number,group,Nat.mul_comm]
      omega
    · rw [stored]
      omega
    · rw [quotient_iff positive start]
      simp only [ext4BlockInGroup,stored,decide_eq_true_eq,group]

/-- The first data block is block 0 of group 0. -/
theorem inverts_first : Inverts (oneKiB 9000) 1 :=
  (inverts_iff (by decide) (by decide) (by decide) (by decide)).mpr (by decide)

/-- The first block of group 1 is stored as block 1 of group 8192. -/
theorem inverts_second : superFirstDataBlock (oneKiB 9000) ≤ 8193 ∧
    ext4GetGroupNoAndOffset (oneKiB 9000) 8193 = (8192,1) ∧ ¬Inverts (oneKiB 9000) 8193 := by
  refine ⟨by decide,by decide,fun inverts => ?_⟩
  have back := inverts.back
  rw [show ext4GetGroupNoAndOffset (oneKiB 9000) 8193 = (8192,1) by decide] at back
  exact absurd back (by decide)

end Ext4Fuse.Groups
