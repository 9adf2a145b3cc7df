import Ext4Fuse.Alloc
import Mathlib.Tactic.IntervalCases

/-! `ext4_ext_free_blocks` for any range of blocks, also one that goes on in the next group. -/
namespace Ext4Fuse.FreeBlocks
open Machine Ext4Fuse.Types Bitmap Super Alloc

def groupOf (sb : SuperBlock) (block : Nat) : Nat := (block - superFirstDataBlock sb) / superBlocksPerGroup sb

/-- How many blocks of the range lie in group `g`. -/
def blocksIn (sb : SuperBlock) (g block count : Nat) : Nat :=
  ((Finset.range count).filter fun i => groupOf sb (block + i) = g).card

/-- Each block of the range has its bit cleared in its own group, and each counter has
grown by the blocks it counts. -/
structure Freed (v v' : Volume) (block count : Nat) : Prop where
  bits : ∀ g i, g < superNBlockGroups v.superBlock → bitmapOf v' g i =
    if i < superBlocksPerGroup v.superBlock ∧ block ≤ groupStart v.superBlock g + i ∧ groupStart v.superBlock g + i < block + count
    then false else bitmapOf v g i
  group : ∀ g, g < superNBlockGroups v.superBlock → ext4FreeBlksCount v'.superBlock (v'.gdesc g) =
    ext4FreeBlksCount v.superBlock (v.gdesc g) + blocksIn v.superBlock g block count
  total : ext4FreeBlocksCount v'.superBlock = ext4FreeBlocksCount v.superBlock + count

/-- A range of blocks of the volume whose groups have bitmaps of their own, initialised. -/
structure Freeable (v : Volume) (block count : Nat) : Prop where
  sizes : Sizes v.superBlock
  apart : Apart v
  low : superFirstDataBlock v.superBlock ≤ block
  high : block + count ≤ ext4BlocksCount v.superBlock
  some_ : 1 ≤ count
  inited : ∀ b, block ≤ b → b < block + count →
    ext4IsBlockBitmapInited (v.gdesc (groupOf v.superBlock b)) = true

/-- The range ends in the group where it starts, and both counters have room for it. -/
def staysInGroup (v : Volume) (block count : Nat) : Prop :=
  groupOf v.superBlock (block + count - 1) = groupOf v.superBlock block ∧
  ext4FreeBlksCount v.superBlock (v.gdesc (groupOf v.superBlock block)) + count < freeBlksLimit v.superBlock ∧
  ext4FreeBlocksCount v.superBlock + count < 2^64

section Range
variable {v : Volume} {block count : Nat}

/-- A block as its place in its group. -/
theorem groupOf_place {sb : SuperBlock} {block : Nat} (low : superFirstDataBlock sb ≤ block) (positive : 0 < superBlocksPerGroup sb) :
    ∃ index, index < superBlocksPerGroup sb ∧ block = groupStart sb (groupOf sb block) + index := by
  refine ⟨(block - superFirstDataBlock sb) % superBlocksPerGroup sb,Nat.mod_lt _ positive,?_⟩
  have parts := Nat.div_add_mod (block - superFirstDataBlock sb) (superBlocksPerGroup sb)
  rw [groupStart,groupOf,Nat.mul_comm (_ / _)]
  omega

theorem groupOf_start {sb : SuperBlock} (positive : 0 < superBlocksPerGroup sb) {g i : Nat} (inside : i < superBlocksPerGroup sb) :
    groupOf sb (groupStart sb g + i) = g := groupStart_group positive g i inside

/-- The blocks of a range that does not leave its group. -/
theorem blocksIn_same {sb : SuperBlock} {block count : Nat}
    (same : groupOf sb (block + count - 1) = groupOf sb block) (g : Nat) :
    blocksIn sb g block count = if g = groupOf sb block then count else 0 := by
  have each (i : Nat) (inside : i < count) : groupOf sb (block + i) = groupOf sb block := by
    have least := Nat.div_le_div_right (c := superBlocksPerGroup sb)
      (show block - superFirstDataBlock sb ≤ block + i - superFirstDataBlock sb by omega)
    have most := Nat.div_le_div_right (c := superBlocksPerGroup sb)
      (show block + i - superFirstDataBlock sb ≤ block + count - 1 - superFirstDataBlock sb by omega)
    unfold groupOf at same ⊢
    omega
  unfold blocksIn
  split
  · rename_i here
    rw [Finset.filter_true_of_mem fun i member => (each i (Finset.mem_range.mp member)).trans here.symm,Finset.card_range]
  · rename_i away
    rw [Finset.filter_false_of_mem fun i member found => away (found.symm.trans (each i (Finset.mem_range.mp member))),
      Finset.card_empty]

/-- The last block of the range counts in its group. -/
theorem blocksIn_last {sb : SuperBlock} {block count : Nat} (some_ : 1 ≤ count) :
    0 < blocksIn sb (groupOf sb (block + count - 1)) block count := by
  refine Finset.card_pos.mpr ⟨count - 1,Finset.mem_filter.mpr ⟨Finset.mem_range.mpr (by omega),?_⟩⟩
  rw [← Nat.add_sub_assoc some_]

/-- What freeing does to the counters: those of one group and of the superblock change. -/
theorem changed_counts {g : Nat} {mem : Mem} {inode : Inode} (count : Nat) :
    ext4FreeBlksCount (changed v g mem inode (-count)).superBlock ((changed v g mem inode (-count)).gdesc g) =
      ext4FreeBlksCount v.superBlock
        (ext4FreeBlksSet v.superBlock (v.gdesc g) (u32 (ext4FreeBlksCount v.superBlock (v.gdesc g) + count : Nat))) ∧
    (∀ g', g' ≠ g → ext4FreeBlksCount (changed v g mem inode (-count)).superBlock ((changed v g mem inode (-count)).gdesc g') =
      ext4FreeBlksCount v.superBlock (v.gdesc g')) ∧
    (changed v g mem inode (-count)).superBlock =
      ext4FreeBlocksCountSet v.superBlock (u64 (ext4FreeBlocksCount v.superBlock + count : Nat)) := by
  have plus (a : Nat) : (a : Int) - -(count : Int) = ((a + count : Nat) : Int) := by omega
  refine ⟨?_,fun g' other => ?_,?_⟩
  · rw [changed_superBlock,ext4FreeBlksCount_set,changed_gdesc_self,plus]
  · rw [changed_superBlock,ext4FreeBlksCount_set,changed_gdesc_other other]
  · rw [changed_superBlock,plus]

/-- Freeing a range that stays in its group. -/
theorem freed_within (freeable : Freeable v block count) (inode : Inode) (stays : staysInGroup v block count) :
    ∃ r, ext4ExtFreeBlocks v inode block count = some r ∧ Freed v r.1 block count := by
  obtain ⟨same,room,roomAll⟩ := stays
  have sizes := freeable.sizes
  have some_ := freeable.some_
  have fits := sizes.fits
  have limit := freeBlksLimit_le v.superBlock
  have group := sizes.group_lt (show block < ext4BlocksCount v.superBlock by have := freeable.high; omega)
  have inited := freeable.inited block (Nat.le_refl _) (by omega)
  obtain ⟨index,inside,place⟩ := groupOf_place freeable.low sizes.positive
  obtain ⟨last,inside',place'⟩ := @groupOf_place v.superBlock (block + count - 1)
    (Nat.le_trans freeable.low (by omega)) sizes.positive
  have shares := blocksIn_same same
  rw [same] at place'
  change groupOf v.superBlock block < superNBlockGroups v.superBlock at group
  generalize groupOf v.superBlock block = g at *
  subst place
  rw [ext4ExtFreeBlocks_group sizes group inside inited,if_neg (by omega)]
  refine ⟨_,rfl,?_⟩
  change Freed v (changed v g (mbClearBits (bitmapOf v g) 0 index count) inode (-count)) _ _
  obtain ⟨own,others,superBlock⟩ := @changed_counts v g
    (mbClearBits (bitmapOf v g) 0 index count) inode count
  refine ⟨fun g' i group' => ?_,fun g' group' => ?_,?_⟩
  · rcases eq_or_ne g' g with rfl | other
    · rw [bitmapOf_changed_self,mbClearBits_eq,filled]
      exact if_congr (by omega) rfl rfl
    · rw [bitmapOf_changed_other freeable.apart group group' other,if_neg]
      rintro ⟨small,least,most⟩
      refine other ?_
      have number := groupOf_start sizes.positive (g := g') small
      have low := Nat.div_le_div_right (c := superBlocksPerGroup v.superBlock)
        (Nat.sub_le_sub_right least (superFirstDataBlock v.superBlock))
      have high := Nat.div_le_div_right (c := superBlocksPerGroup v.superBlock)
        (Nat.sub_le_sub_right (show groupStart v.superBlock g' + i ≤ groupStart v.superBlock g + last by omega) (superFirstDataBlock v.superBlock))
      have first := groupOf_start sizes.positive (g := g) inside
      have final := groupOf_start sizes.positive (g := g) inside'
      unfold groupOf at number first final
      omega
  · rw [shares g']
    rcases eq_or_ne g' g with rfl | other
    · rw [own,u32_small _ (by omega),ext4FreeBlksCount_stored _ _ _ room,if_pos rfl]
    · rw [others g' other,if_neg other,Nat.add_zero]
  · rw [superBlock,u64_small _ roomAll,ext4FreeBlocksCount_stored _ _ roomAll]

theorem ext4ExtFreeBlocks_freed_iff (freeable : Freeable v block count) (inode : Inode) :
    (∃ r, ext4ExtFreeBlocks v inode block count = some r ∧ Freed v r.1 block count) ↔ staysInGroup v block count := by
  refine ⟨?_,freed_within freeable inode⟩
  rintro ⟨⟨v',inode'⟩,result,freed⟩
  have sizes := freeable.sizes
  have some_ := freeable.some_
  have high := freeable.high
  have group : groupOf v.superBlock block < superNBlockGroups v.superBlock := sizes.group_lt (by omega)
  have group' : groupOf v.superBlock (block + count - 1) < superNBlockGroups v.superBlock := sizes.group_lt (by omega)
  have inited := freeable.inited block (Nat.le_refl _) (by omega)
  obtain ⟨index,inside,place⟩ := groupOf_place freeable.low sizes.positive
  have counted := freed.group _ group
  have counted' := freed.group _ group'
  have total := freed.total
  have last := @blocksIn_last v.superBlock block _ some_
  have stored := ext4FreeBlksCount_lt v'.superBlock (v'.gdesc (groupOf v.superBlock block))
  have storedAll := ext4FreeBlocksCount_lt v'.superBlock
  have only := @blocksIn_same v.superBlock block count
  unfold staysInGroup
  rw [place] at result
  generalize groupOf v.superBlock block = g at *
  rw [ext4ExtFreeBlocks_group sizes group inside inited] at result
  split at result
  · nomatch result
  · obtain rfl : changed v g (mbClearBits (bitmapOf v g) 0 index count) inode (-count) = v' :=
      congrArg Prod.fst (Option.some.inj result)
    obtain ⟨own,others,superBlock⟩ := @changed_counts v g
      (mbClearBits (bitmapOf v g) 0 index count) inode count
    have same : groupOf v.superBlock (block + count - 1) = g := by
      by_contra other
      rw [others _ other] at counted'
      omega
    have share := only same g
    have limit : freeBlksLimit (changed v g (mbClearBits (bitmapOf v g) 0 index count) inode (-count)).superBlock =
        freeBlksLimit v.superBlock := by rw [superBlock,freeBlksLimit_set]
    rw [counted,share,if_pos rfl,limit] at stored
    rw [total] at storedAll
    exact ⟨same,stored,storedAll⟩

end Range

/-- Two groups of eight blocks with all bits set. -/
def twoGroups : Volume where
  superBlock := ⟨16,0,0,0,0,0,8,8,128,0,0,0,0,0⟩
  gdesc := fun g => ⟨if g = 0 then 3 else 4,0,5,0,6,0,0,0,0⟩
  bitmap := fun _ _ => true

theorem twoGroups_freeable {block count : Nat} (some_ : 1 ≤ count) (high : block + count ≤ 16) : Freeable twoGroups block count := by
  refine ⟨⟨by decide,by decide,by decide,by decide⟩,?_,Nat.zero_le _,high,some_,fun b _ _ => ?_⟩
  · intro g g' group group' same
    have groups : superNBlockGroups twoGroups.superBlock = 2 := by decide
    rw [groups] at group group'
    interval_cases g <;> interval_cases g' <;> first | rfl | exact absurd same (by decide)
  · have inited (g : Nat) : ext4IsBlockBitmapInited (twoGroups.gdesc g) = true := by
      simp only [ext4IsBlockBitmapInited,twoGroups]
      decide
    exact inited _

theorem freed_iff_twoGroups : ∃ r, ext4ExtFreeBlocks twoGroups anyInode 9 3 = some r ∧ Freed twoGroups r.1 9 3 :=
  (ext4ExtFreeBlocks_freed_iff (twoGroups_freeable (by decide) (by decide)) anyInode).mpr ⟨by decide,by decide,by decide⟩

/-- Blocks 6 to 9: the group of 8 and 9 keeps their bits and its count. -/
theorem freed_across_groups : Freeable twoGroups 6 4 ∧
    ¬∃ r, ext4ExtFreeBlocks twoGroups anyInode 6 4 = some r ∧ Freed twoGroups r.1 6 4 := by
  refine ⟨twoGroups_freeable (by decide) (by decide),?_⟩
  rintro ⟨r,result,freed⟩
  have counted : (ext4ExtFreeBlocks twoGroups anyInode 6 4).map (fun r => ext4FreeBlksCount r.1.superBlock (r.1.gdesc 1)) =
      some 0 := by decide
  rw [result,Option.map_some] at counted
  have grown := freed.group 1 (by decide)
  rw [Option.some.inj counted] at grown
  exact absurd grown (by decide)

end Ext4Fuse.FreeBlocks
