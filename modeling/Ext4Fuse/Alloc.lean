import Ext4Fuse.Super
import Ext4Fuse.Library.Steps
import Mathlib.Algebra.BigOperators.Group.Finset.Basic
import Mathlib.Algebra.Order.BigOperators.Group.Finset
import Mathlib.Order.Interval.Finset.Nat
import Mathlib.Data.Nat.Cast.Basic

/-! `alloc.c`: the search for a free block over all groups, and the freeing of a range.
`fs_bread` succeeds. An access outside `gdesc_table` or outside a bitmap's block has no
result. -/
namespace Ext4Fuse.Alloc
open Machine Ext4Fuse.Types Bitmap Super Library.Scan Library.Steps
open scoped BigOperators

/-- What `ext4_new_meta_blocks` returns, and stores in `*count` and `*errp`. -/
structure Allocated where
  block : Nat
  len : Int
  err : Option Errno
  deriving DecidableEq

def bitmapLen (sb : SuperBlock) (blockGroup : Nat) : Nat :=
  if blockGroup = u32 (superNBlockGroups sb - 1 : Int) then
    if ext4BlocksCount sb % superBlocksPerGroup sb = 0 then superBlocksPerGroup sb
    else ext4BlocksCount sb % superBlocksPerGroup sb
  else superBlocksPerGroup sb

/-- The counters after `len` blocks of a group have been taken or, negative, given back. -/
def countBlocks (v : Volume) (inode : Inode) (blockGroup : Nat) (bg : GroupDesc) (len : Int) : Volume × Inode :=
  let sb := v.superBlock
  let v := v.setDesc blockGroup (ext4FreeBlksSet sb bg (u32 (ext4FreeBlksCount sb bg - len)))
  ({v with superBlock := ext4FreeBlocksCountSet sb (u64 (ext4FreeBlocksCount sb - len))},
    ext4SetInodeBlocks sb inode (u64 (ext4InodeBlocks sb inode.rawInode + len)))

/-- The part of the `again` loop that looks into one group: `none` goes to `no_space`. -/
def takeFromGroup (v : Volume) (inode : Inode) (wanted : Int) (blockGroup : Nat) :
    Option (Option (Allocated × Inode) × Volume) := do
  let bg ← v.desc blockGroup
  let sb := v.superBlock
  if ext4FreeBlksCount sb bg = 0 then return (none,v)
  let bitmapBlk := ext4BlockBitmap sb bg
  let mem := v.bitmap bitmapBlk
  let bitmapLen := bitmapLen sb blockGroup
  if superBlockSize sb * 8 < bitmapLen then none
  let index := mbFindNextZeroBit mem 0 bitmapLen 0
  let len := mbFindZeroRunLen mem 0 bitmapLen index
  if len = 0 then return (none,v.setDesc blockGroup (ext4FreeBlksSet sb bg 0))
  let len := if wanted < len then wanted else len
  if superBlockSize sb * 8 < index + len then none
  let (v,inode) := countBlocks (v.setBitmap bitmapBlk (mbSetBits mem 0 index len)) inode blockGroup bg len
  let ret := u64 (superFirstDataBlock sb + blockGroup * superBlocksPerGroup sb + index : Nat)
  return (some (⟨ret,len,none⟩,inode),v)

/-- The `again` loop. After as many rounds as there are groups nothing is left to
change, so a search that has not ended by then never ends. -/
def newMetaBlocksLoop (inode : Inode) (groupGoal : Nat) (wanted : Int) : Nat → Volume → Nat →
    Option (Allocated × Volume × Inode)
  | 0, _, _ => none
  | rounds+1, v, blockGroup => do
    let v ← ext4TryToInitBlockBitmap v blockGroup
    match ← takeFromGroup v inode wanted blockGroup with
    | (some (allocated,inode),v) => return (allocated,v,inode)
    | (none,v) =>
      let blockGroup := u32 ((blockGroup + 1) % superNBlockGroups v.superBlock : Nat)
      if blockGroup ≠ groupGoal then newMetaBlocksLoop inode groupGoal wanted rounds v blockGroup
      else return (⟨0,0,some .enospc⟩,v,inode)

/-- `wanted`, an `int`: `*count`, or 1 without a `count`. -/
def wantedBlocks : Option Nat → Int
  | some count => i32 count
  | none => 1

def ext4NewMetaBlocks (v : Volume) (inode : Inode) (goal : Nat) (count : Option Nat) :
    Option (Allocated × Volume × Inode) :=
  let sb := v.superBlock
  let groupGoal := if goal ≠ 0 then u64 (goal - superFirstDataBlock sb : Int) / superBlocksPerGroup sb else 0
  newMetaBlocksLoop inode groupGoal (wantedBlocks count) (superNBlockGroups sb + 1) v (u32 groupGoal)

def ext4ExtFreeBlocks (v : Volume) (inode : Inode) (block : Nat) (count : Int) : Option (Volume × Inode) := do
  let sb := v.superBlock
  let blockGroup := u32 (u64 (block - superFirstDataBlock sb : Int) / superBlocksPerGroup sb : Nat)
  let bg ← v.desc blockGroup
  if !ext4IsBlockBitmapInited bg then return (v,inode)
  let bitmapBlk := ext4BlockBitmap sb bg
  let index := i32 (block - superFirstDataBlock sb - blockGroup * superBlocksPerGroup sb)
  if index < 0 ∨ superBlockSize sb * 8 < index + count then none
  return countBlocks (v.setBitmap bitmapBlk (mbClearBits (v.bitmap bitmapBlk) 0 index.toNat count)) inode
    blockGroup bg (-count)

/-! Counting the clear bits. -/

/-- The clear bits among the first `size`. -/
def clearBits (mem : Mem) (size : Nat) : Finset Nat := (Finset.range size).filter fun i => mem i = false

theorem mem_clearBits (mem : Mem) (size i : Nat) : i ∈ clearBits mem size ↔ i < size ∧ mem i = false := by
  simp [clearBits]

theorem clearBits_set (mem : Mem) (size low high : Nat) (inside : high ≤ size)
    (clear : ∀ i, low ≤ i → i < high → mem i = false) :
    (clearBits (filled mem 0 low high true) size).card + (high - low) = (clearBits mem size).card := by
  have apart : Disjoint (clearBits (filled mem 0 low high true) size) (Finset.Ico low high) := by
    rw [Finset.disjoint_left]
    intro i member taken
    have bounds := Finset.mem_Ico.mp taken
    have bit := ((mem_clearBits _ _ _).mp member).2
    simp [filled,bounds.1,bounds.2] at bit
  rw [← Nat.card_Ico low high,← Finset.card_union_of_disjoint apart]
  congr 1
  ext i
  simp only [Finset.mem_union,mem_clearBits,Finset.mem_Ico,filled,Nat.mul_zero,Nat.zero_add]
  rcases Classical.em (low ≤ i ∧ i < high) with range | outside
  · simp [range,clear i range.1 range.2,show i < size by omega]
  · simp [outside]

theorem clearBits_clear (mem : Mem) (size low high : Nat) (inside : high ≤ size)
    (set : ∀ i, low ≤ i → i < high → mem i = true) :
    (clearBits (filled mem 0 low high false) size).card = (clearBits mem size).card + (high - low) := by
  have same : filled (filled mem 0 low high false) 0 low high true = mem := by
    funext i
    simp only [filled,Nat.mul_zero,Nat.zero_add]
    split_ifs with range
    · exact (set i range.1 range.2).symm
    · rfl
  have count := clearBits_set (filled mem 0 low high false) size low high inside
    (fun i from_low below => by simp [filled,from_low,below])
  rw [same] at count
  exact count.symm

/-! What every run of the allocator keeps. -/

abbrev Range := Nat × Int

def covers (r : Range) (b : Nat) : Bool := r.1 ≤ b ∧ (b : Int) < r.1 + r.2

def bitmapOf (v : Volume) (g : Nat) : Mem := v.bitmap (ext4BlockBitmap v.superBlock (v.gdesc g))

def clearOf (v : Volume) (g : Nat) : Finset Nat := clearBits (bitmapOf v g) (superBlockSize v.superBlock * 8)

/-- The bits of group `g` that are clear or belong to a range handed out. -/
def clearOrHeld (v : Volume) (held : List Range) (g : Nat) : Finset Nat :=
  (Finset.range (groupLength v.superBlock g)).filter fun i =>
    bitmapOf v g i = false ∨ held.any (covers · (groupStart v.superBlock g + i)) = true

/-- Initialised bitmaps in blocks of their own, with the bits past each group's end set
and the free counts equal to the numbers of clear bits. -/
structure Counted (v : Volume) : Prop where
  geometry : Geometry v.superBlock
  inited : ∀ g, g < superNBlockGroups v.superBlock → ext4IsBlockBitmapInited (v.gdesc g) = true
  apart : ∀ g g', g < superNBlockGroups v.superBlock → g' < superNBlockGroups v.superBlock →
    ext4BlockBitmap v.superBlock (v.gdesc g) = ext4BlockBitmap v.superBlock (v.gdesc g') → g = g'
  past : ∀ g i, g < superNBlockGroups v.superBlock → groupLength v.superBlock g ≤ i →
    i < superBlockSize v.superBlock * 8 → bitmapOf v g i = true
  counted : ∀ g, g < superNBlockGroups v.superBlock →
    ext4FreeBlksCount v.superBlock (v.gdesc g) = (clearOf v g).card
  total : ext4FreeBlocksCount v.superBlock = ∑ g ∈ Finset.range (superNBlockGroups v.superBlock), (clearOf v g).card

/-- A range inside one group. -/
structure Within (v : Volume) (r : Range) (g : Nat) : Prop where
  group : g < superNBlockGroups v.superBlock
  start : groupStart v.superBlock g ≤ r.1
  stop : (r.1 : Int) + r.2 ≤ groupStart v.superBlock g + groupLength v.superBlock g
  first : r.1 < groupStart v.superBlock g + groupLength v.superBlock g
  length : 0 ≤ r.2

/-- The ranges handed out and not yet freed are set in the bitmaps and share no block,
and what they and the clear bits make up fits the free counts. -/
structure Held (v : Volume) (held : List Range) : Prop where
  within : ∀ r ∈ held, ∃ g, Within v r g
  set : ∀ g i, g < superNBlockGroups v.superBlock → i < groupLength v.superBlock g →
    held.any (covers · (groupStart v.superBlock g + i)) = true → bitmapOf v g i = true
  disjoint : held.Pairwise fun r r' => ∀ b, covers r b = true → covers r' b = false
  room : ∀ g, g < superNBlockGroups v.superBlock → (clearOrHeld v held g).card < freeBlksLimit v.superBlock

/-- The volume after group `g` got the bitmap `mem` and lost `len` free blocks. -/
def changed (v : Volume) (g : Nat) (mem : Mem) (inode : Inode) (len : Int) : Volume :=
  (countBlocks (v.setBitmap (ext4BlockBitmap v.superBlock (v.gdesc g)) mem) inode g (v.gdesc g) len).1

/-- The groups' bitmaps lie in blocks of their own. -/
def Apart (v : Volume) : Prop :=
  ∀ g g', g < superNBlockGroups v.superBlock → g' < superNBlockGroups v.superBlock →
    ext4BlockBitmap v.superBlock (v.gdesc g) = ext4BlockBitmap v.superBlock (v.gdesc g') → g = g'

section Changed
variable {v : Volume} {g : Nat} {mem : Mem} {inode : Inode} {len : Int}

theorem changed_superBlock : (changed v g mem inode len).superBlock =
    ext4FreeBlocksCountSet v.superBlock (u64 (ext4FreeBlocksCount v.superBlock - len)) := rfl

theorem changed_bitmap : (changed v g mem inode len).bitmap =
    Function.update v.bitmap (ext4BlockBitmap v.superBlock (v.gdesc g)) mem := rfl

theorem changed_blockBitmap (g' : Nat) :
    ext4BlockBitmap v.superBlock ((changed v g mem inode len).gdesc g') = ext4BlockBitmap v.superBlock (v.gdesc g') := by
  rcases eq_or_ne g' g with rfl | other
  · simp [changed,countBlocks,Volume.setDesc,Volume.setBitmap]
  · simp [changed,countBlocks,Volume.setDesc,Volume.setBitmap,other]

theorem changed_gdesc_self : (changed v g mem inode len).gdesc g =
    ext4FreeBlksSet v.superBlock (v.gdesc g) (u32 (ext4FreeBlksCount v.superBlock (v.gdesc g) - len)) := by
  simp [changed,countBlocks,Volume.setDesc,Volume.setBitmap]

theorem changed_gdesc_other {g' : Nat} (other : g' ≠ g) : (changed v g mem inode len).gdesc g' = v.gdesc g' := by
  simp [changed,countBlocks,Volume.setDesc,Volume.setBitmap,other]

theorem bitmapOf_setBitmap_self : bitmapOf (v.setBitmap (ext4BlockBitmap v.superBlock (v.gdesc g)) mem) g = mem := by
  simp only [bitmapOf,Volume.setBitmap,Function.update_self]

theorem bitmapOf_setBitmap_other (apart : Apart v) {g' : Nat} (group : g < superNBlockGroups v.superBlock)
    (group' : g' < superNBlockGroups v.superBlock) (other : g' ≠ g) :
    bitmapOf (v.setBitmap (ext4BlockBitmap v.superBlock (v.gdesc g)) mem) g' = bitmapOf v g' := by
  have blocks := fun same => other (apart g' g group' group same)
  simp only [bitmapOf,Volume.setBitmap,Function.update_of_ne blocks]

theorem bitmapOf_changed (g' : Nat) : bitmapOf (changed v g mem inode len) g' =
    bitmapOf (v.setBitmap (ext4BlockBitmap v.superBlock (v.gdesc g)) mem) g' := by
  rw [bitmapOf,changed_bitmap,changed_superBlock,ext4BlockBitmap_set,changed_blockBitmap]
  simp only [bitmapOf,Volume.setBitmap]

theorem bitmapOf_changed_self : bitmapOf (changed v g mem inode len) g = mem := by
  rw [bitmapOf_changed,bitmapOf_setBitmap_self]

theorem bitmapOf_changed_other (apart : Apart v) {g' : Nat} (group : g < superNBlockGroups v.superBlock)
    (group' : g' < superNBlockGroups v.superBlock) (other : g' ≠ g) :
    bitmapOf (changed v g mem inode len) g' = bitmapOf v g' := by
  rw [bitmapOf_changed,bitmapOf_setBitmap_other apart group group' other]

theorem Counted.clear_le (counted : Counted v) (g : Nat) : (clearOf v g).card ≤ 2^19 := by
  have small := counted.geometry.blockSize_le
  have cut := Finset.card_filter_le (Finset.range (superBlockSize v.superBlock * 8)) fun i => bitmapOf v g i = false
  rw [Finset.card_range] at cut
  exact Nat.le_trans cut (by omega)

theorem Counted.total_lt (counted : Counted v) :
    ∑ g ∈ Finset.range (superNBlockGroups v.superBlock), (clearOf v g).card ≤ 2^51 := by
  have bound := Finset.sum_le_card_nsmul (Finset.range (superNBlockGroups v.superBlock))
    (fun g => (clearOf v g).card) (2^19) fun g _ => counted.clear_le g
  rw [Finset.card_range,nsmul_eq_mul,Nat.cast_id] at bound
  have groups := counted.geometry.nBlockGroups_lt
  omega

/-- A sum over the groups of which one has changed. -/
theorem sum_moved {n g : Nat} (group : g < n) {before after : Nat → Nat} {len : Int}
    (others : ∀ g', g' < n → g' ≠ g → after g' = before g') (moved : (after g : Int) + len = before g) :
    ((∑ g' ∈ Finset.range n, after g' : Nat) : Int) + len = (∑ g' ∈ Finset.range n, before g' : Nat) := by
  have member := Finset.mem_range.mpr group
  have same : ∑ g' ∈ (Finset.range n).erase g, after g' = ∑ g' ∈ (Finset.range n).erase g, before g' :=
    Finset.sum_congr rfl fun g' inside =>
      others g' (Finset.mem_range.mp (Finset.mem_of_mem_erase inside)) (Finset.ne_of_mem_erase inside)
  rw [← Finset.add_sum_erase _ after member,← Finset.add_sum_erase _ before member,same]
  push_cast
  omega

theorem Counted.change (counted : Counted v) (group : g < superNBlockGroups v.superBlock)
    (past : ∀ i, groupLength v.superBlock g ≤ i → i < superBlockSize v.superBlock * 8 → mem i = true)
    (moved : ((clearBits mem (superBlockSize v.superBlock * 8)).card : Int) + len = (clearOf v g).card)
    (fits : (clearBits mem (superBlockSize v.superBlock * 8)).card < freeBlksLimit v.superBlock) :
    Counted (changed v g mem inode len) := by
  have others {g' : Nat} (group' : g' < superNBlockGroups v.superBlock) (other : g' ≠ g) :=
    @bitmapOf_changed_other v g mem inode len counted.apart g' group group' other
  have self : clearOf (changed v g mem inode len) g = clearBits mem (superBlockSize v.superBlock * 8) := by
    rw [clearOf,bitmapOf_changed_self]
    rfl
  have rest {g' : Nat} (group' : g' < superNBlockGroups v.superBlock) (other : g' ≠ g) :
      clearOf (changed v g mem inode len) g' = clearOf v g' := by
    rw [clearOf,others group' other]
    rfl
  have limit := freeBlksLimit_le v.superBlock
  refine ⟨?_,?_,?_,?_,?_,?_⟩
  · exact ⟨counted.geometry.small,counted.geometry.positive,counted.geometry.fits,counted.geometry.groups,
      counted.geometry.last⟩
  · intro g' group'
    rcases eq_or_ne g' g with rfl | other
    · simpa [changed,countBlocks,Volume.setDesc,Volume.setBitmap] using counted.inited g' group'
    · simpa [changed,countBlocks,Volume.setDesc,Volume.setBitmap,other] using counted.inited g' group'
  · intro g₁ g₂ group₁ group₂ same
    refine counted.apart g₁ g₂ group₁ group₂ ?_
    rw [← @changed_blockBitmap v g mem inode len g₁,← @changed_blockBitmap v g mem inode len g₂]
    exact same
  · intro g' i group' beyond inside
    rcases eq_or_ne g' g with rfl | other
    · rw [bitmapOf_changed_self]
      exact past i beyond inside
    · rw [others group' other]
      exact counted.past g' i group' beyond inside
  · intro g' group'
    rcases eq_or_ne g' g with rfl | other
    · rw [self]
      have before := counted.counted g' group'
      have value : u32 (ext4FreeBlksCount v.superBlock (v.gdesc g') - len) =
          (clearBits mem (superBlockSize v.superBlock * 8)).card := by
        rw [before,← moved,Int.add_sub_cancel]
        exact u32_small _ (by omega)
      have stored := ext4FreeBlksCount_stored v.superBlock (v.gdesc g') _ fits
      rw [changed_superBlock,ext4FreeBlksCount_set,changed_gdesc_self,value,stored]
    · rw [rest group' other,← counted.counted g' group',changed_superBlock,ext4FreeBlksCount_set,changed_gdesc_other other]
  · have size := counted.geometry.blockSize_le
    have small := Finset.card_filter_le (Finset.range (superBlockSize v.superBlock * 8)) fun i => mem i = false
    rw [Finset.card_range] at small
    have bound := counted.total_lt
    have least := Finset.single_le_sum (fun g' _ => Nat.zero_le (clearOf v g').card) (Finset.mem_range.mpr group)
    have sum := sum_moved group (fun g' group' other => congrArg Finset.card (rest group' other))
      (show ((clearOf (changed v g mem inode len) g).card : Int) + len = (clearOf v g).card by rw [self]; exact moved)
    have small : (clearBits mem (superBlockSize v.superBlock * 8)).card ≤ 2^19 := Nat.le_trans small (by omega)
    rw [changed_superBlock,superNBlockGroups_set,counted.total]
    generalize ∑ g' ∈ Finset.range (superNBlockGroups v.superBlock), (clearOf (changed v g mem inode len) g').card = after at sum ⊢
    generalize ∑ g' ∈ Finset.range (superNBlockGroups v.superBlock), (clearOf v g').card = before at sum bound least ⊢
    have value : (before - len : Int) = after := by omega
    rw [value,u64_small _ (by omega),ext4FreeBlocksCount_stored _ _ (by omega)]

end Changed

theorem covers_iff (r : Range) (b : Nat) : covers r b = true ↔ r.1 ≤ b ∧ (b : Int) < r.1 + r.2 := by
  simp [covers]

theorem covers_symm {r r' : Range} (apart : ∀ b, covers r b = true → covers r' b = false) (b : Nat)
    (hit : covers r' b = true) : covers r b = false := by
  by_contra both
  rw [Bool.not_eq_false] at both
  rw [apart b both] at hit
  cases hit

/-- A range inside a group covers no block of another group. -/
theorem Within.covers_group {v : Volume} {r : Range} {g g' i : Nat} (within : Within v r g)
    (geometry : Geometry v.superBlock) (inside : i < superBlocksPerGroup v.superBlock)
    (covered : covers r (groupStart v.superBlock g' + i) = true) :
    g' = g ∧ i < groupLength v.superBlock g := by
  obtain ⟨low,high⟩ := (covers_iff _ _).mp covered
  have start := within.start
  have stop := within.stop
  have length := geometry.groupLength_le g
  obtain ⟨i',same⟩ := Nat.exists_eq_add_of_le (Nat.le_trans start low)
  obtain ⟨rfl,rfl⟩ := groupStart_apart geometry.positive inside (by omega) same
  exact ⟨rfl,by omega⟩

theorem mem_clearOrHeld (v : Volume) (held : List Range) (g i : Nat) :
    i ∈ clearOrHeld v held g ↔ i < groupLength v.superBlock g ∧
      (bitmapOf v g i = false ∨ ∃ r ∈ held, covers r (groupStart v.superBlock g + i) = true) := by
  simp [clearOrHeld]

/-- The ranges handed out after a change of a bitmap that moves bits between clear and held. -/
theorem Held.change {v : Volume} {held held' : List Range} {g : Nat} {mem : Mem}
    (apart : Apart v) (before : Held v held) (group : g < superNBlockGroups v.superBlock)
    (within : ∀ r ∈ held', ∃ g', Within v r g')
    (disjoint : held'.Pairwise fun r r' => ∀ b, covers r b = true → covers r' b = false)
    (others : ∀ g' i, i < groupLength v.superBlock g' → g' ≠ g →
      ((∃ r ∈ held', covers r (groupStart v.superBlock g' + i) = true) ↔
        ∃ r ∈ held, covers r (groupStart v.superBlock g' + i) = true))
    (set : ∀ i, i < groupLength v.superBlock g →
      (∃ r ∈ held', covers r (groupStart v.superBlock g + i) = true) → mem i = true)
    (moved : ∀ i, i < groupLength v.superBlock g →
      ((mem i = false ∨ ∃ r ∈ held', covers r (groupStart v.superBlock g + i) = true) ↔
        (bitmapOf v g i = false ∨ ∃ r ∈ held, covers r (groupStart v.superBlock g + i) = true))) :
    Held (v.setBitmap (ext4BlockBitmap v.superBlock (v.gdesc g)) mem) held' := by
  refine ⟨?_,?_,disjoint,?_⟩
  · intro r member
    obtain ⟨g',inside⟩ := within r member
    exact ⟨g',inside.group,inside.start,inside.stop,inside.first,inside.length⟩
  · intro g' i group' inside covered
    rcases eq_or_ne g' g with rfl | other
    · rw [bitmapOf_setBitmap_self]
      exact set i inside (List.any_eq_true.mp covered)
    · rw [bitmapOf_setBitmap_other apart group group' other]
      exact before.set g' i group' inside
        (List.any_eq_true.mpr ((others g' i inside other).mp (List.any_eq_true.mp covered)))
  · intro g' group'
    have same : clearOrHeld (v.setBitmap (ext4BlockBitmap v.superBlock (v.gdesc g)) mem) held' g' = clearOrHeld v held g' := by
      ext i
      rw [mem_clearOrHeld,mem_clearOrHeld]
      apply and_congr_right
      intro inside
      rcases eq_or_ne g' g with rfl | other
      · rw [bitmapOf_setBitmap_self]
        exact moved i inside
      · rw [bitmapOf_setBitmap_other apart group group' other]
        exact or_congr_right (others g' i inside other)
    rw [same]
    exact before.room g' group'

/-- The free counts play no part in what is handed out. -/
theorem Held.counts {v v' : Volume} {held : List Range} {blk : Nat} (before : Held v held)
    (superBlock : v'.superBlock = ext4FreeBlocksCountSet v.superBlock blk) (bits : ∀ g, bitmapOf v' g = bitmapOf v g) :
    Held v' held := by
  refine ⟨?_,?_,before.disjoint,?_⟩
  · intro r member
    obtain ⟨g,inside⟩ := before.within r member
    refine ⟨g,?_,?_,?_,?_,inside.length⟩
    all_goals rw [superBlock]
    · exact inside.group
    · exact inside.start
    · exact inside.stop
    · exact inside.first
  · intro g i group inside covered
    rw [superBlock] at group inside covered
    rw [bits]
    exact before.set g i group inside covered
  · intro g group
    rw [superBlock] at group
    have same : clearOrHeld v' held g = clearOrHeld v held g := by
      rw [clearOrHeld,bits,superBlock]
      rfl
    rw [same,superBlock]
    exact before.room g group

theorem Held.perm {v : Volume} {held held' : List Range} (before : Held v held) (same : held'.Perm held) : Held v held' := by
  have any (b : Nat) : held'.any (covers · b) = held.any (covers · b) := same.any_eq
  refine ⟨fun r member => before.within r (same.mem_iff.mp member),?_,(same.pairwise_iff covers_symm).mpr before.disjoint,?_⟩
  · intro g i group inside covered
    rw [any] at covered
    exact before.set g i group inside covered
  · intro g group
    have equal : clearOrHeld v held' g = clearOrHeld v held g := by simp only [clearOrHeld,any]
    rw [equal]
    exact before.room g group

/-- A range of clear bits of a group is set and handed out. -/
theorem Held.take {v : Volume} {held : List Range} (geometry : Geometry v.superBlock) (apart : Apart v)
    (before : Held v held) {g index size : Nat} (group : g < superNBlockGroups v.superBlock)
    (first : index < groupLength v.superBlock g) (stop : index + size ≤ groupLength v.superBlock g)
    (clear : ∀ i, index ≤ i → i < index + size → bitmapOf v g i = false) :
    Held (v.setBitmap (ext4BlockBitmap v.superBlock (v.gdesc g)) (filled (bitmapOf v g) 0 index (index + size) true))
      ((groupStart v.superBlock g + index,(size : Int))::held) := by
  have bits (i : Nat) : filled (bitmapOf v g) 0 index (index + size) true i =
      if index ≤ i ∧ i < index + size then true else bitmapOf v g i := by simp [filled]
  have new : Within v (groupStart v.superBlock g + index,(size : Int)) g :=
    ⟨group,Nat.le_add_right _ _,by push_cast; omega,by omega,by omega⟩
  have covered (i : Nat) : covers (groupStart v.superBlock g + index,(size : Int)) (groupStart v.superBlock g + i) = true ↔
      index ≤ i ∧ i < index + size := by
    rw [covers_iff]
    constructor <;> intro both <;> push_cast at * <;> omega
  refine before.change apart group ?_ ?_ ?_ ?_ ?_
  · intro r member
    rcases List.mem_cons.mp member with rfl | old
    · exact ⟨g,new⟩
    · exact before.within r old
  · refine List.pairwise_cons.mpr ⟨fun r member b hit => ?_,before.disjoint⟩
    obtain ⟨low,high⟩ := (covers_iff _ _).mp hit
    obtain ⟨i,rfl⟩ := Nat.exists_eq_add_of_le (Nat.le_trans (Nat.le_add_right _ _) low)
    have range := (covered i).mp hit
    by_contra both
    rw [Bool.not_eq_false] at both
    have set := before.set g i group (by omega) (List.any_eq_true.mpr ⟨r,member,both⟩)
    rw [clear i range.1 (by omega)] at set
    cases set
  · intro g' i inside other
    simp only [List.mem_cons,exists_eq_or_imp]
    refine or_iff_right fun hit => other ?_
    exact (new.covers_group geometry (Nat.lt_of_lt_of_le inside (geometry.groupLength_le g')) hit).1
  · intro i inside hit
    rw [bits]
    split
    · rfl
    · rename_i outside
      obtain ⟨r,member,hit⟩ := hit
      rcases List.mem_cons.mp member with rfl | old
      · exact absurd ((covered i).mp hit) outside
      · exact before.set g i group inside (List.any_eq_true.mpr ⟨r,old,hit⟩)
  · intro i inside
    simp only [List.mem_cons,exists_eq_or_imp,covered,bits]
    split
    · rename_i range
      simp [range,clear i range.1 (by omega)]
    · rename_i outside
      simp [outside]

theorem mbSetBits_filled (mem : Mem) (index size : Nat) :
    mbSetBits mem 0 index size = filled mem 0 index (index + size) true := by
  rw [mbSetBits_eq]
  congr 1

/-- Both halves of the invariant. -/
structure Good (v : Volume) (held : List Range) : Prop where
  counted : Counted v
  held : Held v held

/-- A range of clear bits is handed out. -/
theorem Good.take {v : Volume} {held : List Range} (good : Good v held) {g index : Nat} {len : Int} (inode : Inode)
    (group : g < superNBlockGroups v.superBlock) (first : index < groupLength v.superBlock g) (length : 0 ≤ len)
    (stop : index + len ≤ groupLength v.superBlock g)
    (clear : ∀ i, index ≤ i → (i : Int) < index + len → bitmapOf v g i = false) :
    Good (changed v g (mbSetBits (bitmapOf v g) 0 index len) inode len) ((groupStart v.superBlock g + index,len)::held) := by
  obtain ⟨size,rfl⟩ := Int.eq_ofNat_of_zero_le length
  have geometry := good.counted.geometry
  have short := geometry.groupLength_le g
  have fits := geometry.fits
  have card := clearBits_set (bitmapOf v g) (superBlockSize v.superBlock * 8) index (index + size) (by omega)
    (fun i low high => clear i low (by omega))
  have held := good.held.take geometry good.counted.apart group first (show index + size ≤ groupLength v.superBlock g by omega)
    (fun i low high => clear i low (by omega))
  rw [mbSetBits_filled]
  refine ⟨good.counted.change group ?_ ?_ ?_,held.counts changed_superBlock fun g' => bitmapOf_changed g'⟩
  · intro i beyond inside
    simp only [filled]
    split
    · rfl
    · exact good.counted.past g i group beyond inside
  · rw [clearOf]
    omega
  · have counted := good.counted.counted g group
    have limit := ext4FreeBlksCount_lt v.superBlock (v.gdesc g)
    rw [counted,clearOf] at limit
    omega

/-- A range handed out before is given back. -/
theorem Good.give {v : Volume} {held : List Range} (good : Good v held) {r : Range} {g : Nat} (inode : Inode)
    (member : r ∈ held) (within : Within v r g) :
    Good (changed v g (mbClearBits (bitmapOf v g) 0 (r.1 - groupStart v.superBlock g) r.2) inode (-r.2)) (held.erase r) := by
  obtain ⟨block,len⟩ := r
  obtain ⟨size,rfl⟩ := Int.eq_ofNat_of_zero_le within.length
  have geometry := good.counted.geometry
  have short := geometry.groupLength_le g
  have fits := geometry.fits
  have group := within.group
  obtain ⟨index,rfl⟩ := Nat.exists_eq_add_of_le within.start
  have first := within.first
  have stop := within.stop
  simp only [Nat.add_sub_cancel_left] at first stop ⊢
  have written : mbClearBits (bitmapOf v g) 0 index size = filled (bitmapOf v g) 0 index (index + size) false := by
    rw [mbClearBits_eq]
    congr 1
  have bits (i : Nat) : filled (bitmapOf v g) 0 index (index + size) false i =
      if index ≤ i ∧ i < index + size then false else bitmapOf v g i := by simp [filled]
  have covered (i : Nat) : covers (groupStart v.superBlock g + index,(size : Int)) (groupStart v.superBlock g + i) = true ↔
      index ≤ i ∧ i < index + size := by
    rw [covers_iff]
    constructor <;> intro both <;> push_cast at * <;> omega
  have set (i : Nat) (low : index ≤ i) (high : i < index + size) : bitmapOf v g i = true :=
    good.held.set g i group (by push_cast at stop; omega)
      (List.any_eq_true.mpr ⟨_,member,(covered i).mpr ⟨low,high⟩⟩)
  obtain ⟨alone,rest⟩ := List.pairwise_cons.mp
    (((List.perm_cons_erase member).pairwise_iff covers_symm).mp good.held.disjoint)
  have kept (g' i : Nat) (outside : covers (groupStart v.superBlock g + index,(size : Int)) (groupStart v.superBlock g' + i) = false) :
      (∃ r ∈ held.erase (groupStart v.superBlock g + index,(size : Int)), covers r (groupStart v.superBlock g' + i) = true) ↔
        ∃ r ∈ held, covers r (groupStart v.superBlock g' + i) = true := by
    constructor
    · rintro ⟨r,inside,hit⟩
      exact ⟨r,List.mem_of_mem_erase inside,hit⟩
    · rintro ⟨r,inside,hit⟩
      refine ⟨r,(List.mem_erase_of_ne ?_).mpr inside,hit⟩
      rintro rfl
      rw [outside] at hit
      cases hit
  have card := clearBits_clear (bitmapOf v g) (superBlockSize v.superBlock * 8) index (index + size)
    (by push_cast at stop; omega) set
  rw [written]
  refine ⟨good.counted.change group ?_ ?_ ?_,
    (good.held.change good.counted.apart group ?_ rest ?_ ?_ ?_).counts changed_superBlock fun g' => bitmapOf_changed g'⟩
  · intro i beyond inside
    rw [bits,if_neg (by push_cast at stop; omega)]
    exact good.counted.past g i group beyond inside
  · rw [clearOf]
    omega
  · refine Nat.lt_of_le_of_lt (Finset.card_le_card fun i clear => ?_) (good.held.room g group)
    obtain ⟨inside,zero⟩ := (mem_clearBits _ _ _).mp clear
    have below : i < groupLength v.superBlock g := by
      by_contra beyond
      have past := good.counted.past g i group (Nat.not_lt.mp beyond) inside
      rw [bits] at zero
      split at zero
      · push_cast at stop
        omega
      · rw [past] at zero
        cases zero
    refine (mem_clearOrHeld _ _ _ _).mpr ⟨below,?_⟩
    rw [bits] at zero
    split at zero
    · rename_i range
      exact Or.inr ⟨_,member,(covered i).mpr range⟩
    · exact Or.inl zero
  · intro r inside
    exact good.held.within r (List.mem_of_mem_erase inside)
  · intro g' i inside other
    refine kept g' i ?_
    by_contra hit
    rw [Bool.not_eq_false] at hit
    exact other (within.covers_group geometry (Nat.lt_of_lt_of_le inside (geometry.groupLength_le g')) hit).1
  · intro i inside hit
    rw [bits]
    obtain ⟨r,left,hit⟩ := hit
    split
    · rename_i range
      have missed := alone r left _ ((covered i).mpr range)
      rw [hit] at missed
      cases missed
    · exact good.held.set g i group inside (List.any_eq_true.mpr ⟨r,List.mem_of_mem_erase left,hit⟩)
  · intro i inside
    rw [bits]
    split
    · rename_i range
      simp only [true_or,true_iff]
      exact Or.inr ⟨_,member,(covered i).mpr range⟩
    · rename_i outside
      rw [kept g i (by rw [← Bool.not_eq_true,covered]; exact outside)]

/-! The two calls. -/

theorem bitmapLen_fits {sb : SuperBlock} (geometry : Geometry sb) (g : Nat) :
    groupLength sb g ≤ bitmapLen sb g ∧ bitmapLen sb g ≤ superBlocksPerGroup sb := by
  have part := geometry.lastPart
  have below := Nat.mod_lt (ext4BlocksCount sb) geometry.positive
  have groups := geometry.nBlockGroups_pos
  have bound := geometry.nBlockGroups_lt
  have cast : (superNBlockGroups sb - 1 : Int) = ((superNBlockGroups sb - 1 : Nat) : Int) := by omega
  unfold groupLength bitmapLen
  rw [cast,u32_small _ (by omega)]
  split_ifs at part ⊢ <;> omega

/-- A range of clear bits that starts and ends inside group `g`. -/
structure ClearRange (v : Volume) (g index : Nat) (len : Int) : Prop where
  group : g < superNBlockGroups v.superBlock
  first : index < groupLength v.superBlock g
  length : 0 ≤ len
  stop : index + len ≤ groupLength v.superBlock g
  clear : ∀ i, index ≤ i → (i : Int) < index + len → bitmapOf v g i = false

theorem tryInit_inited {v : Volume} (counted : Counted v) {g : Nat} (group : g < superNBlockGroups v.superBlock) :
    ext4TryToInitBlockBitmap v g = some v := by
  simp [ext4TryToInitBlockBitmap,Volume.desc,group,counted.inited g group]

theorem takeFromGroup_full {v : Volume} (counted : Counted v) {g : Nat} (group : g < superNBlockGroups v.superBlock)
    (full : clearOf v g = ∅) (inode : Inode) (wanted : Int) : takeFromGroup v inode wanted g = some (none,v) := by
  have empty : ext4FreeBlksCount v.superBlock (v.gdesc g) = 0 := by rw [counted.counted g group,full,Finset.card_empty]
  simp [takeFromGroup,Volume.desc,group,empty]

/-- A search in a group with a clear bit finds its first one, and a run of length 1 there. -/
theorem search_free {v : Volume} (geometry : Geometry v.superBlock) {g : Nat}
    (past : ∀ i, groupLength v.superBlock g ≤ i → i < superBlockSize v.superBlock * 8 → bitmapOf v g i = true)
    (free : clearOf v g ≠ ∅) : ∃ index, mbFindNextZeroBit (bitmapOf v g) 0 (bitmapLen v.superBlock g) 0 = index ∧
      mbFindZeroRunLen (bitmapOf v g) 0 (bitmapLen v.superBlock g) index = 1 ∧
      index < groupLength v.superBlock g ∧ bitmapOf v g index = false := by
  obtain ⟨enough,_⟩ := bitmapLen_fits geometry g
  obtain ⟨i,member⟩ := Finset.nonempty_iff_ne_empty.mpr free
  obtain ⟨inside,zero⟩ := (mem_clearBits _ _ _).mp member
  have below : i < groupLength v.superBlock g := by
    by_contra beyond
    rw [past i (Nat.not_lt.mp beyond) inside] at zero
    nomatch zero
  have first := mbFindNextZeroBit_first (bitmapOf v g) 0 (bitmapLen v.superBlock g) 0 (Nat.zero_le _)
  generalize mbFindNextZeroBit (bitmapOf v g) 0 (bitmapLen v.superBlock g) 0 = index at first
  have early : index ≤ i := by
    by_contra late
    have missed := first.before i (Nat.zero_le _) (Nat.not_le.mp late)
    simp [zero] at missed
  refine ⟨index,rfl,?_,by omega,by simpa using first.here (by omega)⟩
  exact mbFindZeroRunLen_found _ _ _ _ ⟨Nat.le_refl _,first.to_high,fun j low high => absurd high (by omega),first.here⟩

theorem ret_address {sb : SuperBlock} (geometry : Geometry sb) {g index : Nat} (group : g < superNBlockGroups sb)
    (inside : index < groupLength sb g) :
    u64 (superFirstDataBlock sb + g * superBlocksPerGroup sb + index : Nat) = groupStart sb g + index := by
  have size := geometry.blockSize_le
  have fits := geometry.fits
  have short := geometry.groupLength_le g
  have start := sb.sFirstDataBlock.toNat_lt
  have groups := geometry.nBlockGroups_lt
  have product := Nat.mul_le_mul (Nat.le_of_lt (Nat.lt_trans group groups)) (show superBlocksPerGroup sb ≤ 2^19 by omega)
  refine u64_small _ ?_
  unfold superFirstDataBlock
  omega

/-- The blocks a group hands out are clear bits of its own. -/
theorem takeFromGroup_free {v : Volume} (counted : Counted v) {g : Nat} (group : g < superNBlockGroups v.superBlock)
    (free : clearOf v g ≠ ∅) (inode : Inode) (wanted : Int) (wants : 0 ≤ wanted) :
    ∃ index len inode', ClearRange v g index len ∧ takeFromGroup v inode wanted g =
      some (some (⟨groupStart v.superBlock g + index,len,none⟩,inode'),
        changed v g (mbSetBits (bitmapOf v g) 0 index len) inode len) := by
  have geometry := counted.geometry
  have fits := geometry.fits
  obtain ⟨enough,short⟩ := bitmapLen_fits geometry g
  have present : ext4FreeBlksCount v.superBlock (v.gdesc g) ≠ 0 := by
    rw [counted.counted g group]
    exact Finset.card_ne_zero.mpr (Finset.nonempty_iff_ne_empty.mpr free)
  obtain ⟨index,found,run,inside,here⟩ := search_free geometry (fun i => counted.past g i group) free
  have range : ClearRange v g index (if wanted < 1 then wanted else 1) := by
    refine ⟨group,inside,by split <;> omega,by split <;> omega,fun j low high => ?_⟩
    obtain rfl : j = index := by split at high <;> omega
    exact here
  have address := ret_address geometry group inside
  have stop := range.stop
  generalize length : (if wanted < 1 then wanted else 1 : Int) = len at range stop
  refine ⟨index,len,(countBlocks (v.setBitmap (ext4BlockBitmap v.superBlock (v.gdesc g))
    (mbSetBits (bitmapOf v g) 0 index len)) inode g (v.gdesc g) len).2,range,?_⟩
  unfold bitmapOf at found run
  simp only [takeFromGroup,Volume.desc,if_pos group,Option.bind_eq_bind,Option.bind_some,if_neg present,found,run,
    one_ne_zero,if_false,length,address]
  rw [if_neg (by omega),if_neg (by omega)]
  rfl

/-- What a search for free blocks comes to. -/
inductive Search (v : Volume) (inode : Inode) : Option (Allocated × Volume × Inode) → Prop
  | full : (∀ g, g < superNBlockGroups v.superBlock → clearOf v g = ∅) →
      Search v inode (some (⟨0,0,some .enospc⟩,v,inode))
  | found {g index : Nat} {len : Int} {inode' : Inode} : ClearRange v g index len →
      Search v inode (some (⟨groupStart v.superBlock g + index,len,none⟩,
        changed v g (mbSetBits (bitmapOf v g) 0 index len) inode len,inode'))

/-- A walk that comes back to where it began has been everywhere. -/
theorem round_trip {n goal k g : Nat} (inside : goal < n) (left : k < n) (back : (goal + (k + 1)) % n = goal)
    (below : g < n) : ∃ j, j < k + 1 ∧ (goal + j) % n = g := by
  have whole : k + 1 = n := by
    rcases Nat.lt_or_ge (goal + (k + 1)) n with short | long
    · rw [Nat.mod_eq_of_lt short] at back
      omega
    · rw [Nat.mod_eq_sub_mod long,Nat.mod_eq_of_lt (by omega)] at back
      omega
  rcases Nat.lt_or_ge g goal with before | after
  · refine ⟨g + n - goal,by omega,?_⟩
    rw [show goal + (g + n - goal) = g + n by omega,Nat.add_mod_right,Nat.mod_eq_of_lt below]
  · refine ⟨g - goal,by omega,?_⟩
    rw [Nat.add_sub_cancel' after,Nat.mod_eq_of_lt below]

theorem newMetaBlocksLoop_full {v : Volume} (counted : Counted v) (inode : Inode) (goal : Nat) (wanted : Int)
    (rounds : Nat) {g : Nat} (group : g < superNBlockGroups v.superBlock) (full : clearOf v g = ∅) :
    newMetaBlocksLoop inode goal wanted (rounds + 1) v g =
      if (g + 1) % superNBlockGroups v.superBlock ≠ goal then
        newMetaBlocksLoop inode goal wanted rounds v ((g + 1) % superNBlockGroups v.superBlock)
      else some (⟨0,0,some .enospc⟩,v,inode) := by
  have small := counted.geometry.nBlockGroups_lt
  have next : u32 ((g + 1) % superNBlockGroups v.superBlock : Nat) = (g + 1) % superNBlockGroups v.superBlock :=
    u32_small _ (Nat.lt_trans (Nat.mod_lt _ counted.geometry.nBlockGroups_pos) small)
  rw [newMetaBlocksLoop,tryInit_inited counted group,Option.bind_eq_bind,Option.bind_some,
    takeFromGroup_full counted group full,Option.bind_eq_bind,Option.bind_some]
  simp only [next]
  rfl

theorem newMetaBlocksLoop_free {v : Volume} (counted : Counted v) (inode : Inode) (goal : Nat) {wanted : Int}
    (wants : 0 ≤ wanted) (rounds : Nat) {g : Nat} (group : g < superNBlockGroups v.superBlock)
    (free : clearOf v g ≠ ∅) : Search v inode (newMetaBlocksLoop inode goal wanted (rounds + 1) v g) := by
  obtain ⟨index,len,inode',range,result⟩ := takeFromGroup_free counted group free inode wanted wants
  rw [newMetaBlocksLoop,tryInit_inited counted group,Option.bind_eq_bind,Option.bind_some,result,
    Option.bind_eq_bind,Option.bind_some]
  exact Search.found range

/-- After `k` full groups the loop looks into the one `k` places behind the goal. -/
theorem newMetaBlocksLoop_search {v : Volume} (counted : Counted v) (inode : Inode) {goal : Nat}
    (inside : goal < superNBlockGroups v.superBlock) {wanted : Int} (wants : 0 ≤ wanted) (rounds k : Nat)
    (left : k < superNBlockGroups v.superBlock) (enough : superNBlockGroups v.superBlock ≤ rounds + k)
    (full : ∀ j, j < k → clearOf v ((goal + j) % superNBlockGroups v.superBlock) = ∅) :
    Search v inode (newMetaBlocksLoop inode goal wanted rounds v ((goal + k) % superNBlockGroups v.superBlock)) := by
  have positive := counted.geometry.nBlockGroups_pos
  induction rounds generalizing k with
  | zero => omega
  | succ rounds ih =>
    have group := Nat.mod_lt (goal + k) positive
    rcases eq_or_ne (clearOf v ((goal + k) % superNBlockGroups v.superBlock)) ∅ with none_left | free
    · have visited (j : Nat) (before : j < k + 1) :
          clearOf v ((goal + j) % superNBlockGroups v.superBlock) = ∅ := by
        rcases Nat.lt_succ_iff_lt_or_eq.mp before with earlier | rfl
        · exact full j earlier
        · exact none_left
      rw [newMetaBlocksLoop_full counted inode goal wanted rounds group none_left,Nat.mod_add_mod,Nat.add_assoc]
      split_ifs with again
      · refine ih (k + 1) ?_ (by omega) visited
        by_contra past
        rw [show k + 1 = superNBlockGroups v.superBlock by omega,Nat.add_mod_right,Nat.mod_eq_of_lt inside] at again
        exact again rfl
      · refine Search.full fun g below => ?_
        obtain ⟨j,before,same⟩ := round_trip inside left (not_not.mp again) below
        rw [← same]
        exact visited j before
    · exact newMetaBlocksLoop_free counted inode goal wants rounds group free

/-- The block allocation starts from is 0 or lies in one of the groups. -/
def goalInGroup (sb : SuperBlock) (goal : Nat) : Bool :=
  goal = 0 ∨ superFirstDataBlock sb ≤ goal ∧
    (goal - superFirstDataBlock sb) / superBlocksPerGroup sb < superNBlockGroups sb

/-- `*count`, when there is one, keeps its sign in `wanted`. -/
def countFits : Option Nat → Bool
  | some count => count % 2^32 < 2^31
  | none => true

theorem wantedBlocks_nonneg {count : Option Nat} (fits : countFits count = true) : 0 ≤ wantedBlocks count := by
  cases count with
  | none => exact Int.one_nonneg
  | some count =>
    have low : count % 2^32 < 2^31 := of_decide_eq_true fits
    rw [wantedBlocks,i32,Int.bmod_def]
    omega

theorem ext4NewMetaBlocks_search {v : Volume} (counted : Counted v) (inode : Inode) {goal : Nat}
    (inside : goalInGroup v.superBlock goal = true) {count : Option Nat} (fits : countFits count = true) :
    Search v inode (ext4NewMetaBlocks v inode goal count) := by
  have geometry := counted.geometry
  have positive := geometry.nBlockGroups_pos
  have small := geometry.nBlockGroups_lt
  have groupGoal : ∃ group, group < superNBlockGroups v.superBlock ∧
      (if goal ≠ 0 then u64 (goal - superFirstDataBlock v.superBlock : Int) / superBlocksPerGroup v.superBlock else 0) =
        group := by
    rcases of_decide_eq_true inside with zero | ⟨low,group⟩
    · exact ⟨0,positive,by rw [if_neg (not_not.mpr zero)]⟩
    · refine ⟨_,?_,rfl⟩
      split_ifs with given
      · have cast : (goal - superFirstDataBlock v.superBlock : Int) = (goal - superFirstDataBlock v.superBlock : Nat) := by omega
        have bound := (Nat.div_lt_iff_lt_mul geometry.positive).mp (Nat.lt_trans group small)
        have size := geometry.blockSize_le
        have most := geometry.fits
        rw [cast,u64_small _ (by omega)]
        exact group
      · exact positive
  obtain ⟨group,below,same⟩ := groupGoal
  unfold ext4NewMetaBlocks
  simp only [same,u32_small _ (Nat.lt_trans below small)]
  have loop := newMetaBlocksLoop_search counted inode below (wantedBlocks_nonneg fits)
    (superNBlockGroups v.superBlock + 1) 0 positive (by omega) fun j before => absurd before (Nat.not_lt_zero j)
  rwa [show (group + 0) % superNBlockGroups v.superBlock = group from Nat.mod_eq_of_lt below] at loop

/-- Freeing from bit `index` of group `g` on: the whole range goes to the one bitmap. -/
theorem ext4ExtFreeBlocks_group {v : Volume} (sizes : Sizes v.superBlock) {g index : Nat}
    (group : g < superNBlockGroups v.superBlock) (inside : index < superBlocksPerGroup v.superBlock)
    (inited : ext4IsBlockBitmapInited (v.gdesc g) = true) (inode : Inode) (count : Int) :
    ext4ExtFreeBlocks v inode (groupStart v.superBlock g + index) count =
      if superBlockSize v.superBlock * 8 < index + count then none
      else some (countBlocks (v.setBitmap (ext4BlockBitmap v.superBlock (v.gdesc g)) (mbClearBits (bitmapOf v g) 0 index count))
        inode g (v.gdesc g) (-count)) := by
  have size := sizes.blockSize_le
  have fits := sizes.fits
  have small := sizes.nBlockGroups_lt
  have product := Nat.mul_le_mul (Nat.le_of_lt (Nat.lt_trans group small)) (show superBlocksPerGroup v.superBlock ≤ 2^19 by omega)
  have offset : (groupStart v.superBlock g + index - superFirstDataBlock v.superBlock : Int) =
      ((g * superBlocksPerGroup v.superBlock + index : Nat) : Int) := by
    rw [groupStart]
    push_cast
    omega
  have number : u32 (u64 (groupStart v.superBlock g + index - superFirstDataBlock v.superBlock : Int) /
      superBlocksPerGroup v.superBlock : Nat) = g := by
    have divided := groupStart_group sizes.positive g index inside
    rw [groupStart,Nat.add_assoc,Nat.add_sub_cancel_left] at divided
    rw [offset,u64_small _ (by omega),divided,u32_small _ (by omega)]
  have position : i32 (groupStart v.superBlock g + index - superFirstDataBlock v.superBlock -
      g * superBlocksPerGroup v.superBlock : Int) = index := by
    rw [offset,Nat.cast_add,Nat.cast_mul,add_sub_cancel_left]
    exact i32_small _ (by omega) (by omega)
  simp only [ext4ExtFreeBlocks,Nat.cast_add,number,position,Volume.desc,if_pos group,Option.bind_eq_bind,
    Option.bind_some,inited,Bool.not_true,Bool.false_eq_true,if_false,Int.toNat_natCast]
  split
  · rename_i outside
    exact (if_pos (outside.resolve_left (by omega))).symm
  · rename_i enough
    exact (if_neg fun outside => enough (Or.inr outside)).symm

theorem ext4ExtFreeBlocks_within {v : Volume} (counted : Counted v) {r : Range} {g : Nat} (within : Within v r g)
    (inode : Inode) : ∃ inode', ext4ExtFreeBlocks v inode r.1 r.2 =
      some (changed v g (mbClearBits (bitmapOf v g) 0 (r.1 - groupStart v.superBlock g) r.2) inode (-r.2),inode') := by
  obtain ⟨block,len⟩ := r
  obtain ⟨index,rfl⟩ := Nat.exists_eq_add_of_le within.start
  have geometry := counted.geometry
  have short := geometry.groupLength_le g
  have fits := geometry.fits
  have group := within.group
  have first := within.first
  have stop := within.stop
  simp only [Nat.add_sub_cancel_left] at first stop ⊢
  rw [ext4ExtFreeBlocks_group geometry.sizes group (by omega) (counted.inited g group),if_neg (by omega)]
  exact ⟨_,rfl⟩

/-! Runs of allocations and frees. -/

/-- The volume and the ranges that allocations returned and no call has freed yet. -/
structure AllocState where
  volume : Volume
  held : List Range

inductive AllocAction
  | newMetaBlocks (inode : Inode) (goal : Nat) (count : Option Nat)
  | freeBlocks (inode : Inode) (range : Range)

def AllocState.allocated (s : AllocState) (volume : Volume) (allocated : Allocated) : AllocState :=
  ⟨volume,if allocated.err = none then (allocated.block,allocated.len)::s.held else s.held⟩

def allocStep (s : AllocState) : AllocAction → Option AllocState
  | .newMetaBlocks inode goal count =>
    (ext4NewMetaBlocks s.volume inode goal count).map fun (allocated,volume,_) => s.allocated volume allocated
  | .freeBlocks inode range =>
    (ext4ExtFreeBlocks s.volume inode range.1 range.2).map fun (volume,_) => ⟨volume,s.held.erase range⟩

/-- The calls in question: a goal in a valid group and at least one block wanted, or a
range freed once. -/
def allocCall (s : AllocState) : AllocAction → Bool
  | .newMetaBlocks _ goal count => goalInGroup s.volume.superBlock goal && count.all (1 ≤ ·)
  | .freeBlocks _ range => range ∈ s.held

/-- No call wants a number of blocks that turns negative as an `int`. -/
def allocFits : AllocAction → Bool
  | .newMetaBlocks _ _ count => countFits count
  | .freeBlocks _ _ => true

/-- What a call for blocks may answer on a volume. -/
structure Answered (v : Volume) (allocated : Allocated) : Prop where
  success : allocated.err = none → ∃ g, g < superNBlockGroups v.superBlock ∧
    groupStart v.superBlock g ≤ allocated.block ∧
    allocated.block + allocated.len ≤ groupStart v.superBlock g + groupLength v.superBlock g ∧
    ∀ b, allocated.block ≤ b → (b : Int) < allocated.block + allocated.len →
      bitmapOf v g (b - groupStart v.superBlock g) = false
  failure : allocated.err ≠ none → allocated.err = some .enospc ∧
    ∀ g i, g < superNBlockGroups v.superBlock → i < superBlockSize v.superBlock * 8 → bitmapOf v g i = true

theorem ClearRange.answered {v : Volume} {g index : Nat} {len : Int} (range : ClearRange v g index len) :
    Answered v ⟨groupStart v.superBlock g + index,len,none⟩ := by
  have stop := range.stop
  refine ⟨fun _ => ⟨g,range.group,Nat.le_add_right _ _,?_,fun b low high => ?_⟩,fun failed => absurd rfl failed⟩
  · push_cast
    omega
  · simp only at low high
    push_cast at high
    exact range.clear _ (by omega) (by omega)

theorem full_answered {v : Volume} (full : ∀ g, g < superNBlockGroups v.superBlock → clearOf v g = ∅) :
    Answered v ⟨0,0,some .enospc⟩ := by
  refine ⟨fun success => (nomatch success),fun _ => ⟨rfl,fun g i group inside => ?_⟩⟩
  by_contra clear
  rw [Bool.not_eq_true] at clear
  have member := (mem_clearBits _ _ _).mpr ⟨inside,clear⟩
  rw [← clearOf,full g group] at member
  exact Finset.notMem_empty i member

theorem ext4NewMetaBlocks_good {s : AllocState} (good : Good s.volume s.held) (inode : Inode) {goal : Nat}
    (inside : goalInGroup s.volume.superBlock goal = true) {count : Option Nat} (fits : countFits count = true) :
    ∃ allocated volume inode', ext4NewMetaBlocks s.volume inode goal count = some (allocated,volume,inode') ∧
      Answered s.volume allocated ∧ Good volume (s.allocated volume allocated).held := by
  have search := ext4NewMetaBlocks_search good.counted inode inside fits
  generalize ext4NewMetaBlocks s.volume inode goal count = result at search
  cases search with
  | full full => exact ⟨_,_,_,rfl,full_answered full,good⟩
  | found range =>
    exact ⟨_,_,_,rfl,range.answered,good.take inode range.group range.first range.length range.stop range.clear⟩

theorem allocStep_good (s : AllocState) (a : AllocAction) (s' : AllocState) (good : Good s.volume s.held)
    (may : (allocCall s a && allocFits a) = true) (step : allocStep s a = some s') : Good s'.volume s'.held := by
  obtain ⟨call,fits⟩ := Bool.and_eq_true_iff.mp may
  cases a with
  | newMetaBlocks inode goal count =>
    obtain ⟨inside,_⟩ := Bool.and_eq_true_iff.mp call
    obtain ⟨allocated,volume,inode',result,_,after⟩ := ext4NewMetaBlocks_good good inode inside fits
    rw [allocStep,result,Option.map_some] at step
    obtain rfl := Option.some.inj step
    exact after
  | freeBlocks inode range =>
    have member : range ∈ s.held := of_decide_eq_true call
    obtain ⟨g,within⟩ := good.held.within range member
    obtain ⟨inode',result⟩ := ext4ExtFreeBlocks_within good.counted within inode
    rw [allocStep,result,Option.map_some] at step
    obtain rfl := Option.some.inj step
    exact good.give inode member within

theorem Counted.start {v : Volume} (counted : Counted v) : Good v [] := by
  refine ⟨counted,fun r member => (nomatch member),?_,List.Pairwise.nil,?_⟩
  · intro g i _ _ covered
    nomatch covered
  · intro g group
    have same : clearOrHeld v [] g ⊆ clearOf v g := by
      intro i member
      obtain ⟨inside,clear | ⟨r,held,_⟩⟩ := (mem_clearOrHeld _ _ _ _).mp member
      · have short := counted.geometry.groupLength_le g
        have fits := counted.geometry.fits
        exact (mem_clearBits _ _ _).mpr ⟨by omega,clear⟩
      · nomatch held
    have limit := ext4FreeBlksCount_lt v.superBlock (v.gdesc g)
    rw [counted.counted g group] at limit
    exact Nat.lt_of_le_of_lt (Finset.card_le_card same) limit

/-- In every run of calls whose counts keep their sign the free counts stay exact and every
further such call is answered from the bitmaps. -/
theorem alloc_run {v : Volume} (counted : Counted v) {s : AllocState}
    (reached : Reaches allocStep (fun s a => allocCall s a && allocFits a) ⟨v,[]⟩ s) :
    Counted s.volume ∧
    (∀ inode goal count, allocCall s (.newMetaBlocks inode goal count) = true → countFits count = true →
      ∃ allocated volume inode', ext4NewMetaBlocks s.volume inode goal count = some (allocated,volume,inode') ∧
        Answered s.volume allocated) ∧
    ∀ inode range, allocCall s (.freeBlocks inode range) = true →
      (ext4ExtFreeBlocks s.volume inode range.1 range.2).isSome = true := by
  have good := reached.invariant (P := fun s => Good s.volume s.held) counted.start allocStep_good
  refine ⟨good.counted,?_,?_⟩
  · intro inode goal count call fits
    obtain ⟨inside,_⟩ := Bool.and_eq_true_iff.mp call
    obtain ⟨allocated,volume,inode',result,answered,_⟩ := ext4NewMetaBlocks_good good inode inside fits
    exact ⟨allocated,volume,inode',result,answered⟩
  · intro inode range call
    obtain ⟨g,within⟩ := good.held.within range (of_decide_eq_true call)
    obtain ⟨inode',result⟩ := ext4ExtFreeBlocks_within good.counted within inode
    rw [result]
    rfl

/-- One group with one free block. -/
theorem counted_single {v : Volume} {k : Nat} (geometry : Geometry v.superBlock) (groups : superNBlockGroups v.superBlock = 1)
    (inited : ext4IsBlockBitmapInited (v.gdesc 0) = true) (bits : ∀ i, bitmapOf v 0 i = decide (i ≠ k))
    (inside : k < groupLength v.superBlock 0) (free : ext4FreeBlksCount v.superBlock (v.gdesc 0) = 1)
    (total : ext4FreeBlocksCount v.superBlock = 1) : Counted v := by
  have clear : clearOf v 0 = {k} := by
    have short := geometry.groupLength_le 0
    have fits := geometry.fits
    ext i
    rw [clearOf,mem_clearBits,bits,Finset.mem_singleton,decide_eq_false_iff_not,not_not]
    exact and_iff_right_of_imp fun equal => by omega
  refine ⟨geometry,fun g group => ?_,fun g g' group group' _ => ?_,fun g i group past _ => ?_,fun g group => ?_,?_⟩
  · obtain rfl := Nat.lt_one_iff.mp (groups ▸ group)
    exact inited
  · rw [groups] at group group'
    omega
  · obtain rfl := Nat.lt_one_iff.mp (groups ▸ group)
    rw [bits]
    exact decide_eq_true (by omega)
  · obtain rfl := Nat.lt_one_iff.mp (groups ▸ group)
    rw [clear,Finset.card_singleton,free]
  · rw [groups,Finset.sum_range_one,clear,Finset.card_singleton,total]

/-- One group of eight blocks, of which the last is free. -/
def oneFree : Volume where
  superBlock := ⟨8,0,1,0,0,0,8,8,128,0,0,0,0,0⟩
  gdesc := fun _ => ⟨3,0,4,0,5,0,1,0,0⟩
  bitmap := fun _ i => decide (i ≠ 7)

def anyInode : Inode := ⟨12,false,⟨0,0,0,0,0,⟨0xf30a,0,4,0,fun _ => ⟨0,0,0⟩⟩⟩⟩

theorem oneFree_counted : Counted oneFree :=
  counted_single ⟨by decide,by decide,by decide,by decide,by decide⟩ (by decide) (by decide) (fun _ => rfl) (by decide) (by decide) (by decide)

theorem alloc_run_oneFree : ∃ s, run allocStep (fun s a => allocCall s a && allocFits a) ⟨oneFree,[]⟩
    [.newMetaBlocks anyInode 7 (some 5),.freeBlocks anyInode (7,1),.newMetaBlocks anyInode 0 none] = some s ∧
    s.held = [(7,1)] ∧ Counted s.volume := by
  have result : (run allocStep (fun s a => allocCall s a && allocFits a) ⟨oneFree,[]⟩
      [.newMetaBlocks anyInode 7 (some 5),.freeBlocks anyInode (7,1),.newMetaBlocks anyInode 0 none]).map (·.held) =
      some [(7,1)] := by decide +kernel
  obtain ⟨s,runs,held⟩ := Option.map_eq_some_iff.mp result
  exact ⟨s,runs,held,(alloc_run oneFree_counted (Reaches.start.run runs)).1⟩

/-- A count of 2^31 is negative as an `int`: no bit is set and the free count grows. -/
theorem alloc_negative_count : Counted oneFree ∧ ∃ s, Reaches allocStep allocCall ⟨oneFree,[]⟩ s ∧
    superNBlockGroups s.volume.superBlock = 1 ∧ ext4FreeBlksCount s.volume.superBlock (s.volume.gdesc 0) = 1 ∧
    ext4FreeBlocksCount s.volume.superBlock = 2^31 + 1 ∧ ¬Counted s.volume := by
  have result : (allocStep ⟨oneFree,[]⟩ (.newMetaBlocks anyInode 0 (some (2^31)))).map (fun s =>
      (superNBlockGroups s.volume.superBlock,ext4FreeBlksCount s.volume.superBlock (s.volume.gdesc 0),
        ext4FreeBlocksCount s.volume.superBlock)) = some (1,1,2^31 + 1) := by decide +kernel
  obtain ⟨s,step,values⟩ := Option.map_eq_some_iff.mp result
  obtain ⟨groups,counts⟩ := Prod.mk.inj values
  obtain ⟨count,total⟩ := Prod.mk.inj counts
  refine ⟨oneFree_counted,s,Reaches.step Reaches.start (by decide) step,groups,count,total,fun counted => ?_⟩
  have sum := counted.total
  have card := counted.counted 0 (by omega)
  rw [groups,Finset.sum_range_one] at sum
  omega

end Ext4Fuse.Alloc
