import Ext4Fuse.AllocRequests
import Ext4Fuse.Extents.NextAllocated

/-! The goals that `extents.c` passes to `ext4_new_meta_blocks`: which of them let the search
over the groups begin in a group of the volume and come to an end. -/
namespace Ext4Fuse.Extents
open Machine Ext4Fuse.Types Bitmap Super Alloc AllocRequests

/-- `group_goal` of `ext4_new_meta_blocks`, whose low 32 bits are the first group. -/
def groupGoal (sb : SuperBlock) (goal : Nat) : Nat :=
  if goal ≠ 0 then u64 (goal - superFirstDataBlock sb : Int) / superBlocksPerGroup sb else 0

/-- Whatever blocks are free, the search begins in a group of the volume, reads no descriptor
but of such groups, and after one round at most ends with a block or `ENOSPC`. -/
structure Searched (sb : SuperBlock) (goal : Nat) : Prop where
  first : u32 (groupGoal sb goal) < superNBlockGroups sb
  ends : ∀ blk v, v.superBlock = ext4FreeBlocksCountSet sb blk → Consistent v → ∀ inode wanted,
    ∃ allocated v' inode', newMetaBlocksLoop inode (groupGoal sb goal) wanted (superNBlockGroups sb) v
      (u32 (groupGoal sb goal)) = some (allocated,v',inode') ∧ (allocated.err = none ∨ allocated.err = some .enospc)

/-- The number of a block from 0 or the first data block to the end of the last group. -/
def InGroups (sb : SuperBlock) (x : Int) : Prop :=
  x = 0 ∨ (superFirstDataBlock sb : Int) ≤ x ∧ x < superFirstDataBlock sb + superNBlockGroups sb * superBlocksPerGroup sb

/-! The search from a group of the volume. -/

section Search
variable {v w : Volume} {g : Nat}

/-- A look into a group finds a block, or leaves all but an initialised bitmap alone. -/
theorem takeFromGroup_answers (initialised : Initialised v w) (counted : Counted w)
    (group : g < superNBlockGroups v.superBlock) (inode : Inode) (wanted : Int) :
    ∃ v₁ taken v', ext4TryToInitBlockBitmap v g = some v₁ ∧ takeFromGroup v₁ inode wanted g = some (taken,v') ∧
      (taken = none ∧ Initialised v' w ∨ ∃ allocated inode', taken = some (allocated,inode') ∧ allocated.err = none) := by
  have group' : g < superNBlockGroups w.superBlock := initialised.superBlock ▸ group
  obtain ⟨v₁,init,initialised₁,inited,superBlock,_⟩ := initialised.init counted.apart group (counted.inited g group')
  have group₁ : g < superNBlockGroups v₁.superBlock := superBlock.symm ▸ group
  obtain ⟨desc,bits⟩ := initialised₁.agree group₁ inited
  have same := initialised₁.superBlock
  have free := counted.counted g group'
  rw [desc,same] at free
  rcases eq_or_ne (clearOf w g) ∅ with full | some_
  · refine ⟨v₁,none,v₁,init,?_,Or.inl ⟨rfl,initialised₁⟩⟩
    rw [full,Finset.card_empty] at free
    simp [takeFromGroup,Volume.desc,group₁,free]
  · have geometry := counted.geometry
    obtain ⟨index,found,run,inside,_⟩ := search_free geometry (fun i => counted.past g i group') some_
    obtain ⟨enough,short⟩ := bitmapLen_fits geometry g
    have fits := geometry.fits
    have present : ext4FreeBlksCount v₁.superBlock (v₁.gdesc g) ≠ 0 := by
      rw [free]
      exact Finset.card_ne_zero.mpr (Finset.nonempty_iff_ne_empty.mpr some_)
    rw [bits,same] at found run
    rw [same] at enough short fits inside
    unfold bitmapOf at found run
    generalize length : (if wanted < 1 then wanted else 1 : Int) = len
    have stop : (index : Int) + len ≤ superBlockSize v₁.superBlock * 8 := by
      rw [← length]
      split <;> omega
    refine ⟨v₁,some (⟨u64 (superFirstDataBlock v₁.superBlock + g * superBlocksPerGroup v₁.superBlock + index : Nat),len,none⟩,
      (countBlocks (v₁.setBitmap (ext4BlockBitmap v₁.superBlock (v₁.gdesc g))
        (mbSetBits (bitmapOf v₁ g) 0 index len)) inode g (v₁.gdesc g) len).2),
      changed v₁ g (mbSetBits (bitmapOf v₁ g) 0 index len) inode len,init,?_,Or.inr ⟨_,_,rfl,rfl⟩⟩
    simp only [takeFromGroup,Volume.desc,if_pos group₁,Option.bind_eq_bind,Option.bind_some,if_neg present,found,run,
      one_ne_zero,if_false,length]
    rw [if_neg (by omega),if_neg (by omega)]
    rfl

/-- The loop in the group `k` places behind the first one, before it has come round. -/
theorem newMetaBlocksLoop_ends (initialised : Initialised v w) (counted : Counted w) (inode : Inode) (wanted : Int)
    {goal : Nat} (inside : goal < superNBlockGroups v.superBlock) (rounds k : Nat) (left : k < superNBlockGroups v.superBlock)
    (enough : superNBlockGroups v.superBlock ≤ rounds + k) : ∃ allocated v' inode',
      newMetaBlocksLoop inode goal wanted rounds v ((goal + k) % superNBlockGroups v.superBlock) = some (allocated,v',inode') ∧
        (allocated.err = none ∨ allocated.err = some .enospc) := by
  induction rounds generalizing k v with
  | zero => exact absurd left (by omega)
  | succ rounds ih =>
    have positive := Nat.lt_of_le_of_lt (Nat.zero_le k) left
    have group := Nat.mod_lt (goal + k) positive
    obtain ⟨v₁,taken,v',init,look,answer⟩ := takeFromGroup_answers initialised counted group inode wanted
    rw [newMetaBlocksLoop,init,Option.bind_eq_bind,Option.bind_some,look,Option.bind_eq_bind,Option.bind_some]
    rcases answer with ⟨rfl,initialised'⟩ | ⟨allocated,inode',rfl,none_⟩
    · have same : superNBlockGroups v'.superBlock = superNBlockGroups v.superBlock := by
        rw [← initialised'.superBlock,initialised.superBlock]
      have small : superNBlockGroups v.superBlock < 2^32 := by
        rw [← initialised.superBlock]
        exact counted.geometry.nBlockGroups_lt
      have next : u32 (((goal + k) % superNBlockGroups v.superBlock + 1) % superNBlockGroups v'.superBlock : Nat) =
          (goal + (k + 1)) % superNBlockGroups v'.superBlock := by
        rw [same,u32_small _ (Nat.lt_trans (Nat.mod_lt _ positive) small),Nat.mod_add_mod,Nat.add_assoc]
      simp only [next]
      split_ifs with again
      · refine ih initialised' (same.symm ▸ inside) (k + 1) ?_ (by omega)
        by_contra past
        rw [show k + 1 = superNBlockGroups v'.superBlock by omega,Nat.add_mod_right,Nat.mod_eq_of_lt (by omega)] at again
        exact again rfl
      · exact ⟨_,_,_,rfl,Or.inr rfl⟩
    · exact ⟨_,_,_,rfl,Or.inl none_⟩

/-- A goal number that no group has is never met again. -/
theorem newMetaBlocksLoop_never (counted : Counted v) (full : ∀ g, g < superNBlockGroups v.superBlock → clearOf v g = ∅)
    (inode : Inode) (wanted : Int) {goal : Nat} (outside : superNBlockGroups v.superBlock ≤ goal) (rounds : Nat)
    (group : g < superNBlockGroups v.superBlock) : newMetaBlocksLoop inode goal wanted rounds v g = none := by
  induction rounds generalizing g with
  | zero => rfl
  | succ rounds ih =>
    have next := Nat.mod_lt (g + 1) counted.geometry.nBlockGroups_pos
    rw [newMetaBlocksLoop_full counted inode goal wanted rounds group (full g group),if_pos (by omega)]
    exact ih next

end Search

/-! Every superblock has a volume without a free block. -/

/-- Each group's bitmap lies in the block of its number. -/
def unfreeVolume (sb : SuperBlock) : Volume where
  superBlock := ext4FreeBlocksCountSet sb 0
  gdesc := fun g => ⟨UInt32.ofNat g,0,0,0,0,0,0,0,0⟩
  bitmap := fun _ _ => true

theorem unfreeVolume_clear (sb : SuperBlock) (g : Nat) : clearOf (unfreeVolume sb) g = ∅ := by
  refine Finset.eq_empty_of_forall_notMem fun i member => ?_
  have bit := ((mem_clearBits _ _ _).mp member).2
  nomatch bit

theorem unfreeVolume_counted {sb : SuperBlock} (geometry : Geometry sb) : Counted (unfreeVolume sb) := by
  have groups : superNBlockGroups (unfreeVolume sb).superBlock = superNBlockGroups sb := rfl
  have small := geometry.nBlockGroups_lt
  refine ⟨⟨geometry.small,geometry.positive,geometry.fits,geometry.groups,geometry.last⟩,fun g _ => ?_,?_,fun _ _ _ _ _ => rfl,
    fun g _ => ?_,?_⟩
  · simp [ext4IsBlockBitmapInited,unfreeVolume]
  · intro g g' group group' same
    have number (g : Nat) (group : g < superNBlockGroups sb) :
        ext4BlockBitmap (unfreeVolume sb).superBlock ((unfreeVolume sb).gdesc g) = g := by
      have low : (UInt32.ofNat g).toNat = g := UInt32.toNat_ofNat_of_lt' (Nat.lt_trans group small)
      simp [ext4BlockBitmap,unfreeVolume,descValue,low]
    rw [number g group,number g' group'] at same
    exact same
  · rw [unfreeVolume_clear,Finset.card_empty]
    simp [ext4FreeBlksCount,unfreeVolume,descValue]
  · simp only [unfreeVolume_clear,Finset.card_empty,Finset.sum_const_zero]
    exact ext4FreeBlocksCount_stored sb 0 (by decide)

theorem counted_consistent {v : Volume} (counted : Counted v) : Consistent v :=
  ⟨v,⟨rfl,fun _ _ => Or.inl ⟨rfl,rfl⟩⟩,counted⟩

/-! Which goals are searched for. -/

section Goals
variable {sb : SuperBlock} (geometry : Geometry sb)
include geometry

theorem searched_groupGoal {goal : Nat} : Searched sb goal ↔ groupGoal sb goal < superNBlockGroups sb := by
  have small := geometry.nBlockGroups_lt
  constructor
  · intro searched
    by_contra outside
    obtain ⟨_,_,_,result,_⟩ := searched.ends 0 (unfreeVolume sb) rfl (counted_consistent (unfreeVolume_counted geometry))
      anyInode 1
    have never := newMetaBlocksLoop_never (unfreeVolume_counted geometry) (fun g _ => unfreeVolume_clear sb g) anyInode 1
      (Nat.not_lt.mp outside) (superNBlockGroups sb) searched.first
    exact nomatch result.symm.trans never
  · intro inside
    have first := u32_small _ (Nat.lt_trans inside small)
    refine ⟨by rwa [first],fun blk v superBlock consistent inode wanted => ?_⟩
    obtain ⟨w,initialised,counted⟩ := consistent
    have groups : superNBlockGroups v.superBlock = superNBlockGroups sb := by rw [superBlock,superNBlockGroups_set]
    have ends := newMetaBlocksLoop_ends initialised counted inode wanted (groups.symm ▸ inside) (superNBlockGroups sb) 0
      (by omega) (by omega)
    rw [first]
    rwa [groups,Nat.add_zero,Nat.mod_eq_of_lt inside] at ends

theorem groups_end : superNBlockGroups sb * superBlocksPerGroup sb ≤ 2^51 := by
  have size := geometry.blockSize_le
  have fits := geometry.fits
  have product := Nat.mul_le_mul (Nat.le_of_lt geometry.nBlockGroups_lt) (show superBlocksPerGroup sb ≤ 2^19 by omega)
  omega

theorem groupGoal_lt_iff {goal : Nat} (bound : goal < 2^64) :
    groupGoal sb goal < superNBlockGroups sb ↔ InGroups sb goal := by
  have end_ := groups_end geometry
  have start := sb.sFirstDataBlock.toNat_lt
  have positive := geometry.nBlockGroups_pos
  rw [show sb.sFirstDataBlock.toNat = superFirstDataBlock sb from rfl] at start
  unfold groupGoal InGroups
  rcases Nat.eq_zero_or_pos goal with rfl | some_
  · simp [positive]
  rw [if_pos (Nat.ne_of_gt some_),Nat.div_lt_iff_lt_mul geometry.positive]
  rcases Nat.lt_or_ge goal (superFirstDataBlock sb) with before | behind
  · have wraps : u64 (goal - superFirstDataBlock sb : Int) = 2^64 - (superFirstDataBlock sb - goal) := by
      unfold u64
      omega
    rw [wraps]
    constructor <;> intro inside <;> omega
  · have cast : (goal - superFirstDataBlock sb : Int) = (goal - superFirstDataBlock sb : Nat) := by omega
    rw [cast,u64_small _ (by omega)]
    constructor <;> intro inside <;> omega

/-- A number taken modulo 2^64 that may have been a little negative. -/
theorem inGroups_u64 {x : Int} (low : -2^32 ≤ x) (high : x < 2^63) : InGroups sb (u64 x) ↔ InGroups sb x := by
  have end_ := groups_end geometry
  have start := sb.sFirstDataBlock.toNat_lt
  rw [show sb.sFirstDataBlock.toNat = superFirstDataBlock sb from rfl] at start
  have cast : ((superNBlockGroups sb * superBlocksPerGroup sb : Nat) : Int) = superNBlockGroups sb * superBlocksPerGroup sb :=
    Nat.cast_mul _ _
  unfold InGroups
  rw [← cast]
  rcases Int.lt_or_le x 0 with negative | positive
  · have wraps : (u64 x : Int) = 2^64 + x := by
      unfold u64
      omega
    rw [wraps]
    constructor <;> intro inside <;> omega
  · have same : (u64 x : Int) = x := by
      unfold u64
      omega
    rw [same]

/-- The same through an `int`. -/
theorem inGroups_i32 (x : Int) : InGroups sb (u64 (i32 (u64 x))) ↔ x % 2^32 < 2^31 ∧ InGroups sb (x % 2^32) := by
  have word : i32 (u64 x) = if x % 2^32 < 2^31 then x % 2^32 else x % 2^32 - 2^32 := by
    unfold i32 u64
    rw [Int.bmod_def]
    split_ifs <;> omega
  have range := Int.emod_nonneg x (show (2^32 : Int) ≠ 0 by decide)
  have most := Int.emod_lt_of_pos x (show (0 : Int) < 2^32 by decide)
  rw [word,inGroups_u64 geometry (by split_ifs <;> omega) (by split_ifs <;> omega)]
  split_ifs with short
  · exact (and_iff_right short).symm
  · refine iff_of_false (fun inside => ?_) fun inside => short inside.1
    unfold InGroups at inside
    omega

end Goals

/-! The callers. -/

inductive Caller
  | getBlocks
  | newMetaBlock
  | growIndepth

/-- The goal that each of them passes for a logical block. -/
def passedGoal (s : State) (path : Path) (block : Nat) : Caller → Nat
  | .getBlocks => u64 (i32 (ext4ExtFindGoal s path block))
  | .newMetaBlock => ext4ExtFindGoal s path block
  | .growIndepth =>
    if extDepth s ≠ 0 then ext4IdxPblock (s.inode.rawInode.iData.slot 0) else ext4InodeToGoalBlock s

section Callers
variable (s : State) (path : Path)

theorem createBlocks_passes (iblock maxBlocks : Nat) : ∃ count next, createBlocks s path iblock maxBlocks =
    (newMetaBlocks s (passedGoal s path (u32 iblock) .getBlocks) count).bind next := ⟨_,_,rfl⟩

theorem ext4ExtNewMetaBlock_passes (ex : Slot) : ext4ExtNewMetaBlock s path ex =
    newMetaBlocks s (passedGoal s path ex.eeBlock .newMetaBlock) none := rfl

theorem ext4ExtGrowIndepth_passes (block : Nat) : ∃ next, ext4ExtGrowIndepth s =
    (newMetaBlocks s (passedGoal s path block .growIndepth) none).bind next := ⟨_,rfl⟩

end Callers

/-- Where `ext4_ext_find_goal` would put the block: as far from the extent on the path as the
logical blocks are apart, and in a file without an extent at the number of the inode's group. -/
def target (s : State) (path : Path) (block : Nat) : Int :=
  match pathExtent s path with
  | some x => ext4ExtPblock x + block - x.eeBlock
  | none => ext4InodeToGoalBlock s

/-- What has to hold of the number that a caller starts from. -/
def GoalFits (s : State) (path : Path) (block : Nat) : Caller → Prop
  | .getBlocks => target s path block % 2^32 < 2^31 ∧ InGroups s.volume.superBlock (target s path block % 2^32)
  | .newMetaBlock => InGroups s.volume.superBlock (target s path block)
  | .growIndepth => InGroups s.volume.superBlock
    (if extDepth s ≠ 0 then ext4IdxPblock (s.inode.rawInode.iData.slot 0) else ext4InodeToGoalBlock s : Nat)

theorem ext4InodeToGoalBlock_lt (s : State) : ext4InodeToGoalBlock s < 2^32 :=
  Nat.lt_of_le_of_lt (Nat.div_le_self _ _) (u32_lt _)

theorem ext4IdxPblock_lt (x : Slot) : ext4IdxPblock x < 2^48 := by
  have low := x.word1.toNat_lt
  have high : x.eiLeafHi < 2^16 := Nat.mod_lt _ (by decide)
  unfold ext4IdxPblock
  rw [show x.eiLeafLo = x.word1.toNat from rfl]
  omega

theorem target_bounds (s : State) (path : Path) {block : Nat} (bound : block < 2^32) :
    -2^32 ≤ target s path block ∧ target s path block < 2^63 := by
  unfold target
  cases pathExtent s path with
  | none =>
    have small := ext4InodeToGoalBlock_lt s
    simp only
    omega
  | some x =>
    have small := ext4ExtPblock_lt x
    have first := x.word0.toNat_lt
    rw [show x.word0.toNat = x.eeBlock from rfl] at first
    simp only
    omega

theorem ext4ExtFindGoal_target {s : State} {d : Nat} {t : Tree d} (tree : HasTree s d t) {block : Nat} {path : Path} (onPath : OnPath block path d t none 0) (root : (path.elem 0).pBh = none) :
    ext4ExtFindGoal s path block = u64 (target s path block) := by
  have found := onPath_extent onPath tree.holds tree.wf
  rw [Nat.zero_add] at found
  simp only [ext4ExtFindGoal,onPath_pDepth onPath,target,pathExtent,tree.depth]
  rcases found with ⟨pExt,empty⟩ | ⟨i,pExt,_,_⟩
  · obtain rfl : d = 0 := tree.nonempty.resolve_right fun some_ => flat_ne_nil tree.wf some_ empty
    rw [pExt,Option.map_none,root]
    exact (u64_small _ (Nat.lt_trans (ext4InodeToGoalBlock_lt s) (by decide))).symm
  · simp only [pExt,Option.map_some]
    generalize (s.hdr (path.elem d).pHdr).slot i = x
    split_ifs with after
    · congr 1
      omega
    · congr 1
      omega

/-- A caller's search is sound if and only if the number it starts from is that of a block
of the groups; `ext4_ext_get_blocks` keeps only 32 bits of it, of which the highest must be 0. -/
theorem passedGoal_searched_iff {s s' : State} {d : Nat} {t : Tree d} (tree : HasTree s d t)
    (geometry : Geometry s.volume.superBlock) {block : Nat} (bound : block < 2^32) {origPath : Option Path} {path : Path}
    (found : ext4FindExtent s block origPath = (s',.ok path)) (caller : Caller) :
    Searched s.volume.superBlock (passedGoal s' path block caller) ↔ GoalFits s' path block caller := by
  obtain ⟨s₁,path₁,result,same,onPath,root⟩ := ext4FindExtent_found tree block origPath
  obtain ⟨rfl,rfl⟩ : s₁ = s' ∧ path₁ = path := by
    rw [found] at result
    injection result with state ok
    injection ok with way
    exact ⟨state.symm,way.symm⟩
  have goal := ext4ExtFindGoal_target (same.hasTree tree) onPath root
  obtain ⟨low,high⟩ := target_bounds s₁ path₁ bound
  have wide (x : Int) : u64 x < 2^64 := by
    unfold u64
    omega
  have volume := same.volume
  rw [searched_groupGoal geometry]
  cases caller with
  | getBlocks =>
    rw [passedGoal,goal,groupGoal_lt_iff geometry (wide _),inGroups_i32 geometry,GoalFits,volume]
  | newMetaBlock =>
    rw [passedGoal,goal,groupGoal_lt_iff geometry (wide _),inGroups_u64 geometry low high,GoalFits,volume]
  | growIndepth =>
    rw [groupGoal_lt_iff geometry ?_,GoalFits,volume]
    · rfl
    · have index := ext4IdxPblock_lt (s₁.inode.rawInode.iData.slot 0)
      have inode := ext4InodeToGoalBlock_lt s₁
      rw [passedGoal]
      split_ifs <;> omega

/-- A file on the same volume of eight blocks whose logical block 5 is in block 3. -/
def farFile : State :=
  {leafFile with inode := ⟨12,false,⟨6144,0,2,0,0,⟨0xf30a,1,4,0,fun _ => ⟨5,1,3⟩⟩⟩⟩}

theorem farFile_tree : HasTree farFile 0 [(⟨5,1,3⟩ : Slot)] := by
  refine ⟨⟨⟨rfl,rfl,rfl,by decide,by decide,by decide⟩,fun i x here => ?_⟩,by decide,?_,Or.inl rfl⟩
  · obtain ⟨inside,rfl⟩ := List.getElem?_eq_some_iff.mp here
    obtain rfl := Nat.lt_one_iff.mp inside
    rfl
  · exact ⟨5,6,by decide,⟨by decide,by decide,by decide⟩,(by decide : 6 ≤ 2^32)⟩

/-- Its block 6 would go to block 4, which is in the group. -/
theorem passedGoal_searched_iff_farFile : ∃ s path, ext4FindExtent farFile 6 none = (s,.ok path) ∧
    passedGoal s path 6 .getBlocks = 4 ∧ Searched oneFree.superBlock (passedGoal s path 6 .getBlocks) := by
  obtain ⟨s,path,found,same,_⟩ := ext4FindExtent_found farFile_tree 6 none
  have goals : (match ext4FindExtent farFile 6 none with
    | (s,.ok path) => some (passedGoal s path 6 .getBlocks,target s path 6)
    | (_,.error _) => none) = some (4,4) := by decide
  rw [found] at goals
  obtain ⟨goal,distance⟩ := Prod.mk.inj (Option.some.inj goals)
  refine ⟨s,path,found,goal,?_⟩
  refine (passedGoal_searched_iff farFile_tree oneFree_counted.geometry (by decide) found .getBlocks).mpr ?_
  rw [GoalFits,distance,same.volume]
  exact ⟨by decide,Or.inr ⟨by decide,by decide⟩⟩

/-- Its block 0 would go to block 3 - 5: the search begins behind the one group. -/
theorem passedGoal_wraps : HasTree farFile 0 [(⟨5,1,3⟩ : Slot)] ∧ Consistent oneFree ∧
    superNBlockGroups oneFree.superBlock = 1 ∧ (∃ s path, ext4FindExtent farFile 0 none = (s,.ok path) ∧
      groupGoal oneFree.superBlock (passedGoal s path 0 .getBlocks) = 2^61 - 1 ∧
      ∀ caller, caller ≠ .growIndepth → ¬Searched oneFree.superBlock (passedGoal s path 0 caller)) ∧
    (ext4ExtGetBlocks farFile 0 1 true).isNone = true := by
  obtain ⟨s,path,found,_⟩ := ext4FindExtent_found farFile_tree 0 none
  have goals : (match ext4FindExtent farFile 0 none with
    | (s,.ok path) => some (passedGoal s path 0 .getBlocks,passedGoal s path 0 .newMetaBlock)
    | (_,.error _) => none) = some (2^64 - 2,2^64 - 2) := by decide
  rw [found] at goals
  obtain ⟨get,new⟩ := Prod.mk.inj (Option.some.inj goals)
  have group : groupGoal oneFree.superBlock (2^64 - 2) = 2^61 - 1 := by decide
  have outside : ¬Searched oneFree.superBlock (2^64 - 2) := by
    rw [searched_groupGoal oneFree_counted.geometry,group]
    decide
  refine ⟨farFile_tree,counted_consistent oneFree_counted,by decide,⟨s,path,found,by rw [get,group],fun caller other => ?_⟩,
    by decide⟩
  cases caller with
  | getBlocks => rwa [get]
  | newMetaBlock => rwa [new]
  | growIndepth => exact absurd rfl other

end Ext4Fuse.Extents
