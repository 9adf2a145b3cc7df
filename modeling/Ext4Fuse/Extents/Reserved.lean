import Ext4Fuse.Extents.Goals
import Ext4Fuse.Extents.Steady

/-! Blocks in use: none of them is given out again, and the one that is given out is one of
them from then on. -/
namespace Ext4Fuse.Extents
open Machine Ext4Fuse.Types Bitmap Super Alloc AllocRequests Library.Partial

/-- The bit of block `b` is set, if it has one. -/
def InUse (v : Volume) (b : Nat) : Prop := ∀ g i, g < superNBlockGroups v.superBlock → i < groupLength v.superBlock g →
  groupStart v.superBlock g + i = b → bitmapOf v g i = true

/-- The bitmaps, once all are initialised, are consistent and have the blocks set, and block 0. Block
numbers have 48 bits. -/
structure Reserved (v : Volume) (blocks : List Nat) : Prop where
  bitmaps : ∃ w, Initialised v w ∧ Counted w ∧ ∀ b ∈ 0::blocks, InUse w b
  addressed : ext4BlocksCount v.superBlock ≤ 2^48

/-- In one group with one free block every other block is in use. -/
theorem single_reserved {v : Volume} {k : Nat} {blocks : List Nat} (counted : Counted v) (groups : superNBlockGroups v.superBlock = 1)
    (start : groupStart v.superBlock 0 = 0) (bits : ∀ i, bitmapOf v 0 i = decide (i ≠ k)) (addressed : ext4BlocksCount v.superBlock ≤ 2^48)
    (positive : k ≠ 0) (apart : k ∉ blocks) : Reserved v blocks := by
  refine ⟨⟨v,⟨rfl,fun _ _ => Or.inl ⟨rfl,rfl⟩⟩,counted,fun b member g i group _ here => ?_⟩,addressed⟩
  obtain rfl := Nat.lt_one_iff.mp (groups ▸ group)
  rw [start,Nat.zero_add] at here
  subst here
  rw [bits]
  refine decide_eq_true fun free => ?_
  subst free
  exact apart ((List.mem_cons.mp member).resolve_left positive)

section Taken
variable {v w : Volume} {g : Nat}

theorem initialised_change (initialised : Initialised v w) (apart : Apart w) (group : g < superNBlockGroups v.superBlock)
    (inited : ext4IsBlockBitmapInited (v.gdesc g) = true) (mem : Mem) (inode : Inode) (len : Int) :
    Initialised (changed v g mem inode len) (changed w g mem inode len) := by
  have same := initialised.superBlock
  have apart' := initialised.apart apart
  refine initialised.step _ changed_superBlock ?_ fun g' group' => ?_
  · rw [changed_superBlock,same]
  · rcases eq_or_ne g' g with rfl | other
    · obtain ⟨desc,_⟩ := initialised.agree group' inited
      refine Or.inl ⟨?_,?_⟩
      · rw [changed_gdesc_self,changed_gdesc_self,desc,same]
      · rw [bitmapOf_changed_self,bitmapOf_changed_self]
    · refine Or.inr ⟨⟨changed_gdesc_other other,?_⟩,changed_gdesc_other other,?_⟩
      · exact bitmapOf_changed_other apart' group group' other
      · exact bitmapOf_changed_other apart (same.symm ▸ group) (same.symm ▸ group') other

/-- A look into a group for one block: it finds a clear bit, or leaves all but an initialised bitmap alone. -/
theorem takeFromGroup_one (initialised : Initialised v w) (counted : Counted w) (group : g < superNBlockGroups v.superBlock)
    (inode : Inode) : ∃ v₁, ext4TryToInitBlockBitmap v g = some v₁ ∧
      (takeFromGroup v₁ inode 1 g = some (none,v₁) ∧ Initialised v₁ w ∨
        ∃ index inode', index < groupLength w.superBlock g ∧ bitmapOf w g index = false ∧
          takeFromGroup v₁ inode 1 g = some (some (⟨groupStart w.superBlock g + index,1,none⟩,inode'),
            changed v₁ g (mbSetBits (bitmapOf w g) 0 index 1) inode 1) ∧
          Initialised (changed v₁ g (mbSetBits (bitmapOf w g) 0 index 1) inode 1)
            (changed w g (mbSetBits (bitmapOf w g) 0 index 1) inode 1)) := by
  have group' : g < superNBlockGroups w.superBlock := initialised.superBlock ▸ group
  obtain ⟨v₁,init,initialised₁,inited,superBlock,_⟩ := initialised.init counted.apart group (counted.inited g group')
  have group₁ : g < superNBlockGroups v₁.superBlock := superBlock.symm ▸ group
  obtain ⟨desc,bits⟩ := initialised₁.agree group₁ inited
  have same := initialised₁.superBlock
  have free := counted.counted g group'
  rw [desc,same] at free
  refine ⟨v₁,init,?_⟩
  rcases eq_or_ne (clearOf w g) ∅ with full | some_
  · refine Or.inl ⟨?_,initialised₁⟩
    rw [full,Finset.card_empty] at free
    simp [takeFromGroup,Volume.desc,group₁,free]
  · have geometry := counted.geometry
    obtain ⟨index,found,run,inside,clear⟩ := search_free geometry (fun i => counted.past g i group') some_
    obtain ⟨enough,short⟩ := bitmapLen_fits geometry g
    have fits := geometry.fits
    have address := ret_address geometry group' inside
    refine Or.inr ⟨index,(countBlocks (v₁.setBitmap (ext4BlockBitmap v₁.superBlock (v₁.gdesc g))
      (mbSetBits (bitmapOf w g) 0 index 1)) inode g (v₁.gdesc g) 1).2,inside,clear,?_,initialised_change initialised₁ counted.apart group₁ inited _ inode 1⟩
    have present : ext4FreeBlksCount v₁.superBlock (v₁.gdesc g) ≠ 0 := by
      rw [free]
      exact Finset.card_ne_zero.mpr (Finset.nonempty_iff_ne_empty.mpr some_)
    rw [bits,same] at found run
    rw [same] at enough short fits inside address
    rw [bits,same,← address]
    unfold bitmapOf at found run ⊢
    simp only [takeFromGroup,Volume.desc,if_pos group₁,Option.bind_eq_bind,Option.bind_some,if_neg present,found,run,
      one_ne_zero,if_false,ite_self]
    rw [if_neg (by omega),if_neg (by omega)]
    rfl

theorem inUse_changed (mem : Mem) (inode : Inode) (len : Int) (b : Nat) : InUse (changed w g mem inode len) b ↔
    ∀ g' i, g' < superNBlockGroups w.superBlock → i < groupLength w.superBlock g' → groupStart w.superBlock g' + i = b →
      bitmapOf (changed w g mem inode len) g' i = true := by
  rw [InUse,changed_superBlock]
  simp only [superNBlockGroups_set,groupLength_set,groupStart_set]

/-- The bit that is set is the new block's; no other block falls out of use. -/
theorem Reserved.take {v' : Volume} {blocks : List Nat} {index : Nat} {inode : Inode} (counted : Counted w)
    (used : ∀ b ∈ 0::blocks, InUse w b) (group : g < superNBlockGroups w.superBlock) (inside : index < groupLength w.superBlock g)
    (clear : bitmapOf w g index = false) (addressed : ext4BlocksCount w.superBlock ≤ 2^48)
    (initialised : Initialised v' (changed w g (mbSetBits (bitmapOf w g) 0 index 1) inode 1)) :
    groupStart w.superBlock g + index ∉ 0::blocks ∧ groupStart w.superBlock g + index < 2^48 ∧
      Reserved v' ((groupStart w.superBlock g + index)::blocks) := by
  have geometry := counted.geometry
  have fresh : groupStart w.superBlock g + index ∉ 0::blocks := fun member => by
    have set := used _ member g index group inside rfl
    rw [clear] at set
    cases set
  have good := counted.start.take inode group inside Int.one_nonneg (show (index : Int) + 1 ≤ groupLength w.superBlock g by omega)
    (fun i low high => (show i = index by omega) ▸ clear)
  have last : groupStart w.superBlock g + index < ext4BlocksCount w.superBlock := by
    have ends := geometry.last
    have short := geometry.groupLength_le g
    unfold groupLength at inside short
    unfold groupStart
    rcases Nat.eq_or_lt_of_le (Nat.succ_le_of_lt group) with final | before
    · rw [if_pos final] at inside
      rw [← final,Nat.succ_sub_one] at inside
      rw [← final,Nat.succ_sub_one] at ends
      rw [Nat.mul_comm g]
      omega
    · rw [if_neg (Nat.ne_of_lt before)] at inside
      have product := Nat.mul_le_mul_left (superBlocksPerGroup w.superBlock) (Nat.le_sub_one_of_lt before)
      rw [Nat.succ_eq_add_one,Nat.mul_add,Nat.mul_one] at product
      rw [Nat.mul_comm g]
      omega
  have bits (g' i : Nat) (group' : g' < superNBlockGroups w.superBlock) (set : bitmapOf w g' i = true ∨ g' = g ∧ i = index) :
      bitmapOf (changed w g (mbSetBits (bitmapOf w g) 0 index 1) inode 1) g' i = true := by
    rcases eq_or_ne g' g with rfl | other
    · rw [bitmapOf_changed_self,show (1 : Int) = ((1 : Nat) : Int) from rfl,mbSetBits_filled,filled,Nat.mul_zero]
      split
      · rfl
      · rename_i outside
        rcases set with set | ⟨_,rfl⟩
        · exact set
        · omega
    · rw [bitmapOf_changed_other counted.apart group group' other]
      exact set.resolve_right fun both => other both.1
  refine ⟨fresh,Nat.lt_of_lt_of_le last addressed,⟨_,initialised,good.counted,fun b member => ?_⟩,?_⟩
  · refine (inUse_changed _ inode 1 b).mpr fun g' i group' inside' here => ?_
    refine bits g' i group' ?_
    rcases List.mem_cons.mp member with zero | member
    · exact Or.inl (used b (by rw [zero]; exact List.mem_cons_self) g' i group' inside' here)
    · rcases List.mem_cons.mp member with rfl | old
      · refine Or.inr (groupStart_apart geometry.positive ?_ ?_ here)
        · exact Nat.lt_of_lt_of_le inside' (geometry.groupLength_le g')
        · exact Nat.lt_of_lt_of_le inside (geometry.groupLength_le g)
      · exact Or.inl (used b (List.mem_cons_of_mem _ old) g' i group' inside' here)
  · rw [← initialised.superBlock,changed_superBlock,ext4BlocksCount_set]
    exact addressed

end Taken

/-- What an allocation of one block comes to. -/
structure Given (v : Volume) (blocks : List Nat) (allocated : Allocated) (v' : Volume) : Prop where
  success : allocated.err = none → allocated.block ∉ 0::blocks ∧ allocated.block < 2^48 ∧ Reserved v' (allocated.block::blocks)
  failure : allocated.err ≠ none → Reserved v' blocks

theorem newMetaBlocksLoop_given {blocks : List Nat} (inode : Inode) (goal rounds : Nat) {v : Volume} {g : Nat}
    (reserved : Reserved v blocks) : Ensures (newMetaBlocksLoop inode goal 1 rounds v g) fun (allocated,v',_) =>
      Given v blocks allocated v' := by
  induction rounds generalizing v g with
  | zero => exact ensures_none
  | succ rounds ih =>
    obtain ⟨⟨w,initialised,counted,used⟩,addressed⟩ := reserved
    rw [newMetaBlocksLoop]
    rcases Nat.lt_or_ge g (superNBlockGroups v.superBlock) with group | outside
    · have group' : g < superNBlockGroups w.superBlock := initialised.superBlock ▸ group
      obtain ⟨v₁,init,⟨look,initialised₁⟩ | ⟨index,inode',inside,clear,look,initialised'⟩⟩ := takeFromGroup_one initialised counted group inode
      · rw [init,Option.bind_eq_bind,Option.bind_some,look,Option.bind_eq_bind,Option.bind_some]
        have reserved₁ : Reserved v₁ blocks := by
          refine ⟨⟨w,initialised₁,counted,used⟩,?_⟩
          rw [← initialised₁.superBlock,initialised.superBlock]
          exact addressed
        refine ensures_ite (fun _ => (ih reserved₁).imp fun r given => ⟨given.success,given.failure⟩) fun _ => ensures_some ?_
        exact ⟨(by rintro ⟨⟩),fun _ => reserved₁⟩
      · rw [init,Option.bind_eq_bind,Option.bind_some,look,Option.bind_eq_bind,Option.bind_some]
        refine ensures_some ⟨fun _ => ?_,fun failed => absurd rfl failed⟩
        exact Reserved.take counted used group' inside clear (by rw [initialised.superBlock]; exact addressed) initialised'
    · have nothing : ext4TryToInitBlockBitmap v g = none := by
        simp [ext4TryToInitBlockBitmap,Volume.desc,Nat.not_lt.mpr outside]
      rw [nothing]
      exact ensures_none

/-- An allocation for the tree: the headers stay, and the block is a new one. -/
theorem newMetaBlocks_given {s : State} {blocks : List Nat} (reserved : Reserved s.volume blocks) (goal : Nat) :
    Ensures (newMetaBlocks s goal none) fun (allocated,s') => Charged s s' ∧ Given s.volume blocks allocated s'.volume := by
  intro r result
  refine ⟨newMetaBlocks_charged s goal none r result,?_⟩
  obtain ⟨⟨allocated,v',inode'⟩,found,rfl⟩ := Option.map_eq_some_iff.mp result
  exact newMetaBlocksLoop_given _ _ _ reserved _ found

end Ext4Fuse.Extents
