import Ext4Fuse.Extents.Lookup
import Ext4Fuse.Library.Partial

/-! What no step of the extent code changes: the inode's number, the size of the file and the
size of a block. -/
namespace Ext4Fuse.Extents
open Machine Ext4Fuse.Types Super Library.Partial

structure Steady (s s' : State) : Prop where
  ino : s'.inode.iIno = s.inode.iIno
  size : inodeGetSize s'.inode = inodeGetSize s.inode
  block : superBlockSize s'.volume.superBlock = superBlockSize s.volume.superBlock

theorem Steady.refl (s : State) : Steady s s := ⟨rfl,rfl,rfl⟩

theorem Steady.trans {s s' s'' : State} (one : Steady s s') (two : Steady s' s'') : Steady s s'' :=
  ⟨two.ino.trans one.ino,two.size.trans one.size,two.block.trans one.block⟩

theorem Same.steady {s s' : State} (same : Same s s') : Steady s s' := ⟨by rw [same.inode],by rw [same.inode],by rw [same.volume]⟩

theorem setHdr_steady (s : State) (at_ : Option Nat) (n : Node) : Steady s (s.setHdr at_ n) := by
  cases at_ with
  | none => exact ⟨rfl,rfl,rfl⟩
  | some b => exact ⟨rfl,rfl,rfl⟩

theorem ext4ExtDirty_steady (s : State) (elem : PathElem) : Steady s (ext4ExtDirty s elem) := by
  unfold ext4ExtDirty
  cases elem.pBh with
  | none => exact ⟨rfl,rfl,rfl⟩
  | some b => exact Steady.refl s

theorem fsBwrite_steady (s : State) (b : Nat) : Steady s (fsBwrite s b) := ⟨rfl,rfl,rfl⟩

theorem readExtentTreeBlock_steady (s : State) (pblk depth : Nat) : Steady s (readExtentTreeBlock s pblk depth).1 := by
  unfold readExtentTreeBlock
  simp only
  split
  · exact ⟨rfl,rfl,rfl⟩
  · split <;> exact ⟨rfl,rfl,rfl⟩

/-! The volume and the block count of the inode change with allocations. -/

/-- Nothing of the inode changes but the block count and its flag. -/
structure Kept (inode inode' : Inode) : Prop where
  ino : inode'.iIno = inode.iIno
  size : inodeGetSize inode' = inodeGetSize inode
  data : inode'.rawInode.iData = inode.rawInode.iData

theorem ext4SetInodeBlocks_kept (sb : SuperBlock) (inode : Inode) (blocks : Nat) : Kept inode (ext4SetInodeBlocks sb inode blocks) := by
  unfold ext4SetInodeBlocks
  simp only
  split
  · split <;> exact ⟨rfl,rfl,rfl⟩
  · exact ⟨rfl,rfl,rfl⟩

theorem takeFromGroup_kept (v : Volume) (inode : Inode) (wanted : Int) (g : Nat) :
    Ensures (Alloc.takeFromGroup v inode wanted g) fun (taken,v') => superBlockSize v'.superBlock = superBlockSize v.superBlock ∧
      ∀ allocated inode', taken = some (allocated,inode') → Kept inode inode' := by
  unfold Alloc.takeFromGroup
  refine (ensures_any _).bind fun bg _ => ?_
  simp only
  refine ensures_ite (fun _ => ensures_some ⟨rfl,nofun⟩) fun _ => ensures_ite (fun _ => ensures_none) fun _ => ?_
  refine ensures_ite (fun _ => ensures_some ⟨rfl,nofun⟩) fun _ => ensures_ite (fun _ => ensures_none) fun _ => ?_
  refine ensures_some ⟨rfl,fun allocated inode' taken => ?_⟩
  obtain ⟨_,rfl⟩ := Prod.mk.inj (Option.some.inj taken)
  exact ext4SetInodeBlocks_kept _ _ _

theorem newMetaBlocksLoop_kept (inode : Inode) (goal : Nat) (wanted : Int) (rounds : Nat) (v : Volume) (g : Nat) :
    Ensures (Alloc.newMetaBlocksLoop inode goal wanted rounds v g) fun (_,v',inode') =>
      superBlockSize v'.superBlock = superBlockSize v.superBlock ∧ Kept inode inode' := by
  induction rounds generalizing v g with
  | zero => exact ensures_none
  | succ rounds ih =>
    have init : Ensures (ext4TryToInitBlockBitmap v g) fun v' => superBlockSize v'.superBlock = superBlockSize v.superBlock := by
      unfold ext4TryToInitBlockBitmap
      refine (ensures_any _).bind fun bg _ => ensures_ite (fun _ => ensures_some rfl) fun _ => ?_
      exact (ensures_any _).bind fun _ _ => ensures_some rfl
    rw [Alloc.newMetaBlocksLoop]
    refine init.bind fun v₁ same => (takeFromGroup_kept v₁ inode wanted g).bind fun r after => ?_
    obtain ⟨taken,v₂⟩ := r
    obtain ⟨same',kept⟩ := after
    cases taken with
    | some taken => exact ensures_some ⟨same'.trans same,kept _ _ rfl⟩
    | none =>
      refine ensures_ite (fun _ => (ih v₂ _).imp fun r later => ⟨later.1.trans (same'.trans same),later.2⟩) fun _ => ?_
      exact ensures_some ⟨same'.trans same,rfl,rfl,rfl⟩

/-- An allocation or a free: the headers stay. -/
structure Charged (s s' : State) : Prop where
  steady : Steady s s'
  hdr : ∀ at_, s'.hdr at_ = s.hdr at_

theorem charged {s : State} {v : Volume} {inode : Inode} (block : superBlockSize v.superBlock = superBlockSize s.volume.superBlock)
    (kept : Kept s.inode inode) : Charged s {s with volume := v,inode := inode} := by
  refine ⟨⟨kept.ino,kept.size,block⟩,fun at_ => ?_⟩
  cases at_ with
  | none => exact kept.data
  | some b => rfl

theorem newMetaBlocks_charged (s : State) (goal : Nat) (count : Option Nat) :
    Ensures (newMetaBlocks s goal count) fun (_,s') => Charged s s' :=
  Ensures.map (newMetaBlocksLoop_kept _ _ _ _ _ _) fun _ kept => charged kept.1 kept.2

theorem ext4ExtFreeBlocks_charged (s : State) (block : Nat) (count : Int) : Ensures (ext4ExtFreeBlocks s block count) (Charged s) := by
  have volume : Ensures (Alloc.ext4ExtFreeBlocks s.volume s.inode block count) fun r =>
      superBlockSize r.1.superBlock = superBlockSize s.volume.superBlock ∧ Kept s.inode r.2 := by
    unfold Alloc.ext4ExtFreeBlocks
    refine (ensures_any _).bind fun bg _ => ensures_ite (fun _ => ensures_some ⟨rfl,rfl,rfl,rfl⟩) fun _ => ?_
    exact ensures_ite (fun _ => ensures_none) fun _ => ensures_some ⟨rfl,ext4SetInodeBlocks_kept _ _ _⟩
  exact volume.map fun _ kept => charged kept.1 kept.2

/-! The insertion of an extent. -/

theorem splitInto_steady (s : State) (curp : PathElem) (height newblock p : Nat) :
    Ensures (splitInto s curp height newblock p) (Steady s) := by
  unfold splitInto
  refine ensures_ite (fun _ => ensures_none) fun _ => ensures_ite (fun _ => ensures_some (setHdr_steady _ _ _)) fun _ => ?_
  exact ensures_some (((setHdr_steady _ _ _).trans (setHdr_steady _ _ _)).trans (ext4ExtDirty_steady _ _))

theorem ext4ExtSplitNode_steady (s : State) (path : Path) (at_ : Nat) (newext : Slot) :
    Ensures (ext4ExtSplitNode s path at_ newext) fun (s',_) => Steady s s' := by
  unfold ext4ExtSplitNode ext4ExtNewMetaBlock
  refine (newMetaBlocks_charged _ _ _).bind fun (allocated,s₁) charged => ?_
  simp only
  split
  · exact ensures_some charged.steady
  · refine (ensures_any _).bind fun p _ => (splitInto_steady _ _ _ _ _).bind fun s₂ steady => ensures_some ?_
    exact (charged.steady.trans (fsBwrite_steady _ _)).trans steady

theorem placeEntry_steady (s : State) (eh : Option Nat) (ix : Nat) (store : Slot → Slot) :
    Ensures (placeEntry s eh ix store) fun (s',_) => Steady s s' := by
  unfold placeEntry
  refine ensures_ite (fun _ => ensures_none) fun _ => ensures_ite (fun _ => ?_) fun _ => ?_
  · exact ensures_some (setHdr_steady _ _ _)
  · exact ensures_some (setHdr_steady _ _ _)

theorem setPathKey_steady (s : State) (elem : PathElem) (border : Nat) : Steady s (setPathKey s elem border) :=
  (setHdr_steady _ _ _).trans (ext4ExtDirty_steady _ _)

theorem correctIndexesLoop_steady (path : Path) (border k : Nat) (s : State) : Steady s (correctIndexesLoop path border k s) := by
  induction k generalizing s with
  | zero => exact Steady.refl s
  | succ k ih =>
    rw [correctIndexesLoop]
    split
    · exact Steady.refl s
    · exact (setPathKey_steady _ _ _).trans (ih _)

theorem ext4ExtCorrectIndexes_steady (s : State) (path : Path) : Steady s (ext4ExtCorrectIndexes s path).1 := by
  unfold ext4ExtCorrectIndexes
  simp only
  split
  · exact Steady.refl s
  · split
    · exact Steady.refl s
    · split
      · exact Steady.refl s
      · exact (setPathKey_steady _ _ _).trans (correctIndexesLoop_steady _ _ _ _)

theorem leafPlaced_steady (s : State) (path : Path) (curp : PathElem) : Steady s (leafPlaced s path curp).1 := by
  have corrected := ext4ExtCorrectIndexes_steady s path
  unfold leafPlaced
  split
  · rename_i s' equal
    rw [equal] at corrected
    exact corrected.trans (ext4ExtDirty_steady _ _)
  · rename_i s' err _ equal
    rw [equal] at corrected
    exact corrected

theorem leafStored_steady (s : State) (path : Path) (curp : PathElem) (eh : Option Nat) (err : Ret) :
    Steady s (leafStored s path curp eh err).1 := by
  unfold leafStored
  split
  · exact leafPlaced_steady _ _ _
  · exact Steady.refl s

theorem indexStored_steady (s : State) (curp : PathElem) (eh : Option Nat) (err : Ret) : Steady s (indexStored s curp eh err) := by
  unfold indexStored
  split
  · exact ext4ExtDirty_steady _ _
  · exact Steady.refl s

theorem leafDone_steady (s : State) (path : Path) (at_ : Nat) (newext : Slot) (spt : SplitTrans) (eh : Option Nat) (ex : Nat)
    (bh : Option Nat) (err : Ret) : Steady s (leafDone s path at_ newext spt eh ex bh err).1 := by
  unfold leafDone
  split
  · simp only
    split <;> exact Steady.refl s
  · exact Steady.refl s
  · exact ⟨rfl,rfl,rfl⟩
  · exact Steady.refl s

theorem indexDone_steady (s : State) (path : Path) (at_ : Nat) (newext : Slot) (spt : SplitTrans) (eh : Option Nat) (ix : Nat)
    (bh : Option Nat) (err : Ret) : Steady s (indexDone s path at_ newext spt eh ix bh err).1 := by
  unfold indexDone
  split
  · simp only
    split <;> exact Steady.refl s
  · exact Steady.refl s
  · exact ⟨rfl,rfl,rfl⟩
  · exact Steady.refl s

theorem insertLeafSplit_steady (s : State) (path : Path) (at_ : Nat) (newext : Slot) (spt : SplitTrans) :
    Ensures (insertLeafSplit s path at_ newext spt) fun r => Steady s r.1 := by
  unfold insertLeafSplit
  refine ensures_ite (fun _ => ensures_some (leafDone_steady _ _ _ _ _ _ _ _ _)) fun _ => ?_
  refine (ext4ExtSplitNode_steady s path at_ newext).bind fun (s₁,split) steady => ?_
  cases split with
  | error err => exact ensures_some (steady.trans (leafDone_steady _ _ _ _ _ _ _ _ _))
  | ok sibling =>
    refine (ensures_any _).bind fun p _ => (placeEntry_steady _ _ _ _).bind fun (s₂,err) placed => ensures_some ?_
    exact ((steady.trans placed).trans (leafStored_steady _ _ _ _ _)).trans (leafDone_steady _ _ _ _ _ _ _ _ _)

theorem insertLeafFree_steady (s : State) (path : Path) (at_ : Nat) (newext : Slot) (spt : SplitTrans) :
    Ensures (insertLeafFree s path at_ newext spt) fun r => Steady s r.1 := by
  unfold insertLeafFree
  refine (placeEntry_steady _ _ _ _).bind fun (s₂,err) placed => ensures_some ?_
  exact (placed.trans (leafStored_steady _ _ _ _ _)).trans (leafDone_steady _ _ _ _ _ _ _ _ _)

theorem ext4ExtInsertLeaf_steady (s : State) (path : Path) (at_ : Nat) (newext : Slot) (spt : SplitTrans) :
    Ensures (ext4ExtInsertLeaf s path at_ newext spt) fun r => Steady s r.1 := by
  unfold ext4ExtInsertLeaf
  have merged (n : Node) : Steady s (ext4ExtDirty (s.setHdr (path.elem at_).pHdr n) (path.elem at_)) :=
    (setHdr_steady _ _ _).trans (ext4ExtDirty_steady _ _)
  refine ensures_ite (fun _ => ensures_some (Steady.refl s)) fun _ => ?_
  refine ensures_ite (fun _ => ensures_some ((merged _).trans (leafDone_steady _ _ _ _ _ _ _ _ _))) fun _ => ?_
  refine ensures_ite (fun _ => ensures_some ((merged _).trans (leafDone_steady _ _ _ _ _ _ _ _ _))) fun _ => ?_
  exact ensures_ite (fun _ => insertLeafSplit_steady _ _ _ _ _) fun _ => insertLeafFree_steady _ _ _ _ _

theorem insertIndexSplit_steady (s : State) (path : Path) (at_ : Nat) (newext : Slot) (insertIndex insertBlock : Nat)
    (spt : SplitTrans) : Ensures (insertIndexSplit s path at_ newext insertIndex insertBlock spt) fun r => Steady s r.1 := by
  unfold insertIndexSplit
  refine ensures_ite (fun _ => ensures_some (indexDone_steady _ _ _ _ _ _ _ _ _)) fun _ => ?_
  refine (ext4ExtSplitNode_steady s path at_ newext).bind fun (s₁,split) steady => ?_
  cases split with
  | error err => exact ensures_some (steady.trans (indexDone_steady _ _ _ _ _ _ _ _ _))
  | ok sibling =>
    refine (ensures_any _).bind fun p _ => (placeEntry_steady _ _ _ _).bind fun (s₂,err) placed => ensures_some ?_
    exact ((steady.trans placed).trans (indexStored_steady _ _ _ _)).trans (indexDone_steady _ _ _ _ _ _ _ _ _)

theorem insertIndexFree_steady (s : State) (path : Path) (at_ : Nat) (newext : Slot) (insertIndex insertBlock : Nat)
    (spt : SplitTrans) : Ensures (insertIndexFree s path at_ newext insertIndex insertBlock spt) fun r => Steady s r.1 := by
  unfold insertIndexFree
  refine (placeEntry_steady _ _ _ _).bind fun (s₂,err) placed => ensures_some ?_
  exact (placed.trans (indexStored_steady _ _ _ _)).trans (indexDone_steady _ _ _ _ _ _ _ _ _)

theorem ext4ExtInsertIndex_steady (s : State) (path : Path) (at_ : Nat) (newext : Slot) (insertIndex insertBlock : Nat)
    (spt : SplitTrans) : Ensures (ext4ExtInsertIndex s path at_ newext insertIndex insertBlock spt) fun r => Steady s r.1 := by
  unfold ext4ExtInsertIndex
  refine ensures_ite (fun _ => ensures_some (Steady.refl s)) fun _ => ?_
  exact ensures_ite (fun _ => insertIndexSplit_steady _ _ _ _ _ _ _) fun _ => insertIndexFree_steady _ _ _ _ _ _ _

theorem ext4ExtGrowIndepth_steady (s : State) : Ensures (ext4ExtGrowIndepth s) fun (s',_) => Steady s s' := by
  unfold ext4ExtGrowIndepth
  refine (newMetaBlocks_charged _ _ _).bind fun (allocated,s₁) charged => ?_
  refine ensures_ite (fun _ => ensures_some charged.steady) fun _ => ensures_some ?_
  exact charged.steady.trans ⟨rfl,rfl,rfl⟩

theorem findExtentLoop_steady (block depth i ppos : Nat) (s : State) (path : Path) :
    Steady s (findExtentLoop block depth i ppos s path).1 := by
  induction i generalizing ppos s path with
  | zero => exact Steady.refl s
  | succ i ih =>
    have read := readExtentTreeBlock_steady s (ext4IdxPblock ((s.hdr (path.elem ppos).pHdr).slot
      (ext4ExtBinsearchIdx (s.hdr (path.elem ppos).pHdr) block))) i
    rw [findExtentLoop]
    split
    · rename_i s₁ err equal
      rw [equal] at read
      exact read.trans (ext4ExtDropRefs_same _ _ _ _).steady
    · rename_i s₁ equal
      rw [equal] at read
      split
      · exact (read.trans (fsBrelse_same _ _).steady).trans (ext4ExtDropRefs_same _ _ _ _).steady
      · exact read.trans (ih _ _ _)

theorem ext4FindExtent_steady (s : State) (block : Nat) (origPath : Option Path) : Steady s (ext4FindExtent s block origPath).1 := by
  unfold ext4FindExtent
  cases origPath with
  | none => exact findExtentLoop_steady _ _ _ _ _ _
  | some path => exact (ext4ExtDropRefs_same s path 0 false).steady.trans (findExtentLoop_steady _ _ _ _ _ _)

theorem insertLevel_steady (newext : Slot) (depth at_ : Nat) (s : State) (path : Path) (newblock : SplitTrans)
    (spt : Nat → SplitTrans) : Ensures (insertLevel newext depth at_ s path newblock spt) fun r => Steady s r.1 := by
  unfold insertLevel
  exact ensures_ite (fun _ => ext4ExtInsertLeaf_steady _ _ _ _ _) fun _ => ext4ExtInsertIndex_steady _ _ _ _ _ _ _

theorem insertLoop_steady (newext : Slot) (depth at_ : Nat) (s : State) (path : Path) (newblock : SplitTrans)
    (spt : Nat → SplitTrans) : Ensures (insertLoop newext depth at_ s path newblock spt) fun r => Steady s r.1 := by
  induction at_ generalizing s path newblock spt with
  | zero =>
    rw [insertLoop]
    refine (insertLevel_steady _ _ _ _ _ _ _).bind fun (s₁,path₁,newblock₁,ret) steady => ?_
    exact ensures_ite (fun _ => ensures_some steady) fun _ => ensures_some steady
  | succ at_ ih =>
    rw [insertLoop]
    refine (insertLevel_steady _ _ _ _ _ _ _).bind fun (s₁,path₁,newblock₁,ret) steady => ?_
    refine ensures_ite (fun _ => ensures_some steady) fun _ => ?_
    exact (ih _ _ _ _).imp fun r rest => steady.trans rest

theorem insertAgain_steady (newext : Slot) (rounds i : Nat) (s : State) (path : Path) (newblock : SplitTrans)
    (spt : Nat → SplitTrans) : Ensures (insertAgain newext rounds i s path newblock spt) fun r => Steady s r.1 := by
  induction rounds generalizing i s path newblock spt with
  | zero => exact ensures_none
  | succ rounds ih =>
    rw [insertAgain]
    refine (insertLoop_steady _ _ _ _ _ _ _).bind fun r steady => ?_
    obtain ⟨s₁,path₁,newblock₁,spt₁,ret⟩ := r
    cases ret with
    | ok => exact ensures_some steady
    | fail err => exact ensures_some steady
    | needGrow =>
      refine (ext4ExtGrowIndepth_steady s₁).bind fun r steady' => ?_
      obtain ⟨s₂,grown⟩ := r
      have found := ext4FindExtent_steady s₂ newext.eeBlock (some path₁)
      cases grown with
      | fail err => exact ensures_some (Steady.trans steady steady')
      | ok | needGrow =>
        dsimp only
        generalize ext4FindExtent s₂ newext.eeBlock (some path₁) = r at found ⊢
        obtain ⟨s₃,result⟩ := r
        cases result with
        | error err => exact ensures_none
        | ok path₃ => exact (ih _ _ _ _ _).imp fun r rest => ((Steady.trans steady steady').trans found).trans rest

theorem freeSiblings_steady (spt : Nat → SplitTrans) (level : Nat) (s : State) : Ensures (freeSiblings spt level s) (Steady s) := by
  induction level generalizing s with
  | zero => exact ensures_some (Steady.refl s)
  | succ level ih =>
    rw [freeSiblings]
    refine ensures_ite (fun _ => ih s) fun _ => ?_
    refine (ext4ExtFreeBlocks_charged _ _ _).bind fun s₁ charged => (ih _).imp fun s₂ rest => Steady.trans ?_ rest
    cases (spt level).bh with
    | none => exact charged.steady
    | some bh => exact charged.steady.trans (fsBrelse_same _ _).steady

theorem switchSiblings_steady (depth : Nat) (spt : Nat → SplitTrans) (level : Nat) (s : State) (path : Path) :
    Steady s (switchSiblings depth spt level s path).1 := by
  induction level generalizing s path with
  | zero => exact Steady.refl s
  | succ level ih =>
    rw [switchSiblings]
    simp only
    split
    · exact (ext4ExtDropRefs_same _ _ _ _).steady.trans (ih _ _)
    · refine Steady.trans ?_ (ih _ _)
      cases (spt level).bh with
      | none => exact Steady.refl s
      | some bh => exact (fsBrelse_same _ _).steady

theorem ext4ExtInsertExtent_steady (s : State) (path : Path) (newext : Slot) :
    Ensures (ext4ExtInsertExtent s path newext) fun r => Steady s r.1 := by
  unfold ext4ExtInsertExtent
  refine (insertAgain_steady _ _ _ _ _ _ _).bind fun (s₁,path₁,depth,spt,err) steady => ?_
  cases err with
  | some err =>
    refine (freeSiblings_steady _ _ _).bind fun s₂ freed => ensures_some ?_
    exact (steady.trans (ext4ExtDropRefs_same _ _ _ _).steady).trans freed
  | none => exact ensures_some (steady.trans (switchSiblings_steady _ _ _ _ _))

/-! The mapping of a block. -/

theorem createBlocks_steady (s : State) (path : Path) (iblock maxBlocks : Nat) :
    Ensures (createBlocks s path iblock maxBlocks) fun r => Steady s r.1 := by
  unfold createBlocks
  refine (newMetaBlocks_charged _ _ _).bind fun (allocated,s₁) charged => ?_
  refine ensures_ite (fun _ => ensures_some (charged.steady.trans (ext4ExtDropRefs_same _ _ _ _).steady)) fun _ => ?_
  refine (ext4ExtInsertExtent_steady _ _ _).bind fun (s₂,path₂,err) steady => ?_
  cases err with
  | some err =>
    refine (ext4ExtFreeBlocks_charged _ _ _).bind fun s₃ freed => ensures_some ?_
    exact ((charged.steady.trans steady).trans freed.steady).trans (ext4ExtDropRefs_same _ _ _ _).steady
  | none => exact ensures_some ((charged.steady.trans steady).trans (ext4ExtDropRefs_same _ _ _ _).steady)

theorem ext4ExtGetBlocks_steady (s : State) (iblock maxBlocks : Nat) (create : Bool) :
    Ensures (ext4ExtGetBlocks s iblock maxBlocks create) fun r => Steady s r.1 := by
  have found := ext4FindExtent_steady s (u32 iblock) none
  unfold ext4ExtGetBlocks
  split
  · rename_i s₁ err equal
    rw [equal] at found
    exact ensures_some found
  · rename_i s₁ path equal
    rw [equal] at found
    split
    · exact ensures_some (found.trans (ext4ExtDropRefs_same _ _ _ _).steady)
    · refine ensures_ite (fun _ => (createBlocks_steady _ _ _ _).imp fun r rest => found.trans rest) fun _ => ?_
      exact ensures_some (found.trans (ext4ExtDropRefs_same _ _ _ _).steady)

theorem inodeGetDataPblock_steady (s : State) (lblock : Nat) (extentLen : Option Nat) (create : Bool) :
    Ensures (inodeGetDataPblock s lblock extentLen create) fun r => Steady s r.1 := by
  unfold inodeGetDataPblock extentGetPblockNew
  exact (ext4ExtGetBlocks_steady _ _ _ _).bind fun r steady => ensures_some steady

end Ext4Fuse.Extents
