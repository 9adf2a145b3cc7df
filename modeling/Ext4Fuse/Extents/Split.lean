import Ext4Fuse.Extents.Merge

/-! `ext4_ext_split_extent_at` and `ext4_ext_convert_to_initialized`. A NULL entry that is
used and a failed assertion have no result. -/
namespace Ext4Fuse.Extents
open Machine Ext4Fuse.Types Super Library.Segments

def ext4ExtMarkUnwrit1 : Nat := 0x2
def ext4ExtMarkUnwrit2 : Nat := 0x4

/-- Entry `p` of the node that an element of the path is at is stored, and the node marked. -/
def putExtent (s : State) (elem : PathElem) (p : Nat) (x : Slot) : State :=
  ext4ExtDirty (s.setHdr elem.pHdr ((s.hdr elem.pHdr).setSlot p x)) elem

/-- The extent in front of `split`, as it is left behind. -/
def firstHalf (ex : Slot) (split splitFlag : Nat) : Slot :=
  let half := ex.setEeLen (u32 (split - ex.eeBlock : Int))
  if splitFlag &&& ext4ExtMarkUnwrit1 ≠ 0 then ext4ExtMarkUnwritten half else half

/-- `newex`, the extent from `split` on. -/
def secondHalf (ex : Slot) (split splitFlag : Nat) : Slot :=
  let newblock := u64 (u32 (split - ex.eeBlock : Int) + ext4ExtPblock ex : Nat)
  let len := u16 (u32 (ext4ExtGetActualLen ex - u32 (split - ex.eeBlock : Int) : Int) : Nat)
  let newex := ext4ExtStorePblock (Slot.setEeLen (Slot.setEeBlock ⟨0,0,0⟩ split) len) newblock
  if splitFlag &&& ext4ExtMarkUnwrit2 ≠ 0 then ext4ExtMarkUnwritten newex else newex

/-- The store behind `restore_extent_len`. -/
def restoreExtentLen (s : State) (at_ : Option Nat) (p len : Nat) : State :=
  s.setHdr at_ ((s.hdr at_).setSlot p (((s.hdr at_).slot p).setEeLen len))

/-- The result of `__ext4_ext_dirty`, which is 0, takes the place of the insertion's error. -/
def ext4ExtSplitExtentAt (s : State) (path : Path) (split splitFlag : Nat) : Option (State × Path × Option Errno) := do
  let depth := extDepth s
  let leaf := path.elem depth
  let p ← leaf.pExt
  let ex := (s.hdr leaf.pHdr).slot p
  if split = ex.eeBlock then
    let ex := if splitFlag &&& ext4ExtMarkUnwrit2 ≠ 0 then ext4ExtMarkUnwritten ex else ext4ExtMarkInitialized ex
    return (putExtent s leaf p ex,path,none)
  else
    match ← ext4ExtInsertExtent (putExtent s leaf p (firstHalf ex split splitFlag)) path (secondHalf ex split splitFlag) with
    | (s,path,none) => return (s,path,none)
    | (s,path,some _) =>
      return (ext4ExtDirty (restoreExtentLen s leaf.pHdr p (ext4ExtGetActualLen ex)) (path.elem depth),path,none)

/-- The sum of a 32-bit and a 64-bit number is compared with one of 32 bits. -/
def ext4ExtConvertToInitialized (s : State) (path : Path) (split blocks : Nat) : Option (State × Path × Option Errno) := do
  let leaf := path.elem (extDepth s)
  let p ← leaf.pExt
  let ex := (s.hdr leaf.pHdr).slot p
  if split < ex.eeBlock then none
  else if u64 (split + blocks : Nat) = u32 (ex.eeBlock + ext4ExtGetActualLen ex : Nat) then
    ext4ExtSplitExtentAt s path split ext4ExtMarkUnwrit1
  else if ex.eeBlock = split then
    ext4ExtSplitExtentAt s path (u32 (split + blocks : Nat)) ext4ExtMarkUnwrit2
  else
    match ← ext4ExtSplitExtentAt s path (u32 (split + blocks : Nat)) (ext4ExtMarkUnwrit1 ||| ext4ExtMarkUnwrit2) with
    | (s,path,some err) => return (s,path,some err)
    | (s,path,none) => ext4ExtSplitExtentAt s path split ext4ExtMarkUnwrit1

/-! An insertion that fails. -/

section Fails
variable (s : State) (path : Path) (split splitFlag : Nat)

/-- Inside `ext4_ext_split_extent_at` the extent of the second half cannot be inserted. -/
def InsertFails (p : Nat) : Prop :=
  let leaf := path.elem (extDepth s)
  let ex := (s.hdr leaf.pHdr).slot p
  leaf.pExt = some p ∧ split ≠ ex.eeBlock ∧ ∃ s' path' err,
    ext4ExtInsertExtent (putExtent s leaf p (firstHalf ex split splitFlag)) path (secondHalf ex split splitFlag) = some (s',path',some err)

/-- The call returns an error, and the extent and the mapping are the old ones. -/
def Undone (p : Nat) : Prop :=
  let leaf := path.elem (extDepth s)
  ∃ s' path' err, ext4ExtSplitExtentAt s path split splitFlag = some (s',path',some err) ∧
    (s'.hdr leaf.pHdr).slot p = (s.hdr leaf.pHdr).slot p ∧
    ∀ (d : Nat) (t : Tree d), HasTree s d t → ∃ (d' : Nat) (t' : Tree d'), HasTree s' d' t' ∧ ∀ b, mapping (flat d' t') b = mapping (flat d t) b

variable {s path split splitFlag}

/-- After a failure the extent has its length again, without the mark, and 0 is returned. -/
theorem splitExtentAt_failed {p : Nat} (fails : InsertFails s path split splitFlag p) :
    ∃ s' path', ext4ExtSplitExtentAt s path split splitFlag = some (s',path',none) ∧
      ext4ExtIsUnwritten ((s'.hdr (path.elem (extDepth s)).pHdr).slot p) = false ∧
      ((s'.hdr (path.elem (extDepth s)).pHdr).slot p).eeLen = ext4ExtGetActualLen ((s.hdr (path.elem (extDepth s)).pHdr).slot p) := by
  obtain ⟨position,inside,s₁,path₁,err,failed⟩ := fails
  refine ⟨ext4ExtDirty (restoreExtentLen s₁ (path.elem (extDepth s)).pHdr p
    (ext4ExtGetActualLen ((s.hdr (path.elem (extDepth s)).pHdr).slot p))) (path₁.elem (extDepth s)),path₁,?_,?_⟩
  · simp only [ext4ExtSplitExtentAt,position,Option.bind_eq_bind,Option.bind_some,if_neg inside,failed]
    rfl
  · have short := actualLen_le ((s.hdr (path.elem (extDepth s)).pHdr).slot p)
    generalize ext4ExtGetActualLen ((s.hdr (path.elem (extDepth s)).pHdr).slot p) = len at short
    have length : (((s₁.hdr (path.elem (extDepth s)).pHdr).slot p).setEeLen len).eeLen = len := by
      rw [eeLen_setEeLen,Nat.mod_eq_of_lt (by omega)]
    rw [ext4ExtDirty_hdr,restoreExtentLen,setHdr_hdr,setSlot_self]
    refine ⟨?_,length⟩
    rw [ext4ExtIsUnwritten,length]
    exact decide_eq_false (Nat.not_lt.mpr short)

/-- Every failed insertion is reported as a success. -/
theorem splitExtentAt_never {p : Nat} (fails : InsertFails s path split splitFlag p) : ¬Undone s path split splitFlag p := by
  rintro ⟨s',path',err,returned,_⟩
  obtain ⟨s₁,path₁,result,_⟩ := splitExtentAt_failed fails
  rw [returned] at result
  nomatch result

end Fails

/-- A root without room, of an extent of 32768 blocks and three short ones, on a volume without a free block. -/
def crowdedFile : State where
  volume := ⟨⟨8,0,0,0,0,0,8,8,128,0,0,0,0,0⟩,fun _ => ⟨3,0,4,0,5,0,0,0,0⟩,fun _ _ => true⟩
  inode := ⟨12,false,⟨0,0,4,0,0,⟨0xf30a,4,4,0,fun i => [⟨0,32768,100⟩,⟨40000,1,50000⟩,⟨50000,1,50002⟩,⟨60000,1,50004⟩].getD i ⟨0,0,0⟩⟩⟩⟩
  node := fun _ => ⟨0,0,0,0,fun _ => ⟨0,0,0⟩⟩
  verified := fun _ => false
  count := fun _ => 0

def crowdedTree : Tree 0 := [(⟨0,32768,100⟩ : Slot),⟨40000,1,50000⟩,⟨50000,1,50002⟩,⟨60000,1,50004⟩]

theorem crowdedFile_tree : HasTree crowdedFile 0 crowdedTree := by
  refine ⟨⟨⟨rfl,rfl,rfl,by decide,by decide,by decide⟩,fun i x here => ?_⟩,List.nodup_nil,?_,Or.inl rfl⟩
  · exact congrArg (fun found => Option.getD found ⟨0,0,0⟩) here
  · exact ⟨0,32768,by decide,⟨by decide,by decide,by decide⟩,40000,40001,by decide,⟨by decide,by decide,by decide⟩,50000,50001,by decide,
      ⟨by decide,by decide,by decide⟩,60000,60001,by decide,⟨by decide,by decide,by decide⟩,(by decide : 60001 ≤ 2^32)⟩

/-- The two halves cannot be joined, since 32768 blocks are too many for an unwritten extent. -/
theorem crowdedFile_fails : InsertFails crowdedFile shortPath 1 ext4ExtMarkUnwrit1 0 := by
  refine ⟨rfl,by decide,?_⟩
  have failed : (ext4ExtInsertExtent (putExtent crowdedFile (shortPath.elem 0) 0 (firstHalf ⟨0,32768,100⟩ 1 ext4ExtMarkUnwrit1)) shortPath
    (secondHalf ⟨0,32768,100⟩ 1 ext4ExtMarkUnwrit1)).map (fun r => r.2.2) = some (some .enospc) := by decide
  obtain ⟨⟨s',path',_⟩,result,rfl⟩ := Option.map_eq_some_iff.mp failed
  exact ⟨s',path',.enospc,result⟩

theorem splitExtentAt_never_crowded : ¬Undone crowdedFile shortPath 1 ext4ExtMarkUnwrit1 0 := splitExtentAt_never crowdedFile_fails

/-- The insertion fails for want of a block, and the call returns 0. -/
theorem splitExtentAt_swallows : HasTree crowdedFile 0 crowdedTree ∧ InsertFails crowdedFile shortPath 1 ext4ExtMarkUnwrit1 0 ∧
    (ext4ExtSplitExtentAt crowdedFile shortPath 1 ext4ExtMarkUnwrit1).map (fun r => r.2.2) = some none ∧
    ¬Undone crowdedFile shortPath 1 ext4ExtMarkUnwrit1 0 := by
  obtain ⟨s',path',result,_⟩ := splitExtentAt_failed crowdedFile_fails
  refine ⟨crowdedFile_tree,crowdedFile_fails,by rw [result]; rfl,?_⟩
  rintro ⟨s'',path'',err,returned,_⟩
  rw [returned] at result
  nomatch result

end Ext4Fuse.Extents
