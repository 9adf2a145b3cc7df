import Ext4Fuse.Extents.Insert

/-! `ext4_ext_get_blocks` and `extent_get_pblock_new`: the mapping of logical blocks, with
the allocation of missing ones. -/
namespace Ext4Fuse.Extents
open Machine Ext4Fuse.Types Super

def extMaxBlocks : Nat := 2^32 - 1

def Errno.code : Errno → Int
  | .eio => -5
  | .enomem => -12
  | .enospc => -28

/-- The index levels of the `while` loop of `ext4_ext_next_allocated_block`. -/
def nextAllocatedLoop (s : State) (path : Path) : Nat → Nat
  | 0 => extMaxBlocks
  | depth+1 =>
    let hdr := s.hdr (path.elem depth).pHdr
    let p := (path.elem depth).pIdx.getD 0
    if p + 1 ≠ hdr.ehEntries then (hdr.slot (p + 1)).eiBlock else nextAllocatedLoop s path depth

def ext4ExtNextAllocatedBlock (s : State) (path : Path) : Nat :=
  let depth := (path.elem 0).pDepth
  let hdr := s.hdr (path.elem depth).pHdr
  match (path.elem depth).pExt with
  | none => if depth = 0 then extMaxBlocks else nextAllocatedLoop s path depth
  | some p => if p + 1 ≠ hdr.ehEntries then (hdr.slot (p + 1)).eeBlock else nextAllocatedLoop s path depth

/-- The extent on the path, if the block is in its range. -/
def coveringExtent (s : State) (path : Path) (iblock : Nat) : Option Slot :=
  let leaf := path.elem (extDepth s)
  (leaf.pExt.map (s.hdr leaf.pHdr).slot).filter fun ex => inRange iblock ex.eeBlock (ext4ExtGetActualLen ex)

/-- The part of `ext4_ext_get_blocks` that allocates a range and inserts an extent for it. -/
def createBlocks (s : State) (path : Path) (iblock maxBlocks : Nat) : Option (State × Int × Nat) := do
  let next := ext4ExtNextAllocatedBlock s path
  let wanted := min (u64 (next - iblock : Int)) maxBlocks
  let goal := i32 (ext4ExtFindGoal s path (u32 iblock))
  let (allocated,s) ← newMetaBlocks s (u64 goal) (some wanted)
  let newblock := if allocated.err = none then allocated.block else 0
  if newblock = 0 then
    let (s,_) := ext4ExtDropRefs s path 0 false
    return (s,match allocated.err with
      | some err => Errno.code err
      | none => i32 allocated.len,0)
  let newex := ext4ExtStorePblock (Slot.setEeBlock (Slot.setEeLen ⟨0,0,0⟩ (u16 allocated.len)) (u32 iblock)) newblock
  match ← ext4ExtInsertExtent s path newex with
  | (s,path,some err) =>
    let s ← ext4ExtFreeBlocks s (ext4ExtPblock newex) newex.eeLen
    return ((ext4ExtDropRefs s path 0 false).1,Errno.code err,0)
  | (s,path,none) =>
    return ((ext4ExtDropRefs s path 0 false).1,i32 (min (u64 allocated.len) maxBlocks : Nat),ext4ExtPblock newex)

/-- What `ext4_ext_get_blocks` returns, and stores as `b_blocknr`. -/
def ext4ExtGetBlocks (s : State) (iblock maxBlocks : Nat) (create : Bool) : Option (State × Int × Nat) :=
  match ext4FindExtent s (u32 iblock) none with
  | (s,.error err) => some (s,Errno.code err,0)
  | (s,.ok path) =>
    match coveringExtent s path iblock with
    | some ex =>
      let newblock := u64 (iblock - ex.eeBlock + ext4ExtPblock ex : Int)
      let allocated := ext4ExtGetActualLen ex - (iblock - ex.eeBlock)
      some ((ext4ExtDropRefs s path 0 false).1,i32 (min allocated maxBlocks : Nat),newblock)
    | none => if create then createBlocks s path iblock maxBlocks else some ((ext4ExtDropRefs s path 0 false).1,0,0)

/-- `extent_get_pblock_new`: the physical block, and what it stores in `*len`. -/
def extentGetPblockNew (s : State) (lblock : Nat) (len : Option Nat) (create : Bool) : Option (State × Nat × Nat) := do
  let wanted := if create then u64 (len.elim 1 fun len => i32 len) else extInitMaxLen
  let (s,retLen,block) ← ext4ExtGetBlocks s lblock wanted create
  return (s,block,retLen.toNat)

/-- `inode_get_data_pblock` for an inode with extents. -/
def inodeGetDataPblock (s : State) (lblock : Nat) (extentLen : Option Nat) (create : Bool) : Option (State × Nat × Nat) :=
  extentGetPblockNew s lblock (if create then extentLen else extentLen.map fun _ => 1) create

end Ext4Fuse.Extents
