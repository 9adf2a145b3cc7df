import Ext4Fuse.Extents.Find

/-! `ext4_ext_insert_extent` with the splitting and the growing of the tree. A failed
assertion and a NULL entry that is used have no result. -/
namespace Ext4Fuse.Extents
open Machine Ext4Fuse.Types Super

/-- A return value: 0, a negative error or `EXT_INODE_HDR_NEED_GROW`. -/
inductive Ret
  | ok
  | fail (err : Errno)
  | needGrow
  deriving DecidableEq

structure SplitTrans where
  index : Nat
  ptr : Nat
  itemOffset : Nat
  switchTo : Bool
  bh : Option Nat

def zeroTrans : SplitTrans := ⟨0,0,0,false,none⟩

def ext4InodeToGoalBlock (s : State) : Nat :=
  u32 (s.inode.iIno.toNat - 1 : Int) / superInodesPerGroup s.volume.superBlock

def ext4ExtFindGoal (s : State) (path : Path) (block : Nat) : Nat :=
  let leaf := path.elem (path.elem 0).pDepth
  match leaf.pExt with
  | some i =>
    let ex := (s.hdr leaf.pHdr).slot i
    if ex.eeBlock < block then u64 (ext4ExtPblock ex + (block - ex.eeBlock) : Nat)
    else u64 (ext4ExtPblock ex - (ex.eeBlock - block : Nat) : Int)
  | none =>
    match leaf.pBh with
    | some bh => bh
    | none => ext4InodeToGoalBlock s

def ext4ExtNewMetaBlock (s : State) (path : Path) (ex : Slot) : Option (Alloc.Allocated × State) :=
  newMetaBlocks s (ext4ExtFindGoal s path ex.eeBlock) none

/-- The entry that an element of the path is at. -/
def PathElem.position (elem : PathElem) (leaf : Bool) : Option Nat := if leaf then elem.pExt else elem.pIdx

/-- The entries behind the path's one move to a new node. -/
def splitInto (s : State) (curp : PathElem) (height newblock p : Nat) : Option State :=
  let hdr := s.hdr curp.pHdr
  let m := hdr.ehMax - 1 - p
  let neh := ext4ExtInitHeader s (s.node newblock) height
  if hdr.ehMax < p + 1 then none
  else if m = 0 then some (s.setHdr (some newblock) neh)
  else
    let s := s.setHdr (some newblock) ((neh.copySlots hdr (p + 1) m).addEntries m)
    some (ext4ExtDirty (s.setHdr curp.pHdr ((s.hdr curp.pHdr).addEntries (-m))) curp)

/-- `ext4_ext_split_node`, with the block of the new node, which `*sibling` and `*new_bh`
are set to. -/
def ext4ExtSplitNode (s : State) (path : Path) (at_ : Nat) (newext : Slot) : Option (State × Except Errno Nat) := do
  let depth := extDepth s
  let (allocated,s) ← ext4ExtNewMetaBlock s path newext
  match allocated.err with
  | some err => return (s,.error err)
  | none =>
    let curp := path.elem at_
    let p ← curp.position (at_ = depth)
    let s ← splitInto (fsBwrite s allocated.block) curp (if at_ = depth then 0 else depth - at_) allocated.block p
    return (s,.ok allocated.block)

def ext4ExtBlockIndex (s : State) (bh : Nat) : Nat :=
  let neh := s.node bh
  if neh.ehDepth ≠ 0 then (neh.slot 0).eiBlock else (neh.slot 0).eeBlock

/-- The node and the place in it for a new entry that goes behind, or in front of, the
entry at which the node has been split. -/
def splitPlace (s : State) (hdr : Option Nat) (sibling : Nat) (behind : Bool) : Option Nat × Nat :=
  if behind then
    if (s.hdr hdr).ehEntries < (s.node sibling).ehEntries then (hdr,(s.hdr hdr).ehEntries)
    else (some sibling,0)
  else (hdr,(s.hdr hdr).ehEntries - 1)

/-- Both insertions make room at place `ix`, store the entry and count it. -/
def placeEntry (s : State) (eh : Option Nat) (ix : Nat) (store : Slot → Slot) : Option (State × Ret) :=
  let n := s.hdr eh
  if n.ehEntries < ix then none
  else
    let n := n.moveSlots (ix + 1) ix (n.ehEntries - ix)
    if n.ehMax ≤ ix then some (s.setHdr eh n,.fail .eio)
    else
      let n := (n.setSlot ix (store (n.slot ix))).addEntries 1
      some (s.setHdr eh n,if n.ehEntries ≤ ix then .fail .eio else .ok)

def storeIdx (insertIndex insertBlock : Nat) (ix : Slot) : Slot :=
  ext4IdxStorePblock (ix.setEiBlock insertIndex) insertBlock

def storeExtent (newext ex : Slot) : Slot :=
  ext4ExtStorePblock ((ex.setEeBlock newext.eeBlock).setEeLen newext.eeLen) (ext4ExtPblock newext)

/-- The end of `ext4_ext_insert_index`. -/
def indexDone (s : State) (path : Path) (at_ : Nat) (newext : Slot) (spt : SplitTrans) (eh : Option Nat) (ix : Nat)
    (bh : Option Nat) (err : Ret) : State × Path × SplitTrans × Ret :=
  let curp := path.elem at_
  let chosen := path.set at_ {curp with pIdx := some ix,pIn := eh,pBlock := ext4IdxPblock ((s.hdr eh).slot ix)}
  match err,bh with
  | .ok,some bh =>
    let index := ext4ExtBlockIndex s bh
    let spt := {spt with index := index,bh := some bh,itemOffset := ix}
    if index ≤ newext.eeBlock then (s,path,{spt with switchTo := true},.ok) else (s,chosen,spt,.ok)
  | .ok,none => (s,chosen,{spt with index := 0,ptr := 0},.ok)
  | err,some bh => (fsBrelse s bh,path,{spt with index := 0,ptr := 0},err)
  | err,none => (s,path,{spt with index := 0,ptr := 0},err)

/-- The node that an index entry has been placed in is marked when it is the path's own. -/
def indexStored (s : State) (curp : PathElem) (eh : Option Nat) (err : Ret) : State :=
  if err = .ok ∧ eh = curp.pHdr then ext4ExtDirty s curp else s

/-- `ext4_ext_insert_index` in a full node. -/
def insertIndexSplit (s : State) (path : Path) (at_ : Nat) (newext : Slot) (insertIndex insertBlock : Nat)
    (spt : SplitTrans) : Option (State × Path × SplitTrans × Ret) := do
  let curp := path.elem at_
  if at_ = 0 then return indexDone s path at_ newext spt curp.pHdr 0 none .needGrow
  match ← ext4ExtSplitNode s path at_ newext with
  | (s,.error err) => return indexDone s path at_ newext spt curp.pHdr 0 none (.fail err)
  | (s,.ok sibling) =>
    let p ← curp.pIdx
    let (eh,ix) := splitPlace s curp.pHdr sibling (((s.hdr curp.pHdr).slot p).eiBlock < insertIndex)
    let (s,err) ← placeEntry s eh ix (storeIdx insertIndex insertBlock)
    return indexDone (indexStored s curp eh err) path at_ newext {spt with ptr := sibling} eh ix (some sibling) err

/-- `ext4_ext_insert_index` in a node with a free entry. -/
def insertIndexFree (s : State) (path : Path) (at_ : Nat) (newext : Slot) (insertIndex insertBlock : Nat)
    (spt : SplitTrans) : Option (State × Path × SplitTrans × Ret) := do
  let curp := path.elem at_
  let ix := match curp.pIdx with
    | none => 0
    | some p => if ((s.hdr curp.pHdr).slot p).eiBlock < insertIndex then p + 1 else p
  let path := if curp.pIdx = none then path.set at_ {curp with pIdx := some ix,pIn := curp.pHdr} else path
  let (s,err) ← placeEntry s curp.pHdr ix (storeIdx insertIndex insertBlock)
  return indexDone (indexStored s curp curp.pHdr err) path at_ newext spt curp.pHdr ix none err

def ext4ExtInsertIndex (s : State) (path : Path) (at_ : Nat) (newext : Slot) (insertIndex insertBlock : Nat)
    (spt : SplitTrans) : Option (State × Path × SplitTrans × Ret) :=
  let curp := path.elem at_
  let hdr := s.hdr curp.pHdr
  if curp.pIdx.any fun p => insertIndex = (hdr.slot p).eiBlock then some (s,path,spt,.fail .eio)
  else if hdr.ehEntries = hdr.ehMax then insertIndexSplit s path at_ newext insertIndex insertBlock spt
  else insertIndexFree s path at_ newext insertIndex insertBlock spt

/-- `path[k].p_idx->ei_block = border`; after `ext4_find_extent` an index level has a `p_idx`. -/
def setPathKey (s : State) (elem : PathElem) (border : Nat) : State :=
  let p := elem.pIdx.getD 0
  let hdr := s.hdr elem.pHdr
  ext4ExtDirty (s.setHdr elem.pHdr (hdr.setSlot p ((hdr.slot p).setEiBlock border))) elem

/-- The `while (k--)` loop of `ext4_ext_correct_indexes`. -/
def correctIndexesLoop (path : Path) (border : Nat) : Nat → State → State
  | 0, s => s
  | k+1, s =>
    if (path.elem (k + 1)).pIdx ≠ some 0 then s
    else correctIndexesLoop path border k (setPathKey s (path.elem k) border)

def ext4ExtCorrectIndexes (s : State) (path : Path) : State × Ret :=
  let depth := extDepth s
  match (path.elem depth).pExt with
  | none => (s,.fail .eio)
  | some ex =>
    if depth = 0 then (s,.ok)
    else if ex ≠ 0 then (s,.ok)
    else
      let border := ((s.hdr (path.elem depth).pHdr).slot ex).eeBlock
      (correctIndexesLoop path border (depth - 1) (setPathKey s (path.elem (depth - 1)) border),.ok)

/-- What both merges ask of the lengths. -/
def lengthsFit (ex1 ex2 : Slot) : Bool :=
  ext4ExtGetActualLen ex1 + ext4ExtGetActualLen ex2 ≤
    if ext4ExtIsUnwritten ex1 then extUnwrittenMaxLen else extInitMaxLen

def ext4ExtCanPrepend (ex1 ex2 : Slot) : Bool :=
  u64 (ext4ExtPblock ex2 + ext4ExtGetActualLen ex2 : Nat) = ext4ExtPblock ex1 && lengthsFit ex1 ex2 &&
    u32 (ex2.eeBlock + ext4ExtGetActualLen ex2 : Nat) = ex1.eeBlock

def ext4ExtCanAppend (ex1 ex2 : Slot) : Bool :=
  u64 (ext4ExtPblock ex1 + ext4ExtGetActualLen ex1 : Nat) = ext4ExtPblock ex2 && lengthsFit ex1 ex2 &&
    u32 (ex1.eeBlock + ext4ExtGetActualLen ex1 : Nat) = ex2.eeBlock

/-- The extent that both merges extend, with the sum of the lengths. -/
def mergeLen (ex newext : Slot) : Slot :=
  let merged := ex.setEeLen (ext4ExtGetActualLen ex + ext4ExtGetActualLen newext)
  if ext4ExtIsUnwritten ex then ext4ExtMarkUnwritten merged else merged

/-- The end of `ext4_ext_insert_leaf`. -/
def leafDone (s : State) (path : Path) (at_ : Nat) (newext : Slot) (spt : SplitTrans) (eh : Option Nat) (ex : Nat)
    (bh : Option Nat) (err : Ret) : State × Path × SplitTrans × Ret :=
  let curp := path.elem at_
  let chosen := path.set at_ {curp with pExt := some ex,pIn := eh,pBlock := ext4ExtPblock ((s.hdr eh).slot ex)}
  match err,bh with
  | .ok,some bh =>
    let index := ext4ExtBlockIndex s bh
    let spt := {spt with index := index,bh := some bh,itemOffset := ex}
    if index ≤ newext.eeBlock then (s,path,{spt with switchTo := true},.ok) else (s,chosen,spt,.ok)
  | .ok,none => (s,chosen,{spt with index := 0,ptr := 0},.ok)
  | err,some bh => (fsBrelse s bh,path,{spt with index := 0,ptr := 0},err)
  | err,none => (s,path,{spt with index := 0,ptr := 0},err)

/-- After the entry has been placed in the path's own leaf the indexes above are corrected. -/
def leafPlaced (s : State) (path : Path) (curp : PathElem) : State × Ret :=
  match ext4ExtCorrectIndexes s path with
  | (s,.ok) => (ext4ExtDirty s curp,.ok)
  | (s,err) => (s,err)

def leafStored (s : State) (path : Path) (curp : PathElem) (eh : Option Nat) (err : Ret) : State × Ret :=
  if err = .ok ∧ eh = curp.pHdr then leafPlaced s path curp else (s,err)

/-- `ext4_ext_insert_leaf` in a full leaf. -/
def insertLeafSplit (s : State) (path : Path) (at_ : Nat) (newext : Slot) (spt : SplitTrans) :
    Option (State × Path × SplitTrans × Ret) := do
  let curp := path.elem at_
  if at_ = 0 then return leafDone s path at_ newext spt curp.pHdr 0 none .needGrow
  match ← ext4ExtSplitNode s path at_ newext with
  | (s,.error err) => return leafDone s path at_ newext spt curp.pHdr 0 none (.fail err)
  | (s,.ok sibling) =>
    let p ← curp.pExt
    let (eh,ex) := splitPlace s curp.pHdr sibling (((s.hdr curp.pHdr).slot p).eeBlock < newext.eeBlock)
    let (s,err) ← placeEntry s eh ex (storeExtent newext)
    let (s,err) := leafStored s path curp eh err
    return leafDone s path at_ newext {spt with ptr := sibling} eh ex (some sibling) err

/-- `ext4_ext_insert_leaf` in a leaf with a free entry. -/
def insertLeafFree (s : State) (path : Path) (at_ : Nat) (newext : Slot) (spt : SplitTrans) :
    Option (State × Path × SplitTrans × Ret) := do
  let curp := path.elem at_
  let ex := match curp.pExt with
    | none => 0
    | some p => if ((s.hdr curp.pHdr).slot p).eeBlock < newext.eeBlock then p + 1 else p
  let path := if curp.pExt = none then path.set at_ {curp with pExt := some ex,pIn := curp.pHdr} else path
  let (s,err) ← placeEntry s curp.pHdr ex (storeExtent newext)
  let (s,err) := leafStored s path curp curp.pHdr err
  return leafDone s path at_ newext spt curp.pHdr ex none err

def ext4ExtInsertLeaf (s : State) (path : Path) (at_ : Nat) (newext : Slot) (spt : SplitTrans) :
    Option (State × Path × SplitTrans × Ret) :=
  let curp := path.elem at_
  let hdr := s.hdr curp.pHdr
  if curp.pExt.any fun p => newext.eeBlock = (hdr.slot p).eeBlock then some (s,path,spt,.fail .eio)
  else if curp.pExt.any fun p => ext4ExtCanAppend (hdr.slot p) newext then
    let p := curp.pExt.getD 0
    let s := ext4ExtDirty (s.setHdr curp.pHdr (hdr.setSlot p (mergeLen (hdr.slot p) newext))) curp
    some (leafDone s path at_ newext spt curp.pHdr p none .ok)
  else if curp.pExt.any fun p => ext4ExtCanPrepend (hdr.slot p) newext then
    let p := curp.pExt.getD 0
    let merged := mergeLen ((hdr.slot p).setEeBlock newext.eeBlock) newext
    let s := ext4ExtDirty (s.setHdr curp.pHdr (hdr.setSlot p merged)) curp
    some (leafDone s path at_ newext spt curp.pHdr p none .ok)
  else if hdr.ehEntries = hdr.ehMax then insertLeafSplit s path at_ newext spt
  else insertLeafFree s path at_ newext spt

/-- The old root as the node in the new block: 60 bytes of it, with the block's room and,
behind that, the tail's checksum. -/
def grownNode (s : State) (newblock : Nat) : Node :=
  let root := s.inode.rawInode.iData
  let neh := {root with
    slot := fun i => if i < 4 then root.slot i else (s.node newblock).slot i
    ehMax := u16 (if extDepth s ≠ 0 then ext4ExtSpaceBlockIdx s else ext4ExtSpaceBlock s : Nat)
    ehMagic := ext4ExtMagic}
  neh.setSlot neh.ehMax {neh.slot neh.ehMax with word0 := 0}

/-- The new root. `ei_block` of the first index is where `ee_block` of the first extent was. -/
def grownRoot (root : Node) (newblock : Nat) : Node :=
  let neh := {root with ehEntries := 1}.setSlot 0 (ext4IdxStorePblock (root.slot 0) newblock)
  let neh := if neh.ehDepth = 0 then
    {neh with ehMax := ext4ExtSpaceRootIdx}.setSlot 0 ((neh.slot 0).setEiBlock (neh.slot 0).eeBlock) else neh
  {neh with ehDepth := u16 (neh.ehDepth + 1 : Nat)}

def ext4ExtGrowIndepth (s : State) : Option (State × Ret) := do
  let goal := if extDepth s ≠ 0 then ext4IdxPblock (s.inode.rawInode.iData.slot 0) else ext4InodeToGoalBlock s
  let (allocated,s) ← newMetaBlocks s goal none
  let code := match allocated.err with
    | some err => .fail err
    | none => .ok
  if allocated.err ≠ none ∨ allocated.block = 0 then return (s,code)
  let s := fsBwrite s allocated.block
  let root := grownRoot s.inode.rawInode.iData allocated.block
  let s := (s.setHdr (some allocated.block) (grownNode s allocated.block)).setHdr none root
  return (fsBrelse {s with inode := inodeMarkDirty s.inode} allocated.block,.ok)

/-- Iteration `depth - at_` of the `do` loop of `ext4_ext_insert_extent`, at level `at_` of the path. -/
def insertLevel (newext : Slot) (depth at_ : Nat) (s : State) (path : Path) (newblock : SplitTrans) (spt : Nat → SplitTrans) :
    Option (State × Path × SplitTrans × Ret) :=
  let i := depth - at_
  if i = 0 then ext4ExtInsertLeaf s path at_ newext newblock
  else ext4ExtInsertIndex s path at_ newext (spt (i - 1)).index (spt (i - 1)).ptr newblock

/-- The `do` loop from level `at_` of the path on. -/
def insertLoop (newext : Slot) (depth : Nat) : Nat → State → Path → SplitTrans → (Nat → SplitTrans) →
    Option (State × Path × SplitTrans × (Nat → SplitTrans) × Ret)
  | at_, s, path, newblock, spt => do
    let (s,path,newblock,ret) ← insertLevel newext depth at_ s path newblock spt
    if ret ≠ .ok ∨ newblock.ptr = 0 then return (s,path,newblock,spt,ret)
    else
      let spt := Function.update spt (depth - at_) newblock
      match at_ with
      | 0 => return (s,path,newblock,spt,ret)
      | at_+1 => insertLoop newext depth at_ s path newblock spt

/-- From `again` on, with the iteration to begin with; what it says when it goes to `out`. Every
round but the last takes a block. -/
def insertAgain (newext : Slot) : Nat → Nat → State → Path → SplitTrans → (Nat → SplitTrans) →
    Option (State × Path × Nat × (Nat → SplitTrans) × Option Errno)
  | 0, _, _, _, _, _ => none
  | rounds+1, i, s, path, newblock, spt => do
    let depth := extDepth s
    let (s,path,newblock,spt,ret) ← insertLoop newext depth (depth - i) s path newblock spt
    match ret with
    | .ok => return (s,path,depth,spt,none)
    | .fail err => return (s,path,depth,spt,some err)
    | .needGrow =>
      match ← ext4ExtGrowIndepth s with
      | (s,.fail err) => return (s,path,depth,spt,some err)
      | (s,_) =>
        match ext4FindExtent s newext.eeBlock (some path) with
        | (_,.error _) => none
        | (s,.ok path) => insertAgain newext rounds depth s path newblock spt

def extHasFreeIndex (s : State) (elem : PathElem) : Bool := (s.hdr elem.pHdr).ehEntries < (s.hdr elem.pHdr).ehMax

/-- The number of levels, from the leaf up, that have no free entry. -/
def fullLevels (s : State) (path : Path) : Nat → Nat
  | 0 => if extHasFreeIndex s (path.elem 0) then 0 else 1
  | i+1 => if extHasFreeIndex s (path.elem (i + 1)) then 0 else fullLevels s path i + 1

/-- After a failure: the siblings of level `level - 1` down to 0 are freed. -/
def freeSiblings (spt : Nat → SplitTrans) : Nat → State → Option State
  | 0, s => some s
  | level+1, s => do
    if (spt level).ptr = 0 then freeSiblings spt level s
    else
      let s ← ext4ExtFreeBlocks s (spt level).ptr 1
      freeSiblings spt level (match (spt level).bh with
        | some bh => fsBrelse s bh
        | none => s)

/-- After a success: the path moves over to the siblings that got the new entry. -/
def switchSiblings (depth : Nat) (spt : Nat → SplitTrans) : Nat → State → Path → State × Path
  | 0, s, path => (s,path)
  | level+1, s, path =>
    let trans := spt level
    let i := depth - level
    if trans.switchTo then
      let (s,path) := ext4ExtDropRefs s path i true
      let eh := s.hdr trans.bh
      let elem := {path.elem i with pBh := trans.bh,pHdr := trans.bh,pIn := trans.bh}
      let elem := if level ≠ 0 then
          {elem with pIdx := some trans.itemOffset,pBlock := ext4IdxPblock (eh.slot trans.itemOffset)}
        else {elem with pExt := some trans.itemOffset,pBlock := ext4ExtPblock (eh.slot trans.itemOffset)}
      switchSiblings depth spt level s (path.set i elem)
    else switchSiblings depth spt level (match trans.bh with
      | some bh => fsBrelse s bh
      | none => s) path

def ext4ExtInsertExtent (s : State) (path : Path) (newext : Slot) : Option (State × Path × Option Errno) := do
  let level := fullLevels s path (extDepth s)
  let (s,path,depth,spt,err) ←
    insertAgain newext (ext4BlocksCount s.volume.superBlock + 2) 0 s path zeroTrans fun _ => zeroTrans
  match err with
  | some err =>
    let (s,path) := ext4ExtDropRefs s path 0 false
    let s ← freeSiblings spt level s
    return (s,path,some err)
  | none =>
    let (s,path) := switchSiblings depth spt level s path
    return (s,path,none)

end Ext4Fuse.Extents
