import Ext4Fuse.Extents.Insert

/-! `ext4_ext_remove_space`: the walk that frees everything from a logical block on. -/
namespace Ext4Fuse.Extents
open Machine Ext4Fuse.Types Super

def ext4ExtRemoveBlocks (s : State) (ex : Slot) (from_ last : Nat) : Option State :=
  let len := i32 (last - from_ + 1)
  let num := u32 (from_ - ex.eeBlock)
  ext4ExtFreeBlocks s (u64 (ext4ExtPblock ex + num : Nat)) len

/-- What a round of the loop of `ext4_ext_remove_leaf` computes for an extent. -/
structure Cut where
  start : Nat
  len : Int
  newLen : Int
  newStart : Nat
  movesStart : Bool
  atEnd : Bool

/-- `len` and `new_len` are an `int`, `start` and `new_start` an `ext4_fsblk_t`. When `start`
comes to be `from`, the length is reduced by what is then their difference, 0. -/
def cutExtent (ex : Slot) (from_ last : Nat) : Cut :=
  let cut : Cut := ⟨ex.eeBlock,ext4ExtGetActualLen ex,0,ex.eeBlock,false,false⟩
  let cut := if cut.start < from_ then
    let start := from_
    {cut with start := start,len := i32 (cut.len - u64 (from_ - start : Int)),newLen := i32 (u64 (from_ - start : Int) : Nat),movesStart := true}
    else cut
  if last < u64 (cut.start + cut.len - 1) then
    let len := i32 (cut.len - u64 (cut.start + cut.len - 1 - last))
    let newLen := i32 (u64 (cut.start + len - 1 - last) : Nat)
    {cut with len := len,newLen := newLen,newStart := u64 (cut.newStart + u32 (last + 1 : Int) : Nat),atEnd := true}
  else cut

/-- The loop of `ext4_ext_remove_leaf` over the entries from `ex` on: afterwards it has
`start_ex`, `ex2` and `new_entries`. -/
def removeLeafLoop (eh : Option Nat) (from_ last : Nat) : Nat → State → Nat → Nat → Option Nat → Int →
    Option (State × Nat × Nat × Option Nat × Int)
  | 0, s, ex, startEx, ex2, newEntries => some (s,ex,startEx,ex2,newEntries)
  | rest+1, s, ex, startEx, ex2, newEntries =>
    let x := (s.hdr eh).slot ex
    if last < x.eeBlock then some (s,ex,startEx,ex2,newEntries)
    else do
      let cut := cutExtent x from_ last
      let s ← ext4ExtRemoveBlocks s x (u32 cut.start) (u32 (cut.start + cut.len - 1))
      let x := x.setEeBlock (u32 cut.newStart)
      let x := if cut.newLen = 0 then x
        else if ext4ExtIsUnwritten x then ext4ExtMarkUnwritten (x.setEeLen (u16 cut.newLen))
        else x.setEeLen (u16 cut.newLen)
      removeLeafLoop eh from_ last rest (s.setHdr eh ((s.hdr eh).setSlot ex x)) (ex + 1)
        (if cut.movesStart then startEx + 1 else startEx) (if cut.atEnd then some ex else ex2)
        (if cut.newLen = 0 then newEntries - 1 else newEntries)

/-- The `while (i > 0)` loop of `ext4_ext_remove_idx`. -/
def removeIdxLoop (path : Path) : Nat → State → State
  | 0, s => s
  | i+1, s =>
    let elem := path.elem (i + 1)
    if elem.pIdx ≠ some 0 then s
    else removeIdxLoop path i (setPathKey s (path.elem i) ((s.hdr elem.pHdr).slot 0).eiBlock)

def ext4ExtRemoveIdx (s : State) (path : Path) (i : Nat) : Option State := do
  let elem := path.elem i
  let p ← elem.pIdx
  let hdr := s.hdr elem.pHdr
  let leaf := ext4IdxPblock (hdr.slot p)
  if hdr.ehEntries < p + 1 then none
  let s := s.setHdr elem.pHdr ((hdr.moveSlots p (p + 1) (hdr.ehEntries - 1 - p)).addEntries (-1))
  let s ← ext4ExtFreeBlocks (ext4ExtDirty s elem) leaf 1
  return removeIdxLoop path i s

/-- The count of its `memmove` is one of slots but taken as one of bytes. -/
def ext4ExtRemoveLeaf (s : State) (path : Path) (from_ last : Nat) : Option State := do
  let depth := extDepth s
  let leaf := path.elem depth
  let p ← leaf.pExt
  let entries := (s.hdr leaf.pHdr).ehEntries
  let (s,ex,startEx,ex2,newEntries) ← removeLeafLoop leaf.pHdr from_ last (entries - p) s p p none entries
  let ex2 := ex2.getD ex
  let eh := s.hdr leaf.pHdr
  let eh := if ex2 < entries then eh.moveBytes startEx ex2 (entries - ex2) else eh
  let eh := {eh with ehEntries := u16 newEntries}
  let s := ext4ExtDirty (s.setHdr leaf.pHdr eh) leaf
  let (s,err) := if p = 0 ∧ eh.ehEntries ≠ 0 then ext4ExtCorrectIndexes s path else (s,.ok)
  if err = .ok ∧ eh.ehEntries = 0 ∧ leaf.pBh ≠ none then ext4ExtRemoveIdx s path (depth - 1) else return s

def ext4ExtMoreToRm (s : State) (elem : PathElem) (last : Nat) : Bool :=
  let hdr := s.hdr elem.pHdr
  let p := elem.pIdx.getD 0
  hdr.ehEntries ≠ 0 && p < hdr.ehEntries && (hdr.slot p).eiBlock ≤ last

/-- The leaf step of the walk, at level `depth`. -/
def removeAtLeaf (s : State) (path : Path) (depth from_ last : Nat) : Option (State × Path) := do
  let eh := s.hdr (path.elem depth).pHdr
  if eh.ehEntries = 0 then none
  let lastEx := eh.slot (eh.ehEntries - 1)
  let leafFrom := max (eh.slot 0).eeBlock from_
  let leafTo := min (u32 (lastEx.eeBlock + ext4ExtGetActualLen lastEx - 1)) last
  let s ← ext4ExtRemoveLeaf s path leafFrom leafTo
  return ext4ExtDropRefs s path depth false

/-- The step down to the entry that the path is at. -/
def removeDown (s : State) (path : Path) (depth i : Nat) : Except (State × Path × Errno) (State × Path) :=
  let (s,path) := if (path.elem (i + 1)).pBh ≠ none then ext4ExtDropRefs s path (i + 1) false else (s,path)
  let elem := path.elem i
  let pBlock := ext4IdxPblock ((s.hdr elem.pHdr).slot (elem.pIdx.getD 0))
  match readExtentTreeBlock s pBlock (depth - i - 1) with
  | (s,some err) => .error (s,path,err)
  | (s,none) =>
    let path := path.set i {elem with pBlock := pBlock}
    let below := {path.elem (i + 1) with pBh := some pBlock,pHdr := some pBlock,pIn := some pBlock,pDepth := depth - i - 1}
    .ok (s,path.set (i + 1) (if i + 1 = depth then {below with pExt := some 0} else {below with pIdx := some 0}))

/-- The step up from an index node that nothing more is removed from. -/
def removeUp (s : State) (path : Path) (i : Nat) : Option (State × Path) :=
  match i with
  | 0 => some (s,path)
  | i+1 => do
    let elem := path.elem (i + 1)
    let s ← if (s.hdr elem.pHdr).ehEntries = 0 then ext4ExtRemoveIdx s path i else some s
    let bh ← elem.pBh
    return (fsBrelse s bh,path.set (i + 1) {elem with pBh := none})

/-- The `while (i >= 0)` loop of `ext4_ext_remove_space` at level `i` given as `i + 1`, for as
many rounds as it is given. -/
def removeSpaceLoop (depth from_ last : Nat) : Nat → Nat → State → Path → Option (State × Path × Option Errno)
  | _, 0, s, path => some (s,path,none)
  | 0, _+1, _, _ => none
  | rounds+1, i+1, s, path =>
    if i = depth then (removeAtLeaf s path depth from_ last).bind fun (s,path) => removeSpaceLoop depth from_ last rounds i s path
    else if ext4ExtMoreToRm s (path.elem i) last then
      match removeDown s path depth i with
      | .error (s,path,err) => some (s,path,some err)
      | .ok (s,path) => removeSpaceLoop depth from_ last rounds (i + 2) s path
    else (removeUp s path i).bind fun (s,path) => removeSpaceLoop depth from_ last rounds i s path

/-- An emptied root becomes a leaf. -/
def resetRoot (s : State) (path : Path) : State :=
  let root := s.hdr none
  if (s.hdr (path.elem 0).pHdr).ehEntries = 0 then
    ext4ExtDirty (s.setHdr none {root with ehDepth := 0,ehMax := ext4ExtSpaceRoot}) (path.elem 0)
  else s

/-- `ext4_ext_remove_space`, given up after a number of rounds of its loop. -/
def ext4ExtRemoveSpace (rounds : Nat) (s : State) (from_ last : Nat) : Option (State × Option Errno) :=
  let depth := extDepth s
  match ext4FindExtent s from_ none with
  | (s,.error err) => some (s,some err)
  | (s,.ok path) =>
    let leaf := path.elem depth
    let inside := leaf.pExt.any fun p =>
      let ex := (s.hdr leaf.pHdr).slot p
      inRange from_ ex.eeBlock (ext4ExtGetActualLen ex)
    if !inside then some ((ext4ExtDropRefs s path 0 false).1,none)
    else (removeSpaceLoop depth from_ last rounds (depth + 1) s path).map fun (s,path,err) =>
      match err with
      | some err => ((ext4ExtDropRefs s path 0 false).1,some err)
      | none => ((ext4ExtDropRefs (resetRoot s path) path 0 false).1,none)

/-- `inode_remove_data_pblock`, with a `to` of 2^32 - 1. -/
def inodeRemoveDataPblock (rounds : Nat) (s : State) (from_ : Nat) : Option (State × Option Errno) :=
  ext4ExtRemoveSpace rounds s from_ (2^32 - 1)

end Ext4Fuse.Extents
