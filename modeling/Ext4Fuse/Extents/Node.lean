import Ext4Fuse.Alloc

/-! The extent tree's nodes, the `ext4_ext_path` array and what `extents.c` does with
single nodes. `fs_bread` and `fs_bwrite` get their buffer, and `malloc` its memory. -/
namespace Ext4Fuse.Extents
open Machine Ext4Fuse.Types Super

/-- The volume, one inode, what the buffers of the tree blocks hold and whether they have
been verified, and the buffers' reference counts. -/
structure State where
  volume : Volume
  inode : Inode
  node : Nat → Node
  verified : Nat → Bool
  count : Nat → Int

/-- An element of the path array: `pHdr` is the tree block the header is in, none for `i_data`.
`pExt` and `pIdx` count entries of the array in `pIn`, which is the header's unless a split has put
an index into the new node; where an entry is read through them it is the header's. -/
structure PathElem where
  pBlock : Nat
  pDepth : Nat
  pExt : Option Nat
  pIdx : Option Nat
  pIn : Option Nat
  pHdr : Option Nat
  pBh : Option Nat

structure Path where
  elem : Nat → PathElem
  pMaxdepth : Nat

def Path.set (path : Path) (i : Nat) (elem : PathElem) : Path :=
  {path with elem := Function.update path.elem i elem}

@[simp] theorem Path.set_self (path : Path) (i : Nat) (elem : PathElem) : (path.set i elem).elem i = elem := by
  simp [Path.set]

theorem Path.set_other (path : Path) {i j : Nat} (elem : PathElem) (other : j ≠ i) :
    (path.set i elem).elem j = path.elem j := by
  simp [Path.set,other]

@[simp] theorem Path.set_maxdepth (path : Path) (i : Nat) (elem : PathElem) :
    (path.set i elem).pMaxdepth = path.pMaxdepth := rfl

/-- `kzalloc`. -/
def zeroPath (pMaxdepth : Nat) : Path := ⟨fun _ => ⟨0,0,none,none,none,none,none⟩,pMaxdepth⟩

def ext4ExtMagic : Nat := 0xf30a
def extInitMaxLen : Nat := 2^15
def extUnwrittenMaxLen : Nat := extInitMaxLen - 1

/-- `in_range`, whose sum is a `uint32_t`. -/
def inRange (b first : Nat) (len : Int) : Bool := first ≤ b ∧ b ≤ u32 (first + len - 1)

def ext4ExtGetActualLen (ext : Slot) : Nat :=
  if ext.eeLen ≤ extInitMaxLen then ext.eeLen else ext.eeLen - extInitMaxLen

def ext4ExtIsUnwritten (ext : Slot) : Bool := extInitMaxLen < ext.eeLen
def ext4ExtPblock (ext : Slot) : Nat := ext.eeStartLo + ext.eeStartHi * 2^32
def ext4IdxPblock (ix : Slot) : Nat := ix.eiLeafLo + ix.eiLeafHi * 2^32

def ext4ExtMarkUnwritten (ext : Slot) : Slot :=
  if ext.eeLen < extInitMaxLen then ext.setEeLen (ext.eeLen + extInitMaxLen) else ext

def ext4ExtMarkInitialized (ext : Slot) : Slot := ext.setEeLen (ext4ExtGetActualLen ext)

def ext4ExtStorePblock (ext : Slot) (pb : Nat) : Slot :=
  {ext with word1 := UInt32.ofNat (pb / 2^32 % 2^16 * 2^16 + ext.eeLen),word2 := UInt32.ofNat pb}

def ext4IdxStorePblock (ix : Slot) (pb : Nat) : Slot :=
  {ix with word1 := UInt32.ofNat pb,word2 := UInt32.ofNat (ix.word2.toNat / 2^16 * 2^16 + pb / 2^32 % 2^16)}

/-! Headers and the arrays behind them. -/

/-- The node a header pointer points to. -/
def State.hdr (s : State) : Option Nat → Node
  | none => s.inode.rawInode.iData
  | some b => s.node b

def State.setHdr (s : State) (at_ : Option Nat) (n : Node) : State :=
  match at_ with
  | none => {s with inode := {s.inode with rawInode := {s.inode.rawInode with iData := n}}}
  | some b => {s with node := Function.update s.node b n}

theorem setHdr_hdr (s : State) (at_ : Option Nat) (n : Node) : (s.setHdr at_ n).hdr at_ = n := by
  cases at_ with
  | none => rfl
  | some b => exact Function.update_self ..

theorem setHdr_other (s : State) {at_ other : Option Nat} (n : Node) (differ : other ≠ at_) :
    (s.setHdr at_ n).hdr other = s.hdr other := by
  cases at_ with
  | none =>
    cases other with
    | none => exact absurd rfl differ
    | some b => rfl
  | some b =>
    cases other with
    | none => rfl
    | some c => exact Function.update_of_ne (fun same => differ (congrArg some same)) _ _

def extDepth (s : State) : Nat := s.inode.rawInode.iData.ehDepth

def ext4ExtSpaceBlock (s : State) : Nat := (superBlockSize s.volume.superBlock - 12) / 12
def ext4ExtSpaceBlockIdx (s : State) : Nat := (superBlockSize s.volume.superBlock - 12) / 12
def ext4ExtSpaceRoot : Nat := (60 - 12) / 12
def ext4ExtSpaceRootIdx : Nat := (60 - 12) / 12

def ext4ExtMaxEntries (s : State) (depth : Nat) : Nat :=
  if depth = extDepth s then (if depth = 0 then ext4ExtSpaceRoot else ext4ExtSpaceRootIdx)
  else if depth = 0 then ext4ExtSpaceBlock s else ext4ExtSpaceBlockIdx s

def ext4ExtInitHeader (s : State) (eh : Node) (depth : Nat) : Node :=
  {eh with ehEntries := 0,ehMax := u16 (ext4ExtMaxEntries s depth : Nat),ehMagic := ext4ExtMagic,ehDepth := u16 depth}

def ext4ExtCheck (eh : Node) (depth : Nat) : Option Errno :=
  if eh.ehMagic ≠ ext4ExtMagic then some .eio
  else if eh.ehDepth ≠ depth then some .eio
  else if eh.ehMax = 0 then some .eio
  else if eh.ehMax < eh.ehEntries then some .eio
  else none

/-! Buffers and blocks. -/

def fsBread (s : State) (b : Nat) : State := {s with count := Function.update s.count b (s.count b + 1)}
def fsBwrite (s : State) (b : Nat) : State := {s with count := Function.update s.count b (s.count b + 1)}
def fsBrelse (s : State) (b : Nat) : State := {s with count := Function.update s.count b (s.count b - 1)}

def readExtentTreeBlock (s : State) (pblk depth : Nat) : State × Option Errno :=
  let s := fsBread s pblk
  if s.verified pblk then (s,none)
  else match ext4ExtCheck (s.node pblk) depth with
    | some err => (fsBrelse s pblk,some err)
    | none => ({s with verified := Function.update s.verified pblk true},none)

/-- `__ext4_ext_dirty`; which tree blocks are dirty is not kept. -/
def ext4ExtDirty (s : State) (elem : PathElem) : State :=
  match elem.pBh with
  | some _ => s
  | none => {s with inode := inodeMarkDirty s.inode}

theorem ext4ExtDirty_hdr (s : State) (elem : PathElem) (at_ : Option Nat) : (ext4ExtDirty s elem).hdr at_ = s.hdr at_ := by
  unfold ext4ExtDirty
  cases elem.pBh with
  | none => cases at_ <;> rfl
  | some b => rfl

theorem setHdr_volume (s : State) (a : Option Nat) (n : Node) : (s.setHdr a n).volume = s.volume := by cases a <;> rfl

theorem ext4ExtDirty_volume (s : State) (elem : PathElem) : (ext4ExtDirty s elem).volume = s.volume := by
  unfold ext4ExtDirty
  cases elem.pBh <;> rfl

/-- `ext4_ext_drop_refs` on the path from element `i` on. -/
def ext4ExtDropRefs (s : State) (path : Path) (i : Nat) (keepOther : Bool) : State × Path :=
  (List.range (if keepOther then 1 else (path.elem i).pDepth + 1)).foldl (fun (s,path) j =>
    match (path.elem (i + j)).pBh with
    | some b => (fsBrelse s b,path.set (i + j) {path.elem (i + j) with pBh := none})
    | none => (s,path)) (s,path)

def newMetaBlocks (s : State) (goal : Nat) (count : Option Nat) : Option (Alloc.Allocated × State) :=
  (Alloc.ext4NewMetaBlocks s.volume s.inode goal count).map fun (allocated,volume,inode) =>
    (allocated,{s with volume := volume,inode := inode})

def ext4ExtFreeBlocks (s : State) (block : Nat) (count : Int) : Option State :=
  (Alloc.ext4ExtFreeBlocks s.volume s.inode block count).map fun (volume,inode) =>
    {s with volume := volume,inode := inode}

end Ext4Fuse.Extents
