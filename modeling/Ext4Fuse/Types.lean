import Ext4Fuse.Bitmap
import Ext4Fuse.Machine
import Mathlib.Logic.Function.Basic

/-! The on-disk structures of `types/`, with the fields that modelled functions use. -/
namespace Ext4Fuse.Types
open Machine

inductive Errno
  | eio
  | enomem
  | enospc
  deriving DecidableEq

structure SuperBlock where
  sBlocksCountLo : UInt32
  sBlocksCountHi : UInt32
  sFreeBlocksCountLo : UInt32
  sFreeBlocksCountHi : UInt32
  sFirstDataBlock : UInt32
  sLogBlockSize : UInt32
  sBlocksPerGroup : UInt32
  sInodesPerGroup : UInt32
  sInodeSize : UInt16
  sDescSize : UInt16
  sFirstMetaBg : UInt32
  sReservedGdtBlocks : UInt16
  sFeatureIncompat : UInt32
  sFeatureRoCompat : UInt32
  deriving DecidableEq

structure GroupDesc where
  bgBlockBitmapLo : UInt32
  bgBlockBitmapHi : UInt32
  bgInodeBitmapLo : UInt32
  bgInodeBitmapHi : UInt32
  bgInodeTableLo : UInt32
  bgInodeTableHi : UInt32
  bgFreeBlocksCountLo : UInt16
  bgFreeBlocksCountHi : UInt16
  bgFlags : UInt16
  deriving DecidableEq

/-- Twelve bytes of a node: an `ext4_extent` or an `ext4_extent_idx`. -/
structure Slot where
  word0 : UInt32
  word1 : UInt32
  word2 : UInt32
  deriving DecidableEq

/-- A node's header and the array behind it; `slot` goes on past the node's end. -/
structure Node where
  ehMagic : Nat
  ehEntries : Nat
  ehMax : Nat
  ehDepth : Nat
  slot : Nat → Slot

structure RawInode where
  iSizeLo : UInt32
  iSizeHigh : UInt32
  iBlocksLo : UInt32
  lIBlocksHigh : UInt16
  iFlags : UInt32
  iData : Node

structure Inode where
  iIno : UInt32
  iDataDirty : Bool
  rawInode : RawInode

def Slot.eeBlock (s : Slot) : Nat := s.word0.toNat
def Slot.eeLen (s : Slot) : Nat := s.word1.toNat % 2^16
def Slot.eeStartHi (s : Slot) : Nat := s.word1.toNat / 2^16
def Slot.eeStartLo (s : Slot) : Nat := s.word2.toNat
def Slot.eiBlock (s : Slot) : Nat := s.word0.toNat
def Slot.eiLeafLo (s : Slot) : Nat := s.word1.toNat
def Slot.eiLeafHi (s : Slot) : Nat := s.word2.toNat % 2^16

def Slot.setEeBlock (ext : Slot) (block : Nat) : Slot := {ext with word0 := UInt32.ofNat block}
def Slot.setEeLen (ext : Slot) (len : Nat) : Slot :=
  {ext with word1 := UInt32.ofNat (ext.eeStartHi * 2^16 + len % 2^16)}

def Slot.setEiBlock (ix : Slot) (block : Nat) : Slot := {ix with word0 := UInt32.ofNat block}

/-! What `extents.c` does with single headers and slots. -/

def Node.setSlot (n : Node) (i : Nat) (x : Slot) : Node := {n with slot := Function.update n.slot i x}

@[simp] theorem setSlot_self (n : Node) (i : Nat) (x : Slot) : (n.setSlot i x).slot i = x := Function.update_self ..

theorem setSlot_other (n : Node) {i j : Nat} (x : Slot) (differ : j ≠ i) : (n.setSlot i x).slot j = n.slot j :=
  Function.update_of_ne differ _ _

/-- `memmove` of `len` slots inside a node. -/
def Node.moveSlots (n : Node) (dst src len : Nat) : Node :=
  {n with slot := fun i => if dst ≤ i ∧ i < dst + len then n.slot (src + (i - dst)) else n.slot i}

/-- `memmove` of `len` slots to the start of another node's array. -/
def Node.copySlots (n from_ : Node) (src len : Nat) : Node :=
  {n with slot := fun i => if i < len then from_.slot (src + i) else n.slot i}

/-- A byte of the array, counted from its start. -/
def Node.byte (n : Node) (i : Nat) : Nat :=
  let s := n.slot (i / 12)
  (if i % 12 < 4 then s.word0 else if i % 12 < 8 then s.word1 else s.word2).toNat / 2^(8 * (i % 4)) % 2^8

def wordOfBytes (byte : Nat → Nat) (i : Nat) : UInt32 :=
  UInt32.ofNat (byte i + byte (i + 1) * 2^8 + byte (i + 2) * 2^16 + byte (i + 3) * 2^24)

/-- `memmove` of `len` bytes from one slot's start to another's; slots out of its reach stay. -/
def Node.moveBytes (n : Node) (dst src len : Nat) : Node :=
  let byte := fun i => n.byte (if 12 * dst ≤ i ∧ i < 12 * dst + len then 12 * src + (i - 12 * dst) else i)
  {n with slot := fun i =>
    if i < dst ∨ 12 * dst + len ≤ 12 * i then n.slot i
    else ⟨wordOfBytes byte (12 * i),wordOfBytes byte (12 * i + 4),wordOfBytes byte (12 * i + 8)⟩}

/-- `le16_add_cpu(&eh->eh_entries, a)`. -/
def Node.addEntries (n : Node) (a : Int) : Node := {n with ehEntries := u16 (n.ehEntries + a)}

def inodeMarkDirty (inode : Inode) : Inode := {inode with iDataDirty := true}

def inodeGetSize (inode : Inode) : Nat :=
  inode.rawInode.iSizeHigh.toNat * 2^32 + inode.rawInode.iSizeLo.toNat

end Ext4Fuse.Types
