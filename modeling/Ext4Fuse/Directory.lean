import Ext4Fuse.Machine
import Ext4Fuse.Library.Bytes

/-! Directory blocks as `inode_dentry_get` hands them out, and the search that
`inode_get_idx_by_path` makes in one directory. A read outside the buffered block
and a failing `ASSERT` have no result. -/
namespace Ext4Fuse.Directory
open Machine Library.Bytes

/-- What a lookup reads of an inode. `data` is the block `dir_ctx_update` reads for
a logical block number. -/
structure DirInode where
  isDir : Bool
  size : Nat
  data : Nat → Nat → UInt8

/-- The `ext4_dir_entry_2` at an offset of the block in `ctx->buf`. -/
structure Dentry where
  buf : Nat → UInt8
  blkOffset : Nat

variable (block : BlockSize)

def Dentry.field (dentry : Dentry) (offset count : Nat) : Option (List UInt8) :=
  if dentry.blkOffset + offset + count ≤ block.bytes then
    some (slice dentry.buf (dentry.blkOffset + offset) count) else none

def Dentry.inode (dentry : Dentry) : Option Nat := (dentry.field block 0 4).map leValue
def Dentry.recLen (dentry : Dentry) : Option Nat := (dentry.field block 4 2).map leValue
def Dentry.nameLen (dentry : Dentry) : Option Nat := (dentry.field block 6 1).map leValue
def Dentry.name (dentry : Dentry) (count : Nat) : Option (List UInt8) := dentry.field block 8 count

/-- `inode_dentry_get`: `ctx` always ends up holding the block of `offset`. -/
def inodeDentryGet (dir : DirInode) (offset : Nat) : Option (Option Dentry) :=
  if dir.size < offset then none
  else if dir.size = offset then some none
  else some (some {buf := dir.data (u32 (offset / block.bytes : Nat)),blkOffset := offset % block.bytes})

/-- A block of the directory, as an `inode_dir_ctx` buffers it. -/
structure DirCtx (dir : DirInode) where
  lblock : Nat
  buf : Nat → UInt8
  held : buf = dir.data lblock

def dirCtxUpdate (dir : DirInode) (lblock : Nat) : DirCtx dir := ⟨lblock,dir.data lblock,rfl⟩
def inodeDirCtxReset (dir : DirInode) : DirCtx dir := dirCtxUpdate dir 0

/-- `inode_dentry_get` with its `ctx`; it calls itself once, after the update. -/
def inodeDentryGetCtx (dir : DirInode) (offset : Nat) (ctx : DirCtx dir) : Option (Option Dentry × DirCtx dir) :=
  let lblock := u32 (offset / block.bytes : Nat)
  let blkOffset := offset % block.bytes
  if dir.size < offset then none
  else if dir.size = offset then some (none,ctx)
  else if lblock = ctx.lblock then some (some ⟨ctx.buf,blkOffset⟩,ctx)
  else
    let ctx := dirCtxUpdate dir lblock
    some (some ⟨ctx.buf,blkOffset⟩,ctx)

/-- Whatever block is buffered, the answer is the same. -/
theorem inodeDentryGetCtx_eq (dir : DirInode) (offset : Nat) (ctx : DirCtx dir) :
    (inodeDentryGetCtx block dir offset ctx).map Prod.fst = inodeDentryGet block dir offset := by
  simp only [inodeDentryGetCtx,inodeDentryGet]
  split_ifs with above end_ same
  · rfl
  · rfl
  · rw [Option.map_some,ctx.held,same]
  · rfl

/-- The `while` loop over the entries of one directory: the inode of the first used
entry with the name. No result: the fuel runs out. -/
def dirSearchLoop (dir : DirInode) (name : List UInt8) : Nat → Nat → Option (Option Nat)
  | 0, _ => none
  | fuel+1, offset => do
    let some dentry ← inodeDentryGet block dir offset | return none
    let offset := u32 (offset + (← dentry.recLen block) : Nat)
    let inode ← dentry.inode block
    if inode = 0 then dirSearchLoop dir name fuel offset
    else
      let nameLen ← dentry.nameLen block
      if nameLen ≠ name.length then dirSearchLoop dir name fuel offset
      else if (← dentry.name block nameLen) ≠ name then dirSearchLoop dir name fuel offset
      else return some inode

/-- The search of a whole directory. Its state is the `uint32_t` offset, so a search
that makes more than 2^32 steps has come back to an offset and never ends. -/
def dirSearch (dir : DirInode) (name : List UInt8) : Option (Option Nat) :=
  dirSearchLoop block dir name (2^32 + 1) 0

end Ext4Fuse.Directory
