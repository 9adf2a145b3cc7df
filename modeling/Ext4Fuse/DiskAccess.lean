import Ext4Fuse.Disk
import Ext4Fuse.FlatDevice

/-! `disk_read`, `disk_write` and the contexts over them, for any disk that serves the requests that
fit: the flat device, and the buffer cache, where what is copied out of a buffer must lie in it. -/
namespace Ext4Fuse.DiskAccess
open Machine Library.Bytes

/-- What `__disk_read` and `__disk_write` do to a disk in state `σ`. A request that does not fit
leaves a buffer or fails an assertion, and has no result. -/
structure Access (σ : Type) where
  content : σ → Nat → UInt8
  fits : Nat → Nat → Prop
  read : σ → Nat → Nat → Option (List UInt8 × σ)
  write : σ → Nat → List UInt8 → Option σ
  short {pos size : Nat} : fits pos size → size < 2^31
  /-- What begins inside a request and ends with it fits as well. -/
  behind {pos size i : Nat} : fits pos size → i ≤ size → fits (pos + i) (size - i)
  reads (disk : σ) {pos size : Nat} : fits pos size →
    ∃ disk', read disk pos size = some (slice (content disk) pos size,disk') ∧ content disk' = content disk
  unread (disk : σ) {pos size : Nat} : ¬fits pos size → read disk pos size = none
  writes (disk : σ) {pos : Nat} {p : List UInt8} : p ≠ [] → fits pos p.length →
    ∃ disk', write disk pos p = some disk' ∧ content disk' = overlay (content disk) pos p
  unwritten (disk : σ) {pos : Nat} {p : List UInt8} : ¬fits pos p.length → write disk pos p = none

section Instances

/-- All of a request, whose count comes back as an `int`. -/
def exact : Access FlatDevice.Device where
  content device := device
  fits _ size := size < 2^31
  read device pos size := if size < 2^31 then (FlatDevice.diskRead device pos size).map fun p => (p,device) else none
  write device pos p := if p.length < 2^31 then FlatDevice.diskWrite device pos p else none
  short bound := bound
  behind bound _ := by omega
  reads device _ _ bound := ⟨device,by rw [if_pos bound,FlatDevice.diskRead_nat]; rfl,rfl⟩
  unread _ _ _ bound := if_neg bound
  writes device _ _ _ bound := ⟨_,by rw [if_pos bound,FlatDevice.diskWrite_nat],rfl⟩
  unwritten _ _ _ bound := if_neg bound

@[simp] theorem exact_content (device : FlatDevice.Device) : exact.content device = device := rfl

variable (block : BlockSize)

/-- At most one whole block behind the unaligned head. -/
def oneBlock (pos size : Nat) : Prop := (size - Disk.headSize block pos size) / block.bytes ≤ 1

theorem oneBlock_behind {pos size i : Nat} (one : oneBlock block pos size) (inside : i ≤ size) : oneBlock block (pos + i) (size - i) := by
  refine Nat.le_trans (Nat.div_le_div_right ?_) one
  have off := Nat.mod_lt pos block.pos
  unfold Disk.headSize
  rcases Nat.lt_or_ge (pos % block.bytes + i) block.bytes with within | beyond
  · have same : (pos + i) % block.bytes = pos % block.bytes + i := by rw [← Nat.mod_add_mod,Nat.mod_eq_of_lt within]
    rw [same]
    split <;> split <;> omega
  · split <;> split <;> omega

/-- `disk.c` over the buffer cache. -/
def buffered : Access Disk.Cache where
  content := Disk.Cache.content block
  fits := oneBlock block
  read c pos size := (Disk.diskRead block c pos size).map Prod.snd
  write c pos p := (Disk.diskWrite block c pos p).map Prod.snd
  short one := Disk.request_small block _ _ one
  behind := oneBlock_behind block
  reads c _ _ one := by
    obtain ⟨c',read,same⟩ := Disk.diskRead_content block c _ _ one
    exact ⟨c',by rw [read]; rfl,same.content⟩
  unread c _ _ many := by rw [Disk.diskRead_overrun block c _ _ (Nat.lt_of_not_le many)]; rfl
  writes c _ _ some_byte one := by
    obtain ⟨c',written,stored⟩ := Disk.diskWrite_stored block c _ _ some_byte one
    exact ⟨c',by rw [written]; rfl,stored.1⟩
  unwritten c _ _ many := by rw [Disk.diskWrite_overrun block c _ _ (Nat.lt_of_not_le many)]; rfl

theorem oneBlock_aligned {pos size : Nat} (aligned : pos % block.bytes = 0) : oneBlock block pos size ↔ size < 2 * block.bytes := by
  rw [oneBlock,Disk.headSize,if_pos aligned,Nat.sub_zero,← Nat.lt_succ_iff,Nat.div_lt_iff_lt_mul block.pos]

/-- A request of one whole block at most finds in the cache what the flat device holds. -/
theorem diskRead_flat {c : Disk.Cache} {pos size : Nat} (one : oneBlock block pos size) :
    (Disk.diskRead block c pos size).map (fun r => (r.2.1,r.2.2.content block)) =
      (FlatDevice.diskRead (c.content block) pos size).map fun p => (p,c.content block) := by
  obtain ⟨c',read,same⟩ := Disk.diskRead_content block c pos size one
  rw [read,FlatDevice.diskRead_nat,Option.map_some,Option.map_some,same.content]

theorem diskWrite_flat {c : Disk.Cache} {pos : Nat} {p : List UInt8} (some_byte : p ≠ []) (one : oneBlock block pos p.length) :
    (Disk.diskWrite block c pos p).map (fun r => r.2.content block) = FlatDevice.diskWrite (c.content block) pos p := by
  obtain ⟨c',written,stored⟩ := Disk.diskWrite_stored block c pos p some_byte one
  rw [written,FlatDevice.diskWrite_nat,Option.map_some,stored.1]

end Instances

/-- Whatever is not longer than a block fits. -/
def Access.Blocks {σ : Type} (access : Access σ) (blockSize : Nat) : Prop := ∀ pos size, size ≤ blockSize → access.fits pos size

theorem exact_blocks {blockSize : Nat} (most : blockSize ≤ 65536) : exact.Blocks blockSize :=
  fun _ _ inside => Nat.lt_of_le_of_lt (Nat.le_trans inside most) (by decide)

theorem buffered_blocks (block : BlockSize) : (buffered block).Blocks block.bytes :=
  fun _ _ inside => Nat.div_le_of_le_mul (Nat.le_trans (Nat.sub_le _ _) (by rwa [Nat.mul_one]))

/-- `struct disk_ctx`. -/
structure DiskCtx where
  cur : Nat
  size : Nat

def diskCtxCreate (pos size len : Nat) : Option DiskCtx :=
  if size = 0 then none else some ⟨pos,u64 (size * len : Nat)⟩

variable {σ : Type} (access : Access σ) (disk : σ)

def diskCtxRead (ctx : DiskCtx) (size : Nat) : Option (DiskCtx × List UInt8 × σ) :=
  if ctx.size = 0 then none
  else do
    let size := if ctx.size < size then ctx.size else size
    let (p,disk) ← access.read disk ctx.cur size
    return (⟨ctx.cur + size,ctx.size - size⟩,p,disk)

/-- `__disk_ctx_write`, which returns how much of the buffer it writes. -/
def diskCtxWrite (ctx : DiskCtx) (p : List UInt8) : Option (DiskCtx × Nat × σ) :=
  if ctx.size = 0 then none
  else do
    let size := if ctx.size < p.length then ctx.size else p.length
    let disk ← access.write disk ctx.cur (p.take size)
    return (⟨ctx.cur + size,ctx.size - size⟩,size,disk)

variable {access disk} {ctx : DiskCtx}

theorem diskCtxRead_eq (left : ctx.size ≠ 0) (size : Nat) : diskCtxRead access disk ctx size =
    (access.read disk ctx.cur (min size ctx.size)).map fun r =>
      (⟨ctx.cur + min size ctx.size,ctx.size - min size ctx.size⟩,r.1,r.2) := by
  have truncated : (if ctx.size < size then ctx.size else size) = min size ctx.size := by
    split <;> omega
  rw [diskCtxRead,if_neg left]
  simp only [truncated]
  cases access.read disk ctx.cur (min size ctx.size) <;> rfl

theorem diskCtxWrite_eq (left : ctx.size ≠ 0) (p : List UInt8) : diskCtxWrite access disk ctx p =
    (access.write disk ctx.cur (p.take (min p.length ctx.size))).map fun disk =>
      (⟨ctx.cur + min p.length ctx.size,ctx.size - min p.length ctx.size⟩,min p.length ctx.size,disk) := by
  have truncated : (if ctx.size < p.length then ctx.size else p.length) = min p.length ctx.size := by
    split <;> omega
  rw [diskCtxWrite,if_neg left]
  simp only [truncated]
  cases access.write disk ctx.cur (p.take (min p.length ctx.size)) <;> rfl

end Ext4Fuse.DiskAccess
