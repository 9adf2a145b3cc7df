import Ext4Fuse.Machine
import Ext4Fuse.Library.Bytes

/-! `disk.c` over the buffer cache of `bufops.c`, called by one thread at a time:
every `fs_bread` waits for its read. A copy that runs past the one block a buffer
holds leaves the buffer's allocation, and has no result here. -/
namespace Ext4Fuse.Disk
open Machine Library.Bytes

/-- A cached block. `set_buffer_dirty` is called by `fs_mark_buffer_dirty` only,
after `set_buffer_uptodate`. -/
structure BufferHead where
  bData : Nat → UInt8
  uptodate : Bool
  dirty : Bool
  settled : dirty = true → uptodate = true

/-- The cache in front of a flat device. `heap` is what `malloc` leaves in the
data area of a buffer that has not been read. -/
structure Cache where
  device : Nat → UInt8
  heap : Nat → UInt8
  buffers : Nat → Option BufferHead

variable (block : BlockSize)

def Cache.set (c : Cache) (b : Nat) (bh : BufferHead) : Cache :=
  {c with buffers := fun i => if i = b then some bh else c.buffers i}

/-- `__getblk`: the buffer the tree holds, else a new one from `buffer_alloc`. -/
def getblk (c : Cache) (b : Nat) : BufferHead :=
  (c.buffers b).getD {bData := c.heap,uptodate := false,dirty := false,settled := nofun}

/-- `bh_submit_read` and its completion: only a buffer that is not uptodate is read. -/
def bhSubmitRead (c : Cache) (b : Nat) (bh : BufferHead) : BufferHead :=
  if bh.uptodate then bh else
    {bData := fun i => c.device (b * block.bytes + i),uptodate := true,dirty := false,settled := nofun}

def fsBread (c : Cache) (b : Nat) : BufferHead × Cache :=
  let bh := bhSubmitRead block c b (getblk c b)
  (bh,c.set b bh)

def fsBwrite (c : Cache) (b : Nat) : BufferHead × Cache :=
  (getblk c b,c.set b (getblk c b))

def fsMarkBufferDirty (bh : BufferHead) : BufferHead :=
  {bh with uptodate := true,dirty := true,settled := fun _ => rfl}

/-- `memcpy` out of a buffer: defined only inside its one block. -/
def memcpyFrom (bh : BufferHead) (offset count : Nat) : Option (List UInt8) :=
  if offset + count ≤ block.bytes then some (slice bh.bData offset count) else none

/-- `memcpy` into a buffer: defined only inside its one block. -/
def memcpyTo (bh : BufferHead) (offset : Nat) (p : List UInt8) : Option BufferHead :=
  if offset + p.length ≤ block.bytes then some {bh with bData := overlay bh.bData offset p} else none

/-- The part of `pread_buffered` after the whole blocks. -/
def preadTail (c : Cache) (ret size pos : Nat) (p : List UInt8) : Option (Int × List UInt8 × Cache) := do
  let (bh,c) := fsBread block c (pos / block.bytes)
  let last ← memcpyFrom block bh 0 size
  return (i32 (ret + size : Nat),p ++ last,c)

/-- The part of `pread_buffered` after the unaligned head. -/
def preadMid (c : Cache) (ret size pos : Nat) (p : List UInt8) : Option (Int × List UInt8 × Cache) := do
  let midReadSize := size / block.bytes * block.bytes
  if midReadSize ≠ 0 then
    let (bh,c) := fsBread block c (pos / block.bytes)
    let mid ← memcpyFrom block bh 0 midReadSize
    if size - midReadSize = 0 then return (i32 (ret + midReadSize : Nat),p ++ mid,c)
    preadTail block c (ret + midReadSize) (size - midReadSize) (pos + midReadSize) (p ++ mid)
  else preadTail block c ret size pos p

def preadBuffered (c : Cache) (size pos : Nat) : Option (Int × List UInt8 × Cache) := do
  let firstOffset := pos % block.bytes
  if firstOffset ≠ 0 then
    let (bh,c) := fsBread block c ((pos - firstOffset) / block.bytes)
    let firstSize := min size (block.bytes - firstOffset)
    let first ← memcpyFrom block bh firstOffset firstSize
    if size - firstSize = 0 then return (i32 firstSize,first,c)
    preadMid block c firstSize (size - firstSize) (pos + firstSize) first
  else preadMid block c 0 size pos []

def pwriteTail (c : Cache) (ret pos : Nat) (p : List UInt8) : Option (Int × Cache) := do
  let b := pos / block.bytes
  let (bh,c) := fsBread block c b
  let bh ← memcpyTo block bh 0 p
  return (i32 (ret + p.length : Nat),c.set b (fsMarkBufferDirty bh))

def pwriteMid (c : Cache) (ret pos : Nat) (p : List UInt8) : Option (Int × Cache) := do
  let midWriteSize := p.length / block.bytes * block.bytes
  if midWriteSize ≠ 0 then
    let b := pos / block.bytes
    let (bh,c) := fsBwrite c b
    let bh ← memcpyTo block bh 0 (p.take midWriteSize)
    let c := c.set b (fsMarkBufferDirty bh)
    if p.length - midWriteSize = 0 then return (i32 (ret + midWriteSize : Nat),c)
    pwriteTail block c (ret + midWriteSize) (pos + midWriteSize) (p.drop midWriteSize)
  else pwriteTail block c ret pos p

/-- `pwrite_buffered(p, size, where)`, with `size` the length of `p`. -/
def pwriteBuffered (c : Cache) (p : List UInt8) (pos : Nat) : Option (Int × Cache) := do
  let firstOffset := pos % block.bytes
  if firstOffset ≠ 0 then
    let b := (pos - firstOffset) / block.bytes
    let (bh,c) := fsBread block c b
    let firstSize := min p.length (block.bytes - firstOffset)
    let bh ← memcpyTo block bh firstOffset (p.take firstSize)
    let c := c.set b (fsMarkBufferDirty bh)
    if p.length - firstSize = 0 then return (i32 firstSize,c)
    pwriteMid block c firstSize (pos + firstSize) (p.drop firstSize)
  else pwriteMid block c 0 pos p

/-- `__disk_read`, whose last `ASSERT` fails on a short count. -/
def diskRead (c : Cache) (pos size : Nat) : Option (Int × List UInt8 × Cache) := do
  let (ret,p,c) ← preadBuffered block c size pos
  if u64 ret = size then return (ret,p,c) else none

def diskWrite (c : Cache) (pos : Nat) (p : List UInt8) : Option (Int × Cache) := do
  let (ret,c) ← pwriteBuffered block c p pos
  if u64 ret = p.length then return (ret,c) else none

/-- The bytes in front of the first block boundary inside a request. -/
def headSize (pos size : Nat) : Nat :=
  if pos % block.bytes = 0 then 0 else min size (block.bytes - pos % block.bytes)

/-! Reading: what a read finds, whether the blocks are cached, dirty or neither. -/

/-- What the cache holds at a byte: the buffer's copy once it is uptodate. -/
def Cache.content (c : Cache) (addr : Nat) : UInt8 :=
  match c.buffers (addr / block.bytes) with
  | some bh => if bh.uptodate then bh.bData (addr % block.bytes) else c.device addr
  | none => c.device addr

def Cache.dirty (c : Cache) (b : Nat) : Prop :=
  ∃ bh, c.buffers b = some bh ∧ bh.dirty = true

theorem content_block (c : Cache) (b i : Nat) (inside : i < block.bytes) :
    c.content block (b * block.bytes + i) = (bhSubmitRead block c b (getblk c b)).bData i := by
  have quotient : (b * block.bytes + i) / block.bytes = b := by
    rw [Nat.mul_comm,Nat.mul_add_div block.pos,Nat.div_eq_of_lt inside,Nat.add_zero]
  have remainder : (b * block.bytes + i) % block.bytes = i := by
    rw [Nat.mul_comm,Nat.mul_add_mod,Nat.mod_eq_of_lt inside]
  unfold Cache.content getblk bhSubmitRead
  rw [quotient,remainder]
  cases c.buffers b with
  | none => rfl
  | some bh => cases valid : bh.uptodate <;> simp [valid]

theorem content_other (c : Cache) (b addr : Nat) (bh : BufferHead) (other : addr / block.bytes ≠ b) :
    (c.set b bh).content block addr = c.content block addr := by
  simp [Cache.content,Cache.set,other]

theorem block_position (addr : Nat) : addr / block.bytes * block.bytes + addr % block.bytes = addr := by
  have := Nat.div_add_mod addr block.bytes
  rw [Nat.mul_comm]
  exact this

theorem aligned_block (pos : Nat) (aligned : pos % block.bytes = 0) :
    pos / block.bytes * block.bytes = pos :=
  Nat.div_mul_cancel (Nat.dvd_of_mod_eq_zero aligned)

theorem headSize_le (pos size : Nat) : headSize block pos size ≤ size := by
  unfold headSize
  split <;> omega

/-- Past the head a request is block aligned, or nothing of it is left. -/
theorem headSize_aligned (pos size : Nat) (rest : size - headSize block pos size ≠ 0) :
    (pos + headSize block pos size) % block.bytes = 0 := by
  unfold headSize at rest ⊢
  split
  · rename_i aligned
    simpa using aligned
  · rename_i unaligned
    rw [if_neg unaligned] at rest
    have part := Nat.mod_lt pos block.pos
    have whole := Nat.div_add_mod pos block.bytes
    have boundary : pos + min size (block.bytes - pos % block.bytes) =
        block.bytes * (pos / block.bytes + 1) := by
      rw [Nat.mul_add,Nat.mul_one]
      omega
    rw [boundary,Nat.mul_mod_right]

theorem headSize_block (pos : Nat) : (pos - pos % block.bytes) / block.bytes = pos / block.bytes := by
  have whole := Nat.div_add_mod pos block.bytes
  have multiple : pos - pos % block.bytes = block.bytes * (pos / block.bytes) := by omega
  rw [multiple,Nat.mul_div_cancel_left _ block.pos]

/-- A request whose whole blocks number at most one is short of three blocks. -/
theorem request_small (pos size : Nat) (one : (size - headSize block pos size) / block.bytes ≤ 1) :
    size < 2^31 := by
  have bytes := block.bytes_le
  have positive := block.pos
  have parts := Nat.div_add_mod (size - headSize block pos size) block.bytes
  have part := Nat.mod_lt (size - headSize block pos size) positive
  have whole := Nat.mul_le_mul_left block.bytes one
  have head : headSize block pos size ≤ block.bytes := by
    unfold headSize
    split <;> omega
  omega

/-- A step that neither writes nor dirties anything. -/
structure Same (c c' : Cache) : Prop where
  content : c'.content block = c.content block
  device : c'.device = c.device
  dirty : ∀ b, c'.dirty b ↔ c.dirty b

theorem Same.trans {block : BlockSize} {c c' c'' : Cache} (first : Same block c c') (second : Same block c' c'') : Same block c c'' where
  content := second.content.trans first.content
  device := second.device.trans first.device
  dirty b := (second.dirty b).trans (first.dirty b)

section Read
variable (c : Cache)

theorem fsBread_content (b : Nat) : (fsBread block c b).2.content block = c.content block := by
  funext addr
  by_cases same : addr / block.bytes = b
  · have place := block_position block addr
    have found := content_block block c (addr / block.bytes) (addr % block.bytes) (Nat.mod_lt addr block.pos)
    rw [place] at found
    subst same
    rw [found]
    have valid : (bhSubmitRead block c (addr / block.bytes) (getblk c (addr / block.bytes))).uptodate = true := by
      unfold bhSubmitRead
      split
      · assumption
      · rfl
    simp [Cache.content,fsBread,Cache.set,valid]
  · exact content_other block c b addr _ same

theorem fsBread_dirty (b b' : Nat) : (fsBread block c b).2.dirty b' ↔ c.dirty b' := by
  by_cases same : b' = b
  · subst same
    unfold Cache.dirty fsBread bhSubmitRead getblk Cache.set
    cases held : c.buffers b' with
    | none => simp
    | some bh =>
      cases valid : bh.uptodate with
      | true => simp [valid]
      | false =>
        have clean : bh.dirty = false := Bool.eq_false_iff.mpr fun dirty => by simp [bh.settled dirty] at valid
        simp [valid,clean]
  · simp [Cache.dirty,fsBread,Cache.set,same]

theorem fsBread_device (b : Nat) : (fsBread block c b).2.device = c.device := rfl

theorem fsBread_same (b : Nat) : Same block c (fsBread block c b).2 :=
  ⟨fsBread_content block c b,fsBread_device block c b,fsBread_dirty block c b⟩

theorem memcpyFrom_content (b offset count : Nat) (inside : offset + count ≤ block.bytes) :
    memcpyFrom block (fsBread block c b).1 offset count = some (slice (c.content block) (b * block.bytes + offset) count) := by
  unfold memcpyFrom
  rw [if_pos inside]
  congr 1
  apply slice_congr
  intro i bound
  rw [Nat.add_assoc,content_block block c b _ (by omega)]
  rfl

theorem preadTail_content (ret size pos : Nat) (p : List UInt8) (aligned : pos % block.bytes = 0) (short : size < block.bytes) :
    ∃ c', preadTail block c ret size pos p = some (i32 (ret + size : Nat),p ++ slice (c.content block) pos size,c') ∧
      Same block c c' := by
  refine ⟨(fsBread block c (pos / block.bytes)).2,?_,fsBread_same block c _⟩
  have copied := memcpyFrom_content block c (pos / block.bytes) 0 size (by omega)
  rw [Nat.add_zero,aligned_block block pos aligned] at copied
  simp [preadTail,copied]

theorem preadMid_content (ret size pos : Nat) (p : List UInt8) (aligned : pos % block.bytes = 0) (one : size / block.bytes ≤ 1) :
    ∃ c', preadMid block c ret size pos p = some (i32 (ret + size : Nat),p ++ slice (c.content block) pos size,c') ∧
      Same block c c' := by
  have positive := block.pos
  by_cases none_whole : size / block.bytes = 0
  · obtain ⟨c',tail,same⟩ := preadTail_content block c ret size pos p aligned ((Nat.div_eq_zero_iff_lt positive).mp none_whole)
    exact ⟨c',by simpa [preadMid,none_whole] using tail,same⟩
  have whole : size / block.bytes = 1 := Nat.le_antisymm one (Nat.one_le_iff_ne_zero.mpr none_whole)
  have parts := Nat.div_add_mod size block.bytes
  have part := Nat.mod_lt size positive
  rw [whole] at parts
  have copied := memcpyFrom_content block c (pos / block.bytes) 0 block.bytes (by omega)
  rw [Nat.add_zero,aligned_block block pos aligned] at copied
  by_cases rest : size - block.bytes = 0
  · have exact_size : size = block.bytes := by omega
    refine ⟨(fsBread block c (pos / block.bytes)).2,?_,fsBread_same block c _⟩
    simp [preadMid,Nat.ne_of_gt positive,copied,exact_size,Nat.div_self positive]
  · obtain ⟨c',tail,same⟩ := preadTail_content block (fsBread block c (pos / block.bytes)).2 (ret + block.bytes) (size - block.bytes)
      (pos + block.bytes) (p ++ slice (c.content block) pos block.bytes) (by simpa using aligned) (by omega)
    rw [fsBread_content] at tail
    refine ⟨c',?_,(fsBread_same block c _).trans same⟩
    have joined : slice (c.content block) pos size =
        slice (c.content block) pos block.bytes ++ slice (c.content block) (pos + block.bytes) (size - block.bytes) := by
      rw [← slice_add,Nat.add_sub_cancel' (by omega)]
    have total : ret + block.bytes + (size - block.bytes) = ret + size := by omega
    rw [total] at tail
    simp [preadMid,whole,Nat.ne_of_gt positive,copied,rest,tail,joined]

/-- More than one whole block is copied out of a buffer that holds one. -/
theorem preadMid_overrun (ret size pos : Nat) (p : List UInt8)
    (many : 1 < size / block.bytes) : preadMid block c ret size pos p = none := by
  have positive := block.pos
  have past : ¬ size / block.bytes * block.bytes ≤ block.bytes := by
    have := Nat.mul_lt_mul_of_pos_right many positive
    omega
  have some_whole : size / block.bytes * block.bytes ≠ 0 := by omega
  simp [preadMid,some_whole,memcpyFrom,past]

theorem preadBuffered_content (pos size : Nat) (one : (size - headSize block pos size) / block.bytes ≤ 1) :
    ∃ c', preadBuffered block c size pos = some (i32 size,slice (c.content block) pos size,c') ∧
      Same block c c' := by
  by_cases aligned : pos % block.bytes = 0
  · have none_first : headSize block pos size = 0 := by simp [headSize,aligned]
    rw [none_first,Nat.sub_zero] at one
    obtain ⟨c',mid,same⟩ := preadMid_content block c 0 size pos [] aligned one
    exact ⟨c',by simpa [preadBuffered,aligned] using mid,same⟩
  have first : headSize block pos size = min size (block.bytes - pos % block.bytes) := by simp [headSize,aligned]
  have part := Nat.mod_lt pos block.pos
  have whole := Nat.div_add_mod pos block.bytes
  have less := headSize_le block pos size
  have copied := memcpyFrom_content block c (pos / block.bytes) (pos % block.bytes) (headSize block pos size) (by omega)
  rw [Nat.mul_comm,whole] at copied
  by_cases rest : size - headSize block pos size = 0
  · have all : headSize block pos size = size := by omega
    refine ⟨(fsBread block c (pos / block.bytes)).2,?_,fsBread_same block c _⟩
    rw [all] at copied
    simp [preadBuffered,aligned,headSize_block,← first,all,copied]
  · obtain ⟨c',mid,same⟩ := preadMid_content block (fsBread block c (pos / block.bytes)).2 (headSize block pos size)
      (size - headSize block pos size) (pos + headSize block pos size) (slice (c.content block) pos (headSize block pos size))
      (headSize_aligned block pos size rest) one
    rw [fsBread_content] at mid
    refine ⟨c',?_,(fsBread_same block c _).trans same⟩
    have total : headSize block pos size + (size - headSize block pos size) = size := by omega
    rw [total,← slice_add,total] at mid
    simp [preadBuffered,aligned,headSize_block,← first,copied,rest,mid]

theorem preadBuffered_overrun (pos size : Nat)
    (many : 1 < (size - headSize block pos size) / block.bytes) :
    preadBuffered block c size pos = none := by
  by_cases aligned : pos % block.bytes = 0
  · have none_first : headSize block pos size = 0 := by simp [headSize,aligned]
    rw [none_first,Nat.sub_zero] at many
    simp [preadBuffered,aligned,preadMid_overrun block c 0 size pos [] many]
  · have first : headSize block pos size = min size (block.bytes - pos % block.bytes) := by
      simp [headSize,aligned]
    have rest : size - headSize block pos size ≠ 0 := by
      intro empty
      simp [empty] at many
    have inside : pos % block.bytes + headSize block pos size ≤ block.bytes := by
      have := Nat.mod_lt pos block.pos
      omega
    simp [preadBuffered,aligned,← first,memcpyFrom,inside,rest,preadMid_overrun block _ _ _ _ _ many]

theorem diskRead_content (pos size : Nat) (one : (size - headSize block pos size) / block.bytes ≤ 1) :
    ∃ c', diskRead block c pos size = some ((size : Int),slice (c.content block) pos size,c') ∧ Same block c c' := by
  obtain ⟨c',read,same⟩ := preadBuffered_content block c pos size one
  have small := request_small block pos size one
  have count : i32 (size : Int) = size := i32_small _ (by omega) (by omega)
  rw [count] at read
  exact ⟨c',by simp [diskRead,read,u64_small size (by omega)],same⟩

theorem diskRead_overrun (pos size : Nat) (many : 1 < (size - headSize block pos size) / block.bytes) :
    diskRead block c pos size = none := by
  simp [diskRead,preadBuffered_overrun block c pos size many]

end Read

/-- The cache's blocks equal the device's blocks. -/
def Coherent (c : Cache) : Prop :=
  ∀ b bh, c.buffers b = some bh → bh.uptodate = true →
    ∀ i, i < block.bytes → bh.bData i = c.device (b * block.bytes + i)

theorem coherent_content (c : Cache) (coherent : Coherent block c) : c.content block = c.device := by
  funext addr
  unfold Cache.content
  split
  · rename_i bh held
    split
    · rename_i valid
      rw [coherent _ bh held valid _ (Nat.mod_lt addr block.pos),block_position]
    · rfl
  · rfl

/-- `__disk_read` returns the device's bytes exactly when the aligned part of the
request holds at most one whole block: the middle copy takes all whole blocks
out of the buffer of the first one. -/
theorem diskRead_exact_iff (c : Cache) (coherent : Coherent block c) (pos size : Nat) :
    (∃ c', diskRead block c pos size = some ((size : Int),slice c.device pos size,c')) ↔
      (size - headSize block pos size) / block.bytes ≤ 1 := by
  constructor
  · rintro ⟨c',read⟩
    by_contra many
    rw [diskRead_overrun block c pos size (Nat.lt_of_not_le many)] at read
    cases read
  · intro one
    obtain ⟨c',read,_⟩ := diskRead_content block c pos size one
    rw [coherent_content block c coherent] at read
    exact ⟨c',read⟩

/-- A cache that holds nothing yet, in front of a device of ones. -/
def emptyCache : Cache where
  device := fun _ => 1
  heap := fun _ => 0
  buffers := fun _ => none

theorem emptyCache_coherent : Coherent block emptyCache := by
  intro b bh held
  simp [emptyCache] at held

theorem diskRead_exact_unaligned :
    ∃ c', diskRead ⟨0,by decide⟩ emptyCache 1000 1500 =
      some (1500,slice emptyCache.device 1000 1500,c') :=
  (diskRead_exact_iff ⟨0,by decide⟩ emptyCache (emptyCache_coherent _) 1000 1500).mpr (by decide)

theorem diskRead_two_blocks :
    Coherent ⟨0,by decide⟩ emptyCache ∧
      ¬ ∃ c', diskRead ⟨0,by decide⟩ emptyCache 0 2048 =
        some (2048,slice emptyCache.device 0 2048,c') := by
  refine ⟨emptyCache_coherent _,?_⟩
  rintro ⟨c',read⟩
  rw [diskRead_overrun ⟨0,by decide⟩ emptyCache 0 2048 (by decide)] at read
  cases read

/-! Writing. -/

/-- The bytes `p` at `pos` have reached the cache: nothing else changed, the
blocks they touch are dirty and no other block became so. -/
def Stored (c c' : Cache) (pos : Nat) (p : List UInt8) : Prop :=
  c'.content block = overlay (c.content block) pos p ∧
    ∀ b, c'.dirty b ↔ c.dirty b ∨ ∃ i, i < p.length ∧ (pos + i) / block.bytes = b

/-- Storing a dirty buffer whose data is the block's content with `p` laid over
it stores exactly `p`, when `p` stays inside the block and is not empty. -/
theorem set_stored (c : Cache) (b offset : Nat) (p : List UInt8) (bh : BufferHead)
    (inside : offset + p.length ≤ block.bytes) (some_byte : p ≠ [])
    (data : ∀ i, i < block.bytes →
      bh.bData i = overlay (fun j => c.content block (b * block.bytes + j)) offset p i) :
    Stored block c (c.set b (fsMarkBufferDirty bh)) (b * block.bytes + offset) p := by
  constructor
  · funext addr
    by_cases same : addr / block.bytes = b
    · have place := block_position block addr
      rw [same] at place
      have bound := Nat.mod_lt addr block.pos
      have held : (c.set b (fsMarkBufferDirty bh)).content block addr = bh.bData (addr % block.bytes) := by
        simp [Cache.content,Cache.set,same,fsMarkBufferDirty]
      rw [held,data _ bound,overlay_shift,place]
    · rw [content_other block c b addr _ same]
      by_cases before : addr < b * block.bytes + offset
      · rw [overlay_before _ _ _ _ before]
      · rw [overlay_after]
        have later : b < addr / block.bytes := by
          have low : b ≤ addr / block.bytes := (Nat.le_div_iff_mul_le block.pos).mpr (by omega)
          omega
        have := (Nat.le_div_iff_mul_le block.pos).mp (Nat.succ_le_of_lt later)
        rw [Nat.succ_mul] at this
        omega
  · intro b'
    have first : (b * block.bytes + offset) / block.bytes = b := by
      have short : offset < block.bytes := by
        have := List.length_pos_iff.mpr some_byte
        omega
      rw [Nat.mul_comm,Nat.mul_add_div block.pos,Nat.div_eq_of_lt short,Nat.add_zero]
    by_cases same : b' = b
    · subst same
      refine iff_of_true ⟨fsMarkBufferDirty bh,by simp [Cache.set],rfl⟩ (.inr ⟨0,?_,?_⟩)
      · exact List.length_pos_iff.mpr some_byte
      · exact first
    · have untouched : (c.set b (fsMarkBufferDirty bh)).dirty b' ↔ c.dirty b' := by
        simp [Cache.dirty,Cache.set,same]
      rw [untouched]
      refine ⟨.inl,?_⟩
      rintro (before | ⟨i,bound,touched⟩)
      · exact before
      · exfalso
        rw [Nat.add_assoc,Nat.mul_comm,Nat.mul_add_div block.pos,
          Nat.div_eq_of_lt (by omega : offset + i < block.bytes),Nat.add_zero] at touched
        exact same touched.symm

theorem Stored.trans {c c' c'' : Cache} {pos : Nat} {first second : List UInt8}
    (head : Stored block c c' pos first) (tail : Stored block c' c'' (pos + first.length) second) :
    Stored block c c'' pos (first ++ second) := by
  constructor
  · rw [tail.1,head.1,overlay_append]
  · intro b
    rw [tail.2,head.2,or_assoc]
    apply or_congr_right
    constructor
    · rintro (⟨i,bound,touched⟩ | ⟨i,bound,touched⟩)
      · exact ⟨i,by rw [List.length_append]; omega,touched⟩
      · exact ⟨first.length + i,by rw [List.length_append]; omega,by rw [← Nat.add_assoc]; exact touched⟩
    · rintro ⟨i,bound,touched⟩
      rw [List.length_append] at bound
      by_cases early : i < first.length
      · exact .inl ⟨i,early,touched⟩
      · refine .inr ⟨i - first.length,by omega,?_⟩
        rw [← touched]
        congr 1
        omega

theorem Stored.refl (c : Cache) (pos : Nat) : Stored block c c pos [] := by
  constructor
  · rw [overlay_nil]
  · simp

theorem set_set (c : Cache) (b : Nat) (before after : BufferHead) :
    (c.set b before).set b after = c.set b after := by
  simp only [Cache.set]
  congr 1
  funext i
  split <;> rfl

theorem overlay_base (base other : Nat → UInt8) (offset : Nat) (p : List UInt8) (i : Nat)
    (same : base i = other i) : overlay base offset p i = overlay other offset p i := by
  simp [overlay,same]

/-- Read-modify-write of a part of one block, as the head and the tail do it. -/
theorem read_modify_stored (c : Cache) (b offset : Nat) (p : List UInt8)
    (inside : offset + p.length ≤ block.bytes) (some_byte : p ≠ []) :
    ∃ bh, memcpyTo block (fsBread block c b).1 offset p = some bh ∧
      Stored block c ((fsBread block c b).2.set b (fsMarkBufferDirty bh)) (b * block.bytes + offset) p := by
  refine ⟨_,if_pos inside,?_⟩
  rw [fsBread,set_set]
  apply set_stored block c b offset p _ inside some_byte
  intro i bound
  exact overlay_base _ _ _ _ _ (content_block block c b i bound).symm

/-- Overwriting one whole block without reading it, as the middle does it. -/
theorem overwrite_stored (c : Cache) (b : Nat) (p : List UInt8) (whole : p.length = block.bytes) :
    ∃ bh, memcpyTo block (fsBwrite c b).1 0 p = some bh ∧
      Stored block c ((fsBwrite c b).2.set b (fsMarkBufferDirty bh)) (b * block.bytes) p := by
  have some_byte : p ≠ [] := by
    intro empty
    have := block.pos
    simp [empty] at whole
    omega
  refine ⟨_,if_pos (by omega),?_⟩
  rw [fsBwrite,set_set]
  apply set_stored block c b 0 p _ (by omega) some_byte
  intro i bound
  have covered : i < p.length := by omega
  have left := overlay_inside (getblk c b).bData 0 p i covered
  have right := overlay_inside (fun j => c.content block (b * block.bytes + j)) 0 p i covered
  rw [Nat.zero_add] at left right
  exact left.trans right.symm

theorem pwriteTail_stored (c : Cache) (ret pos : Nat) (p : List UInt8) (some_byte : p ≠ [])
    (aligned : pos % block.bytes = 0) (short : p.length < block.bytes) :
    ∃ c', pwriteTail block c ret pos p = some (i32 (ret + p.length : Nat),c') ∧ Stored block c c' pos p := by
  obtain ⟨bh,copied,stored⟩ := read_modify_stored block c (pos / block.bytes) 0 p (by omega) some_byte
  rw [Nat.add_zero,aligned_block block pos aligned] at stored
  exact ⟨_,by simp [pwriteTail,copied],stored⟩

theorem pwriteMid_stored (c : Cache) (ret pos : Nat) (p : List UInt8) (some_byte : p ≠ [])
    (aligned : pos % block.bytes = 0) (one : p.length / block.bytes ≤ 1) :
    ∃ c', pwriteMid block c ret pos p = some (i32 (ret + p.length : Nat),c') ∧ Stored block c c' pos p := by
  have positive := block.pos
  by_cases none_whole : p.length / block.bytes = 0
  · obtain ⟨c',tail,stored⟩ := pwriteTail_stored block c ret pos p some_byte aligned
      ((Nat.div_eq_zero_iff_lt positive).mp none_whole)
    exact ⟨c',by simpa [pwriteMid,none_whole] using tail,stored⟩
  · have whole : p.length / block.bytes = 1 :=
      Nat.le_antisymm one (Nat.one_le_iff_ne_zero.mpr none_whole)
    have parts := Nat.div_add_mod p.length block.bytes
    have part := Nat.mod_lt p.length positive
    rw [whole] at parts
    have taken : (p.take block.bytes).length = block.bytes := by rw [List.length_take]; omega
    obtain ⟨bh,copied,first⟩ := overwrite_stored block c (pos / block.bytes) (p.take block.bytes) taken
    rw [aligned_block block pos aligned] at first
    by_cases rest : p.length - block.bytes = 0
    · have all : p.take block.bytes = p := List.take_of_length_le (by omega)
      have count : p.length = block.bytes := by omega
      refine ⟨_,?_,all ▸ first⟩
      simp [pwriteMid,Nat.ne_of_gt positive,copied,count,Nat.div_self positive]
    · have left : (p.drop block.bytes).length = p.length - block.bytes := List.length_drop
      obtain ⟨c',tail,second⟩ := pwriteTail_stored block
        ((fsBwrite c (pos / block.bytes)).2.set (pos / block.bytes) (fsMarkBufferDirty bh))
        (ret + block.bytes) (pos + block.bytes) (p.drop block.bytes)
        (by intro empty; rw [empty] at left; exact rest left.symm) (by simpa using aligned) (by omega)
      have total : ret + block.bytes + (p.drop block.bytes).length = ret + p.length := by omega
      rw [total] at tail
      refine ⟨c',by simp [pwriteMid,whole,Nat.ne_of_gt positive,copied,rest,tail],?_⟩
      have joined := first.trans block (by rw [taken]; exact second)
      rwa [List.take_append_drop] at joined

theorem pwriteMid_overrun (c : Cache) (ret pos : Nat) (p : List UInt8)
    (many : 1 < p.length / block.bytes) : pwriteMid block c ret pos p = none := by
  have positive := block.pos
  have past := Nat.mul_lt_mul_of_pos_right many positive
  have inside := Nat.div_mul_le_self p.length block.bytes
  have taken : (p.take (p.length / block.bytes * block.bytes)).length =
      p.length / block.bytes * block.bytes := by
    rw [List.length_take]
    omega
  have some_whole : p.length / block.bytes * block.bytes ≠ 0 := by omega
  have outside : ¬ 0 + (p.take (p.length / block.bytes * block.bytes)).length ≤ block.bytes := by omega
  simp only [pwriteMid,ne_eq,some_whole,not_false_eq_true,if_true,memcpyTo,outside,if_false]
  rfl

theorem pwriteBuffered_stored (c : Cache) (pos : Nat) (p : List UInt8) (some_byte : p ≠ [])
    (one : (p.length - headSize block pos p.length) / block.bytes ≤ 1) :
    ∃ c', pwriteBuffered block c p pos = some (i32 p.length,c') ∧ Stored block c c' pos p := by
  by_cases aligned : pos % block.bytes = 0
  · have none_first : headSize block pos p.length = 0 := by simp [headSize,aligned]
    rw [none_first,Nat.sub_zero] at one
    obtain ⟨c',mid,stored⟩ := pwriteMid_stored block c 0 pos p some_byte aligned one
    exact ⟨c',by simpa [pwriteBuffered,aligned] using mid,stored⟩
  · have first : headSize block pos p.length = min p.length (block.bytes - pos % block.bytes) := by
      simp [headSize,aligned]
    have positive := List.length_pos_iff.mpr some_byte
    have part := Nat.mod_lt pos block.pos
    have bound := headSize_le block pos p.length
    have taken : (p.take (headSize block pos p.length)).length = headSize block pos p.length := by
      rw [List.length_take]
      omega
    obtain ⟨bh,copied,head⟩ := read_modify_stored block c (pos / block.bytes) (pos % block.bytes)
      (p.take (headSize block pos p.length)) (by omega)
      (by intro empty; rw [empty,List.length_nil] at taken; omega)
    rw [block_position block pos] at head
    by_cases rest : p.length - headSize block pos p.length = 0
    · have count : headSize block pos p.length = p.length := by omega
      have all : p.take (headSize block pos p.length) = p := List.take_of_length_le (by omega)
      refine ⟨_,?_,all ▸ head⟩
      rw [all] at copied
      simp [pwriteBuffered,aligned,headSize_block,← first,count,copied]
    · have left : (p.drop (headSize block pos p.length)).length =
          p.length - headSize block pos p.length := List.length_drop
      obtain ⟨c',mid,stored⟩ := pwriteMid_stored block
        ((fsBread block c (pos / block.bytes)).2.set (pos / block.bytes) (fsMarkBufferDirty bh))
        (headSize block pos p.length) (pos + headSize block pos p.length)
        (p.drop (headSize block pos p.length))
        (by intro empty; rw [empty] at left; exact rest left.symm)
        (headSize_aligned block pos p.length rest) (by rw [left]; exact one)
      have total : headSize block pos p.length + (p.drop (headSize block pos p.length)).length =
          p.length := by omega
      rw [total] at mid
      refine ⟨c',by simp [pwriteBuffered,aligned,headSize_block,← first,copied,rest,mid],?_⟩
      have joined := head.trans block (by rw [taken]; exact stored)
      rwa [List.take_append_drop] at joined

theorem pwriteBuffered_overrun (c : Cache) (pos : Nat) (p : List UInt8)
    (many : 1 < (p.length - headSize block pos p.length) / block.bytes) :
    pwriteBuffered block c p pos = none := by
  by_cases aligned : pos % block.bytes = 0
  · have none_first : headSize block pos p.length = 0 := by simp [headSize,aligned]
    rw [none_first,Nat.sub_zero] at many
    simp [pwriteBuffered,aligned,pwriteMid_overrun block c 0 pos p many]
  · have first : headSize block pos p.length = min p.length (block.bytes - pos % block.bytes) := by
      simp [headSize,aligned]
    have rest : p.length - headSize block pos p.length ≠ 0 := by
      intro empty
      simp [empty] at many
    have part := Nat.mod_lt pos block.pos
    have taken : (p.take (headSize block pos p.length)).length = headSize block pos p.length := by
      rw [List.length_take]
      omega
    have some_byte : p.take (headSize block pos p.length) ≠ [] := by
      intro empty
      have head : 0 < headSize block pos p.length := by
        have := Nat.pos_of_ne_zero rest
        omega
      rw [empty,List.length_nil] at taken
      omega
    obtain ⟨bh,copied,_⟩ := read_modify_stored block c (pos / block.bytes) (pos % block.bytes)
      (p.take (headSize block pos p.length)) (by omega) some_byte
    have left : (p.drop (headSize block pos p.length)).length =
        p.length - headSize block pos p.length := List.length_drop
    simp [pwriteBuffered,aligned,headSize_block,← first,copied,rest,
      pwriteMid_overrun block _ _ _ _ (left ▸ many)]

theorem diskWrite_stored (c : Cache) (pos : Nat) (p : List UInt8) (some_byte : p ≠ [])
    (one : (p.length - headSize block pos p.length) / block.bytes ≤ 1) :
    ∃ c', diskWrite block c pos p = some ((p.length : Int),c') ∧ Stored block c c' pos p := by
  obtain ⟨c',written,stored⟩ := pwriteBuffered_stored block c pos p some_byte one
  have small := request_small block pos p.length one
  have count : i32 (p.length : Int) = p.length := i32_small _ (by omega) (by omega)
  rw [count] at written
  exact ⟨c',by simp [diskWrite,written,u64_small p.length (by omega)],stored⟩

theorem diskWrite_overrun (c : Cache) (pos : Nat) (p : List UInt8)
    (many : 1 < (p.length - headSize block pos p.length) / block.bytes) : diskWrite block c pos p = none := by
  simp [diskWrite,pwriteBuffered_overrun block c pos p many]

/-- `__disk_write` stores exactly its bytes in the cache, and dirties exactly the
blocks they touch, when the aligned part of the request holds at most one whole
block; with more the middle copy runs past the buffer of the first one. -/
theorem diskWrite_stores_iff (c : Cache) (pos : Nat) (p : List UInt8) (some_byte : 0 < p.length) :
    (∃ c', diskWrite block c pos p = some ((p.length : Int),c') ∧ Stored block c c' pos p) ↔
      (p.length - headSize block pos p.length) / block.bytes ≤ 1 := by
  constructor
  · rintro ⟨c',written,_⟩
    by_contra many
    rw [diskWrite_overrun block c pos p (Nat.lt_of_not_le many)] at written
    cases written
  · exact diskWrite_stored block c pos p (List.length_pos_iff.mp some_byte)

/-- A source buffer of `count` sevens. -/
def sevens (count : Nat) : List UInt8 := slice (fun _ => 7) 0 count

theorem sevens_length (count : Nat) : (sevens count).length = count := slice_length _ _ _

theorem diskWrite_stores_unaligned :
    ∃ c', diskWrite ⟨0,by decide⟩ emptyCache 1000 (sevens 1500) = some (((sevens 1500).length : Int),c') ∧
      Stored ⟨0,by decide⟩ emptyCache c' 1000 (sevens 1500) :=
  (diskWrite_stores_iff ⟨0,by decide⟩ emptyCache 1000 (sevens 1500)
    (by rw [sevens_length]; decide)).mpr (by rw [sevens_length]; decide)

theorem diskWrite_two_blocks :
    0 < (sevens 2048).length ∧
      ¬ ∃ c', diskWrite ⟨0,by decide⟩ emptyCache 0 (sevens 2048) = some (((sevens 2048).length : Int),c') ∧
        Stored ⟨0,by decide⟩ emptyCache c' 0 (sevens 2048) := by
  refine ⟨by rw [sevens_length]; decide,?_⟩
  rintro ⟨c',written,_⟩
  rw [diskWrite_overrun ⟨0,by decide⟩ emptyCache 0 (sevens 2048) (by rw [sevens_length]; decide)] at written
  cases written

end Ext4Fuse.Disk
