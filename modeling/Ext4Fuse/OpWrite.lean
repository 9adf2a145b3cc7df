import Ext4Fuse.Extents.Steady
import Ext4Fuse.OpRead

/-! `op_write`. A failed assertion has no result, nor has a copy longer than the caller's buffer or
past the buffer it goes to. -/
namespace Ext4Fuse.OpWrite
open Machine Ext4Fuse.Types Super Extents Library.Bytes Library.Partial DiskAccess FileContent OpRead

def inodeGet (ino : UInt32) (rawInode : RawInode) : Inode := ⟨ino,false,rawInode⟩

def inodeSetSize (inode : Inode) (size : Nat) : Inode :=
  inodeMarkDirty {inode with rawInode := {inode.rawInode with
    iSizeLo := UInt32.ofNat size
    iSizeHigh := UInt32.ofNat (size / 2^32)}}

/-- The inode on the disk after `inode_put`. -/
def inodePut (inode : Inode) (stored : RawInode) : RawInode :=
  if inode.iDataDirty && inode.iIno != 0 then inode.rawInode else stored

section Code
variable {σ : Type} (access : Access σ)

/-- `first_write`: how many bytes of the buffer it writes. -/
def firstWrite (s : State) (disk : σ) (buf : List UInt8) (offset : Nat) : Option (State × σ × Nat) :=
  let blockSize := superBlockSize s.volume.superBlock
  let startBlockOff := offset % blockSize
  if buf.length = 0 then some (s,disk,0)
  else if startBlockOff = 0 then some (s,disk,0)
  else do
    let (s,startPblock,_) ← inodeGetDataPblock s (u32 (offset / blockSize : Nat)) none true
    let size := firstSize blockSize buf.length offset
    let disk ← access.write disk (startPblock * blockSize + startBlockOff) (buf.take size)
    if size ≤ buf.length then some (s,disk,size) else none

/-- What a round of the loop of `op_write` writes for one lookup, and how much of the buffer. -/
def writePiece (disk : σ) (blockSize pblock extentLen : Nat) (buf : List UInt8) : Option (σ × Nat) := do
  let writeCtx ← diskCtxCreate (pblock * blockSize) blockSize extentLen
  let (_,bytes,disk) ← diskCtxWrite access disk writeCtx buf
  return (disk,bytes)

/-- The loop of `op_write` with what is left of the buffer. Every round writes a byte. -/
def writeLoop (create : Bool) : Nat → Nat → State → σ → List UInt8 → Option (State × σ × List UInt8)
  | 0, _, _, _, _ => none
  | rounds+1, lblock, s, disk, buf =>
    if buf = [] then some (s,disk,[])
    else do
      let blockSize := superBlockSize s.volume.superBlock
      let extentLen := u32 (u64 (buf.length + blockSize - 1 : Int) / blockSize : Nat)
      let (s,pblock,extentLen) ← inodeGetDataPblock s lblock (some extentLen) create
      if pblock = 0 then some (s,disk,buf)
      else do
        let (disk,bytes) ← writePiece access disk blockSize pblock extentLen buf
        writeLoop create rounds (u32 (lblock + extentLen : Nat)) s disk (buf.drop bytes)

/-- The end of `op_write`, from `orig_size` on. -/
def writeSize (origSize : Nat) (inode : Inode) (stop : Nat) : Inode :=
  if origSize < stop then inodeSetSize inode stop else inode

/-- `op_write` with the inode on the disk in `s`: what it leaves there, the disk, and what it
returns. `offset` has moved by the first piece when the size is stored. -/
def opWrite (s : State) (disk : σ) (buf : List UInt8) (offset : Nat) : Option (State × σ × Int) :=
  let stored := s.inode.rawInode
  if s.inode.iIno = 0 then some (s,disk,-2)
  else do
    let origSize := inodeGetSize s.inode
    let (s,disk,first) ← firstWrite access {s with inode := inodeGet s.inode.iIno stored} disk buf offset
    let offset := u64 (offset + first : Nat)
    let lblock := u32 (offset / superBlockSize s.volume.superBlock : Nat)
    let (s,disk,left) ← writeLoop access (s.inode.iIno != 0) (buf.length + 1) lblock s disk (buf.drop first)
    let ret := buf.length - left.length
    let inode := writeSize origSize s.inode (u64 (offset + ret : Nat))
    if left = [] then some ({s with inode := {inode with rawInode := inodePut inode stored}},disk,i32 ret) else none

end Code

section Access
variable {σ : Type} {access : Access σ} {disk disk' : σ} {offset : Nat}

theorem firstSize_length {blockSize size k : Nat} (power : blockSize = 2^k) (bits : k ≤ 16) (place : offset < 2^63)
    (unaligned : offset % blockSize ≠ 0) (some_ : size ≠ 0) (short : min (firstSize blockSize size offset) size < 2^31)
    (enough : firstSize blockSize size offset ≤ size) :
    firstSize blockSize size offset = firstLength blockSize size offset := by
  have positive : 0 < blockSize := power ▸ Nat.two_pow_pos k
  have within := @endLblock_same _ _ offset positive some_
  rw [firstLength,if_neg unaligned]
  unfold firstSize at *
  rcases Classical.em (u32 (offset / blockSize : Nat) = u32 (u64 (offset + u64 (size - 1 : Int) : Nat) / blockSize : Nat))
    with same | differ
  · rw [if_pos same] at short ⊢
    have inside := (within (by omega) place).mp same
    omega
  · rw [if_neg differ] at short enough ⊢
    rcases Nat.lt_or_ge offset (2^32) with low | high
    · rw [align_rest_low power bits low unaligned] at enough ⊢
      omega
    · have long := align_rest_high power bits high place unaligned
      omega

/-- What is written fits. -/
theorem write_fits {pos : Nat} {p : List UInt8} (written : access.write disk pos p = some disk') : access.fits pos p.length := by
  by_contra unfit
  rw [access.unwritten disk unfit] at written
  cases written

end Access

section Size
variable {σ : Type} {access : Access σ} {s s' : State} {disk disk' : σ} {buf : List UInt8} {offset : Nat}

/-- The first piece ends with the request or with its first block. -/
theorem firstWrite_first (small : s.volume.superBlock.sLogBlockSize.toNat ≤ 6) (disk : σ) (buf : List UInt8)
    (place : offset < 2^63) : Ensures (firstWrite access s disk buf offset) fun r =>
      Steady s r.1 ∧ r.2.2 = firstLength (superBlockSize s.volume.superBlock) buf.length offset := by
  have bits : superBlockSizeBits s.volume.superBlock ≤ 16 := by
    unfold superBlockSizeBits
    omega
  unfold firstWrite
  refine ensures_ite (fun nothing => ensures_some ⟨Steady.refl s,?_⟩) fun some_ => ?_
  · rw [nothing,firstLength,Nat.zero_min]
    split <;> rfl
  · refine ensures_ite (fun aligned => ensures_some ⟨Steady.refl s,(if_pos aligned).symm⟩) fun unaligned => ?_
    refine (inodeGetDataPblock_steady _ _ _ _).bind fun looked steady => ?_
    obtain ⟨s₁,pblock,len⟩ := looked
    intro r written
    obtain ⟨disk₁,stored,written⟩ := Option.bind_eq_some_iff.mp written
    have short := access.short (write_fits stored)
    rw [List.length_take] at short
    obtain ⟨enough,same⟩ := Option.ite_none_right_eq_some.mp written
    obtain rfl := Option.some.inj same
    exact ⟨steady,firstSize_length (superBlockSize_eq small) bits place unaligned some_ short enough⟩

theorem writeLoop_steady (create : Bool) (rounds lblock : Nat) (s : State) (disk : σ) (buf : List UInt8) :
    Ensures (writeLoop access create rounds lblock s disk buf) fun r => Steady s r.1 := by
  induction rounds generalizing lblock s disk buf with
  | zero => exact ensures_none
  | succ rounds ih =>
    rw [writeLoop]
    refine ensures_ite (fun _ => ensures_some (Steady.refl s)) fun _ => ?_
    refine (inodeGetDataPblock_steady _ _ _ _).bind fun (s₁,pblock,len) steady => ?_
    refine ensures_ite (fun _ => ensures_some steady) fun _ => (ensures_any _).bind fun (disk₁,bytes) _ => ?_
    exact (ih _ _ _ _).imp fun r rest => steady.trans rest

theorem inodeGetSize_set (inode : Inode) {size : Nat} (bound : size < 2^64) : inodeGetSize (inodeSetSize inode size) = size := by
  have low : (UInt32.ofNat size).toNat = size % 2^32 := UInt32.toNat_ofNat'
  have high : (UInt32.ofNat (size / 2^32)).toNat = size / 2^32 % 2^32 := UInt32.toNat_ofNat'
  show (UInt32.ofNat (size / 2^32)).toNat * 2^32 + (UInt32.ofNat size).toNat = size
  rw [low,high]
  omega

/-- What the disk holds after `inode_put`: the larger one of the old size and the end that is stored. -/
theorem inodePut_size {inode : Inode} {stored : RawInode} {origSize stop : Nat} (ino : inode.iIno ≠ 0) (bound : stop < 2^64)
    (old : inodeGetSize {inode with rawInode := stored} = origSize) (same : inodeGetSize inode = origSize) :
    inodeGetSize {writeSize origSize inode stop with rawInode := inodePut (writeSize origSize inode stop) stored} =
      max origSize stop := by
  unfold writeSize inodePut
  split
  · rename_i grows
    have dirty : ((inodeSetSize inode stop).iDataDirty && (inodeSetSize inode stop).iIno != 0) = true := bne_iff_ne.mpr ino
    rw [if_pos dirty,Nat.max_eq_right (Nat.le_of_lt grows)]
    exact inodeGetSize_set inode bound
  · rename_i kept
    rw [Nat.max_eq_left (Nat.le_of_not_lt kept)]
    split
    · exact same
    · exact old

theorem u64_lt (x : Int) : u64 x < 2^64 := by
  unfold u64
  omega

theorem u64_add (a b : Nat) : u64 (u64 (a : Int) + b : Nat) = u64 (a + b : Nat) := by
  unfold u64
  omega

/-- What a write returns, and the size of the file on the disk. -/
theorem opWrite_result (small : s.volume.superBlock.sLogBlockSize.toNat ≤ 6) (disk : σ) (buf : List UInt8)
    (place : offset < 2^63) : Ensures (opWrite access s disk buf offset) fun (s',_,n) => n < 0 ∨
      n = i32 buf.length ∧ inodeGetSize s'.inode = max (inodeGetSize s.inode)
        (u64 (offset + firstLength (superBlockSize s.volume.superBlock) buf.length offset + buf.length : Nat)) := by
  unfold opWrite
  refine ensures_ite (fun _ => ensures_some (Or.inl (by decide))) fun ino => ?_
  refine (firstWrite_first (s := {s with inode := inodeGet s.inode.iIno s.inode.rawInode}) small disk buf place).bind ?_
  intro (s₁,disk₁,first) ⟨steady,length⟩
  refine (writeLoop_steady _ _ _ _ _ _).bind fun (s₂,disk₂,left) rest => ?_
  refine ensures_ite (fun done => ensures_some (Or.inr ⟨?_,?_⟩)) fun _ => ensures_none
  · rw [done]
    rfl
  · have whole := steady.trans rest
    have size := @inodePut_size s₂.inode s.inode.rawInode (inodeGetSize s.inode)
      (u64 (u64 (offset + first : Nat) + buf.length : Nat)) (by rw [whole.ino]; exact ino)
      (u64_lt _) rfl whole.size
    rw [done,List.length_nil,Nat.sub_zero]
    refine size.trans (congrArg (max _) ?_)
    rw [show first = firstLength (superBlockSize s.volume.superBlock) buf.length offset from length,u64_add]

/-- Where the end that `op_write` stores does not lie behind the write's own end, or the file was longer already. -/
def endsRight (s : State) (size offset : Nat) : Prop :=
  let blockSize := superBlockSize s.volume.superBlock
  offset % blockSize = 0 ∧ size < 2^31 ∨
    u64 (offset + firstLength blockSize size offset + size : Nat) ≤ inodeGetSize s.inode ∧ offset + i32 size ≤ inodeGetSize s.inode

/-- The stored end is the write's own exactly when no first piece is counted twice and the count fits an `int`. -/
theorem end_exact_iff {size first : Nat} (request : size < 2^64) (place : offset < 2^63) (bounded : first ≤ 65536)
    (positive : 0 < i32 size) : (u64 (offset + first + size : Nat) : Int) = offset + i32 size ↔ first = 0 ∧ size < 2^31 := by
  have code : i32 size = size % 2^32 := by
    unfold i32 at positive ⊢
    rw [Int.bmod_def] at positive ⊢
    omega
  have short := i32_lt size
  rw [code] at *
  unfold u64
  omega

theorem max_eq_iff {old stop : Nat} {own : Int} :
    ((max old stop : Nat) : Int) = max (old : Int) own ↔ (stop : Int) = own ∨ stop ≤ old ∧ own ≤ old := by
  omega

theorem opWrite_size_iff {n : Int} (small : s.volume.superBlock.sLogBlockSize.toNat ≤ 6) (request : buf.length < 2^64)
    (place : offset < 2^63) (returned : opWrite access s disk buf offset = some (s',disk',n)) (positive : 0 < n) :
    (inodeGetSize s'.inode : Int) = max (inodeGetSize s.inode : Int) (offset + n) ↔ endsRight s buf.length offset := by
  have least := superBlockSize_ge small
  have most := superBlockSize_le small
  obtain ⟨code,size⟩ := (opWrite_result small disk buf place _ returned).resolve_left (by omega)
  have some_ : 0 < buf.length := by
    rcases Nat.eq_zero_or_pos buf.length with nothing | some_
    · rw [code,nothing] at positive
      exact absurd positive (by decide)
    · exact some_
  have first : firstLength (superBlockSize s.volume.superBlock) buf.length offset ≤ superBlockSize s.volume.superBlock ∧
      (firstLength (superBlockSize s.volume.superBlock) buf.length offset = 0 ↔ offset % superBlockSize s.volume.superBlock = 0) := by
    have off := Nat.mod_lt offset (show 0 < superBlockSize s.volume.superBlock by omega)
    unfold firstLength
    split <;> omega
  rw [size,code,endsRight]
  have exact_ := end_exact_iff request place (Nat.le_trans first.1 most) (code ▸ positive)
  rw [first.2] at exact_
  generalize superBlockSize s.volume.superBlock = blockSize at *
  generalize u64 (offset + firstLength blockSize buf.length offset + buf.length : Nat) = stop at *
  rw [← exact_]
  exact max_eq_iff

end Size

/-- A file of no bytes whose second block is mapped. -/
def emptyFile : State := {sparseFile with inode := inodeSetSize sparseFile.inode 0}

theorem opWrite_size_aligned : ∃ s' c' n, opWrite (buffered ⟨0,by decide⟩) emptyFile Disk.emptyCache [1,2,3,4] 1024 = some (s',c',n) ∧
    0 < n ∧ (inodeGetSize s'.inode : Int) = max (inodeGetSize emptyFile.inode : Int) ((1024 : Nat) + n) := by
  have run : (opWrite (buffered ⟨0,by decide⟩) emptyFile Disk.emptyCache [1,2,3,4] 1024).map (fun r => r.2.2) = some 4 := by decide
  obtain ⟨⟨s',c',n⟩,returned,(rfl : n = 4)⟩ := Option.map_eq_some_iff.mp run
  refine ⟨s',c',4,returned,by decide,?_⟩
  exact (opWrite_size_iff (by decide) (by decide) (by decide) returned (by decide)).mpr (Or.inl ⟨by decide,by decide⟩)

/-- Four bytes at offset 1034 of an empty file: the size becomes 1042. -/
theorem opWrite_size_unaligned : ¬∀ s' c' n, opWrite (buffered ⟨0,by decide⟩) emptyFile Disk.emptyCache [1,2,3,4] 1034 = some (s',c',n) →
    0 < n → (inodeGetSize s'.inode : Int) = max (inodeGetSize emptyFile.inode : Int) ((1034 : Nat) + n) := by
  intro all
  have run : (opWrite (buffered ⟨0,by decide⟩) emptyFile Disk.emptyCache [1,2,3,4] 1034).map
      (fun r => (r.2.2,inodeGetSize r.1.inode)) = some (4,1042) := by decide
  obtain ⟨⟨s',c',n⟩,returned,both⟩ := Option.map_eq_some_iff.mp run
  obtain ⟨rfl,size⟩ := Prod.mk.inj both
  have claimed := all s' c' _ returned (by decide)
  rw [size,show inodeGetSize emptyFile.inode = 0 by decide] at claimed
  exact absurd claimed (by decide)

end Ext4Fuse.OpWrite
