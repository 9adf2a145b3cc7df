import Ext4Fuse.OpWrite
import Mathlib.Logic.Relation

/-! What `op_read` and `op_write` make of a lookup that fails: its error is dropped, and
what is left is physical block 0, as for a hole. -/
namespace Ext4Fuse.LookupErrors
open Machine Ext4Fuse.Types Super Extents Library.Partial DiskAccess FileContent OpRead OpWrite

/-- The walk to a logical block ends at a bad node. -/
def walkFails (s : State) (lblock : Nat) : Prop := ∃ s' err, ext4FindExtent s (u32 lblock) none = (s',.error err)

theorem inodeGetDataPblock_walk {s : State} {lblock : Nat} (fails : walkFails s lblock) (extentLen : Option Nat)
    (create : Bool) : ∃ s', inodeGetDataPblock s lblock extentLen create = some (s',0,0) := by
  obtain ⟨s',err,failed⟩ := fails
  refine ⟨s',?_⟩
  simp only [inodeGetDataPblock,extentGetPblockNew,ext4ExtGetBlocks,failed,Option.bind_eq_bind,Option.bind_some]
  cases err <;> rfl

section Read
variable {σ : Type} (access : Access σ) {s : State} (disk : σ) {size offset : Nat}

/-- `first_read` then reads block 0. -/
theorem firstRead_walk (some_ : size ≠ 0) (unaligned : offset % superBlockSize s.volume.superBlock ≠ 0)
    (fails : walkFails s (u32 (offset / superBlockSize s.volume.superBlock : Nat))) :
    ∃ s', firstRead access s disk size offset = (access.read disk (offset % superBlockSize s.volume.superBlock)
      (firstSize (superBlockSize s.volume.superBlock) size offset)).map fun r => (s',r.2,r.1) := by
  obtain ⟨s',found⟩ := inodeGetDataPblock_walk fails none false
  refine ⟨s',?_⟩
  rw [firstRead_unaligned rfl some_ unaligned found,Nat.zero_mul,Nat.zero_add]

/-- A round of the loop then stores a block of zeros, and the next one looks up the same block. -/
theorem readLoop_walk {lblock : Nat} (bound : lblock < 2^32) (fails : walkFails s lblock) {stored : List UInt8}
    (more : stored.length < size) (rounds : Nat) : ∃ s', readLoop access size (rounds + 1) lblock s disk stored =
      readLoop access size rounds lblock s' disk (stored ++ List.replicate (superBlockSize s.volume.superBlock) 0) := by
  obtain ⟨s',found⟩ := inodeGetDataPblock_walk fails (some 1) false
  refine ⟨s',?_⟩
  rw [readLoop_more rounds more found,storePiece,if_pos rfl,Option.bind_some,Nat.add_zero,u32_small lblock bound]

/-- The lookup of a block of the request, cut at the end of the file, fails. -/
def requestFails (s : State) (size offset : Nat) : Prop :=
  ∃ k, offset ≤ k ∧ k < offset + truncateSize s.inode size offset ∧ walkFails s (k / superBlockSize s.volume.superBlock)

/-- The failure of a lookup is returned as a negative `int`. -/
def ReportsFailure (s : State) (size offset : Nat) : Prop :=
  requestFails s size offset → ∃ s' disk' bytes, opRead access s disk size offset = some (s',disk',bytes) ∧ i32 bytes.length < 0

/-- No failure is reported. -/
theorem opRead_reports_iff (s : State) (request : truncateSize s.inode size offset < 2^31) :
    ReportsFailure access disk s size offset ↔ ¬requestFails s size offset := by
  refine ⟨fun reports fails => ?_,fun works fails => absurd fails works⟩
  obtain ⟨s',disk',bytes,returned,negative⟩ := reports fails
  rw [opRead_length returned,i32_small _ (by omega) (by omega)] at negative
  omega

/-- No lookup fails in a well-formed tree. -/
theorem requestFails_tree {d : Nat} {t : Tree d} (tree : HasTree s d t) : ¬requestFails s size offset := by
  rintro ⟨k,_,_,s',err,failed⟩
  obtain ⟨s₁,path,found,_⟩ := ext4FindExtent_found tree (u32 (k / superBlockSize s.volume.superBlock : Nat)) none
  rw [failed] at found
  nomatch (Prod.mk.inj found).2

theorem opRead_reports_leafFile : ReportsFailure (buffered ⟨0,by decide⟩) Disk.emptyCache leafFile 2048 3072 :=
  (opRead_reports_iff (buffered ⟨0,by decide⟩) Disk.emptyCache leafFile (by decide)).mpr (requestFails_tree leafFile_tree)

/-- `leafFile` with a leaf that has lost its header. -/
def badLeaf : State := {leafFile with node := fun _ => ⟨0,2,84,0,fun i => if i = 0 then ⟨3,2,100⟩ else ⟨8,1,200⟩⟩}

theorem badLeaf_fails : requestFails badLeaf 2048 3072 := by
  refine ⟨3072,Nat.le_refl _,by decide,?_⟩
  generalize found : ext4FindExtent badLeaf (u32 (3072 / superBlockSize badLeaf.volume.superBlock : Nat)) none = result
  obtain ⟨s',err | path⟩ := result
  · exact ⟨s',err,found⟩
  · have failed : (match (ext4FindExtent badLeaf (u32 (3072 / superBlockSize badLeaf.volume.superBlock : Nat)) none).2 with
      | .error _ => true
      | .ok _ => false) = true := by decide
    rw [found] at failed
    nomatch failed

/-- The two blocks of the first extent read as zeros, and their bytes are counted. -/
theorem opRead_bad_leaf : ¬ReportsFailure (buffered ⟨0,by decide⟩) Disk.emptyCache badLeaf 2048 3072 ∧
    (opRead (buffered ⟨0,by decide⟩) badLeaf Disk.emptyCache 2048 3072).map (fun r => r.2.2) = some (List.replicate 2048 0) := by
  have run : (opRead (buffered ⟨0,by decide⟩) badLeaf Disk.emptyCache 2048 3072).map (fun r => r.2.2) = some (List.replicate 2048 0) := by
    decide +kernel
  refine ⟨fun reports => ?_,run⟩
  obtain ⟨s',disk',bytes,returned,negative⟩ := reports badLeaf_fails
  rw [returned] at run
  obtain rfl : bytes = List.replicate 2048 0 := Option.some.inj run
  rw [List.length_replicate] at negative
  exact absurd negative (by decide)

end Read

section Write

/-- A lookup with `create` ends in an error: the walk, the allocation or the insertion fails. -/
def createFails (s : State) (lblock : Nat) (extentLen : Option Nat) : Prop :=
  ∃ s' n, ext4ExtGetBlocks s lblock (u64 (extentLen.elim 1 fun len => i32 len)) true = some (s',n,0) ∧ n < 0

theorem inodeGetDataPblock_create {s : State} {lblock : Nat} {extentLen : Option Nat} (fails : createFails s lblock extentLen) :
    ∃ s', inodeGetDataPblock s lblock extentLen true = some (s',0,0) := by
  obtain ⟨s',n,failed,negative⟩ := fails
  refine ⟨s',?_⟩
  simp only [inodeGetDataPblock,extentGetPblockNew,if_true,failed,Option.bind_eq_bind,Option.bind_some]
  rw [Int.toNat_eq_zero.mpr (Int.le_of_lt negative)]
  rfl

section Turns
variable {σ : Type}

/-- Where the loop of `op_write` stands: the next block, the inode and the disk, and what is
left of the buffer. -/
structure Turn (σ : Type) where
  lblock : Nat
  state : State
  disk : σ
  buf : List UInt8

/-- The `extent_len` that a turn asks for. -/
def Turn.wanted (c : Turn σ) : Nat :=
  let blockSize := superBlockSize c.state.volume.superBlock
  u32 (u64 (c.buf.length + blockSize - 1 : Int) / blockSize : Nat)

/-- What the lookup of a turn answers. -/
def Turn.answers (c : Turn σ) (s' : State) (pblock len : Nat) : Prop :=
  c.buf ≠ [] ∧ inodeGetDataPblock c.state c.lblock (some c.wanted) true = some (s',pblock,len)

variable (access : Access σ)

/-- A turn that writes, and the one after it. -/
def Turn.next (c c' : Turn σ) : Prop := ∃ s' pblock len disk' bytes, c.answers s' pblock len ∧ pblock ≠ 0 ∧
  writePiece access c.disk (superBlockSize c.state.volume.superBlock) pblock len c.buf = some (disk',bytes) ∧
  c' = ⟨u32 (c.lblock + len : Nat),s',disk',c.buf.drop bytes⟩

def Turn.loop (rounds : Nat) (c : Turn σ) : Option (State × σ × List UInt8) :=
  writeLoop access true rounds c.lblock c.state c.disk c.buf

variable {access}

/-- A round writes from the front of the buffer, a byte at least. -/
theorem writePiece_bytes {disk disk' : σ} {blockSize pblock len bytes : Nat} {buf : List UInt8}
    (written : writePiece access disk blockSize pblock len buf = some (disk',bytes)) : u64 (blockSize * len : Nat) ≠ 0 ∧
      bytes = min buf.length (u64 (blockSize * len : Nat)) ∧
      access.write disk (pblock * blockSize) (buf.take (min buf.length (u64 (blockSize * len : Nat)))) = some disk' := by
  obtain ⟨ctx,created,written⟩ := Option.bind_eq_some_iff.mp written
  obtain ⟨⟨ctx',bytes',disk₁⟩,stored,written⟩ := Option.bind_eq_some_iff.mp written
  obtain ⟨rfl,rfl⟩ := Prod.mk.inj (Option.some.inj written)
  unfold diskCtxCreate at created
  split at created
  · cases created
  obtain rfl := Option.some.inj created
  rcases eq_or_ne (u64 (blockSize * len : Nat)) 0 with empty | left
  · rw [diskCtxWrite,if_pos empty] at stored
    cases stored
  · rw [diskCtxWrite_eq left] at stored
    obtain ⟨disk₂,held,both⟩ := Option.map_eq_some_iff.mp stored
    obtain ⟨_,both⟩ := Prod.mk.inj both
    obtain ⟨rfl,rfl⟩ := Prod.mk.inj both
    exact ⟨left,rfl,held⟩

theorem Turn.next_loop {c c' : Turn σ} (next : c.next access c') (rounds : Nat) :
    c.loop access (rounds + 1) = c'.loop access rounds ∧ c'.buf.length < c.buf.length := by
  obtain ⟨s',pblock,len,disk',bytes,⟨some_,answered⟩,mapped,written,rfl⟩ := next
  constructor
  · unfold Turn.loop
    rw [writeLoop,if_neg some_]
    simp only [Turn.wanted] at answered
    simp only [answered,Option.bind_eq_bind,Option.bind_some,if_neg mapped,written]
  · obtain ⟨positive,rfl,_⟩ := writePiece_bytes written
    have length := List.length_pos_iff.mpr some_
    rw [List.length_drop]
    omega

/-- A loop that ends has written the piece of a mapped block. -/
theorem Turn.loop_next {c : Turn σ} {s' : State} {pblock len : Nat} (answered : c.answers s' pblock len) (mapped : pblock ≠ 0)
    {rounds : Nat} {r : State × σ × List UInt8} (ran : c.loop access (rounds + 1) = some r) : ∃ c', c.next access c' := by
  have found := answered.2
  rw [Turn.loop,writeLoop,if_neg answered.1] at ran
  simp only [Turn.wanted] at found
  simp only [found,Option.bind_eq_bind,Option.bind_some,if_neg mapped] at ran
  obtain ⟨⟨disk',bytes⟩,written,_⟩ := Option.bind_eq_some_iff.mp ran
  exact ⟨_,s',pblock,len,disk',bytes,answered,mapped,written,rfl⟩

/-- The rounds of the loop suffice for every turn it comes to. -/
theorem Turn.reaches_loop {c c' : Turn σ} (reaches : Relation.ReflTransGen (Turn.next access) c c') {rounds : Nat}
    (enough : c.buf.length < rounds) : ∃ rounds', c'.buf.length < rounds' ∧ c.loop access rounds = c'.loop access rounds' ∧
      c'.buf.length ≤ c.buf.length := by
  induction reaches with
  | refl => exact ⟨rounds,enough,rfl,Nat.le_refl _⟩
  | tail _ next ih =>
    obtain ⟨rounds',more,equal,less⟩ := ih
    obtain ⟨left,rfl⟩ := Nat.exists_eq_succ_of_ne_zero (show rounds' ≠ 0 by omega)
    obtain ⟨step,shorter⟩ := next_loop next left
    exact ⟨left,by omega,equal.trans step,by omega⟩

theorem Turn.failed_loop {c : Turn σ} (some_ : c.buf ≠ []) (fails : createFails c.state c.lblock (some c.wanted)) (rounds : Nat) :
    ∃ s', c.loop access (rounds + 1) = some (s',c.disk,c.buf) := by
  obtain ⟨s',found⟩ := inodeGetDataPblock_create fails
  refine ⟨s',?_⟩
  unfold Turn.loop
  rw [writeLoop,if_neg some_]
  simp only [Turn.wanted] at found
  simp only [found,Option.bind_eq_bind,Option.bind_some,if_true]

end Turns

section Calls
variable {σ : Type} (access : Access σ) (s : State) (disk : σ) (buf : List UInt8) (offset : Nat)

/-- The state that `op_write` hands to `first_write`. -/
def opened : State := {s with inode := inodeGet s.inode.iIno s.inode.rawInode}

/-- The loop's first turn, behind the first piece. -/
def startsAt (c : Turn σ) : Prop := ∃ first, firstWrite access (opened s) disk buf offset = some (c.state,c.disk,first) ∧
  c.lblock = u32 (u64 (offset + first : Nat) / superBlockSize c.state.volume.superBlock : Nat) ∧ c.buf = buf.drop first

/-- The call comes to a turn of the loop. -/
def comesTo (c : Turn σ) : Prop :=
  s.inode.iIno ≠ 0 ∧ ∃ c₀, startsAt access s disk buf offset c₀ ∧ Relation.ReflTransGen (Turn.next access) c₀ c

/-- The first piece has a lookup. -/
def unaligned : Prop := s.inode.iIno ≠ 0 ∧ buf ≠ [] ∧ offset % superBlockSize s.volume.superBlock ≠ 0

/-- A lookup of the call fails with `stored` bytes written. -/
inductive FailsAt : Nat → Prop
  | first (here : unaligned s buf offset)
      (fails : createFails (opened s) (u32 (offset / superBlockSize s.volume.superBlock : Nat)) none) : FailsAt 0
  | later (c : Turn σ) (here : comesTo access s disk buf offset c) (left : c.buf ≠ [])
      (fails : createFails c.state c.lblock (some c.wanted)) : FailsAt (buf.length - c.buf.length)

/-- The call issues a `disk_write` for the data of a logical block to a physical block, with the
inode as it is then. -/
inductive Issues : State → Nat → Nat → Prop
  | first (s' : State) (pblock len : Nat) (here : unaligned s buf offset)
      (answered : inodeGetDataPblock (opened s) (u32 (offset / superBlockSize s.volume.superBlock : Nat)) none true =
        some (s',pblock,len)) : Issues s' (u32 (offset / superBlockSize s.volume.superBlock : Nat)) pblock
  | later (c : Turn σ) (s' : State) (pblock len : Nat) (here : comesTo access s disk buf offset c)
      (answered : c.answers s' pblock len) (some_ : pblock ≠ 0) : Issues s' c.lblock pblock

/-- The inode maps the logical block to the physical one, which is not block 0. -/
def mapsTo (s : State) (lblock pblock : Nat) : Prop :=
  pblock ≠ 0 ∧ ∃ s' n, ext4ExtGetBlocks s lblock 1 false = some (s',n,pblock) ∧ 0 < n

/-- However a lookup fails, data goes to mapped blocks alone, and the call ends with what it
has stored or with an error. -/
def SurvivesFailure : Prop := ∀ stored, FailsAt access s disk buf offset stored →
  (∀ at_ lblock pblock, Issues access s disk buf offset at_ lblock pblock → mapsTo at_ lblock pblock) ∧
    ∃ s' disk' n, opWrite access s disk buf offset = some (s',disk',n) ∧ (n = stored ∨ n < 0)

variable {access s disk buf offset}

theorem firstWrite_steady : Ensures (firstWrite access s disk buf offset) fun r => Steady s r.1 := by
  unfold firstWrite
  refine ensures_ite (fun _ => ensures_some (Steady.refl s)) fun _ => ?_
  refine ensures_ite (fun _ => ensures_some (Steady.refl s)) fun _ => ?_
  refine (inodeGetDataPblock_steady _ _ _ _).bind fun (s₁,pblock,len) steady => (ensures_any _).bind fun disk₁ _ => ?_
  exact ensures_ite (fun _ => ensures_some steady) fun _ => ensures_none

/-- After a failure in the loop bytes are left, and the assertion fails. -/
theorem opWrite_later {c : Turn σ} (here : comesTo access s disk buf offset c) (left : c.buf ≠ [])
    (fails : createFails c.state c.lblock (some c.wanted)) : opWrite access s disk buf offset = none := by
  obtain ⟨ino,c₀,⟨first,started,block,rest⟩,reaches⟩ := here
  have same : c₀.state.inode.iIno = s.inode.iIno := (firstWrite_steady _ started).ino
  have create : (c₀.state.inode.iIno != 0) = true := bne_iff_ne.mpr (same ▸ ino)
  obtain ⟨rounds',more,equal,_⟩ := @Turn.reaches_loop _ _ _ _ reaches (buf.length + 1)
    (by rw [rest,List.length_drop]; omega)
  obtain ⟨rounds,rfl⟩ := Nat.exists_eq_succ_of_ne_zero (show rounds' ≠ 0 by omega)
  obtain ⟨s',ended⟩ := Turn.failed_loop left fails rounds
  have loop := equal.trans ended
  rw [Turn.loop,block,rest] at loop
  unfold opened at started
  rw [opWrite,if_neg ino,started]
  simp only [Option.bind_eq_bind,Option.bind_some,create,loop,if_neg left]

theorem opWrite_survives_iff : SurvivesFailure access s disk buf offset ↔ ∀ stored, ¬FailsAt access s disk buf offset stored := by
  refine ⟨fun survives stored fails => ?_,fun works stored fails => absurd fails (works stored)⟩
  obtain ⟨placed,s',disk',n,returned,_⟩ := survives stored fails
  cases fails with
  | first here fails =>
    obtain ⟨s₁,found⟩ := inodeGetDataPblock_create fails
    exact (placed s₁ _ 0 (Issues.first s₁ 0 0 here found)).1 rfl
  | later c here left fails =>
    rw [opWrite_later here left fails] at returned
    nomatch returned

end Calls

/-- A file without an extent on a volume without a free block. -/
def fullVolume : State := {emptyFile with
  volume := ⟨⟨8,0,0,0,0,0,8,8,128,0,0,0,0,0⟩,fun _ => ⟨3,0,4,0,5,0,0,0,0⟩,fun _ _ => true⟩
  inode := Alloc.anyInode}

theorem fullVolume_fails (lblock : Nat) (extentLen : Option Nat) (run : (ext4ExtGetBlocks (opened fullVolume) lblock
    (u64 (extentLen.elim 1 fun len => i32 len)) true).map Prod.snd = some (-28,0)) :
    createFails (opened fullVolume) lblock extentLen := by
  obtain ⟨⟨s',n,p⟩,failed,both⟩ := Option.map_eq_some_iff.mp run
  obtain ⟨rfl,rfl⟩ := Prod.mk.inj both
  exact ⟨s',-28,failed,by decide⟩

/-- Four bytes at offset 10 go to byte 10 of the device; at offset 0 the assertion fails. -/
theorem opWrite_full_volume : ¬SurvivesFailure (buffered ⟨0,by decide⟩) fullVolume Disk.emptyCache [1,2,3,4] 10 ∧
    (opWrite (buffered ⟨0,by decide⟩) fullVolume Disk.emptyCache [1,2,3,4] 10).map (fun r => (r.2.1.content ⟨0,by decide⟩ 10,r.2.2)) = some (1,4) ∧
    ¬SurvivesFailure (buffered ⟨0,by decide⟩) fullVolume Disk.emptyCache [1,2,3,4] 0 ∧ opWrite (buffered ⟨0,by decide⟩) fullVolume Disk.emptyCache [1,2,3,4] 0 = none := by
  have block : superBlockSize fullVolume.volume.superBlock = 1024 := by decide
  have none_ : opWrite (buffered ⟨0,by decide⟩) fullVolume Disk.emptyCache [1,2,3,4] 0 = none := Option.isNone_iff_eq_none.mp (by decide)
  refine ⟨fun survives => ?_,by decide,fun survives => ?_,none_⟩
  · have here : unaligned fullVolume [1,2,3,4] 10 := ⟨by decide,by decide,by rw [block]; decide⟩
    have fails : createFails (opened fullVolume) (u32 (10 / superBlockSize fullVolume.volume.superBlock : Nat)) none :=
      fullVolume_fails _ _ (by decide)
    obtain ⟨s₁,found⟩ := inodeGetDataPblock_create fails
    exact ((survives 0 (FailsAt.first here fails)).1 s₁ _ 0 (Issues.first s₁ 0 0 here found)).1 rfl
  · have start : startsAt (buffered ⟨0,by decide⟩) fullVolume Disk.emptyCache [1,2,3,4] 0 ⟨0,opened fullVolume,Disk.emptyCache,[1,2,3,4]⟩ :=
      ⟨0,rfl,by rw [show u64 (0 + 0 : Nat) = 0 by decide,Nat.zero_div]; rfl,rfl⟩
    have fails : FailsAt (buffered ⟨0,by decide⟩) fullVolume Disk.emptyCache [1,2,3,4] 0 (4 - 4) :=
      FailsAt.later ⟨0,opened fullVolume,Disk.emptyCache,[1,2,3,4]⟩ ⟨by decide,_,start,Relation.ReflTransGen.refl⟩ (by decide)
        (fullVolume_fails _ _ (by decide))
    obtain ⟨_,s',disk',n,returned,_⟩ := survives _ fails
    rw [none_] at returned
    nomatch returned

end Write

end Ext4Fuse.LookupErrors
