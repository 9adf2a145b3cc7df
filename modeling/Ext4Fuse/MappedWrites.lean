import Ext4Fuse.LookupErrors
import Mathlib.Data.UInt

/-! `op_write` into blocks that the inode maps: it only looks up, and lays the buffer down extent by extent. -/
namespace Ext4Fuse.MappedWrites
open Machine Ext4Fuse.Types Super Extents Library.Bytes Library.Partial DiskAccess FileContent OpRead OpWrite LookupErrors

/-- Where on the device an extent has the byte `k` of the file. -/
def place (blockSize : Nat) (x : Slot) (k : Nat) : Nat := (ext4ExtPblock x + (k / blockSize - x.eeBlock)) * blockSize + k % blockSize

section Place
variable {blockSize : Nat} {x : Slot}

theorem place_add {k : Nat} (covered : covers x (k / blockSize)) :
    place blockSize x k + x.eeBlock * blockSize = ext4ExtPblock x * blockSize + k := by
  have parts := Nat.div_add_mod k blockSize
  have start := covered.1
  have split : (ext4ExtPblock x + (k / blockSize - x.eeBlock)) * blockSize + x.eeBlock * blockSize =
      ext4ExtPblock x * blockSize + blockSize * (k / blockSize) := by
    rw [← Nat.add_mul,Nat.add_assoc,Nat.sub_add_cancel start,Nat.add_mul,Nat.mul_comm (k / blockSize)]
  unfold place
  omega

/-- Within an extent the bytes of the file lie one after another. -/
theorem place_next {k i : Nat} (covered : covers x (k / blockSize)) (covered' : covers x ((k + i) / blockSize)) :
    place blockSize x (k + i) = place blockSize x k + i := by
  have first := place_add covered
  have second := place_add covered'
  omega

/-- The bytes of `n` blocks that follow one another. -/
theorem covers_blocks {x : Slot} {lblock n i : Nat} (covered : covers x lblock) (fits : n ≤ extentStop x - lblock) (inside : i < blockSize * n) :
    covers x ((lblock * blockSize + i) / blockSize) := by
  have positive : 0 < blockSize := Nat.pos_of_mul_pos_right (Nat.lt_of_le_of_lt (Nat.zero_le i) inside)
  have near : i / blockSize < n := Nat.div_lt_of_lt_mul inside
  rw [Nat.mul_comm lblock,Nat.mul_add_div positive]
  generalize i / blockSize = j at near
  have start := covered.1
  exact ⟨by omega,by omega⟩

end Place

/-- Every byte of a stretch of the file is mapped. -/
def mappedAll (blockSize : Nat) (extents : List Slot) (start count : Nat) : Prop :=
  ∀ i, i < count → ∃ x ∈ extents, covers x ((start + i) / blockSize)

section Write
variable {σ : Type} {access : Access σ} {s : State} {d : Nat} {t : Tree d} {disk : σ} {buf : List UInt8} {offset blockSize : Nat}

/-- What the pieces of a write do to the disk, each of them into one extent, put together. -/
structure Lays (access : Access σ) (blockSize : Nat) (extents : List Slot) (laid : σ → σ → Nat → List UInt8 → Prop) : Prop where
  nothing (disk : σ) (start : Nat) : laid disk disk start []
  extent {disk disk' : σ} {start : Nat} {buf : List UInt8} {x : Slot} : x ∈ extents → buf ≠ [] →
    (∀ i, i < buf.length → covers x ((start + i) / blockSize)) → access.write disk (place blockSize x start) buf = some disk' →
      laid disk disk' start buf
  append {disk disk₁ disk' : σ} {start : Nat} {buf rest : List UInt8} : laid disk disk₁ start buf →
    laid disk₁ disk' (start + buf.length) rest → laid disk disk' start (buf ++ rest)

variable {laid : σ → σ → Nat → List UInt8 → Prop}

/-- On a mapped block a write only looks up. -/
theorem inodeGetDataPblock_covered (tree : HasTree s d t) {b : Nat} {x : Slot} (member : x ∈ flat d t) (covered : covers x b)
    (extentLen : Option Nat) : ∃ s', Same s s' ∧ inodeGetDataPblock s b extentLen true = some (s',
      ext4ExtPblock x + (b - x.eeBlock),min (extentStop x - b) (u64 (extentLen.elim 1 fun len => i32 len))) := by
  obtain ⟨s',same,result⟩ := ext4ExtGetBlocks_covered tree member covered (u64 (extentLen.elim 1 fun len => i32 len)) true
  refine ⟨s',same,?_⟩
  simp only [inodeGetDataPblock,extentGetPblockNew,if_true,result,Option.bind_eq_bind,Option.bind_some,Int.toNat_natCast]
  rfl

/-- The positions of a mapped stretch have 32-bit blocks. -/
theorem mapped_low (tree : HasTree s d t) {count k : Nat} (mapped : mappedAll blockSize (flat d t) offset count) (start : offset ≤ k)
    (before : k < offset + count) : (∃ x ∈ flat d t, covers x (k / blockSize)) ∧ k / blockSize < 2^32 := by
  obtain ⟨x,member,covered⟩ := mapped (k - offset) (by omega)
  rw [Nat.add_sub_cancel' start] at covered
  exact ⟨⟨x,member,covered⟩,Nat.lt_of_lt_of_le covered.2 (wf_bounds tree.wf member).2.2⟩

theorem firstWrite_lays (lays : Lays access blockSize (flat d t) laid) (tree : HasTree s d t)
    (small : s.volume.superBlock.sLogBlockSize.toNat ≤ 6) (blocks : superBlockSize s.volume.superBlock = blockSize) (far : offset < 2^63)
    (mapped : mappedAll blockSize (flat d t) offset buf.length) : Ensures (firstWrite access s disk buf offset) fun (s',disk',first) =>
      Same s s' ∧ first = firstLength blockSize buf.length offset ∧ laid disk disk' offset (buf.take first) := by
  intro r written
  have length := (firstWrite_first small disk buf far r written).2
  rw [blocks] at length
  refine (?_ : Ensures (firstWrite access s disk buf offset) fun (s',disk',first) => first = firstLength blockSize buf.length offset →
    Same s s' ∧ first = firstLength blockSize buf.length offset ∧ laid disk disk' offset (buf.take first)) r written length
  clear length written r
  unfold firstWrite
  refine ensures_ite (fun nothing => ensures_some fun none_ => ⟨Same.refl s,none_,lays.nothing _ _⟩) fun some_ => ?_
  refine ensures_ite (fun aligned => ensures_some fun none_ => ⟨Same.refl s,none_,lays.nothing _ _⟩) fun unaligned => ?_
  rw [blocks] at unaligned ⊢
  have positive : 0 < blockSize := by
    have least := superBlockSize_ge small
    omega
  obtain ⟨x,member,covered⟩ := mapped 0 (Nat.pos_of_ne_zero some_)
  have low : offset / blockSize < 2^32 := Nat.lt_of_lt_of_le covered.2 (wf_bounds tree.wf member).2.2
  obtain ⟨s₁,same,found⟩ := inodeGetDataPblock_covered tree member covered none
  rw [u32_small _ low]
  rw [Nat.add_zero] at found
  simp only [found,Option.bind_eq_bind,Option.bind_some]
  rintro r written
  obtain ⟨disk₁,stored,written⟩ := Option.bind_eq_some_iff.mp written
  split at written
  · obtain rfl := Option.some.inj written
    intro length
    simp only at length stored
    have off := Nat.mod_lt offset positive
    have first : firstLength blockSize buf.length offset = min buf.length (blockSize - offset % blockSize) := by
      rw [firstLength,if_neg unaligned]
    have taken : (buf.take (firstSize blockSize buf.length offset)).length = firstLength blockSize buf.length offset := by
      rw [List.length_take,length]
      omega
    refine ⟨same,length,?_⟩
    change laid disk disk₁ offset (buf.take (firstSize blockSize buf.length offset))
    refine lays.extent member ?_ (fun i inside => ?_) stored
    · exact List.ne_nil_of_length_pos (by omega)
    · rwa [← (same_block positive offset i).mpr (by omega)]
  · cases written

/-- What a turn on a mapped block writes lies in the extent of the block. -/
theorem next_lays {c c' : Turn σ} (lays : Lays access blockSize (flat d t) laid) (next : c.next access c') (tree : HasTree c.state d t)
    (small : c.state.volume.superBlock.sLogBlockSize.toNat ≤ 6) (blocks : superBlockSize c.state.volume.superBlock = blockSize)
    {x : Slot} (member : x ∈ flat d t) (covered : covers x c.lblock) : ∃ n, c'.lblock = u32 (c.lblock + n : Nat) ∧
      c'.buf = c.buf.drop (min c.buf.length (blockSize * n)) ∧ Same c.state c'.state ∧
      laid c.disk c'.disk (c.lblock * blockSize) (c.buf.take (min c.buf.length (blockSize * n))) := by
  have most := superBlockSize_le small
  obtain ⟨s₁,same,found⟩ := inodeGetDataPblock_covered tree member covered (some c.wanted)
  obtain ⟨s',pblock,n,disk',bytes,⟨some_,answered⟩,_,written,rfl⟩ := next
  rw [found] at answered
  obtain ⟨rfl,both⟩ := Prod.mk.inj (Option.some.inj answered)
  obtain ⟨rfl,len⟩ := Prod.mk.inj both
  have fits : n ≤ extentStop x - c.lblock := len ▸ Nat.min_le_left _ _
  have few : n ≤ 2^15 := by
    have start := covered.1
    have len := actualLen_le x
    unfold extentStop at fits
    omega
  rw [blocks] at most written
  obtain ⟨left,rfl,stored⟩ := writePiece_bytes written
  rw [u64_small _ (Nat.lt_of_le_of_lt (Nat.mul_le_mul most few) (by decide))] at left stored ⊢
  have positive : 0 < blockSize := Nat.pos_of_ne_zero fun zero => left (by rw [zero,Nat.zero_mul])
  refine ⟨n,rfl,rfl,same,lays.extent member ?_ (fun i inside => covers_blocks covered fits ?_) ?_⟩
  · have length := List.length_pos_of_ne_nil some_
    exact List.ne_nil_of_length_pos (by rw [List.length_take]; omega)
  · rw [List.length_take] at inside
    omega
  · rwa [place,Nat.mul_div_cancel _ positive,Nat.mul_mod_left,Nat.add_zero]

theorem loop_nil {c : Turn σ} (done : c.buf = []) (rounds : Nat) : c.loop access (rounds + 1) = some (c.state,c.disk,[]) := by
  rw [Turn.loop,done,writeLoop,if_pos rfl]

/-- The rounds of the loop lay down the rest of the buffer. -/
theorem loop_lays (lays : Lays access blockSize (flat d t) laid) (physical : ∀ x ∈ flat d t, ext4ExtPblock x ≠ 0) (rounds : Nat)
    {c : Turn σ} (tree : HasTree c.state d t) (small : c.state.volume.superBlock.sLogBlockSize.toNat ≤ 6)
    (blocks : superBlockSize c.state.volume.superBlock = blockSize)
    (mapped : mappedAll blockSize (flat d t) (c.lblock * blockSize) c.buf.length) : Ensures (c.loop access rounds) fun r =>
      Same c.state r.1 ∧ laid c.disk r.2.1 (c.lblock * blockSize) c.buf := by
  have least := superBlockSize_ge small
  rw [blocks] at least
  induction rounds generalizing c with
  | zero => exact ensures_none
  | succ rounds ih =>
    rcases eq_or_ne c.buf [] with done | some_
    · rw [loop_nil done,done]
      exact ensures_some ⟨Same.refl _,lays.nothing _ _⟩
    · obtain ⟨x,member,covered⟩ := mapped 0 (List.length_pos_of_ne_nil some_)
      rw [Nat.add_zero,Nat.mul_div_cancel _ (by omega)] at covered
      obtain ⟨s',_,found⟩ := inodeGetDataPblock_covered tree member covered (some c.wanted)
      intro r ran
      obtain ⟨c',next⟩ := Turn.loop_next ⟨some_,found⟩ (fun none_ => physical x member (Nat.add_eq_zero_iff.mp none_).1) ran
      obtain ⟨step,shorter⟩ := Turn.next_loop next rounds
      obtain ⟨n,lblock,rest,same,first⟩ := next_lays lays next tree small blocks member covered
      rw [step] at ran
      rcases Nat.lt_or_ge (blockSize * n) c.buf.length with more | last
      · rw [Nat.min_eq_right (Nat.le_of_lt more)] at rest first
        obtain ⟨y,member',covered'⟩ := mapped (blockSize * n) more
        rw [Nat.mul_comm c.lblock,← Nat.mul_add,Nat.mul_div_cancel_left _ (by omega)] at covered'
        rw [u32_small _ (Nat.lt_of_lt_of_le covered'.2 (wf_bounds tree.wf member').2.2)] at lblock
        have behind : c'.lblock * blockSize = c.lblock * blockSize + blockSize * n := by rw [lblock,Nat.add_mul,Nat.mul_comm n]
        have mapped' : mappedAll blockSize (flat d t) (c'.lblock * blockSize) c'.buf.length := by
          intro i inside
          rw [rest,List.length_drop] at inside
          rw [behind,Nat.add_assoc]
          exact mapped _ (by omega)
        obtain ⟨same',others⟩ := ih (same.hasTree tree) (by rw [same.volume]; exact small) (by rw [same.volume]; exact blocks)
          mapped' r ran
        have taken : (c.buf.take (blockSize * n)).length = blockSize * n := List.length_take_of_le (Nat.le_of_lt more)
        rw [behind,← taken,rest] at others
        have both := lays.append first others
        rw [List.take_append_drop] at both
        exact ⟨same.trans same',both⟩
      · rw [Nat.min_eq_left last] at rest first
        rw [List.drop_length] at rest
        rw [List.take_length] at first
        cases rounds with
        | zero => cases ran
        | succ rounds =>
          rw [loop_nil rest] at ran
          obtain rfl := Option.some.inj ran
          exact ⟨same,first⟩

/-- What follows the first piece. -/
theorem behind_lays (lays : Lays access blockSize (flat d t) laid) {c : Turn σ} {n rounds : Nat}
    (physical : ∀ x ∈ flat d t, ext4ExtPblock x ≠ 0) (tree : HasTree c.state d t)
    (small : c.state.volume.superBlock.sLogBlockSize.toNat ≤ 6) (blocks : superBlockSize c.state.volume.superBlock = blockSize)
    (short : buf.length < 2^31) (place : offset < 2^63) (mapped : mappedAll blockSize (flat d t) offset buf.length)
    (lblock : c.lblock = u32 (u64 (offset + n : Nat) / blockSize : Nat)) (rest : c.buf = buf.drop n)
    (aligned : n < buf.length → (offset + n) % blockSize = 0) : Ensures (c.loop access (rounds + 1)) fun r =>
      Same c.state r.1 ∧ laid c.disk r.2.1 (offset + n) c.buf := by
  rcases Nat.lt_or_ge n buf.length with more | done
  · have low := (mapped_low tree mapped (k := offset + n) (by omega) (by omega)).2
    have parts := Nat.div_add_mod (offset + n) blockSize
    rw [aligned more,Nat.add_zero,Nat.mul_comm] at parts
    rw [u64_small _ (by omega),u32_small _ low] at lblock
    rw [← lblock] at parts
    rw [← parts]
    refine loop_lays lays physical _ tree small blocks fun i before => ?_
    rw [rest,List.length_drop] at before
    rw [parts,Nat.add_assoc]
    exact mapped _ (by omega)
  · rw [List.drop_eq_nil_of_le done] at rest
    rw [loop_nil rest,rest]
    exact ensures_some ⟨Same.refl _,lays.nothing _ _⟩

theorem hasTree_inode (tree : HasTree s d t) {inode : Inode} (kept : inode.rawInode.iData = s.inode.rawInode.iData) :
    HasTree {s with inode := inode} d t := by
  refine ⟨?_,tree.distinct,tree.wf,tree.nonempty⟩
  show Holds s.node _ d _ inode.rawInode.iData t
  rw [kept]
  exact tree.holds

/-- Neither the size nor `inode_put` touches `i_data`. -/
theorem inodePut_data (origSize stop : Nat) (inode : Inode) {stored : RawInode} (same : inode.rawInode.iData = stored.iData) :
    (inodePut (writeSize origSize inode stop) stored).iData = stored.iData := by
  have sized : (writeSize origSize inode stop).rawInode.iData = stored.iData := by
    unfold writeSize
    split
    · exact same
    · exact same
  unfold inodePut
  split
  · exact sized
  · rfl

theorem writeSize_ino (origSize stop : Nat) (inode : Inode) : (writeSize origSize inode stop).iIno = inode.iIno := by
  unfold writeSize
  split
  · rfl
  · rfl

theorem iIno_put (inode : Inode) (rawInode : RawInode) : ({inode with rawInode := rawInode} : Inode).iIno = inode.iIno := rfl

/-- A write into mapped blocks leaves the tree as it was, and lays the whole buffer down. -/
theorem opWrite_lays (lays : Lays access blockSize (flat d t) laid) (physical : ∀ x ∈ flat d t, ext4ExtPblock x ≠ 0)
    (tree : HasTree s d t) (small : s.volume.superBlock.sLogBlockSize.toNat ≤ 6)
    (blocks : superBlockSize s.volume.superBlock = blockSize) (ino : s.inode.iIno ≠ 0) (short : buf.length < 2^31) (far : offset < 2^63)
    (mapped : mappedAll blockSize (flat d t) offset buf.length) : Ensures (opWrite access s disk buf offset) fun (s',disk',_) =>
      HasTree s' d t ∧ s'.volume = s.volume ∧ s'.inode.iIno = s.inode.iIno ∧ laid disk disk' offset buf := by
  have least := superBlockSize_ge small
  rw [blocks] at least
  have tree₀ : HasTree (opened s) d t := hasTree_inode tree rfl
  unfold opWrite
  refine ensures_ite (fun none_ => absurd none_ ino) fun _ => ?_
  refine (firstWrite_lays (s := opened s) lays tree₀ small blocks far mapped).bind fun (s₁,disk₁,first) ⟨same,length,front⟩ => ?_
  have blocks₁ : superBlockSize s₁.volume.superBlock = blockSize := by rw [same.volume]; exact blocks
  have create : (s₁.inode.iIno != 0) = true := by
    rw [same.inode]
    exact bne_iff_ne.mpr ino
  have loop {lblock : Nat} (here : lblock = u32 (u64 (offset + first : Nat) / blockSize : Nat)) :
      Ensures (writeLoop access (s₁.inode.iIno != 0) (buf.length + 1) lblock s₁ disk₁ (buf.drop first)) fun r =>
        Same s₁ r.1 ∧ laid disk₁ r.2.1 (offset + first) (buf.drop first) := by
    rw [create]
    exact @behind_lays σ access d t buf offset blockSize laid lays ⟨lblock,s₁,disk₁,buf.drop first⟩ first buf.length physical
      (same.hasTree tree₀) (by rw [same.volume]; exact small) blocks₁ short far mapped here rfl
      (fun more => by rw [length] at more ⊢; exact firstLength_aligned (by omega) more)
  refine (loop (by rw [blocks₁])).bind fun (s₂,disk₂,left) ⟨same',rest⟩ => ?_
  refine ensures_ite (fun _ => ensures_some ?_) fun _ => ensures_none
  have whole := same.trans same'
  have data : s₂.inode.rawInode.iData = s.inode.rawInode.iData := by
    rw [whole.inode]
    rfl
  refine ⟨hasTree_inode (whole.hasTree tree₀) ((inodePut_data _ _ _ data).trans data.symm),whole.volume,?_,?_⟩
  · rw [iIno_put,writeSize_ino,whole.inode]
    rfl
  · have inside : first ≤ buf.length := length ▸ firstLength_le _ _ _
    have taken : (buf.take first).length = first := List.length_take_of_le inside
    have behind : laid disk₁ disk₂ (offset + (buf.take first).length) (buf.drop first) := by rwa [taken]
    have both := lays.append front behind
    rwa [List.take_append_drop] at both

/-! When the disk serves it, such a write returns. -/

theorem lays_any {extents : List Slot} : Lays access blockSize extents fun _ _ _ _ => True :=
  ⟨fun _ _ => trivial,fun _ _ _ _ => trivial,fun _ _ => trivial⟩

/-- The first mapped block is within 2^32 blocks. -/
theorem covered_near (tree : HasTree s d t) (positive : 0 < blockSize) (most : blockSize ≤ 65536)
    (start : ∃ x ∈ flat d t, covers x (offset / blockSize)) : offset < 2^63 := by
  obtain ⟨x,member,covered⟩ := start
  have low := Nat.lt_of_lt_of_le covered.2 (wf_bounds tree.wf member).2.2
  have far := (Nat.div_lt_iff_lt_mul positive).mp low
  exact Nat.lt_of_lt_of_le far (Nat.le_trans (Nat.mul_le_mul_left _ most) (by decide))

end Write

end Ext4Fuse.MappedWrites
