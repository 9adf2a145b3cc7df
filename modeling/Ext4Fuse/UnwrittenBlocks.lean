import Ext4Fuse.MappedWrites

/-! Requests for blocks of unwritten extents, over the buffer cache. `op_read` does not look at the mark in
`ee_len`, and no write calls `ext4_ext_convert_to_initialized`. -/
namespace Ext4Fuse.UnwrittenBlocks
open Machine Ext4Fuse.Types Super Extents Library.Bytes DiskAccess FileContent OpRead OpWrite MappedWrites

/-- The position lies in a block that an unwritten extent covers. -/
def inUnwritten (blockSize : Nat) (extents : List Slot) (k : Nat) : Prop :=
  ∃ x ∈ extents, ext4ExtIsUnwritten x = true ∧ covers x (k / blockSize)

section Read
variable (device : Nat → UInt8) {s : State} {d : Nat} {t : Tree d} {size offset blockSize : Nat}

/-- The device's byte at the position is zero wherever an unwritten extent leads. -/
def clearBelow (blockSize : Nat) (extents : List Slot) (k : Nat) : Prop :=
  ∀ x ∈ extents, ext4ExtIsUnwritten x = true → covers x (k / blockSize) →
    device ((ext4ExtPblock x + (k / blockSize - x.eeBlock)) * blockSize + k % blockSize) = 0

/-- What the read stores of unwritten extents in front of the first hole behind its first piece
is zero on the device. -/
def storesClear (blockSize : Nat) (extents : List Slot) (count offset : Nat) : Prop :=
  ∀ k, offset ≤ k → k < offset + count →
    (∀ h, offset + firstLength blockSize count offset ≤ h → h ≤ k → ¬lookedHole blockSize extents h) →
    clearBelow device blockSize extents k

variable {device}

theorem clearBelow_iff {low high : Nat} (wf : Wf d low t high) (last : high ≤ 2^32) (k : Nat) :
    clearBelow device blockSize (flat d t) k ↔
      (inUnwritten blockSize (flat d t) k → atBlock device blockSize (flat d t) k = 0) := by
  constructor
  · rintro clear ⟨x,member,unwritten,covered⟩
    rw [atBlock_covered wf last member covered]
    exact clear x member unwritten covered
  · intro zero x member unwritten covered
    rw [← @atBlock_covered device d t _ _ _ wf last _ x member covered]
    exact zero ⟨x,member,unwritten,covered⟩

/-- The bytes in front of the first hole are those in front of the zeros. -/
theorem stored_front {hole : Nat → Prop} {start stop a n k : Nat} (stored : Stored blockSize hole start (stop - start) a n)
    (last : start ≤ stop) (inside : k < stop) : k < start + a ↔ ∀ h, start ≤ h → h ≤ k → ¬hole h := by
  constructor
  · intro front h least most
    have data := stored.mapped (h - start) (by omega)
    rwa [show start + (h - start) = h by omega] at data
  · intro mapped
    by_contra behind
    rcases stored.stop with ⟨all,_⟩ | ⟨here,_⟩
    · omega
    · exact mapped (start + a) (Nat.le_add_right _ _) (Nat.not_lt.mp behind) here

theorem slice_zero_iff (f : Nat → UInt8) (p : Nat → Prop) (count : Nat) :
    (∀ i (inside : i < (slice f offset count).length), p (offset + i) → (slice f offset count)[i] = 0) ↔
      ∀ k, offset ≤ k → k < offset + count → p k → f k = 0 := by
  constructor
  · intro all k least most here
    have byte := all (k - offset) (by rw [slice_length]; omega)
    rw [slice_getElem,show offset + (k - offset) = k by omega] at byte
    exact byte here
  · intro all i inside here
    rw [slice_length] at inside
    rw [slice_getElem]
    exact all _ (by omega) (by omega) here

variable (c : Disk.Cache)

/-- The read returns, and the bytes from unwritten extents are zeros. -/
def ReadsZeros (block : BlockSize) (s : State) (extents : List Slot) (size offset : Nat) : Prop :=
  ∃ s' c' bytes, opRead (buffered block) s c size offset = some (s',c',bytes) ∧ ∀ i (inside : i < bytes.length),
    inUnwritten (superBlockSize s.volume.superBlock) extents (offset + i) → bytes[i] = 0

theorem readsZeros_iff (tree : HasTree s d t) (small : s.volume.superBlock.sLogBlockSize.toNat ≤ 6)
    (physical : ∀ x ∈ flat d t, ext4ExtPblock x ≠ 0) (request : truncateSize s.inode size offset < 2^31) (place : offset < 2^63) :
    ReadsZeros c (preadBlockSize s.volume.superBlock small) s (flat d t) size offset ↔
      ¬overruns (superBlockSize s.volume.superBlock) (flat d t) (truncateSize s.inode size offset) offset ∧
        ¬takesBlocks (superBlockSize s.volume.superBlock) (flat d t) (truncateSize s.inode size offset) offset ∧
        storesClear (c.content (preadBlockSize s.volume.superBlock small)) (superBlockSize s.volume.superBlock) (flat d t)
          (truncateSize s.inode size offset) offset := by
  rw [← and_assoc,← opRead_returns_iff tree small physical c request place]
  have bytes {s' : State} {c' : Disk.Cache} {bytes : List UInt8} := @opRead_bytes _ (buffered (preadBlockSize s.volume.superBlock small)) c
    _ _ _ _ _ _ _ _ s' c' bytes (buffered_blocks (preadBlockSize s.volume.superBlock small)) tree small physical
    (preadBlockSize_bytes small).symm rfl request place rfl
  unfold ReadsZeros storesClear
  rw [← preadBlockSize_bytes small]
  generalize preadBlockSize s.volume.superBlock small = block at *
  generalize truncateSize s.inode size offset = count at *
  have lengths := firstLength_le block.bytes count offset
  have zeros {s' : State} {c' : Disk.Cache} {stored : List UInt8} (returned : opRead (buffered block) s c size offset = some (s',c',stored)) :
      (∀ i (inside : i < stored.length), inUnwritten block.bytes (flat d t) (offset + i) → stored[i] = 0) ↔
        ∀ k, offset ≤ k → k < offset + count →
          (∀ h, offset + firstLength block.bytes count offset ≤ h → h ≤ k → ¬lookedHole block.bytes (flat d t) h) →
          clearBelow (c.content block) block.bytes (flat d t) k := by
    obtain ⟨a,n,_,_,whole,ends,rfl⟩ := bytes returned
    rw [slice_zero_iff]
    refine forall_congr' fun k => imp_congr_right fun least => imp_congr_right fun most => ?_
    rw [clearBelow_iff tree.wf (Nat.le_refl _),← stored_front whole (by omega) most]
    constructor
    · intro zero front here
      have byte := zero here
      rwa [if_pos front] at byte
    · intro zero here
      split
      · rename_i front
        exact zero front here
      · rfl
  constructor
  · rintro ⟨s',c',stored,returned,zero⟩
    exact ⟨⟨s',c',stored,returned⟩,(zeros returned).mp zero⟩
  · rintro ⟨⟨s',c',stored,returned⟩,clear⟩
    exact ⟨s',c',stored,returned,(zeros returned).mpr clear⟩

end Read

inductive Request
  | read (size offset : Nat)
  | write (buf : List UInt8) (offset : Nat)

/-- A read whose count is an `int` and that comes to an unwritten extent, or a write of something into unwritten extents. -/
def Request.proper (s : State) (extents : List Slot) : Request → Prop
  | .read size offset => truncateSize s.inode size offset < 2^31 ∧ offset < 2^63 ∧ ∃ k, offset ≤ k ∧
    k < offset + truncateSize s.inode size offset ∧ inUnwritten (superBlockSize s.volume.superBlock) extents k
  | .write buf offset => buf ≠ [] ∧ buf.length < 2^31 ∧
    ∀ k, offset ≤ k → k < offset + buf.length → inUnwritten (superBlockSize s.volume.superBlock) extents k

/-- The write stores into the block. -/
def storesInto (blockSize size offset b : Nat) : Bool :=
  offset / blockSize ≤ b && b ≤ (offset + (size - 1)) / blockSize

/-- Of what unwritten extents mapped the blocks written are initialised, and nothing else changes. -/
def Converted (blockSize : Nat) (extents : List Slot) (size offset : Nat) (s' : State) : Prop :=
  ∃ (d' : Nat) (t' : Tree d'), HasTree s' d' t' ∧ ∀ x ∈ extents, ext4ExtIsUnwritten x = true → ∀ b, covers x b →
    mapping (flat d' t') b = some (ext4ExtPblock x + (b - x.eeBlock),!storesInto blockSize size offset b)

/-- A read returns zeros from unwritten extents, and a write returns and makes what it stores readable. -/
def Honours (block : BlockSize) (c : Disk.Cache) (s : State) (extents : List Slot) : Request → Prop
  | .read size offset => ReadsZeros c block s extents size offset
  | .write buf offset => ∃ s' c' n, opWrite (buffered block) s c buf offset = some (s',c',n) ∧
    Converted (superBlockSize s.volume.superBlock) extents buf.length offset s'

/-- A read that no assertion and no overrun stops, and that finds zeros below the unwritten extents as well; and no write. -/
def honoursWhen (device : Nat → UInt8) (s : State) (extents : List Slot) : Request → Prop
  | .read size offset =>
    let blockSize := superBlockSize s.volume.superBlock
    let count := truncateSize s.inode size offset
    ¬overruns blockSize extents count offset ∧ ¬takesBlocks blockSize extents count offset ∧ storesClear device blockSize extents count offset
  | .write .. => False

/-- A tree with an unwritten extent is not the converted one. -/
theorem not_converted {s' : State} {d : Nat} {t : Tree d} {blockSize size offset : Nat} (kept : HasTree s' d t)
    (here : inUnwritten blockSize (flat d t) offset) : ¬Converted blockSize (flat d t) size offset s' := by
  rintro ⟨d',t',tree,converted⟩
  obtain ⟨x,member,unwritten,covered⟩ := here
  have changed := converted x member unwritten _ covered
  rw [← kept.unique tree,mapping_some member covered fun y other both => covers_unique kept.wf member other covered both] at changed
  have mark := (Prod.mk.inj (Option.some.inj changed)).2
  have stored : storesInto blockSize size offset (offset / blockSize) = true := by
    rw [storesInto,decide_eq_true (Nat.le_refl _),decide_eq_true (Nat.div_le_div_right (Nat.le_add_right _ _))]
    rfl
  rw [unwritten,stored] at mark
  nomatch mark

theorem honours_iff (c : Disk.Cache) {s : State} {d : Nat} {t : Tree d} (tree : HasTree s d t)
    (small : s.volume.superBlock.sLogBlockSize.toNat ≤ 6) (physical : ∀ x ∈ flat d t, ext4ExtPblock x ≠ 0)
    (ino : s.inode.iIno ≠ 0) (request : Request) (proper : request.proper s (flat d t)) :
    Honours (preadBlockSize s.volume.superBlock small) c s (flat d t) request ↔
      honoursWhen (c.content (preadBlockSize s.volume.superBlock small)) s (flat d t) request := by
  cases request with
  | read size offset => exact readsZeros_iff c tree small physical proper.1 proper.2.1
  | write buf offset =>
    obtain ⟨some_,short,into⟩ := proper
    have length := List.length_pos_of_ne_nil some_
    have least := superBlockSize_ge small
    have start := into offset (Nat.le_refl _) (by omega)
    have mapped : mappedAll (superBlockSize s.volume.superBlock) (flat d t) offset buf.length := fun i inside => by
      obtain ⟨x,member,_,covered⟩ := into (offset + i) (by omega) (by omega)
      exact ⟨x,member,covered⟩
    have far : offset < 2^63 := by
      obtain ⟨x,member,_,covered⟩ := start
      exact covered_near tree (by omega) (superBlockSize_le small) ⟨x,member,covered⟩
    refine iff_of_false ?_ id
    rintro ⟨s',c',n,returned,converted⟩
    exact not_converted (opWrite_lays lays_any physical tree small rfl ino short far mapped _ returned).1 start converted

/-- A file of two blocks in one unwritten extent, at block 100. -/
def preallocated : State where
  volume := Alloc.oneFree
  inode := ⟨12,false,⟨2048,0,4,0,0,⟨0xf30a,1,4,0,fun _ => ⟨0,2^15 + 2,100⟩⟩⟩⟩
  node := fun _ => ⟨0,0,0,0,fun _ => ⟨0,0,0⟩⟩
  verified := fun _ => false
  count := fun _ => 0

def preallocatedTree : Tree 0 := [(⟨0,2^15 + 2,100⟩ : Slot)]

theorem preallocated_tree : HasTree preallocated 0 preallocatedTree := by
  refine ⟨⟨⟨rfl,rfl,rfl,by decide,by decide,by decide⟩,?_⟩,List.nodup_nil,?_,Or.inl rfl⟩
  · intro i x here
    obtain ⟨inside,rfl⟩ := List.getElem?_eq_some_iff.mp here
    obtain rfl := Nat.lt_one_iff.mp inside
    rfl
  · exact ⟨0,2,by decide,⟨by decide,by decide,by decide⟩,(by decide : 2 ≤ 2^32)⟩

theorem preallocated_physical : ∀ x ∈ flat 0 preallocatedTree, ext4ExtPblock x ≠ 0 :=
  fun x member => by rw [List.mem_singleton.mp member]; decide

theorem preallocated_unwritten {k : Nat} (inside : k < 2048) :
    inUnwritten (superBlockSize preallocated.volume.superBlock) (flat 0 preallocatedTree) k := by
  refine ⟨⟨0,2^15 + 2,100⟩,List.mem_cons_self,by decide,Nat.zero_le _,?_⟩
  rw [show superBlockSize preallocated.volume.superBlock = 1024 by decide,show extentStop ⟨0,2^15 + 2,100⟩ = 2 by decide]
  omega

/-- Zeros below the extent, and sevens around it. -/
def clearedCache : Disk.Cache :=
  {Disk.emptyCache with device := fun i => if 102400 ≤ i ∧ i < 104448 then 0 else 7}

/-- From inside the first block into the second. -/
theorem honours_iff_zeros : Honours (preadBlockSize preallocated.volume.superBlock (by decide)) clearedCache preallocated
    (flat 0 preallocatedTree) (.read 1500 300) := by
  have blocks : superBlockSize preallocated.volume.superBlock = 1024 := by decide
  have count : truncateSize preallocated.inode 1500 300 = 1500 := by decide
  have first : firstLength 1024 1500 300 = 724 := by decide
  have whole {k : Nat} (inside : k < 2048) : ¬lookedHole 1024 (flat 0 preallocatedTree) k := by
    obtain ⟨x,member,_,covered⟩ := preallocated_unwritten inside
    rw [blocks] at covered
    rw [lookedHole_low (by omega)]
    exact fun hole => hole x member covered
  refine (honours_iff clearedCache preallocated_tree (by decide) preallocated_physical (by decide) (.read 1500 300)
    ⟨by decide,by decide,300,Nat.le_refl _,by decide,preallocated_unwritten (by decide)⟩).mpr ?_
  rw [honoursWhen,blocks,count]
  refine ⟨?_,?_,?_⟩
  · rintro (⟨_,_,high⟩ | ⟨⟨k,_,most,hole⟩,_⟩)
    · exact absurd high (by decide)
    · exact whole (by omega) hole
  · rintro ⟨k,least,most,_⟩
    rw [first] at least
    omega
  · intro k least most _ x member _ covered
    rw [List.mem_singleton.mp member] at covered ⊢
    change clearedCache.device ((100 + (k / 1024 - 0)) * 1024 + k % 1024) = 0
    exact if_pos (by omega)

/-- What the device held before comes out, and ten bytes written leave the extent unwritten. -/
theorem unwritten_shown : HasTree preallocated 0 preallocatedTree ∧
    ¬Honours (preadBlockSize preallocated.volume.superBlock (by decide)) Disk.emptyCache preallocated (flat 0 preallocatedTree)
      (.read 1024 0) ∧
    ¬Honours (preadBlockSize preallocated.volume.superBlock (by decide)) Disk.emptyCache preallocated (flat 0 preallocatedTree)
      (.write (List.replicate 10 7) 0) := by
  refine ⟨preallocated_tree,?_,?_⟩
  · rintro ⟨s',c',bytes,returned,zeros⟩
    have read : (opRead (buffered (preadBlockSize preallocated.volume.superBlock (by decide))) preallocated Disk.emptyCache 1024 0).map
        (fun r => r.2.2[0]?) = some (some 1) := by decide +kernel
    rw [returned] at read
    obtain ⟨inside,one⟩ := List.getElem?_eq_some_iff.mp (Option.some.inj read)
    have zero := zeros 0 inside (preallocated_unwritten (by decide))
    rw [one] at zero
    exact absurd zero (by decide)
  · rintro ⟨s',c',n,returned,converted⟩
    have mapped : mappedAll (superBlockSize preallocated.volume.superBlock) (flat 0 preallocatedTree) 0
        (List.replicate 10 (7 : UInt8)).length := fun i inside => by
      rw [List.length_replicate] at inside
      obtain ⟨x,member,_,covered⟩ := @preallocated_unwritten (0 + i) (by omega)
      exact ⟨x,member,covered⟩
    exact not_converted (opWrite_lays lays_any preallocated_physical preallocated_tree (by decide) rfl (by decide) (by decide) (by decide)
      mapped _ returned).1 (preallocated_unwritten (by decide)) converted

end Ext4Fuse.UnwrittenBlocks
