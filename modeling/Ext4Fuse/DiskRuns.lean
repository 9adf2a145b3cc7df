import Ext4Fuse.Disk

/-! Any requests to `disk.c`, with the writeback and the reuse of buffers in between, over the device as a plain array of bytes. -/
namespace Ext4Fuse.DiskRuns
open Machine Library.Bytes Disk

variable (block : BlockSize)

/-- `sync_dirty_buffer` of an unused buffer, and its write. -/
def syncDirtyBuffer (c : Cache) (b : Nat) : Cache :=
  match c.buffers b with
  | some bh =>
    if bh.dirty then
      {c with
        device := overlay c.device (b * block.bytes) (slice bh.bData 0 block.bytes)
        buffers := fun i => if i = b then some {bh with dirty := false,settled := nofun} else c.buffers i}
    else c
  | none => c

/-- `remove_first_bh_from_freelist`, when the first of the list is the buffer of block `b`; a dirty buffer is not on that list. -/
def dropBuffer (c : Cache) (b : Nat) : Cache :=
  match c.buffers b with
  | some bh => if bh.dirty then c else {c with buffers := fun i => if i = b then none else c.buffers i}
  | none => c

inductive Request
  | read (pos size : Nat)
  | write (pos : Nat) (p : List UInt8)
  | sync (b : Nat)
  | drop (b : Nat)

/-- What a request returns, and what it leaves in the caller's buffer. -/
abbrev Answer := Int × List UInt8

/-- A read or a write whose aligned part holds at most one whole block, and a write of at least one byte. -/
def Request.oneBlock : Request → Bool
  | .read pos size => (size - headSize block pos size) / block.bytes ≤ 1
  | .write pos p => 0 < p.length && (p.length - headSize block pos p.length) / block.bytes ≤ 1
  | _ => true

section Write
variable {c c' : Cache} {ret : Int}

end Write

/-- The blocks that are not dirty are on the device. -/
def Clean (c : Cache) : Prop :=
  ∀ b, ¬c.dirty b → ∀ i, i < block.bytes → c.content block (b * block.bytes + i) = c.device (b * block.bytes + i)

section Steps
variable {block} {c c' : Cache}

theorem overlay_other (content values : Nat → UInt8) {b addr : Nat} (other : addr / block.bytes ≠ b) :
    overlay content (b * block.bytes) (slice values 0 block.bytes) addr = content addr := by
  have place := block_position block addr
  have part := Nat.mod_lt addr block.pos
  rcases Nat.lt_or_gt_of_ne other with less | more
  · have most := Nat.mul_le_mul_right block.bytes (Nat.succ_le_of_lt less)
    rw [Nat.succ_mul] at most
    exact overlay_before _ _ _ _ (by omega)
  · have most := Nat.mul_le_mul_right block.bytes (Nat.succ_le_of_lt more)
    rw [Nat.succ_mul] at most
    exact overlay_after _ _ _ _ (by rw [slice_length]; omega)

theorem block_quotient (b : Nat) {i : Nat} (inside : i < block.bytes) : (b * block.bytes + i) / block.bytes = b := by
  rw [Nat.mul_comm,Nat.mul_add_div block.pos,Nat.div_eq_of_lt inside,Nat.add_zero]

theorem Clean.same (clean : Clean block c) (same : Same block c c') : Clean block c' := by
  intro b undirty i inside
  rw [same.content,same.device]
  exact clean b (fun dirty => undirty ((same.dirty b).mpr dirty)) i inside

theorem Clean.write (clean : Clean block c) {pos : Nat} {p : List UInt8} (stored : Stored block c c' pos p) (device : c'.device = c.device) :
    Clean block c' := by
  intro b undirty i inside
  rw [stored.2,not_or] at undirty
  obtain ⟨before,untouched⟩ := undirty
  have quotient := block_quotient b inside
  rw [stored.1,device,← clean b before i inside]
  by_cases low : b * block.bytes + i < pos
  · exact overlay_before _ _ _ _ low
  · refine overlay_after _ _ _ _ (Nat.le_of_not_lt fun high => untouched ⟨b * block.bytes + i - pos,by omega,?_⟩)
    rw [Nat.add_sub_cancel' (Nat.le_of_not_lt low),quotient]

theorem syncDirtyBuffer_content (b : Nat) : (syncDirtyBuffer block c b).content block = c.content block := by
  unfold syncDirtyBuffer
  split
  · rename_i bh held
    split
    · rename_i dirty
      have valid := bh.settled dirty
      funext addr
      by_cases same : addr / block.bytes = b
      · simp [Cache.content,same,held,valid]
      · have outside := overlay_other c.device bh.bData same
        simp [Cache.content,same,outside]
    · rfl
  · rfl

theorem syncDirtyBuffer_dirty (b b' : Nat) : (syncDirtyBuffer block c b).dirty b' ↔ c.dirty b' ∧ b' ≠ b := by
  unfold syncDirtyBuffer
  by_cases same : b' = b
  · subst same
    refine iff_of_false ?_ (fun both => both.2 rfl)
    split
    · rename_i bh held
      split
      · simp [Cache.dirty]
      · rename_i clean
        simpa [Cache.dirty,held] using clean
    · rename_i held
      simp [Cache.dirty,held]
  · rw [and_iff_left same]
    split
    · split
      · simp [Cache.dirty,same]
      · rfl
    · rfl

theorem Clean.sync (clean : Clean block c) (b : Nat) : Clean block (syncDirtyBuffer block c b) := by
  intro b' undirty i inside
  rw [syncDirtyBuffer_dirty,not_and_not_right] at undirty
  rw [syncDirtyBuffer_content]
  unfold syncDirtyBuffer
  by_cases same : b' = b
  · subst same
    split
    · rename_i bh held
      split
      · rename_i dirty
        have data := content_block block c b' i inside
        have reached := overlay_inside c.device (b' * block.bytes) (slice bh.bData 0 block.bytes) i (by rwa [slice_length])
        rw [slice_getElem,Nat.zero_add] at reached
        rw [data]
        simp only [getblk,held,Option.getD_some,bhSubmitRead,bh.settled dirty,if_true]
        exact reached.symm
      · rename_i unmarked
        exact clean b' (by simpa [Cache.dirty,held] using unmarked) i inside
    · rename_i held
      exact clean b' (by simp [Cache.dirty,held]) i inside
  · have there := clean b' (fun dirty => same (undirty dirty)) i inside
    have elsewhere : (b' * block.bytes + i) / block.bytes ≠ b := by rwa [block_quotient b' inside]
    split
    · split
      · exact there.trans (overlay_other c.device _ elsewhere).symm
      · exact there
    · exact there

theorem Clean.drop (clean : Clean block c) (b : Nat) : (dropBuffer c b).content block = c.content block ∧ Clean block (dropBuffer c b) := by
  unfold dropBuffer
  split
  · rename_i bh held
    split
    · exact ⟨rfl,clean⟩
    · rename_i unmarked
      have undirty : ¬c.dirty b := by simpa [Cache.dirty,held] using unmarked
      have same : ({c with buffers := fun i => if i = b then none else c.buffers i} : Cache).content block = c.content block := by
        funext addr
        by_cases here : addr / block.bytes = b
        · have stored := clean b undirty (addr % block.bytes) (Nat.mod_lt addr block.pos)
          rw [← here,block_position block addr] at stored
          rw [stored]
          simp [Cache.content,here]
        · simp [Cache.content,here]
      refine ⟨same,fun b' undirty' i inside => ?_⟩
      rw [same]
      by_cases here : b' = b
      · exact here ▸ clean b undirty i inside
      · refine clean b' (fun dirty => undirty' ?_) i inside
        simpa [Cache.dirty,here] using dirty
  · exact ⟨rfl,clean⟩

end Steps

end Ext4Fuse.DiskRuns
