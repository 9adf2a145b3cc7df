import Ext4Fuse.GroupChecksum
import Ext4Fuse.FlatDevice
import Ext4Fuse.Groups
import Ext4Fuse.Library.Partial

/-! `gdesc_table` and its place on the device: where a descriptor is read and written, the
setters that mark it dirty, and what a table read afresh shows. -/
namespace Ext4Fuse.GroupTable
open Machine Ext4Fuse.Types Super FlatDevice GroupChecksum Library.Bytes Library.Partial

/-- `struct group_desc_info`, the descriptor as its 64 bytes. -/
structure GroupDescInfo where
  gdesc : Nat → UInt8
  dirty : Bool

variable (sb : SuperBlock) (sUuid : Vector UInt8 16)

def descriptorLoc (logicalSbBlock nr : Nat) : Option Nat :=
  if !hasIncompatFeature sb featureIncompatMetaBg || nr < sb.sFirstMetaBg.toNat then
    some (u64 (logicalSbBlock + nr + 1 : Nat))
  else do
    let bg := u32 (ext4DescPerBlock sb * nr : Nat)
    let hasSuper ← ext4BgHasSuper sb bg
    return u64 ((if hasSuper ≠ 0 then 1 else 0) + ext4GroupFirstBlockNo sb bg : Nat)

def sbBlock : Nat := if superBlockSize sb ≠ 1024 then 1024 / superBlockSize sb else 1

/-- `bg_off`, an `off_t` that a 64-bit block number is shifted into. -/
def bgOff (i : Nat) : Option Int :=
  (descriptorLoc sb (sbBlock sb) (i / ext4DescPerBlock sb)).map fun loc =>
    i64 (u64 (loc * 2^superBlockSizeBits sb : Nat)) +
      u32 (superGroupDescSize sb * (i &&& u32 (ext4DescPerBlock sb - 1 : Int)) : Nat)

def fillOne (device : Device) (table : Nat → GroupDescInfo) (i : Nat) : Option (Nat → GroupDescInfo) := do
  let off ← bgOff sb i
  let bytes ← diskRead device off (superGroupDescSize sb)
  return Function.update table i {table i with gdesc := overlay (table i).gdesc 0 bytes}

def superGroupFill (device : Device) : Option (Nat → GroupDescInfo) :=
  (List.range (superNBlockGroups sb)).foldlM (fillOne sb device) fun _ => ⟨fun _ => 0,false⟩

/-- The device and `gdesc_table`. -/
structure Mounted where
  device : Device
  table : Nat → GroupDescInfo

def writebackOne (s : Mounted) (i : Nat) : Option Mounted := do
  let off ← bgOff sb i
  if (s.table i).dirty then
    let gdesc := checked sb sUuid i (s.table i).gdesc
    let device ← diskWrite s.device off (slice gdesc 0 (superGroupDescSize sb))
    return ⟨device,Function.update s.table i ⟨gdesc,false⟩⟩
  else return s

def superGroupWriteback (s : Mounted) : Option Mounted :=
  (List.range (superNBlockGroups sb)).foldlM (writebackOne sb sUuid) s

/-! The setters: a value goes into a low part and, with 64-byte descriptors, a high one. -/

def setParts (lo hi width value : Nat) (gdesc : Nat → UInt8) : Nat → UInt8 :=
  let gdesc := overlay gdesc lo (leBytes width value)
  if 64 ≤ superGroupDescSize sb then overlay gdesc hi (leBytes width (value / 256^width)) else gdesc

def blockBitmapSet := setParts sb 0 32 4
def inodeBitmapSet := setParts sb 4 36 4
def inodeTableSet := setParts sb 8 40 4
def freeBlksSet := setParts sb 12 44 2
def freeInodesSet := setParts sb 14 46 2
def usedDirsSet := setParts sb 16 48 2
def itableUnusedSet := setParts sb 28 50 2

/-- The seven `ext4_..._set`. -/
inductive Setter
  | blockBitmap
  | inodeBitmap
  | inodeTable
  | freeBlks
  | freeInodes
  | usedDirs
  | itableUnused
  deriving DecidableEq

def Setter.apply : Setter → Nat → (Nat → UInt8) → Nat → UInt8
  | .blockBitmap => blockBitmapSet sb
  | .inodeBitmap => inodeBitmapSet sb
  | .inodeTable => inodeTableSet sb
  | .freeBlks => freeBlksSet sb
  | .freeInodes => freeInodesSet sb
  | .usedDirs => usedDirsSet sb
  | .itableUnused => itableUnusedSet sb

/-- What `ext4_init_block_bitmap` does to `bg_flags`. -/
def clearBlockUninit (gdesc : Nat → UInt8) : Nat → UInt8 :=
  overlay gdesc 18 (leBytes 2 (UInt16.ofNat (leValue (slice gdesc 18 2)) &&& ~~~bgBlockUninit).toNat)

inductive Update
  | set (setter : Setter) (blockGroup value : Nat)
  | initBlockBitmap (blockGroup : Nat)
  | writeback

/-- An entry behind the table has no result. -/
def Mounted.change (s : Mounted) (blockGroup : Nat) (change : (Nat → UInt8) → Nat → UInt8) : Option Mounted :=
  if blockGroup < superNBlockGroups sb then
    some {s with table := Function.update s.table blockGroup ⟨change (s.table blockGroup).gdesc,true⟩}
  else none

def update (s : Mounted) : Update → Option Mounted
  | .set setter blockGroup value => s.change sb blockGroup (setter.apply sb value)
  | .initBlockBitmap blockGroup => s.change sb blockGroup clearBlockUninit
  | .writeback => superGroupWriteback sb sUuid s

/-- `super_group_fill`, then updates in any number and order. -/
def mounted (device : Device) (updates : List Update) : Option Mounted := do
  let table ← superGroupFill sb device
  updates.foldlM (update sb sUuid) ⟨device,table⟩

/-! Where the descriptors are. -/

/-- Block sizes that are powers of two, and a volume whose offsets fit an `off_t`. -/
structure Placed : Prop where
  log : sb.sLogBlockSize.toNat < 22
  fits : (ext4BlocksCount sb + superFirstDataBlock sb + 1) * superBlockSize sb ≤ 2^63

def hasSuperBlock (group : Nat) : Nat := if (ext4BgHasSuper sb group).getD 0 ≠ 0 then 1 else 0

/-- The block of a metagroup's descriptors. -/
def descBlock (nr : Nat) : Nat :=
  if !hasIncompatFeature sb featureIncompatMetaBg || nr < sb.sFirstMetaBg.toNat then sbBlock sb + nr + 1
  else hasSuperBlock sb (ext4DescPerBlock sb * nr) + (ext4DescPerBlock sb * nr * superBlocksPerGroup sb + superFirstDataBlock sb)

def descPlace (i : Nat) : Nat :=
  descBlock sb (i / ext4DescPerBlock sb) * superBlockSize sb + superGroupDescSize sb * (i % ext4DescPerBlock sb)

variable {sb sUuid}

theorem superGroupDescSize_cases (sb : SuperBlock) : superGroupDescSize sb = 2^5 ∨ superGroupDescSize sb = 2^6 := by
  unfold superGroupDescSize
  split
  · exact Or.inl rfl
  · exact Or.inr rfl

theorem Placed.blockSize (placed : Placed sb) : superBlockSize sb = 2^(sb.sLogBlockSize.toNat + 10) := by
  have log := placed.log
  exact u32_small _ (Nat.pow_lt_pow_right (by decide) (by omega))

/-- As many descriptors as a block holds are a power of two. -/
theorem Placed.descPerBlock (placed : Placed sb) : ∃ k, 4 ≤ k ∧ k < 32 ∧ ext4DescPerBlock sb = 2^k ∧
    superGroupDescSize sb * ext4DescPerBlock sb = superBlockSize sb := by
  have log := placed.log
  have quotient (e : Nat) (small : e ≤ sb.sLogBlockSize.toNat + 10) (size : superGroupDescSize sb = 2^e) :
      ext4DescPerBlock sb = 2^(sb.sLogBlockSize.toNat + 10 - e) := by
    rw [ext4DescPerBlock,placed.blockSize,size,Nat.pow_div small (by decide)]
  have product (e : Nat) (small : e ≤ sb.sLogBlockSize.toNat + 10) (size : superGroupDescSize sb = 2^e) :
      superGroupDescSize sb * ext4DescPerBlock sb = superBlockSize sb := by
    rw [quotient e small size,size,placed.blockSize,← Nat.pow_add,Nat.add_sub_cancel' small]
  rcases superGroupDescSize_cases sb with size | size
  · exact ⟨_,by omega,by omega,quotient 5 (by omega) size,product 5 (by omega) size⟩
  · exact ⟨_,by omega,by omega,quotient 6 (by omega) size,product 6 (by omega) size⟩

theorem Placed.sixteen_le (placed : Placed sb) : 16 ≤ ext4DescPerBlock sb := by
  obtain ⟨k,least,_,power,_⟩ := placed.descPerBlock
  rw [power]
  exact Nat.pow_le_pow_right (show 0 < 2 by decide) least

/-- The first group of a metagroup is even, so that `test_root` is not asked. -/
theorem Placed.ext4BgHasSuper (placed : Placed sb) (nr : Nat) :
    ∃ h, ext4BgHasSuper sb (ext4DescPerBlock sb * nr) = some h := by
  obtain ⟨k,least,_,power,_⟩ := placed.descPerBlock
  have even : ext4DescPerBlock sb * nr % 2 = 0 := by
    obtain ⟨j,rfl⟩ := Nat.exists_eq_add_of_le' least
    rw [power,Nat.pow_add,show 2^4 = 2 * 8 by rfl,Nat.mul_left_comm,Nat.mul_assoc]
    exact Nat.mul_mod_right 2 _
  unfold Super.ext4BgHasSuper ext4GroupSparse
  rw [if_pos even]
  split
  · split
    · exact ⟨_,rfl⟩
    · exact ⟨_,rfl⟩
  · exact ⟨_,rfl⟩

/-- Groups are counted where there are blocks to count. -/
theorem last_group {i : Nat} (inside : i < superNBlockGroups sb) :
    0 < superBlocksPerGroup sb ∧ i * superBlocksPerGroup sb + 1 ≤ ext4BlocksCount sb := by
  have counted : 0 < superNBlockGroups sb := by omega
  have positive : 0 < superBlocksPerGroup sb := by
    by_contra zero
    rw [superNBlockGroups,Nat.eq_zero_of_not_pos zero,Nat.div_zero] at counted
    exact absurd counted (by decide)
  have some_ : 0 < ext4BlocksCount sb := by
    by_contra zero
    have few := superBlocksPerGroup_lt sb
    have cast : ((0 : Nat) + superBlocksPerGroup sb - 1 : Int) = ((superBlocksPerGroup sb - 1 : Nat) : Int) := by omega
    rw [superNBlockGroups,Nat.eq_zero_of_not_pos zero,cast,u64_small _ (by omega),Nat.div_eq_of_lt (by omega)] at counted
    exact absurd counted (by decide)
  have number := Groups.superNBlockGroups_mod positive some_ counted
  have wrapped := Nat.mod_le ((ext4BlocksCount sb - 1) / superBlocksPerGroup sb + 1) (2^32)
  have rows := Nat.mul_le_mul_right (superBlocksPerGroup sb)
    (show i ≤ (ext4BlocksCount sb - 1) / superBlocksPerGroup sb by omega)
  have whole := Nat.div_mul_le_self (ext4BlocksCount sb - 1) (superBlocksPerGroup sb)
  exact ⟨positive,by omega⟩

theorem superNBlockGroups_lt : superNBlockGroups sb < 2^32 := u32_lt _

theorem Placed.sbBlock_le (placed : Placed sb) : sbBlock sb ≤ 1 := by
  unfold sbBlock
  split
  · rw [placed.blockSize]
    have least : 2^10 ≤ 2^(sb.sLogBlockSize.toNat + 10) := Nat.pow_le_pow_right (by decide) (Nat.le_add_left 10 _)
    exact Nat.div_le_of_le_mul (by omega)
  · exact Nat.le_refl 1

theorem hasSuperBlock_le (sb : SuperBlock) (group : Nat) : hasSuperBlock sb group ≤ 1 := by
  unfold hasSuperBlock
  split <;> decide

theorem Placed.descBlock_fits (placed : Placed sb) {i : Nat} (inside : i < superNBlockGroups sb) :
    (descBlock sb (i / ext4DescPerBlock sb) + 1) * superBlockSize sb ≤ 2^63 := by
  obtain ⟨positive,last⟩ := last_group inside
  have few := @superNBlockGroups_lt sb
  have sixteen := placed.sixteen_le
  unfold descBlock
  split
  · have log := placed.log
    have first := placed.sbBlock_le
    have metagroups : i / ext4DescPerBlock sb ≤ i / 16 := Nat.div_le_div_left sixteen (by decide)
    have block : superBlockSize sb ≤ 2^31 := by
      rw [placed.blockSize]
      exact Nat.pow_le_pow_right (by decide) (by omega)
    have number : sbBlock sb + i / ext4DescPerBlock sb + 1 + 1 ≤ 2^29 := by omega
    exact Nat.le_trans (Nat.mul_le_mul number block) (by decide)
  · have group := Nat.mul_div_le i (ext4DescPerBlock sb)
    have rows := Nat.mul_le_mul_right (superBlocksPerGroup sb) group
    have backup := hasSuperBlock_le sb (ext4DescPerBlock sb * (i / ext4DescPerBlock sb))
    exact Nat.le_trans (Nat.mul_le_mul_right _ (by omega)) placed.fits

theorem Placed.descriptorLoc (placed : Placed sb) {i : Nat} (inside : i < superNBlockGroups sb) :
    descriptorLoc sb (sbBlock sb) (i / ext4DescPerBlock sb) = some (descBlock sb (i / ext4DescPerBlock sb)) := by
  have few := @superNBlockGroups_lt sb
  have fits := placed.descBlock_fits inside
  have bound : descBlock sb (i / ext4DescPerBlock sb) < 2^64 := by
    have block := Nat.two_pow_pos (sb.sLogBlockSize.toNat + 10)
    rw [← placed.blockSize] at block
    have less := Nat.le_trans (Nat.le_mul_of_pos_right (descBlock sb (i / ext4DescPerBlock sb) + 1) block) fits
    exact Nat.lt_of_lt_of_le (Nat.lt_of_succ_le less) (by decide)
  unfold GroupTable.descriptorLoc descBlock at *
  split
  · rename_i linear
    rw [if_pos linear] at bound
    rw [u64_small _ bound]
  · rename_i away
    rw [if_neg away] at bound
    have group := Nat.mul_div_le i (ext4DescPerBlock sb)
    have number : u32 (ext4DescPerBlock sb * (i / ext4DescPerBlock sb) : Nat) = ext4DescPerBlock sb * (i / ext4DescPerBlock sb) :=
      u32_small _ (by omega)
    obtain ⟨h,backup⟩ := placed.ext4BgHasSuper (i / ext4DescPerBlock sb)
    have first := @Groups.ext4GroupFirstBlockNo_eq sb (ext4DescPerBlock sb * (i / ext4DescPerBlock sb)) (by omega)
    have flag : (if h ≠ 0 then 1 else 0) = hasSuperBlock sb (ext4DescPerBlock sb * (i / ext4DescPerBlock sb)) := by
      rw [hasSuperBlock,backup,Option.getD_some]
    dsimp only
    rw [number,backup,Option.bind_eq_bind,Option.bind_some,first,flag,u64_small _ bound]
    rfl

theorem Placed.mask (placed : Placed sb) (i : Nat) :
    i &&& u32 (ext4DescPerBlock sb - 1 : Int) = i % ext4DescPerBlock sb := by
  obtain ⟨k,_,small,power,_⟩ := placed.descPerBlock
  have bound : 2^k < 2^32 := Nat.pow_lt_pow_right (by decide) small
  have positive := Nat.two_pow_pos k
  have cast : (ext4DescPerBlock sb - 1 : Int) = ((2^k - 1 : Nat) : Int) := by rw [power]; omega
  rw [cast,u32_small _ (by omega),power]
  exact Nat.and_two_pow_sub_one_eq_mod i k

/-- A descriptor lies in the block of its metagroup. -/
theorem Placed.inBlock (placed : Placed sb) (i : Nat) :
    superGroupDescSize sb * (i % ext4DescPerBlock sb) + superGroupDescSize sb ≤ superBlockSize sb := by
  obtain ⟨_,_,_,_,product⟩ := placed.descPerBlock
  have index := Nat.mod_lt i (Nat.lt_of_lt_of_le (by decide) placed.sixteen_le)
  have rows := Nat.mul_le_mul_left (superGroupDescSize sb) (Nat.succ_le_of_lt index)
  rw [Nat.mul_succ,product] at rows
  exact rows

theorem Placed.bgOff (placed : Placed sb) {i : Nat} (inside : i < superNBlockGroups sb) :
    bgOff sb i = some (descPlace sb i : Int) := by
  have fits := placed.descBlock_fits inside
  have row := placed.inBlock i
  rw [Nat.succ_mul] at fits
  have block : superBlockSize sb < 2^32 := u32_lt _
  have size : 0 < superGroupDescSize sb := by rcases superGroupDescSize_cases sb with size | size <;> rw [size] <;> decide
  have shifted : descBlock sb (i / ext4DescPerBlock sb) * 2^superBlockSizeBits sb =
      descBlock sb (i / ext4DescPerBlock sb) * superBlockSize sb := by rw [placed.blockSize]; rfl
  have base : descBlock sb (i / ext4DescPerBlock sb) * superBlockSize sb < 2^63 := by omega
  rw [GroupTable.bgOff,placed.descriptorLoc inside,Option.map_some,shifted,u64_small _ (Nat.lt_trans base (by decide)),
    i64_nat base,placed.mask,u32_small _ (by omega),descPlace,Nat.cast_add]

/-- Different metagroups have their descriptors in different blocks. -/
theorem Placed.descBlock_lt (placed : Placed sb) (positive : 0 < superBlocksPerGroup sb) {nr nr' : Nat} (less : nr < nr') :
    descBlock sb nr < descBlock sb nr' := by
  have sixteen := placed.sixteen_le
  have first := placed.sbBlock_le
  have backup := hasSuperBlock_le sb (ext4DescPerBlock sb * nr)
  have far : 16 * nr' ≤ ext4DescPerBlock sb * nr' * superBlocksPerGroup sb :=
    Nat.le_trans (Nat.mul_le_mul_right nr' sixteen) (Nat.le_mul_of_pos_right _ positive)
  have step : ext4DescPerBlock sb * nr * superBlocksPerGroup sb + 16 ≤ ext4DescPerBlock sb * nr' * superBlocksPerGroup sb := by
    have groups := Nat.mul_le_mul_left (ext4DescPerBlock sb) (Nat.succ_le_of_lt less)
    rw [Nat.mul_succ] at groups
    have blocks := Nat.mul_le_mul_right (superBlocksPerGroup sb) groups
    rw [Nat.add_mul] at blocks
    have many := Nat.le_mul_of_pos_right (ext4DescPerBlock sb) positive
    omega
  unfold descBlock
  by_cases off : hasIncompatFeature sb featureIncompatMetaBg = true
  · simp only [off,Bool.not_true,Bool.false_or,decide_eq_true_eq]
    split <;> split <;> omega
  · simp only [off,Bool.not_false,Bool.true_or,if_true]
    omega

theorem Placed.descPlace_apart (placed : Placed sb) {i j : Nat} (inside : i < superNBlockGroups sb) (other : i ≠ j) :
    descPlace sb i + superGroupDescSize sb ≤ descPlace sb j ∨ descPlace sb j + superGroupDescSize sb ≤ descPlace sb i := by
  obtain ⟨positive,_⟩ := last_group inside
  have row := placed.inBlock i
  have row' := placed.inBlock j
  have blocks {nr nr' : Nat} (less : nr < nr') : descBlock sb nr * superBlockSize sb + superBlockSize sb ≤
      descBlock sb nr' * superBlockSize sb := by
    have step := Nat.mul_le_mul_right (superBlockSize sb) (Nat.succ_le_of_lt (placed.descBlock_lt positive less))
    rwa [Nat.succ_mul] at step
  unfold descPlace
  rcases Nat.lt_trichotomy (i / ext4DescPerBlock sb) (j / ext4DescPerBlock sb) with before | same | behind
  · have := blocks before
    omega
  · have parts := Nat.div_add_mod i (ext4DescPerBlock sb)
    have parts' := Nat.div_add_mod j (ext4DescPerBlock sb)
    rw [same] at parts ⊢
    have rows {a b : Nat} (less : a < b) : superGroupDescSize sb * a + superGroupDescSize sb ≤ superGroupDescSize sb * b :=
      Nat.mul_succ _ _ ▸ Nat.mul_le_mul_left _ (Nat.succ_le_of_lt less)
    rcases Nat.lt_or_gt_of_ne (show i % ext4DescPerBlock sb ≠ j % ext4DescPerBlock sb by omega) with less | more
    · have := rows less
      omega
    · have := rows more
      omega
  · have := blocks behind
    omega

/-! What a table read afresh shows. -/

theorem superGroupFill_eq (placed : Placed sb) (device : Device) : ∃ table, superGroupFill sb device = some table ∧
    ∀ i, i < superNBlockGroups sb → table i =
      ⟨overlay (fun _ => 0) 0 (slice device (descPlace sb i) (superGroupDescSize sb)),false⟩ := by
  have filled := foldlM_range (fillOne sb device)
    (fun k table => (∀ i, i < k → table i = ⟨overlay (fun _ => 0) 0 (slice device (descPlace sb i) (superGroupDescSize sb)),false⟩) ∧
      ∀ i, k ≤ i → table i = ⟨fun _ => 0,false⟩) (fun _ => ⟨fun _ => 0,false⟩) (superNBlockGroups sb) ⟨nofun,fun _ _ => rfl⟩ ?_
  · obtain ⟨table,result,done,_⟩ := filled
    exact ⟨table,result,done⟩
  · rintro k table inside ⟨done,rest⟩
    refine ⟨_,by rw [fillOne,placed.bgOff inside,Option.bind_eq_bind,Option.bind_some,diskRead_nat]; rfl,fun i less => ?_,fun i more => ?_⟩
    · rcases Nat.lt_or_eq_of_le (Nat.lt_succ_iff.mp less) with before | rfl
      · rw [Function.update_of_ne (by omega)]
        exact done i before
      · rw [Function.update_self,rest i (Nat.le_refl i)]
    · rw [Function.update_of_ne (by omega)]
      exact rest i (by omega)

/-- Clean descriptors are as on the device, the checksum aside, and nothing is behind the bytes
that a descriptor has there. -/
structure Synced (sb : SuperBlock) (s : Mounted) : Prop where
  clean : ∀ i, i < superNBlockGroups sb → (s.table i).dirty = false → ∀ j, j < superGroupDescSize sb → ¬inChecksum j →
    s.device (descPlace sb i + j) = (s.table i).gdesc j
  behind : ∀ i j, i < superNBlockGroups sb → superGroupDescSize sb ≤ j → (s.table i).gdesc j = 0

theorem fill_synced (placed : Placed sb) (device : Device) : ∃ table, superGroupFill sb device = some table ∧ Synced sb ⟨device,table⟩ := by
  obtain ⟨table,filled,entry⟩ := superGroupFill_eq placed device
  refine ⟨table,filled,fun i inside _ j here _ => ?_,fun i j inside beyond => ?_⟩
  · have read := overlay_inside (fun _ => (0 : UInt8)) 0 (slice device (descPlace sb i) (superGroupDescSize sb)) j (by rwa [slice_length])
    rw [Nat.zero_add,slice_getElem] at read
    dsimp only
    rw [entry i inside]
    exact read.symm
  · dsimp only
    rw [entry i inside]
    refine overlay_after (fun _ => (0 : UInt8)) 0 (slice device (descPlace sb i) (superGroupDescSize sb)) j ?_
    rwa [slice_length,Nat.zero_add]

/-- What `super_group_fill` reads of a device that the table has been written to. -/
theorem Synced.fill (placed : Placed sb) {s : Mounted} (synced : Synced sb s)
    (clean : ∀ i, i < superNBlockGroups sb → (s.table i).dirty = false) : ∃ table, superGroupFill sb s.device = some table ∧
      ∀ i j, i < superNBlockGroups sb → ¬inChecksum j → (table i).gdesc j = (s.table i).gdesc j := by
  obtain ⟨table,filled,read⟩ := fill_synced placed s.device
  refine ⟨table,filled,fun i j inside beside => ?_⟩
  rcases Nat.lt_or_ge j (superGroupDescSize sb) with here | beyond
  · obtain ⟨table',filled',entry⟩ := superGroupFill_eq placed s.device
    obtain rfl := Option.some.inj (filled'.symm.trans filled)
    exact (read.clean i inside (by dsimp only; rw [entry i inside]) j here beside).symm.trans (synced.clean i inside (clean i inside) j here beside)
  · exact (read.behind i j inside beyond).trans (synced.behind i j inside beyond).symm

theorem setParts_beyond {lo hi width value j : Nat} {gdesc : Nat → UInt8} (low : lo + width ≤ 32) (high : hi + width ≤ 64)
    (beyond : superGroupDescSize sb ≤ j) : setParts sb lo hi width value gdesc j = gdesc j := by
  have size := superGroupDescSize_cases sb
  unfold setParts
  split
  · rw [overlay_after _ _ _ _ (by rw [leBytes_length]; omega),overlay_after _ _ _ _ (by rw [leBytes_length]; omega)]
  · rw [overlay_after _ _ _ _ (by rw [leBytes_length]; omega)]

theorem Setter.apply_beyond (setter : Setter) {value j : Nat} {gdesc : Nat → UInt8} (beyond : superGroupDescSize sb ≤ j) :
    setter.apply sb value gdesc j = gdesc j := by
  cases setter <;> exact setParts_beyond (by decide) (by decide) beyond

theorem clearBlockUninit_beyond {j : Nat} {gdesc : Nat → UInt8} (beyond : superGroupDescSize sb ≤ j) :
    clearBlockUninit gdesc j = gdesc j := by
  have size := superGroupDescSize_cases sb
  exact overlay_after _ _ _ _ (by rw [leBytes_length]; omega)

/-- A change marks its descriptor, and is no reason to trust the device for it. -/
theorem Synced.change {s s' : Mounted} (synced : Synced sb s) {g : Nat} {change : (Nat → UInt8) → Nat → UInt8}
    (inner : ∀ gdesc j, superGroupDescSize sb ≤ j → change gdesc j = gdesc j) (changed : s.change sb g change = some s') :
    Synced sb s' := by
  unfold Mounted.change at changed
  split at changed
  · rename_i inside
    obtain rfl := Option.some.inj changed
    refine ⟨fun i inside' clean j here beside => ?_,fun i j inside' beyond => ?_⟩
    · by_cases same : i = g
      · simp [same] at clean
      · simp only [Function.update_of_ne same] at clean ⊢
        exact synced.clean i inside' clean j here beside
    · by_cases same : i = g
      · simp only [same,Function.update_self]
        exact (inner _ j beyond).trans (synced.behind g j inside beyond)
      · simp only [Function.update_of_ne same]
        exact synced.behind i j inside' beyond
  · nomatch changed

theorem checked_beside {g j : Nat} {gdesc : Nat → UInt8} (beside : ¬inChecksum j) : checked sb sUuid g gdesc j = gdesc j := by
  unfold inChecksum at beside
  exact overlay_outside _ _ _ _ (by rw [leBytes_length]; omega)

/-- The table keeps what it says, the checksum aside. -/
def SameTable (sb : SuperBlock) (s s' : Mounted) : Prop :=
  ∀ i j, i < superNBlockGroups sb → ¬inChecksum j → (s'.table i).gdesc j = (s.table i).gdesc j

theorem beyond_beside {j : Nat} (beyond : superGroupDescSize sb ≤ j) : ¬inChecksum j := by
  have size := superGroupDescSize_cases sb
  unfold inChecksum bgChecksumOffset
  omega

/-- One round of `super_group_writeback`. -/
theorem writebackOne_synced (placed : Placed sb) {s : Mounted} (synced : Synced sb s) {i : Nat} (inside : i < superNBlockGroups sb) :
    ∃ s', writebackOne sb sUuid s i = some s' ∧ Synced sb s' ∧ SameTable sb s s' ∧ (s'.table i).dirty = false ∧
      ∀ k, (s.table k).dirty = false → (s'.table k).dirty = false := by
  rw [writebackOne,placed.bgOff inside,Option.bind_eq_bind,Option.bind_some]
  by_cases marked : (s.table i).dirty = true
  · rw [if_pos marked]
    dsimp only
    rw [diskWrite_nat]
    refine ⟨_,rfl,⟨fun k inside' clean j here beside => ?_,fun k j inside' beyond => ?_⟩,fun k j _ beside => ?_,
      by simp only [Function.update_self],fun k clean => ?_⟩
    · by_cases same : k = i
      · have written := overlay_inside s.device (descPlace sb i)
          (slice (checked sb sUuid i (s.table i).gdesc) 0 (superGroupDescSize sb)) j (by rwa [slice_length])
        rw [slice_getElem,Nat.zero_add] at written
        simp only [same,Function.update_self]
        exact written
      · simp only [Function.update_of_ne same] at clean ⊢
        rw [overlay_outside _ _ _ _ (by rw [slice_length]; have := placed.descPlace_apart inside (Ne.symm same); omega)]
        exact synced.clean k inside' clean j here beside
    · by_cases same : k = i
      · simp only [same,Function.update_self]
        exact (checked_beside (beyond_beside beyond)).trans (synced.behind i j inside beyond)
      · simp only [Function.update_of_ne same]
        exact synced.behind k j inside' beyond
    · by_cases same : k = i
      · simp only [same,Function.update_self]
        exact checked_beside beside
      · simp only [Function.update_of_ne same]
    · by_cases same : k = i
      · simp only [same,Function.update_self]
      · simp only [Function.update_of_ne same]
        exact clean
  · rw [if_neg marked]
    exact ⟨s,rfl,synced,fun _ _ _ _ => rfl,Bool.eq_false_iff.mpr marked,fun _ => id⟩

theorem superGroupWriteback_synced (sUuid : Vector UInt8 16) (placed : Placed sb) {s : Mounted} (synced : Synced sb s) :
    ∃ s', superGroupWriteback sb sUuid s = some s' ∧ Synced sb s' ∧ SameTable sb s s' ∧
      ∀ i, i < superNBlockGroups sb → (s'.table i).dirty = false := by
  refine foldlM_range (writebackOne sb sUuid)
    (fun k s' => Synced sb s' ∧ SameTable sb s s' ∧ ∀ i, i < k → (s'.table i).dirty = false) s (superNBlockGroups sb)
    ⟨synced,fun _ _ _ _ => rfl,nofun⟩ ?_
  rintro k s₁ inside ⟨kept,same,clean⟩
  obtain ⟨s₂,round,kept',same',last,others⟩ := writebackOne_synced placed kept inside
  refine ⟨s₂,round,kept',fun i j within beside => (same' i j within beside).trans (same i j within beside),fun i less => ?_⟩
  rcases Nat.lt_or_eq_of_le (Nat.lt_succ_iff.mp less) with before | rfl
  · exact others i (clean i before)
  · exact last

theorem update_synced (placed : Placed sb) {s s' : Mounted} (synced : Synced sb s) {u : Update}
    (updated : update sb sUuid s u = some s') : Synced sb s' := by
  cases u with
  | set setter g value => exact synced.change (fun _ _ beyond => setter.apply_beyond beyond) updated
  | initBlockBitmap g => exact synced.change (fun _ _ beyond => clearBlockUninit_beyond beyond) updated
  | writeback =>
    obtain ⟨s₁,result,kept,_⟩ := superGroupWriteback_synced sUuid placed synced
    obtain rfl := Option.some.inj (result.symm.trans updated)
    exact kept

theorem updates_synced (placed : Placed sb) (updates : List Update) {s s' : Mounted} (synced : Synced sb s)
    (updated : updates.foldlM (update sb sUuid) s = some s') : Synced sb s' := by
  induction updates generalizing s with
  | nil => exact Option.some.inj updated ▸ synced
  | cons u rest ih =>
    rw [List.foldlM_cons] at updated
    obtain ⟨s₁,first,others⟩ := Option.bind_eq_some_iff.mp updated
    exact ih (update_synced placed synced first) others

/-- Different descriptors have no byte in common. -/
def Apart (sb : SuperBlock) : Prop :=
  ∀ i j, i < superNBlockGroups sb → j < superNBlockGroups sb → i ≠ j → ∃ a b, bgOff sb i = some a ∧ bgOff sb j = some b ∧
    (a + superGroupDescSize sb ≤ b ∨ b + superGroupDescSize sb ≤ a)

/-- After updates and a `super_group_writeback` a table read afresh shows every descriptor as
it was, the checksum aside. -/
def ReadBack (sb : SuperBlock) (sUuid : Vector UInt8 16) : Prop :=
  ∀ device updates s, mounted sb sUuid device updates = some s → ∃ s' table, superGroupWriteback sb sUuid s = some s' ∧
    superGroupFill sb s'.device = some table ∧
    ∀ i j, i < superNBlockGroups sb → j < 64 → ¬inChecksum j → (table i).gdesc j = (s.table i).gdesc j

theorem descriptors_kept (placed : Placed sb) : Apart sb ∧ ReadBack sb sUuid := by
  refine ⟨fun i j inside inside' other => ⟨_,_,placed.bgOff inside,placed.bgOff inside',?_⟩,fun device updates s reached => ?_⟩
  · exact_mod_cast placed.descPlace_apart inside other
  · obtain ⟨table,filled,updated⟩ := Option.bind_eq_some_iff.mp reached
    obtain ⟨table',filled',start⟩ := fill_synced placed device
    obtain rfl := Option.some.inj (filled'.symm.trans filled)
    have synced := updates_synced placed updates start updated
    obtain ⟨s',stored,kept,same,clean⟩ := superGroupWriteback_synced sUuid placed synced
    obtain ⟨fresh,read,shows⟩ := kept.fill placed clean
    exact ⟨s',fresh,stored,read,fun i j inside _ beside => (shows i j inside beside).trans (same i j inside beside)⟩

/-- Blocks of 1024 bytes with the descriptors in the metagroups. -/
def metaBg (blocksLo blocksHi blocksPerGroup : UInt32) : SuperBlock where
  sBlocksCountLo := blocksLo
  sBlocksCountHi := blocksHi
  sFreeBlocksCountLo := 0
  sFreeBlocksCountHi := 0
  sFirstDataBlock := 1
  sLogBlockSize := 0
  sBlocksPerGroup := blocksPerGroup
  sInodesPerGroup := 1024
  sInodeSize := 256
  sDescSize := 0
  sFirstMetaBg := 0
  sReservedGdtBlocks := 0
  sFeatureIncompat := featureIncompatMetaBg
  sFeatureRoCompat := 0

theorem descriptors_kept_metaBg : Apart (metaBg 1000000 0 8192) ∧ ReadBack (metaBg 1000000 0 8192) (.replicate 16 0) :=
  descriptors_kept ⟨by decide,by decide⟩

/-- A volume of 2^54 blocks and one, whose offsets pass 2^64: the descriptors of group 2^23
come to lie on those of group 0. -/
theorem descriptors_collide : ¬Apart (metaBg 1 0x400000 0x80000000) := by
  intro apart
  obtain ⟨a,b,first,second,beside⟩ := apart 0 (2^23) (by decide) (by decide) (by decide)
  have place : bgOff (metaBg 1 0x400000 0x80000000) 0 = some 2048 := by decide
  have place' : bgOff (metaBg 1 0x400000 0x80000000) (2^23) = some 2048 := by decide
  obtain rfl := Option.some.inj (place.symm.trans first)
  obtain rfl := Option.some.inj (place'.symm.trans second)
  rcases beside with below | above
  · exact absurd below (by decide)
  · exact absurd above (by decide)

end Ext4Fuse.GroupTable
