import Ext4Fuse.Alloc
import Ext4Fuse.Library.Partial
import Mathlib.Algebra.BigOperators.Group.Finset.Piecewise
import Mathlib.Algebra.BigOperators.Ring.Finset

/-! The block counts of the inodes over runs of `alloc.c`: each file's count against what it was given, and the sum of the counts
against the free blocks of the volume. -/
namespace Ext4Fuse.BlockAccounts
open Machine Ext4Fuse.Types Super Alloc Library.Steps Library.Partial
open scoped BigOperators

/-! The count in an inode. -/

/-- The counts below are those that the inode can hold. -/
def capacity (sb : SuperBlock) (raw : RawInode) : Nat :=
  if hasRoCompatFeature sb featureRoCompatHugeFile then
    if raw.iFlags &&& hugeFileFl != 0 then 2^48 else 2^(48 - (superBlockSizeBits sb - 9))
  else 2^(32 - (superBlockSizeBits sb - 9))

section Inode
variable {sb : SuperBlock} (inode : Inode) (raw : RawInode) (n : Nat)

/-- What is left of a count that is shifted into a field of fewer bits and back. -/
theorem shifted_back {k width : Nat} (small : k ≤ width) (narrow : width ≤ 64) :
    u64 (n * 2^k : Nat) % 2^width / 2^k = n % 2^(width - k) := by
  have parts : 2^width = 2^(width - k) * 2^k := by rw [← Nat.pow_add,Nat.sub_add_cancel small]
  have divides : 2^width ∣ 2^64 := Nat.pow_dvd_pow 2 narrow
  have wrapped : u64 (n * 2^k : Nat) = n * 2^k % 2^64 := by
    unfold u64
    omega
  rw [wrapped,Nat.mod_mod_of_dvd _ divides,parts,Nat.mul_mod_mul_right,Nat.mul_div_cancel _ (Nat.two_pow_pos k)]

theorem wide_field (x : Nat) : (UInt16.ofNat (x / 2^32)).toNat * 2^32 + (UInt32.ofNat x).toNat = x % 2^48 := by
  rw [UInt16.toNat_ofNat',UInt32.toNat_ofNat']
  omega

theorem ext4InodeBlocks_set (small : sb.sLogBlockSize.toNat ≤ 6) :
    ext4InodeBlocks sb (ext4SetInodeBlocks sb inode n).rawInode = n % capacity sb inode.rawInode := by
  have bits : superBlockSizeBits sb - 9 ≤ 7 := by
    unfold superBlockSizeBits
    omega
  have wide := @shifted_back n (superBlockSizeBits sb - 9) 48 (by omega) (by omega)
  have narrow := @shifted_back n (superBlockSizeBits sb - 9) 32 (by omega) (by omega)
  unfold ext4SetInodeBlocks ext4InodeBlocks capacity inodeMarkDirty
  by_cases huge : hasRoCompatFeature sb featureRoCompatHugeFile = true
  · simp only [if_pos huge]
    by_cases flag : (inode.rawInode.iFlags &&& hugeFileFl != 0) = true
    · simp only [if_pos flag]
      exact wide_field n
    · simp only [if_neg flag]
      rw [wide_field]
      exact wide
  · simp only [if_neg huge,UInt32.toNat_ofNat']
    exact narrow

theorem ext4InodeBlocks_lt (small : sb.sLogBlockSize.toNat ≤ 6) : ext4InodeBlocks sb raw < capacity sb raw := by
  have bits : superBlockSizeBits sb - 9 ≤ 7 := by
    unfold superBlockSizeBits
    omega
  have low := raw.iBlocksLo.toNat_lt
  have high := raw.lIBlocksHigh.toNat_lt
  have cut {x width : Nat} (below : x < 2^width) (wide : superBlockSizeBits sb - 9 ≤ width) :
      x / 2^(superBlockSizeBits sb - 9) < 2^(width - (superBlockSizeBits sb - 9)) := by
    refine (Nat.div_lt_iff_lt_mul (Nat.two_pow_pos _)).mpr ?_
    rwa [← Nat.pow_add,Nat.sub_add_cancel wide]
  unfold ext4InodeBlocks capacity
  split
  · simp only
    split
    · omega
    · exact cut (by omega) (by omega)
  · exact cut low (by omega)

/-- A count of blocks comes back from an inode exactly when its field has room for it. -/
theorem ext4InodeBlocks_kept_iff (small : sb.sLogBlockSize.toNat ≤ 6) :
    ext4InodeBlocks sb (ext4SetInodeBlocks sb inode n).rawInode = n ↔ n < capacity sb inode.rawInode := by
  rw [ext4InodeBlocks_set inode n small]
  refine Nat.mod_eq_iff_lt (Nat.ne_of_gt ?_)
  exact Nat.lt_of_le_of_lt (Nat.zero_le _) (ext4InodeBlocks_lt inode.rawInode small)

end Inode

/-! What a call stores in the inode. -/

/-- The inode that a call for blocks leaves, by what it answers. -/
def counted (sb : SuperBlock) (inode : Inode) (allocated : Allocated) : Inode :=
  if allocated.err = none then ext4SetInodeBlocks sb inode (u64 (ext4InodeBlocks sb inode.rawInode + allocated.len)) else inode

theorem takeFromGroup_counted (v : Volume) (inode : Inode) (wanted : Int) (g : Nat) :
    Ensures (takeFromGroup v inode wanted g) fun (taken,v') => match taken with
      | some (allocated,inode') => inode' = counted v.superBlock inode allocated ∧ allocated.len ≤ wanted
      | none => v'.superBlock = v.superBlock := by
  unfold takeFromGroup
  refine (ensures_any _).bind fun bg _ => ?_
  simp only
  refine ensures_ite (fun _ => ensures_some rfl) fun _ => ensures_ite (fun _ => ensures_none) fun _ => ?_
  refine ensures_ite (fun _ => ensures_some rfl) fun _ => ensures_ite (fun _ => ensures_none) fun _ => ?_
  refine ensures_some ⟨rfl,?_⟩
  simp only
  split <;> omega

theorem tryToInit_superBlock (v : Volume) (g : Nat) :
    Ensures (ext4TryToInitBlockBitmap v g) fun v' => v'.superBlock = v.superBlock := by
  unfold ext4TryToInitBlockBitmap
  refine (ensures_any _).bind fun bg _ => ensures_ite (fun _ => ensures_some rfl) fun _ => ?_
  exact (ensures_any _).bind fun r _ => ensures_some rfl

theorem newMetaBlocksLoop_counted (inode : Inode) (goal : Nat) (wanted : Int) (rounds : Nat) (v : Volume) (g : Nat) :
    Ensures (newMetaBlocksLoop inode goal wanted rounds v g) fun (allocated,_,inode') =>
      inode' = counted v.superBlock inode allocated ∧ (allocated.err = none → allocated.len ≤ wanted) := by
  induction rounds generalizing v g with
  | zero => exact ensures_none
  | succ rounds ih =>
    refine (tryToInit_superBlock v g).bind fun v₁ same => ?_
    refine (takeFromGroup_counted v₁ inode wanted g).bind ?_
    rintro ⟨taken,v₂⟩ left
    cases taken with
    | some answer =>
      obtain ⟨allocated,inode'⟩ := answer
      rw [same] at left
      exact ensures_some ⟨left.1,fun _ => left.2⟩
    | none =>
      simp only
      refine ensures_ite (fun _ => ?_) fun _ => ensures_some ⟨rfl,nofun⟩
      have rest := ih v₂ (u32 ((g + 1) % superNBlockGroups v₂.superBlock : Nat))
      rw [left,same] at rest
      rw [left,same]
      exact rest

theorem ext4NewMetaBlocks_counted (v : Volume) (inode : Inode) (goal : Nat) (count : Option Nat) :
    Ensures (ext4NewMetaBlocks v inode goal count) fun (allocated,_,inode') =>
      inode' = counted v.superBlock inode allocated ∧ (allocated.err = none → allocated.len ≤ wantedBlocks count) :=
  newMetaBlocksLoop_counted inode _ (wantedBlocks count) _ v _

theorem desc_inited {v : Volume} (counted : Counted v) (g : Nat) : Ensures (v.desc g) fun bg => ext4IsBlockBitmapInited bg = true := by
  unfold Volume.desc
  refine ensures_ite (fun group => ?_) fun _ => ensures_none
  exact ensures_some (counted.inited g group)

theorem ext4ExtFreeBlocks_counted {v : Volume} (counted : Counted v) (inode : Inode) (block : Nat) (count : Int) :
    Ensures (ext4ExtFreeBlocks v inode block count) fun (_,inode') =>
      inode' = ext4SetInodeBlocks v.superBlock inode (u64 (ext4InodeBlocks v.superBlock inode.rawInode + -count)) := by
  unfold ext4ExtFreeBlocks
  refine (desc_inited counted _).bind fun bg inited => ?_
  simp only [inited,Bool.not_true,Bool.false_eq_true,if_false]
  exact ensures_ite (fun _ => ensures_none) fun _ => ensures_some rfl

/-! Runs on behalf of the files of a volume. -/

variable {ι : Type}

/-- The inodes of the files, and for each range that has been handed out and not yet freed the file it went to. -/
structure Accounts (ι : Type) where
  volume : Volume
  file : ι → Inode
  held : List (ι × Range)

inductive Call (ι : Type)
  | newMetaBlocks (f : ι) (goal : Nat) (count : Option Nat)
  | freeBlocks (f : ι) (range : Range)

def blocksOf (s : Accounts ι) (f : ι) : Nat := ext4InodeBlocks s.volume.superBlock (s.file f).rawInode

section Step
variable [DecidableEq ι]

def Accounts.step (s : Accounts ι) : Call ι → Option (Accounts ι)
  | .newMetaBlocks f goal count =>
    (ext4NewMetaBlocks s.volume (s.file f) goal count).map fun (allocated,volume,inode) => {
      volume := volume
      file := Function.update s.file f inode
      held := if allocated.err = none then (f,(allocated.block,allocated.len))::s.held else s.held}
  | .freeBlocks f range =>
    (ext4ExtFreeBlocks s.volume (s.file f) range.1 range.2).map fun (volume,inode) => {
      volume := volume
      file := Function.update s.file f inode
      held := s.held.erase (f,range)}

/-- A goal in a valid group, and a count that keeps its sign and that the inode has room for; or a range that the file was given. -/
def Accounts.allowed (s : Accounts ι) : Call ι → Bool
  | .newMetaBlocks f goal count => goalInGroup s.volume.superBlock goal && countFits count &&
      decide (blocksOf s f + wantedBlocks count < capacity s.volume.superBlock (s.file f).rawInode)
  | .freeBlocks f range => (f,range) ∈ s.held

/-- The blocks that a file has been given. -/
def heldBy (f : ι) (held : List (ι × Range)) : Int := (held.map fun h => if h.1 = f then h.2.2 else 0).sum

def heldAll (held : List (ι × Range)) : Int := (held.map fun h => h.2.2).sum

structure Balanced (start s : Accounts ι) : Prop where
  good : Good s.volume (s.held.map Prod.snd)
  blocks : ∀ f, (blocksOf s f : Int) = blocksOf start f + heldBy f s.held
  free : (ext4FreeBlocksCount s.volume.superBlock : Int) + heldAll s.held = ext4FreeBlocksCount start.volume.superBlock

theorem heldBy_cons (f g : ι) (r : Range) (held : List (ι × Range)) :
    heldBy f ((g,r)::held) = (if g = f then r.2 else 0) + heldBy f held := List.sum_cons

theorem heldBy_erase {h : ι × Range} {held : List (ι × Range)} (member : h ∈ held) (f : ι) :
    heldBy f held = (if h.1 = f then h.2.2 else 0) + heldBy f (held.erase h) := by
  have same := ((List.perm_cons_erase member).map fun h : ι × Range => if h.1 = f then h.2.2 else 0).sum_eq
  exact same.trans List.sum_cons

theorem heldAll_erase {h : ι × Range} {held : List (ι × Range)} (member : h ∈ held) : heldAll held = h.2.2 + heldAll (held.erase h) := by
  have same := ((List.perm_cons_erase member).map fun h : ι × Range => h.2.2).sum_eq
  exact same.trans List.sum_cons

theorem heldBy_sum [Fintype ι] (held : List (ι × Range)) : ∑ f, heldBy f held = heldAll held := by
  induction held with
  | nil => exact Finset.sum_const_zero
  | cons h held ih =>
    obtain ⟨g,r⟩ := h
    simp only [heldBy_cons,Finset.sum_add_distrib,Finset.sum_ite_eq,Finset.mem_univ,if_true,ih]
    exact (List.sum_cons ..).symm

theorem Balanced.length_nonneg {start s : Accounts ι} (balanced : Balanced start s) {h : ι × Range} (member : h ∈ s.held) : 0 ≤ h.2.2 := by
  obtain ⟨g,within⟩ := balanced.good.held.within h.2 (List.mem_map_of_mem member)
  exact within.length

theorem Balanced.heldBy_ge {start s : Accounts ι} (balanced : Balanced start s) {h : ι × Range} (member : h ∈ s.held) :
    h.2.2 ≤ heldBy h.1 s.held := by
  have others : 0 ≤ heldBy h.1 (s.held.erase h) := by
    refine List.sum_nonneg fun x inside => ?_
    obtain ⟨h',left,rfl⟩ := List.mem_map.mp inside
    split
    · exact balanced.length_nonneg (List.mem_of_mem_erase left)
    · exact Int.le_refl 0
  rw [heldBy_erase member h.1,if_pos rfl]
  omega

/-- The free blocks of the volume after one of its groups has lost some. -/
theorem free_changed {v : Volume} {g : Nat} {mem : Bitmap.Mem} {inode : Inode} {len : Int} (before : Counted v)
    (after : Counted (changed v g mem inode len)) (low : -2^62 ≤ len) (high : len ≤ 2^62) :
    (ext4FreeBlocksCount (changed v g mem inode len).superBlock : Int) + len = ext4FreeBlocksCount v.superBlock := by
  have most := before.total_lt
  have most' := after.total_lt
  rw [← before.total] at most
  rw [← after.total,changed_superBlock] at most'
  rw [changed_superBlock]
  have wraps : u64 (ext4FreeBlocksCount v.superBlock - len) < 2^64 := by
    unfold u64
    omega
  rw [ext4FreeBlocksCount_stored _ _ wraps] at most' ⊢
  unfold u64 at *
  omega

/-- One file's count moves with what it holds, and so does what is free. -/
theorem Balanced.move {start s : Accounts ι} (balanced : Balanced start s) {g : Nat} {mem : Bitmap.Mem} {inode inode' : Inode} {len : Int}
    {held : List (ι × Range)} (f : ι) (good : Good (changed s.volume g mem inode len) (held.map Prod.snd))
    (moved : ∀ f', heldBy f' held = (if f = f' then len else 0) + heldBy f' s.held) (all : heldAll held = len + heldAll s.held)
    (low : -2^62 ≤ len) (high : len ≤ 2^62) (least : 0 ≤ blocksOf s f + len)
    (most : blocksOf s f + len < capacity s.volume.superBlock (s.file f).rawInode)
    (stored : inode' = ext4SetInodeBlocks s.volume.superBlock (s.file f) (u64 (blocksOf s f + len))) :
    Balanced start ⟨changed s.volume g mem inode len,Function.update s.file f inode',held⟩ := by
  refine ⟨good,fun f' => ?_,?_⟩
  · have before := balanced.blocks f'
    have blocks : blocksOf (⟨changed s.volume g mem inode len,Function.update s.file f inode',held⟩ : Accounts ι) f' =
        ext4InodeBlocks s.volume.superBlock (Function.update s.file f inode' f').rawInode := rfl
    rw [blocks,moved f']
    by_cases same : f' = f
    · subst same
      have small := balanced.good.counted.geometry.small
      have room : capacity s.volume.superBlock (s.file f').rawInode ≤ 2^48 := by
        unfold capacity
        split_ifs
        · exact Nat.le_refl _
        · exact Nat.pow_le_pow_right Nat.zero_lt_two (Nat.sub_le ..)
        · exact Nat.pow_le_pow_right Nat.zero_lt_two (Nat.le_trans (Nat.sub_le ..) (by decide))
      have value : u64 (blocksOf s f' + len) = (blocksOf s f' + len).toNat := by
        unfold u64
        omega
      rw [Function.update_self,stored,value,(ext4InodeBlocks_kept_iff (s.file f') _ small).mpr (by omega),if_pos rfl]
      omega
    · rw [Function.update_of_ne same,if_neg (Ne.symm same)]
      have old : (ext4InodeBlocks s.volume.superBlock (s.file f').rawInode : Int) = blocksOf s f' := rfl
      omega
  · have sum := balanced.free
    have free := free_changed balanced.good.counted good.counted low high
    simp only [all]
    omega

theorem Balanced.step {start s s' : Accounts ι} (balanced : Balanced start s) {c : Call ι} (may : s.allowed c = true)
    (result : s.step c = some s') : Balanced start s' := by
  cases c with
  | newMetaBlocks f goal count =>
    obtain ⟨call,room⟩ := Bool.and_eq_true_iff.mp may
    obtain ⟨inside,fits⟩ := Bool.and_eq_true_iff.mp call
    have room := of_decide_eq_true room
    have search := ext4NewMetaBlocks_search balanced.good.counted (s.file f) inside fits
    have left := ext4NewMetaBlocks_counted s.volume (s.file f) goal count
    rw [Accounts.step] at result
    generalize ext4NewMetaBlocks s.volume (s.file f) goal count = answer at search left result
    cases search with
    | full full =>
      obtain rfl := Option.some.inj result
      have same : Function.update s.file f (s.file f) = s.file := Function.update_eq_self ..
      refine ⟨balanced.good,fun f' => ?_,balanced.free⟩
      have before := balanced.blocks f'
      unfold blocksOf at before ⊢
      simp only [same]
      exact before
    | @found g index len inode' range =>
      obtain ⟨stored,short⟩ := left _ rfl
      obtain rfl := Option.some.inj result
      have short : len ≤ wantedBlocks count := short rfl
      have length := range.length
      have stop := range.stop
      have within := balanced.good.counted.geometry.groupLength_le g
      have small := balanced.good.counted.geometry.sizes.blockSize_le
      have blocks := balanced.good.counted.geometry.fits
      have good := balanced.good.take (s.file f) range.group range.first range.length range.stop range.clear
      exact balanced.move f good (fun f' => heldBy_cons f' f _ _) List.sum_cons (by omega) (by omega) (by omega) (by omega) stored
  | freeBlocks f range =>
    have member : (f,range) ∈ s.held := of_decide_eq_true may
    have inside : range ∈ s.held.map Prod.snd := List.mem_map_of_mem (f := Prod.snd) member
    obtain ⟨g,within⟩ := balanced.good.held.within range inside
    obtain ⟨inode',freed⟩ := ext4ExtFreeBlocks_within balanced.good.counted within (s.file f)
    have stored := ext4ExtFreeBlocks_counted balanced.good.counted (s.file f) range.1 range.2 _ freed
    rw [Accounts.step,freed] at result
    obtain rfl := Option.some.inj result
    have given := balanced.good.give (s.file f) inside within
    have nonneg := within.length
    have least : range.2 ≤ heldBy f s.held := balanced.heldBy_ge member
    have count := balanced.blocks f
    have room : blocksOf s f < capacity s.volume.superBlock (s.file f).rawInode :=
      ext4InodeBlocks_lt (s.file f).rawInode balanced.good.counted.geometry.small
    have begins := within.start
    have stop := within.stop
    have short := balanced.good.counted.geometry.groupLength_le g
    have small := balanced.good.counted.geometry.sizes.blockSize_le
    have fits := balanced.good.counted.geometry.fits
    have same : ((s.held.erase (f,range)).map Prod.snd).Perm ((s.held.map Prod.snd).erase range) :=
      List.Perm.cons_inv ((((List.perm_cons_erase member).map Prod.snd).symm).trans (List.perm_cons_erase inside))
    refine balanced.move f ⟨given.counted,given.held.perm same⟩ (fun f' => ?_) ?_ (by omega) (by omega) (by omega) (by omega) stored
    · have owner := heldBy_erase member f'
      by_cases same : f = f'
      · simp only [if_pos same] at owner ⊢
        omega
      · simp only [if_neg same] at owner ⊢
        omega
    · have total : heldAll s.held = range.2 + heldAll (s.held.erase (f,range)) := heldAll_erase member
      omega

theorem Counted.balanced {v : Volume} (counted : Counted v) (file : ι → Inode) : Balanced ⟨v,file,[]⟩ ⟨v,file,[]⟩ :=
  ⟨counted.start,fun _ => (Int.add_zero _).symm,Int.add_zero _⟩

/-- In every run of allocations and frees each file's block count is what it was and what the file has been given since, and the free
blocks of the volume and the counts of all files have the same sum as at the start. -/
theorem block_accounts [Fintype ι] {v : Volume} (counted : Counted v) (file : ι → Inode) {s : Accounts ι}
    (reached : Reaches Accounts.step Accounts.allowed ⟨v,file,[]⟩ s) :
    (∀ f, (blocksOf s f : Int) = blocksOf ⟨v,file,[]⟩ f + heldBy f s.held) ∧
      ext4FreeBlocksCount s.volume.superBlock + ∑ f, blocksOf s f =
        ext4FreeBlocksCount v.superBlock + ∑ f, blocksOf ⟨v,file,[]⟩ f := by
  have balanced : Balanced ⟨v,file,[]⟩ s := reached.invariant (Counted.balanced counted file)
    fun s c s' balanced may result => balanced.step may result
  refine ⟨balanced.blocks,?_⟩
  have sum : ((∑ f, blocksOf s f : Nat) : Int) = (∑ f, blocksOf (⟨v,file,[]⟩ : Accounts ι) f : Nat) + heldAll s.held := by
    rw [Nat.cast_sum,Nat.cast_sum,← heldBy_sum,← Finset.sum_add_distrib]
    exact Finset.sum_congr rfl fun f _ => balanced.blocks f
  have free := balanced.free
  simp only at free
  omega

end Step

/-- One file takes the free block of a volume, and another finds none left. -/
theorem block_accounts_two : ∃ s, run Accounts.step Accounts.allowed ⟨oneFree,fun _ : Bool => anyInode,[]⟩
      [.newMetaBlocks true 7 (some 5),.newMetaBlocks false 0 none] = some s ∧ s.held = [(true,(7,1))] ∧
    ext4FreeBlocksCount s.volume.superBlock + ∑ f, blocksOf s f =
      ext4FreeBlocksCount oneFree.superBlock + ∑ f, blocksOf (⟨oneFree,fun _ => anyInode,[]⟩ : Accounts Bool) f := by
  have result : (run Accounts.step Accounts.allowed ⟨oneFree,fun _ : Bool => anyInode,[]⟩
      [.newMetaBlocks true 7 (some 5),.newMetaBlocks false 0 none]).map (·.held) = some [(true,(7,1))] := by decide +kernel
  obtain ⟨s,runs,held⟩ := Option.map_eq_some_iff.mp result
  exact ⟨s,runs,held,(block_accounts oneFree_counted (fun _ => anyInode) (Reaches.start.run runs)).2⟩

end Ext4Fuse.BlockAccounts
