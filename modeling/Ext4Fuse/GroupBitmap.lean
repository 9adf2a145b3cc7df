import Ext4Fuse.Alloc
import Mathlib.Data.Nat.Log

/-! `ext4_init_block_bitmap`: which bits a group's bitmap is to have and how many stay clear.
The layout of a group is stated from the superblock and the descriptor alone. -/
namespace Ext4Fuse.GroupBitmap
open Machine Ext4Fuse.Types Bitmap Super Alloc

variable {sb : SuperBlock} {bg : GroupDesc} {g : Nat}

/-! What the layout says. -/

/-- The groups that keep a backup with `sparse_super`. -/
def Sparse (g : Nat) : Prop := g ≤ 1 ∨ ∃ k, g = 3^k ∨ g = 5^k ∨ g = 7^k

def HasBackup (sb : SuperBlock) (g : Nat) : Prop := hasRoCompatFeature sb featureRoCompatSparseSuper = true → Sparse g

theorem power_iff {b : Nat} (base : 1 < b) (g : Nat) : (∃ k, g = b^k) ↔ b^Nat.log b g = g := by
  constructor
  · rintro ⟨k,rfl⟩
    rw [Nat.log_pow base]
  · exact fun same => ⟨_,same.symm⟩

instance (g : Nat) : Decidable (Sparse g) :=
  decidable_of_iff (g ≤ 1 ∨ 3^Nat.log 3 g = g ∨ 5^Nat.log 5 g = g ∨ 7^Nat.log 7 g = g) (by
    rw [← power_iff (by decide),← power_iff (by decide),← power_iff (by decide),Sparse,exists_or,exists_or])

instance (sb : SuperBlock) (g : Nat) : Decidable (HasBackup sb g) := inferInstanceAs (Decidable (_ → _))

/-- The blocks that hold the group descriptors. -/
def descBlocks (sb : SuperBlock) : Nat := (superNBlockGroups sb + ext4DescPerBlock sb - 1) / ext4DescPerBlock sb

/-- The blocks at the start of the group that hold a superblock, the descriptors and the
reserve for more of them. -/
def backups (sb : SuperBlock) (g : Nat) : Nat :=
  if HasBackup sb g then 1 + descBlocks sb + sb.sReservedGdtBlocks.toNat else 0

/-- The group's block bitmap, inode bitmap and inode table. -/
def ownBlocks (sb : SuperBlock) (bg : GroupDesc) : List Nat :=
  ext4BlockBitmap sb bg::ext4InodeBitmap sb bg::itableBlocks sb bg

def InGroup (sb : SuperBlock) (g blk : Nat) : Prop :=
  groupStart sb g ≤ blk ∧ blk < groupStart sb g + groupLength sb g

instance (sb : SuperBlock) (g blk : Nat) : Decidable (InGroup sb g blk) := inferInstanceAs (Decidable (_ ∧ _))

/-- The bits that are in use from the beginning. -/
def MetaBit (sb : SuperBlock) (bg : GroupDesc) (g i : Nat) : Prop :=
  i < backups sb g ∨ (∃ blk ∈ ownBlocks sb bg, InGroup sb g blk ∧ blk = groupStart sb g + i) ∨ groupLength sb g ≤ i

/-- The bitmap has exactly these bits, and what is returned is the number of the others. -/
def InitExact (sb : SuperBlock) (bg : GroupDesc) (g : Nat) : Prop :=
  ∃ mem bg' free, ext4InitBlockBitmap sb bg g = some (mem,bg',free) ∧
    (∀ i, i < superBlockSize sb * 8 → (mem i = true ↔ MetaBit sb bg g i)) ∧
    free = (clearBits mem (superBlockSize sb * 8)).card

/-- A superblock whose group numbers and descriptor blocks can be counted in 32 bits. -/
structure Layout (sb : SuperBlock) : Prop where
  sizes : Sizes sb
  descs : superNBlockGroups sb + ext4DescPerBlock sb ≤ 2^32
  metaBg : hasIncompatFeature sb featureIncompatMetaBg = false

/-- The group's own blocks, which without `flex_bg` lie in it. -/
structure OwnBlocks (sb : SuperBlock) (bg : GroupDesc) (g : Nat) : Prop where
  distinct : (ownBlocks sb bg).Nodup
  apart : ∀ blk ∈ ownBlocks sb bg, ¬(groupStart sb g ≤ blk ∧ blk < groupStart sb g + backups sb g)
  inside : hasIncompatFeature sb featureIncompatFlexBg = false → ∀ blk ∈ ownBlocks sb bg, InGroup sb g blk

/-! `test_root`. -/

theorem testRootLoop_power {a b m : Nat} (base : 1 < b) (below : a ≤ b^m) (fits : b^m < 2^32) (rounds j : Nat)
    (inside : j ≤ m) (enough : m < rounds + j) :
    ∃ r, testRootLoop a b rounds (b^j) = some r ∧ (r = true ↔ ∃ k, j ≤ k ∧ a = b^k) := by
  induction rounds generalizing j with
  | zero => omega
  | succ rounds ih =>
    rw [testRootLoop]
    split_ifs with more
    · have next : j + 1 ≤ m := (Nat.pow_lt_pow_iff_right base).mp (Nat.lt_of_lt_of_le more below)
      have small := Nat.pow_le_pow_right (Nat.zero_lt_of_lt base) next
      rw [← Nat.pow_succ,u32_small _ (Nat.lt_of_le_of_lt small fits)]
      obtain ⟨r,result,power⟩ := ih (j + 1) next (by omega)
      refine ⟨r,result,power.trans ⟨fun ⟨k,from_,same⟩ => ⟨k,by omega,same⟩,fun ⟨k,from_,same⟩ => ⟨k,?_,same⟩⟩⟩
      rcases Nat.eq_or_lt_of_le from_ with rfl | later
      · omega
      · exact later
    · refine ⟨_,rfl,decide_eq_true_iff.trans ⟨fun same => ⟨j,Nat.le_refl j,same.symm⟩,fun ⟨k,from_,same⟩ => ?_⟩⟩
      have least := Nat.pow_le_pow_right (Nat.zero_lt_of_lt base) from_
      omega

/-- Up to the last power that fits 32 bits the test is right. -/
theorem testRoot_power {a b m : Nat} (base : 1 < b) (below : a ≤ b^m) (fits : b^m < 2^32) (some_ : 1 ≤ m) :
    ∃ r, testRoot a b = some r ∧ (r = true ↔ ∃ k, 1 ≤ k ∧ a = b^k) := by
  have short := (Nat.lt_pow_self base).trans fits
  have loop := testRootLoop_power base below fits (2^32 + 1) 1 some_ (by omega)
  rwa [Nat.pow_one] at loop

theorem odd_power {b k : Nat} (odd : b % 2 = 1) : b^k % 2 = 1 := by
  rw [Nat.pow_mod,odd,Nat.one_pow]

theorem sparse_odd (above : ¬g ≤ 1) (sparse : Sparse g) : g % 2 ≠ 0 := by
  rcases sparse with low | ⟨k,rfl | rfl | rfl⟩
  · exact absurd low above
  all_goals
    rw [odd_power (by decide)]
    decide

theorem power_pos {b k : Nat} (above : ¬g ≤ 1) (same : g = b^k) : 1 ≤ k := by
  by_contra zero
  rw [Nat.not_le,Nat.lt_one_iff] at zero
  rw [zero,Nat.pow_zero] at same
  omega

/-- 5^13 is the least of the last powers of 3, 5 and 7 that fit 32 bits. -/
theorem ext4GroupSparse_small (small : g ≤ 5^13) : ∃ r, ext4GroupSparse g = some r ∧ (r = true ↔ Sparse g) := by
  unfold ext4GroupSparse
  split_ifs with low even
  · exact ⟨true,rfl,iff_of_true rfl (Or.inl low)⟩
  · exact ⟨false,rfl,iff_of_false (by rintro ⟨⟩) fun sparse => sparse_odd low sparse even⟩
  · obtain ⟨r₇,test₇,power₇⟩ := testRoot_power (b := 7) (m := 11) (by decide) (show g ≤ 7^11 by omega) (by decide) (by decide)
    obtain ⟨r₅,test₅,power₅⟩ := testRoot_power (b := 5) (m := 13) (by decide) small (by decide) (by decide)
    obtain ⟨r₃,test₃,power₃⟩ := testRoot_power (b := 3) (m := 20) (by decide) (show g ≤ 3^20 by omega) (by decide) (by decide)
    have sparse : Sparse g ↔ r₇ = true ∨ r₅ = true ∨ r₃ = true := by
      rw [power₇,power₅,power₃]
      constructor
      · rintro (one | ⟨k,same⟩)
        · exact absurd one low
        · rcases same with same | same | same
          · exact Or.inr (Or.inr ⟨k,power_pos low same,same⟩)
          · exact Or.inr (Or.inl ⟨k,power_pos low same,same⟩)
          · exact Or.inl ⟨k,power_pos low same,same⟩
      · rintro (⟨k,_,same⟩ | ⟨k,_,same⟩ | ⟨k,_,same⟩)
        · exact Or.inr ⟨k,Or.inr (Or.inr same)⟩
        · exact Or.inr ⟨k,Or.inr (Or.inl same)⟩
        · exact Or.inr ⟨k,Or.inl same⟩
    refine ⟨r₇ || r₅ || r₃,?_,by simp [sparse,or_assoc]⟩
    cases r₇ <;> cases r₅ <;> simp [test₇,test₅,test₃]

/-- No group with a backup is taken for one without. -/
theorem ext4GroupSparse_backup (bound : g < 2^32) (sparse : Sparse g) : ext4GroupSparse g ≠ some false := by
  have power {b k : Nat} (base : 1 < b) (above : ¬g ≤ 1) (same : g = b^k) : testRoot g b = some true := by
    have some_ := power_pos above same
    obtain ⟨r,test,right⟩ := testRoot_power base (Nat.le_of_eq same) (same ▸ bound) some_
    rw [test,right.mpr ⟨k,some_,same⟩]
  unfold ext4GroupSparse
  split_ifs with low even
  · nofun
  · exact absurd even (sparse_odd low sparse)
  · intro result
    obtain ⟨r₇,test₇,result⟩ := Option.bind_eq_some_iff.mp result
    cases r₇ with
    | true => nomatch result
    | false =>
      obtain ⟨r₅,test₅,result⟩ := Option.bind_eq_some_iff.mp result
      cases r₅ with
      | true => nomatch result
      | false =>
        rcases sparse with one | ⟨k,same | same | same⟩
        · exact low one
        · exact nomatch (power (by decide) low same).symm.trans result
        · exact nomatch (power (by decide) low same).symm.trans test₅
        · exact nomatch (power (by decide) low same).symm.trans test₇

/-! The bits that the code sets. -/

/-- Setting one bit after another, some of them left out. -/
theorem foldlM_setBit {α : Type} {step : Mem → α → Option Mem} (takes : α → Bool) (nr : α → Int)
    (each : ∀ mem a, step mem a = if takes a = true then ext4SetBit sb (nr a) mem else some mem) (xs : List α) (mem : Mem) :
    xs.foldlM step mem = if ∀ a ∈ xs, takes a = true → 0 ≤ nr a ∧ nr a < superBlockSize sb * 8
      then some fun i => mem i || xs.any fun a => takes a && nr a = (i : Int) else none := by
  induction xs generalizing mem with
  | nil => simp
  | cons a xs ih =>
    rw [List.foldlM_cons,each]
    cases taken : takes a with
    | false =>
      simp only [Bool.false_eq_true,if_false,Option.bind_eq_bind,Option.bind_some,ih,List.forall_mem_cons,taken,false_imp_iff,
        true_and,List.any_cons,Bool.false_and,Bool.false_or]
    | true =>
      simp only [if_true,ext4SetBit,List.forall_mem_cons,taken,true_imp_iff,List.any_cons,Bool.true_and]
      rcases Classical.em (0 ≤ nr a ∧ nr a < superBlockSize sb * 8) with inside | outside
      · simp only [inside,true_and,and_self,if_true,Option.bind_eq_bind,Option.bind_some,ih]
        refine if_congr Iff.rfl (congrArg some (funext fun i => ?_)) rfl
        rw [setBit_eq,Nat.mul_zero,Nat.zero_add]
        rcases Classical.em (nr a = (i : Int)) with here | away
        · simp [here]
        · rw [Function.update_of_ne (by omega)]
          simp [away]
      · simp only [if_neg outside,Option.bind_eq_bind,Option.bind_none]
        rw [if_neg fun both => outside both.1]

theorem foldlM_number (xs : List Nat) (mem : Mem) : (xs.map (Nat.cast : Nat → Int)).foldlM (fun mem i => ext4SetBit sb i mem) mem =
    if ∀ i ∈ xs, i < superBlockSize sb * 8 then some fun i => mem i || decide (i ∈ xs) else none := by
  have each (mem : Mem) (i : Int) : ext4SetBit sb i mem = if true = true then ext4SetBit sb i mem else some mem := rfl
  refine (foldlM_setBit (fun _ => true) id each (xs.map Nat.cast) mem).trans ?_
  refine if_congr ?_ (congrArg some (funext fun i => ?_)) rfl
  · simp only [List.forall_mem_map,true_imp_iff,id_eq]
    exact forall₂_congr fun i _ => by omega
  · rw [← Bool.coe_iff_coe]
    simp

theorem markBitmapEnd_eq (start : Nat) (mem : Mem) : markBitmapEnd sb start (superBlockSize sb * 8) mem =
    some fun i => mem i || decide (start ≤ i ∧ i < superBlockSize sb * 8) := by
  unfold markBitmapEnd
  split_ifs with beyond
  · refine congrArg some (funext fun i => ?_)
    rw [decide_eq_false (by omega),Bool.or_false]
  · have bits := @foldlM_number sb (List.range' start ((start + 7) / 8 * 8 - start)) mem
    rw [if_pos fun i member => by rw [List.mem_range'_1] at member; omega] at bits
    simp only [bind_pure_comp,List.map_eq_map,bits,Option.map_eq_map,Option.map_some]
    refine congrArg some (funext fun i => ?_)
    have upto : decide (i ∈ List.range' start ((start + 7) / 8 * 8 - start)) =
        decide (start ≤ i ∧ i < (start + 7) / 8 * 8) :=
      decide_eq_decide.mpr (List.mem_range'_1.trans (by omega))
    rw [apply_ite (fun mem : Mem => mem i),filled,upto]
    split_ifs with more range
    · simp only [show start ≤ i ∧ i < superBlockSize sb * 8 by omega,and_self,decide_true,Bool.or_true]
    · exact congrArg (mem i || ·) (decide_eq_decide.mpr (by omega))
    · exact congrArg (mem i || ·) (decide_eq_decide.mpr (by omega))

/-- Which of the group's own blocks the code takes for blocks in it. -/
def counted (sb : SuperBlock) (g blk : Nat) : Bool :=
  !hasIncompatFeature sb featureIncompatFlexBg || ext4BlockInGroup sb blk g

theorem sum_outside (f : Nat → Bool) (xs : List Nat) :
    (xs.map fun blk => if f blk = true then (0 : Int) else 1).sum = xs.length - xs.countP f := by
  induction xs with
  | nil => rfl
  | cons x xs ih =>
    rw [List.map_cons,List.sum_cons,ih,List.length_cons,List.countP_cons]
    split_ifs <;> omega

theorem ownBlocks_length (sb : SuperBlock) (bg : GroupDesc) : (ownBlocks sb bg).length = superItbPerGroup sb + 2 := by
  simp [ownBlocks,itableBlocks]

theorem ext4GroupUsedMetaBlocks_eq : ext4GroupUsedMetaBlocks sb bg g = (ownBlocks sb bg).countP (counted sb g) := by
  have length := ownBlocks_length sb bg
  unfold ext4GroupUsedMetaBlocks
  split_ifs with flex
  · have outside := sum_outside (fun blk => ext4BlockInGroup sb blk g) (ownBlocks sb bg)
    have same : counted sb g = fun blk => ext4BlockInGroup sb blk g := by
      funext blk
      simp [counted,flex]
    rw [ownBlocks,List.map_cons,List.map_cons,List.sum_cons,List.sum_cons,← ownBlocks] at outside
    rw [same]
    simp only
    omega
  · have same : counted sb g = fun _ => true := by
      funext blk
      simp [counted,flex]
    rw [same,List.countP_true,length]
    push_cast
    rfl

theorem Layout.group_lt (layout : Layout sb) (some_ : groupStart sb g < ext4BlocksCount sb) : g < superNBlockGroups sb := by
  have inside := layout.sizes.group_lt some_
  have positive := layout.sizes.positive
  rwa [groupStart,Nat.add_sub_cancel_left,Nat.mul_div_cancel _ positive] at inside

/-- The numbers that the code reckons with are those of the layout. -/
structure Numbers (sb : SuperBlock) (g : Nat) : Prop where
  length : groupBlocks sb g = groupLength sb g
  start : ext4GroupFirstBlockNo sb g = groupStart sb g
  short : groupLength sb g ≤ superBlockSize sb * 8
  descs : superNGdb sb = descBlocks sb

theorem u32_last {count first per groups : Nat} (one : 0 < groups) (some_ : first + per * (groups - 1) < count)
    (small : count - first - per * (groups - 1) < 2^32) :
    u32 (count - first - per * (groups - 1) : Int) = count - first - per * (groups - 1) := by
  have product : (per * (groups - 1) : Int) = ((per * (groups - 1) : Nat) : Int) := by
    rw [Nat.cast_mul,Nat.cast_sub one,Nat.cast_one]
  rw [product,show (count - first - (per * (groups - 1) : Nat) : Int) = ((count - first - per * (groups - 1) : Nat) : Int) by omega]
  exact u32_small _ small

theorem Layout.numbers (layout : Layout sb) (some_ : groupStart sb g < ext4BlocksCount sb) : Numbers sb g := by
  have sizes := layout.sizes
  have group := layout.group_lt some_
  have positive := sizes.positive
  have fits := sizes.fits
  have size := sizes.blockSize_le
  have groups := sizes.nBlockGroups
  have small := sizes.nBlockGroups_lt
  have descs := layout.descs
  have end_ := Nat.div_add_mod (ext4BlocksCount sb + superBlocksPerGroup sb - 1) (superBlocksPerGroup sb)
  have rest := Nat.mod_lt (ext4BlocksCount sb + superBlocksPerGroup sb - 1) positive
  rw [← groups] at end_
  have total : ext4BlocksCount sb ≤ superBlocksPerGroup sb * (superNBlockGroups sb - 1) + superBlocksPerGroup sb := by
    rw [← Nat.mul_succ,Nat.succ_eq_add_one,Nat.sub_add_cancel (by omega)]
    omega
  have short : groupLength sb g ≤ superBlocksPerGroup sb := by
    unfold groupLength
    split_ifs <;> omega
  have last : u32 (superNBlockGroups sb - 1 : Int) = superNBlockGroups sb - 1 := by
    rw [show (superNBlockGroups sb - 1 : Int) = ((superNBlockGroups sb - 1 : Nat) : Int) by omega]
    exact u32_small _ (by omega)
  refine ⟨?_,?_,by omega,?_⟩
  · unfold groupBlocks groupLength
    rw [last]
    split_ifs with here there
    · rw [groupStart,here,Nat.mul_comm] at some_
      have most : superBlocksPerGroup sb < 2^32 := sb.sBlocksPerGroup.toNat_lt
      exact u32_last (Nat.lt_of_le_of_lt (Nat.zero_le g) group) some_ (Nat.lt_of_le_of_lt (by omega) most)
    · omega
    · omega
    · exact u32_small _ (by omega)
  · have before := sizes.blocksCount_lt
    have product := Nat.mul_le_mul (Nat.le_of_lt small) (show superBlocksPerGroup sb ≤ 2^19 by omega)
    rw [ext4GroupFirstBlockNo,u64_small _ (by rw [groupStart] at some_; omega),groupStart,Nat.add_comm]
  · rw [superNGdb,descBlocks,show (superNBlockGroups sb + ext4DescPerBlock sb - 1 : Int) =
      ((superNBlockGroups sb + ext4DescPerBlock sb - 1 : Nat) : Int) by omega,u32_small _ (by omega)]

theorem backupBlocks_eq (layout : Layout sb) (numbers : Numbers sb g) : backupBlocks sb g =
    (ext4BgHasSuper sb g).map fun super => if super ≠ 0 then super + descBlocks sb + sb.sReservedGdtBlocks.toNat else 0 := by
  simp only [backupBlocks,layout.metaBg,Bool.not_false,Bool.true_or,if_true,ext4BgNumGdb,ext4BgNumGdbNometa,numbers.descs]
  cases ext4BgHasSuper sb g with
  | none => rfl
  | some super =>
    simp only [Option.bind_eq_bind,Option.bind_some,Option.map_some]
    split_ifs with backup
    · rfl
    · rw [not_not.mp backup]
      rfl

/-- The bitmap that the code builds. -/
def initialBits (sb : SuperBlock) (bg : GroupDesc) (g bitMax : Nat) : Mem := fun i =>
  decide (i < bitMax) || (ownBlocks sb bg).any (fun blk => counted sb g blk && blk = groupStart sb g + i) ||
    decide (groupLength sb g ≤ i ∧ i < superBlockSize sb * 8)

/-- One step of the code's turn through the group's own blocks. -/
def setOwn (sb : SuperBlock) (g : Nat) (mem : Mem) (blk : Nat) : Option Mem :=
  if (!hasIncompatFeature sb featureIncompatFlexBg || ext4BlockInGroup sb blk g) = true
  then ext4SetBit sb (blk - groupStart sb g) mem else some mem

theorem setOwn_bind {β : Type} (mem : Mem) (next : Mem → Option β) :
    ((setOwn sb g mem (ext4BlockBitmap sb bg)).bind fun mem => (setOwn sb g mem (ext4InodeBitmap sb bg)).bind fun mem =>
      ((itableBlocks sb bg).foldlM (setOwn sb g) mem).bind next) = ((ownBlocks sb bg).foldlM (setOwn sb g) mem).bind next := by
  simp only [ownBlocks,List.foldlM_cons,Option.bind_eq_bind,Option.bind_assoc]

theorem foldlM_setOwn (mem : Mem) : (ownBlocks sb bg).foldlM (setOwn sb g) mem =
    if ∀ blk ∈ ownBlocks sb bg, counted sb g blk = true →
      groupStart sb g ≤ blk ∧ blk < groupStart sb g + superBlockSize sb * 8
    then some fun i => mem i || (ownBlocks sb bg).any fun blk => counted sb g blk && blk = groupStart sb g + i else none := by
  refine (foldlM_setBit (counted sb g) (fun blk => (blk : Int) - groupStart sb g) (fun _ _ => rfl)
    (ownBlocks sb bg) mem).trans ?_
  refine if_congr (forall₂_congr fun blk _ => imp_congr_right fun _ => by omega)
    (congrArg some (funext fun i => congrArg (mem i || ·) (congrArg _ (funext fun blk => ?_)))) rfl
  exact congrArg (counted sb g blk && ·) (decide_eq_decide.mpr (by omega))

theorem u32_sub (x y : Int) : u64 (u32 (u32 x - y) : Nat) = u32 (x - y) := by
  rw [u64_small _ (Nat.lt_trans (u32_lt _) (by decide))]
  unfold u32
  omega

theorem ext4InitBlockBitmap_eq (numbers : Numbers sb g) : ext4InitBlockBitmap sb bg g =
    (backupBlocks sb g).bind fun bitMax =>
      if bitMax ≤ superBlockSize sb * 8 ∧ ∀ blk ∈ ownBlocks sb bg, counted sb g blk = true →
        groupStart sb g ≤ blk ∧ blk < groupStart sb g + superBlockSize sb * 8
      then some (initialBits sb bg g bitMax,{bg with bgFlags := bg.bgFlags &&& ~~~bgBlockUninit},
        u32 (groupLength sb g - bitMax - (ownBlocks sb bg).countP (counted sb g) : Int))
      else none := by
  unfold ext4InitBlockBitmap
  cases backupBlocks sb g with
  | none => rfl
  | some bitMax =>
    simp only [Option.bind_eq_bind,Option.bind_some,bind_pure_comp,List.map_eq_map,numbers.length,numbers.start,
      ext4GroupUsedMetaBlocks_eq,u32_sub,foldlM_number,List.mem_range,markBitmapEnd_eq]
    change ((if ∀ i < bitMax, i < superBlockSize sb * 8 then some fun i => false || decide (i < bitMax) else none).bind
      fun mem => (setOwn sb g mem (ext4BlockBitmap sb bg)).bind fun mem => (setOwn sb g mem (ext4InodeBitmap sb bg)).bind
      fun mem => ((itableBlocks sb bg).foldlM (setOwn sb g) mem).bind _) = _
    simp only [setOwn_bind,foldlM_setOwn]
    have room : (∀ i < bitMax, i < superBlockSize sb * 8) ↔ bitMax ≤ superBlockSize sb * 8 :=
      ⟨fun below => Nat.not_lt.mp fun more => absurd (below _ more) (Nat.lt_irrefl _),fun enough i inside => by omega⟩
    rcases Classical.em (bitMax ≤ superBlockSize sb * 8) with fits | more
    · rw [if_pos (room.mpr fits),Option.bind_some]
      simp only [fits,true_and]
      split_ifs with own
      · rfl
      · rfl
    · rw [if_neg fun below => more (room.mp below),if_neg fun both => more both.1]
      rfl

/-! Backups. -/

/-- A group whose backups fit a bitmap's block has a small number. -/
theorem Layout.group_small (layout : Layout sb) (group : g < superNBlockGroups sb)
    (fits : descBlocks sb ≤ superBlockSize sb * 8) : g ≤ 5^13 := by
  have size := layout.sizes.blockSize_le
  have large := superBlockSize_ge layout.sizes.small
  have few : 0 < ext4DescPerBlock sb ∧ ext4DescPerBlock sb ≤ 2048 := by
    unfold ext4DescPerBlock superGroupDescSize
    split_ifs <;> omega
  have product := Nat.mul_le_mul few.2 (show descBlocks sb ≤ 2^19 by omega)
  have parts := Nat.div_add_mod (superNBlockGroups sb + ext4DescPerBlock sb - 1) (ext4DescPerBlock sb)
  have part := Nat.mod_lt (superNBlockGroups sb + ext4DescPerBlock sb - 1) few.1
  rw [← descBlocks] at parts
  omega

theorem hasSuper_backups (layout : Layout sb) (numbers : Numbers sb g)
    (right : ext4BgHasSuper sb g = some (if HasBackup sb g then 1 else 0)) : backupBlocks sb g = some (backups sb g) := by
  rw [backupBlocks_eq layout numbers,right,Option.map_some,backups]
  rcases Classical.em (HasBackup sb g) with backup | none_
  · rw [if_pos backup,if_pos backup]
    rfl
  · rw [if_neg none_,if_neg none_]
    rfl

theorem backups_hasSuper (layout : Layout sb) (numbers : Numbers sb g) (group : g < superNBlockGroups sb) {bitMax : Nat}
    (result : backupBlocks sb g = some bitMax) (fits : bitMax ≤ superBlockSize sb * 8) :
    ext4BgHasSuper sb g = some (if HasBackup sb g then 1 else 0) := by
  rw [backupBlocks_eq layout numbers] at result
  unfold ext4BgHasSuper at result ⊢
  split_ifs at result ⊢ with feature backup
  · obtain ⟨r,test⟩ : ∃ r, ext4GroupSparse g = some r := by
      cases test : ext4GroupSparse g with
      | none => simp [test] at result
      | some r => exact ⟨r,rfl⟩
    cases r with
    | true => rw [test]; rfl
    | false => exact absurd test (ext4GroupSparse_backup (Nat.lt_trans group layout.sizes.nBlockGroups_lt) (backup feature))
  · obtain ⟨r,test⟩ : ∃ r, ext4GroupSparse g = some r := by
      cases test : ext4GroupSparse g with
      | none => simp [test] at result
      | some r => exact ⟨r,rfl⟩
    cases r with
    | true =>
      rw [test] at result
      have total : 1 + descBlocks sb + sb.sReservedGdtBlocks.toNat = bitMax := Option.some.inj result
      obtain ⟨r,test',sparse⟩ := ext4GroupSparse_small (layout.group_small group (by omega))
      rw [test] at test'
      exact absurd (fun _ => sparse.mp (Option.some.inj test').symm) backup
    | false => rw [test]; rfl
  · rfl
  · exact absurd (fun on => absurd on feature) ‹¬HasBackup sb g›

/-! Counting. -/

/-- How many of the group's own blocks lie in it. -/
def ownInside (sb : SuperBlock) (bg : GroupDesc) (g : Nat) : Nat := (ownBlocks sb bg).countP fun blk => InGroup sb g blk

theorem clearBits_meta {mem : Mem} (numbers : Numbers sb g) (own : OwnBlocks sb bg g)
    (bits : ∀ i, i < superBlockSize sb * 8 → (mem i = true ↔ MetaBit sb bg g i)) (fit : backups sb g ≤ groupLength sb g) :
    (clearBits mem (superBlockSize sb * 8)).card + backups sb g + ownInside sb bg g = groupLength sb g := by
  have short := numbers.short
  have taken : ∃ taken : Finset Nat, taken.card = ownInside sb bg g ∧
      ∀ i, i ∈ taken ↔ ∃ blk ∈ ownBlocks sb bg, InGroup sb g blk ∧ blk = groupStart sb g + i := by
    refine ⟨(((ownBlocks sb bg).filter fun blk => InGroup sb g blk).toFinset).image fun blk => blk - groupStart sb g,?_,fun i => ?_⟩
    · rw [Finset.card_image_of_injOn,List.toFinset_card_of_nodup (own.distinct.filter _),ownInside,List.countP_eq_length_filter]
      intro blk member blk' member' same
      have low := (of_decide_eq_true (List.mem_filter.mp (List.mem_toFinset.mp member)).2).1
      have low' := (of_decide_eq_true (List.mem_filter.mp (List.mem_toFinset.mp member')).2).1
      simp only at same
      omega
    · simp only [Finset.mem_image,List.mem_toFinset,List.mem_filter,decide_eq_true_eq]
      constructor
      · rintro ⟨blk,⟨member,inside⟩,same⟩
        have := inside.1
        exact ⟨blk,member,inside,by omega⟩
      · rintro ⟨blk,member,inside,same⟩
        exact ⟨blk,⟨member,inside⟩,by omega⟩
  obtain ⟨taken,card,member⟩ := taken
  have bounds {i : Nat} (here : i ∈ taken) : backups sb g ≤ i ∧ i < groupLength sb g := by
    obtain ⟨blk,inOwn,inside,rfl⟩ := (member i).mp here
    have away := own.apart _ inOwn
    have := inside.2
    omega
  have clear (i : Nat) : i ∈ clearBits mem (superBlockSize sb * 8) ↔ i < groupLength sb g ∧ backups sb g ≤ i ∧ i ∉ taken := by
    rw [mem_clearBits,← Bool.not_eq_true]
    constructor
    · rintro ⟨inside,zero⟩
      rw [bits i inside,MetaBit,← member,not_or,not_or,Nat.not_lt,Nat.not_le] at zero
      exact ⟨zero.2.2,zero.1,zero.2.1⟩
    · rintro ⟨below,behind,free⟩
      rw [bits i (by omega),MetaBit,← member,not_or,not_or,Nat.not_lt,Nat.not_le]
      exact ⟨by omega,behind,free,below⟩
  have apart : Disjoint (clearBits mem (superBlockSize sb * 8)) (Finset.range (backups sb g)) := by
    rw [Finset.disjoint_left]
    intro i one other
    have := (clear i).mp one
    have := Finset.mem_range.mp other
    omega
  have apart' : Disjoint (clearBits mem (superBlockSize sb * 8) ∪ Finset.range (backups sb g)) taken := by
    rw [Finset.disjoint_left]
    intro i one other
    rcases Finset.mem_union.mp one with free | backup
    · exact ((clear i).mp free).2.2 other
    · have := Finset.mem_range.mp backup
      have := bounds other
      omega
  have whole : clearBits mem (superBlockSize sb * 8) ∪ Finset.range (backups sb g) ∪ taken = Finset.range (groupLength sb g) := by
    ext i
    simp only [Finset.mem_union,Finset.mem_range,clear]
    rcases Classical.em (i ∈ taken) with here | free
    · exact iff_of_true (Or.inr here) (bounds here).2
    · simp only [free,not_false_eq_true,and_true,or_false]
      omega
  have sum := Finset.card_union_of_disjoint apart'
  rw [Finset.card_union_of_disjoint apart,Finset.card_range,whole,Finset.card_range,card] at sum
  exact sum.symm

/-! Blocks of other groups that the code takes for blocks of this one. -/

theorem countP_one {xs : List Nat} {f : Nat → Bool} (alone : xs.Pairwise fun x y => f x = true → f y = false) :
    xs.countP f ≤ 1 := by
  induction alone with
  | nil => exact Nat.zero_le 1
  | @cons x xs rest _ ih =>
    rw [List.countP_cons]
    split_ifs with here
    · rw [List.countP_eq_zero.mpr fun y member => by rw [rest y member here]; rintro ⟨⟩]
    · exact ih

theorem counted_iff (flex : hasIncompatFeature sb featureIncompatFlexBg = true) (blk : Nat) :
    counted sb g blk = true ↔ ((blk : Int) - superFirstDataBlock sb) % 2^32 = g := by
  simp only [counted,flex,Bool.not_true,Bool.false_or,ext4BlockInGroup,ext4GetGroupNoAndOffset]
  refine decide_eq_true_iff.trans ?_
  unfold u32 u64
  omega

/-- Of an inode table at most one block is taken for one of the group by its number alone. -/
theorem countP_itable (flex : hasIncompatFeature sb featureIncompatFlexBg = true) :
    (itableBlocks sb bg).countP (counted sb g) ≤ 1 := by
  have short : superItbPerGroup sb < 2^32 := Nat.lt_of_le_of_lt (Nat.div_le_self _ _) sb.sInodesPerGroup.toNat_lt
  refine countP_one (List.pairwise_map.mpr (List.pairwise_iff_getElem.mpr fun i j inside inside' before one => ?_))
  rw [List.length_range] at inside inside'
  rw [List.getElem_range] at one ⊢
  rw [← Bool.not_eq_true,counted_iff flex]
  rw [counted_iff flex] at one
  omega

/-- The own blocks of other groups among those that the code counts. -/
def strangers (sb : SuperBlock) (bg : GroupDesc) (g : Nat) : Nat :=
  (ownBlocks sb bg).countP fun blk => counted sb g blk && !decide (InGroup sb g blk)

theorem strangers_le (own : OwnBlocks sb bg g) : strangers sb bg g ≤ 3 := by
  cases flex : hasIncompatFeature sb featureIncompatFlexBg with
  | false =>
    have none_ : strangers sb bg g = 0 :=
      List.countP_eq_zero.mpr fun blk member => by simp [own.inside flex blk member]
    omega
  | true =>
    have table := @countP_itable sb bg g flex
    have fewer := List.countP_mono_left (l := itableBlocks sb bg) (p := fun blk => counted sb g blk && !decide (InGroup sb g blk))
      (q := counted sb g) fun blk _ both => (Bool.and_eq_true_iff.mp both).1
    unfold strangers ownBlocks
    rw [List.countP_cons,List.countP_cons]
    split_ifs <;> omega

/-- When the code misses no block of the group, it counts these and the strangers. -/
theorem countP_counted (found : ∀ blk ∈ ownBlocks sb bg, InGroup sb g blk → counted sb g blk = true) :
    (ownBlocks sb bg).countP (counted sb g) = ownInside sb bg g + strangers sb bg g := by
  unfold ownInside strangers
  generalize ownBlocks sb bg = xs at found
  induction xs with
  | nil => rfl
  | cons x xs ih =>
    have rest := ih fun blk member => found blk (List.mem_cons_of_mem x member)
    have here := found x List.mem_cons_self
    rw [List.countP_cons,List.countP_cons,List.countP_cons,rest]
    rcases Classical.em (InGroup sb g x) with inside | outside
    · simp [inside,here inside]
      omega
    · simp [outside]
      omega

theorem strangers_zero : strangers sb bg g = 0 ↔ ∀ blk ∈ ownBlocks sb bg, counted sb g blk = true → InGroup sb g blk := by
  rw [strangers,List.countP_eq_zero]
  exact forall₂_congr fun blk _ => by simp

theorem initialBits_iff (bitMax : Nat) {i : Nat} (inside : i < superBlockSize sb * 8) : initialBits sb bg g bitMax i = true ↔
    i < bitMax ∨ (∃ blk ∈ ownBlocks sb bg, counted sb g blk = true ∧ blk = groupStart sb g + i) ∨ groupLength sb g ≤ i := by
  simp [initialBits,inside,or_assoc]

/-- The code builds the layout's bitmap and counts its clear bits. -/
theorem initExact_of (layout : Layout sb) (some_ : groupStart sb g < ext4BlocksCount sb) (own : OwnBlocks sb bg g)
    (right : ext4BgHasSuper sb g = some (if HasBackup sb g then 1 else 0)) (fit : backups sb g ≤ groupLength sb g)
    (same : ∀ blk ∈ ownBlocks sb bg, counted sb g blk = true ↔ InGroup sb g blk) : InitExact sb bg g := by
  have numbers := layout.numbers some_
  have short := numbers.short
  have size := layout.sizes.blockSize_le
  have result := @ext4InitBlockBitmap_eq sb bg g numbers
  rw [hasSuper_backups layout numbers right,Option.bind_some,if_pos ⟨Nat.le_trans fit short,fun blk member taken => by
    have inside := (same blk member).mp taken
    exact ⟨inside.1,Nat.lt_of_lt_of_le inside.2 (Nat.add_le_add_left short _)⟩⟩] at result
  have bits (i : Nat) (inside : i < superBlockSize sb * 8) :
      initialBits sb bg g (backups sb g) i = true ↔ MetaBit sb bg g i := by
    rw [initialBits_iff _ inside,MetaBit]
    exact or_congr_right (or_congr_left (exists_congr fun blk => and_congr_right fun member =>
      and_congr_left fun _ => same blk member))
  refine ⟨_,_,_,result,bits,?_⟩
  have clear := clearBits_meta numbers own bits fit
  rw [countP_counted fun blk member => (same blk member).mpr,strangers_zero.mpr fun blk member => (same blk member).mp]
  unfold u32
  omega

/-- The bitmap and the count are right if and only if the sparse test answers rightly, the
backups fit the group and, with `flex_bg`, the group's number tells which of its own blocks
lie in it, for that is what they are compared with. -/
theorem ext4InitBlockBitmap_exact_iff (layout : Layout sb) (some_ : groupStart sb g < ext4BlocksCount sb)
    (own : OwnBlocks sb bg g) : InitExact sb bg g ↔
      ext4BgHasSuper sb g = some (if HasBackup sb g then 1 else 0) ∧ backups sb g ≤ groupLength sb g ∧
      (hasIncompatFeature sb featureIncompatFlexBg = true → ∀ blk ∈ ownBlocks sb bg,
        ((blk : Int) - superFirstDataBlock sb) % 2^32 = g ↔ InGroup sb g blk) := by
  have numbers := layout.numbers some_
  have short := numbers.short
  have size := layout.sizes.blockSize_le
  constructor
  · rintro ⟨mem,bg',free,result,bits,count⟩
    rw [ext4InitBlockBitmap_eq numbers] at result
    obtain ⟨bitMax,start,result⟩ := Option.bind_eq_some_iff.mp result
    split_ifs at result with room
    have right := backups_hasSuper layout numbers (layout.group_lt some_) start room.1
    rw [hasSuper_backups layout numbers right] at start
    obtain rfl := Option.some.inj start
    obtain ⟨rfl,rest⟩ := Prod.mk.inj (Option.some.inj result)
    obtain ⟨_,rfl⟩ := Prod.mk.inj rest
    have few := strangers_le own
    have found (blk : Nat) (member : blk ∈ ownBlocks sb bg) (inside : InGroup sb g blk) : counted sb g blk = true := by
      obtain ⟨low,high⟩ := inside
      have away := own.apart blk member
      have below : blk - groupStart sb g < superBlockSize sb * 8 := by omega
      have set := (bits _ below).mpr (Or.inr (Or.inl ⟨blk,member,⟨low,high⟩,by omega⟩))
      rcases (initialBits_iff _ below).mp set with backup | ⟨blk',_,taken,same⟩ | past
      · omega
      · obtain rfl : blk' = blk := by omega
        exact taken
      · omega
    rw [countP_counted found] at count
    have fit : backups sb g ≤ groupLength sb g := by
      by_contra more
      have none_ : ownInside sb bg g = 0 := by
        refine List.countP_eq_zero.mpr fun blk member inside => ?_
        have away := own.apart blk member
        have bounds := of_decide_eq_true inside
        unfold InGroup at bounds
        omega
      have full : clearBits (initialBits sb bg g (backups sb g)) (superBlockSize sb * 8) = ∅ := by
        refine Finset.eq_empty_of_forall_notMem fun i member => ?_
        obtain ⟨inside,zero⟩ := (mem_clearBits _ _ _).mp member
        rw [(initialBits_iff _ inside).mpr (by omega)] at zero
        nomatch zero
      have room := room.1
      rw [full,Finset.card_empty,none_] at count
      unfold u32 at count
      omega
    have clear := clearBits_meta numbers own bits fit
    have alone : strangers sb bg g = 0 := by
      unfold u32 at count
      omega
    refine ⟨right,fit,fun flex blk member => ?_⟩
    rw [← counted_iff flex]
    exact ⟨strangers_zero.mp alone blk member,found blk member⟩
  · rintro ⟨right,fit,same⟩
    refine initExact_of layout some_ own right fit fun blk member => ?_
    cases flex : hasIncompatFeature sb featureIncompatFlexBg with
    | false => exact iff_of_true (by simp [counted,flex]) (own.inside flex blk member)
    | true => exact (counted_iff flex blk).trans (same flex blk member)

/-- One group of eight blocks, with and without `flex_bg`, and its descriptor. -/
def smallSuper (flexBg : Bool) : SuperBlock :=
  {oneFree.superBlock with sFeatureIncompat := if flexBg then featureIncompatFlexBg else 0}

def uninitDesc : GroupDesc := ⟨3,0,4,0,5,0,0,0,2⟩

theorem smallSuper_layout (flexBg : Bool) : Layout (smallSuper flexBg) := by
  cases flexBg with
  | false => exact ⟨⟨by decide,by decide,by decide,by decide⟩,by decide,by decide⟩
  | true => exact ⟨⟨by decide,by decide,by decide,by decide⟩,by decide,by decide⟩

theorem uninitDesc_own (flexBg : Bool) : OwnBlocks (smallSuper flexBg) uninitDesc 0 := by
  cases flexBg with
  | false => exact ⟨by decide,by decide,fun _ => by decide⟩
  | true => exact ⟨by decide,by decide,fun _ => by decide⟩

/-- Without `flex_bg` the group's own blocks are set and taken off the count. -/
theorem ext4InitBlockBitmap_exact_iff_small : InitExact (smallSuper false) uninitDesc 0 :=
  (ext4InitBlockBitmap_exact_iff (smallSuper_layout false) (by decide) (uninitDesc_own false)).mpr
    ⟨by decide,by decide,fun flexBg => absurd flexBg (by decide)⟩

/-- With `flex_bg` the group's bitmaps in blocks 3 and 4 and its inode table in block 5 stay
free: block 3 is taken for a block of group 3. -/
theorem initBlockBitmap_flexBg : Layout (smallSuper true) ∧ OwnBlocks (smallSuper true) uninitDesc 0 ∧
    (∃ mem bg', ext4InitBlockBitmap (smallSuper true) uninitDesc 0 = some (mem,bg',6) ∧
      mem 3 = false ∧ mem 4 = false ∧ mem 5 = false) ∧ ¬InitExact (smallSuper true) uninitDesc 0 := by
  have values : (ext4InitBlockBitmap (smallSuper true) uninitDesc 0).map
      (fun r => (r.1 3,r.1 4,r.1 5,r.2.2)) = some (false,false,false,6) := by decide +kernel
  obtain ⟨⟨mem,bg',free⟩,result,bits⟩ := Option.map_eq_some_iff.mp values
  simp only [Prod.mk.injEq] at bits
  obtain ⟨three,four,five,rfl⟩ := bits
  refine ⟨smallSuper_layout true,uninitDesc_own true,⟨mem,bg',result,three,four,five⟩,?_⟩
  rintro ⟨mem',_,_,result',right,_⟩
  rw [result] at result'
  obtain ⟨rfl,_⟩ := Prod.mk.inj (Option.some.inj result')
  have taken := (right 3 (by decide)).mpr (Or.inr (Or.inl ⟨3,by decide,by decide,by decide⟩))
  rw [three] at taken
  cases taken

end Ext4Fuse.GroupBitmap
