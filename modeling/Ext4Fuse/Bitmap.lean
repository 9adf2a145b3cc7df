import Ext4Fuse.Library.Scan
import Mathlib.Data.BitVec
import Mathlib.Order.Basic
import Mathlib.Data.Nat.Find
import Mathlib.Logic.Function.Basic

/-! `bitmap.c` and `bitmap.h` on a little-endian machine with 64-bit words. Memory is
its bits: bit `8 * a + j` is bit `j` of the byte at address `a`. The `int` arguments are
naturals, except a length, which may be negative. -/
namespace Ext4Fuse.Bitmap
open Library.Scan

abbrev Mem := Nat → Bool

def load (mem : Mem) (addr : Nat) : BitVec 64 :=
  (BitVec.ofBoolListLE ((List.range 64).map fun j => mem (8 * addr + j))).cast (by simp)

def store {w : Nat} (mem : Mem) (addr : Nat) (word : BitVec w) : Mem :=
  fun i => if 8 * addr ≤ i ∧ i < 8 * addr + w then word.getLsbD (i - 8 * addr) else mem i

def ffsStep (k : Nat) (s : Nat × BitVec 64) : Nat × BitVec 64 :=
  if s.2 &&& BitVec.ofNat 64 (2^k - 1) = 0 then (s.1 + k,s.2 >>> k) else s

def ffs (word : BitVec 64) : Nat :=
  (ffsStep 1 (ffsStep 2 (ffsStep 4 (ffsStep 8 (ffsStep 16 (ffsStep 32 (0,word))))))).1

def ffz (x : BitVec 64) : Nat := ffs (~~~x)

def setBit (nr : Nat) (mem : Mem) (addr : Nat) : Mem :=
  let p := addr + 8 * (nr / 64)
  store mem p (load mem p ||| 1#64 <<< (nr % 64))

def clearBit (nr : Nat) (mem : Mem) (addr : Nat) : Mem :=
  let p := addr + 8 * (nr / 64)
  store mem p (load mem p &&& ~~~(1#64 <<< (nr % 64)))

/-- From the label `found_first` on, with `size < 64`. -/
def zeroFoundFirst (tmp : BitVec 64) (size result : Nat) : Nat :=
  let tmp := tmp ||| BitVec.allOnes 64 <<< size
  if tmp = BitVec.allOnes 64 then result + size else result + ffz tmp

/-- From the `while` loop over `words = size / 64` whole words on. -/
def zeroWords (mem : Mem) : Nat → Nat → Nat → Nat → Nat
  | 0, p, size, result => if size = 0 then result else zeroFoundFirst (load mem p) size result
  | words+1, p, size, result =>
    let tmp := load mem p
    if ~~~tmp ≠ 0 then result + ffz tmp else zeroWords mem words (p + 8) (size - 64) (result + 64)

def findNextZeroBit (mem : Mem) (addr size offset : Nat) : Nat :=
  if size ≤ offset then size
  else
    let p := addr + 8 * (offset / 64)
    let result := offset / 64 * 64
    let size := size - result
    let offset := offset % 64
    if offset ≠ 0 then
      let tmp := load mem p ||| BitVec.allOnes 64 >>> (64 - offset)
      if size < 64 then zeroFoundFirst tmp size result
      else if ~~~tmp ≠ 0 then result + ffz tmp
      else zeroWords mem ((size - 64) / 64) (p + 8) (size - 64) (result + 64)
    else zeroWords mem (size / 64) p size result

/-- `mb_correct_addr_and_bit`: the bit number and the address of its aligned word. -/
def mbCorrectAddrAndBit (bit addr : Nat) : Nat × Nat := (bit + addr % 8 * 8,addr / 8 * 8)

def mbSetBit (bit : Nat) (mem : Mem) (addr : Nat) : Mem :=
  let (bit,addr) := mbCorrectAddrAndBit bit addr
  setBit bit mem addr

def mbClearBit (bit : Nat) (mem : Mem) (addr : Nat) : Mem :=
  let (bit,addr) := mbCorrectAddrAndBit bit addr
  clearBit bit mem addr

def mbFindNextZeroBit (mem : Mem) (addr max start : Nat) : Nat :=
  let (fix,addr) := mbCorrectAddrAndBit 0 addr
  let ret := findNextZeroBit mem addr (max + fix) (start + fix) - fix
  if max < ret then max else ret

/-- The loop of `mb_set_bits` and `mb_clear_bits`, which write one bit with `one` or a
whole aligned 32-bit word. Every round moves `cur`, so `len - cur` rounds are enough. -/
def mbWriteLoop (one : Nat → Mem → Nat → Mem) (word : BitVec 32) (bm len : Nat) : Nat → Nat → Mem → Mem
  | 0, _, mem => mem
  | rounds+1, cur, mem =>
    if cur < len then
      if cur % 32 = 0 ∧ 32 ≤ len - cur then mbWriteLoop one word bm len rounds (cur + 32) (store mem (bm + cur / 8) word)
      else mbWriteLoop one word bm len rounds (cur + 1) (one cur mem bm)
    else mem

def mbWriteBits (one : Nat → Mem → Nat → Mem) (word : BitVec 32) (mem : Mem) (bm cur : Nat) (len : Int) : Mem :=
  let len := (cur + len).toNat
  mbWriteLoop one word bm len (len - cur) cur mem

def mbSetBits (mem : Mem) (bm cur : Nat) (len : Int) : Mem := mbWriteBits mbSetBit (BitVec.allOnes 32) mem bm cur len
def mbClearBits (mem : Mem) (bm cur : Nat) (len : Int) : Mem := mbWriteBits mbClearBit 0 mem bm cur len

def mbFindZeroRunLen (mem : Mem) (addr max start : Nat) : Int :=
  start + 1 - mbFindNextZeroBit mem addr max start

/-! Words. -/

theorem getLsbD_load (mem : Mem) (addr i : Nat) :
    (load mem addr).getLsbD i = (decide (i < 64) && mem (8 * addr + i)) := by
  rw [load,BitVec.getLsbD_cast,BitVec.getLsbD_ofBoolListLE]
  rcases Nat.lt_or_ge i 64 with inside | outside
  · simp [inside]
  · simp [Nat.not_lt.mpr outside]

/-- Bit `i` is the lowest set bit of a word. -/
def Lowest (word : BitVec 64) (i : Nat) : Prop :=
  word.getLsbD i = true ∧ ∀ j, j < i → word.getLsbD j = false

theorem getLsbD_mask (word : BitVec 64) (k j : Nat) (bound : j < 64) :
    (word &&& BitVec.ofNat 64 (2^k - 1)).getLsbD j = (word.getLsbD j && decide (j < k)) := by
  rw [BitVec.getLsbD_and,BitVec.getLsbD_ofNat,Nat.testBit_two_pow_sub_one]
  simp [bound]

theorem ffsStep_lowest (k i : Nat) (s : Nat × BitVec 64) (lowest : Lowest s.2 i) (bound : i < 2 * k) :
    ∃ i', Lowest (ffsStep k s).2 i' ∧ (ffsStep k s).1 + i' = s.1 + i ∧ i' < k := by
  have inside : i < 64 := BitVec.lt_of_getLsbD lowest.1
  unfold ffsStep
  split
  · rename_i masked
    have upper : k ≤ i := by
      by_contra below
      have clear := getLsbD_mask s.2 k i inside
      rw [masked,lowest.1] at clear
      simp at clear
      omega
    refine ⟨i - k,⟨?_,?_⟩,by omega,by omega⟩
    · rw [BitVec.getLsbD_ushiftRight,Nat.add_sub_cancel' upper]
      exact lowest.1
    · intro j before
      rw [BitVec.getLsbD_ushiftRight]
      exact lowest.2 _ (by omega)
  · rename_i masked
    refine ⟨i,lowest,rfl,?_⟩
    by_contra above
    apply masked
    apply BitVec.eq_of_getLsbD_eq
    intro j inside
    rw [getLsbD_mask s.2 k j inside]
    rcases Nat.lt_or_ge j k with low | high
    · simp [lowest.2 j (by omega)]
    · simp [Nat.not_lt.mpr high]

theorem ffs_lowest (word : BitVec 64) (i : Nat) (lowest : Lowest word i) : ffs word = i := by
  have inside : i < 2 * 32 := BitVec.lt_of_getLsbD lowest.1
  obtain ⟨i₁,low₁,sum₁,bound₁⟩ := ffsStep_lowest 32 i (0,word) lowest inside
  obtain ⟨i₂,low₂,sum₂,bound₂⟩ := ffsStep_lowest 16 i₁ _ low₁ bound₁
  obtain ⟨i₃,low₃,sum₃,bound₃⟩ := ffsStep_lowest 8 i₂ _ low₂ bound₂
  obtain ⟨i₄,low₄,sum₄,bound₄⟩ := ffsStep_lowest 4 i₃ _ low₃ bound₃
  obtain ⟨i₅,low₅,sum₅,bound₅⟩ := ffsStep_lowest 2 i₄ _ low₄ bound₄
  obtain ⟨i₆,low₆,sum₆,bound₆⟩ := ffsStep_lowest 1 i₅ _ low₅ bound₅
  unfold ffs
  omega

/-- The zero bits of `tmp` are the bits from `low` to `high` at which `clear` holds. -/
def Zeros (tmp : BitVec 64) (clear : Nat → Bool) (low high : Nat) : Prop :=
  ∀ j, j < 64 → tmp.getLsbD j = !(decide (low ≤ j ∧ j < high) && clear j)

theorem Zeros.full {tmp : BitVec 64} {clear : Nat → Bool} {low high : Nat} (zeros : Zeros tmp clear low high)
    (bound : high ≤ 64) (full : tmp = BitVec.allOnes 64) (j : Nat) (from_low : low ≤ j) (below : j < high) :
    clear j = false := by
  have bit := zeros j (by omega)
  rw [full,BitVec.getLsbD_allOnes] at bit
  simpa [from_low,below,show j < 64 by omega] using bit

theorem Zeros.first {tmp : BitVec 64} {clear : Nat → Bool} {low high : Nat} (zeros : Zeros tmp clear low high)
    (open_ : tmp ≠ BitVec.allOnes 64) : FirstFrom clear low high (ffz tmp) ∧ ffz tmp < high := by
  have some : ∃ i, i < 64 ∧ tmp.getLsbD i = false := by
    by_contra none
    apply open_
    apply BitVec.eq_of_getLsbD_eq
    intro j inside
    rw [BitVec.getLsbD_allOnes,decide_eq_true inside,← Bool.not_eq_false]
    exact fun zero => none ⟨j,inside,zero⟩
  obtain ⟨i,⟨inside,zero⟩,least⟩ : ∃ i, (i < 64 ∧ tmp.getLsbD i = false) ∧ ∀ j, j < i → tmp.getLsbD j = true := by
    refine ⟨Nat.find some,Nat.find_spec some,fun j before => ?_⟩
    have bound := (Nat.find_spec some).1
    rw [← Bool.not_eq_false]
    exact fun zero => Nat.find_min some before ⟨by omega,zero⟩
  have lowest : Lowest (~~~tmp) i := by
    refine ⟨by rw [BitVec.getLsbD_not,zero,decide_eq_true inside]; rfl,fun j before => ?_⟩
    rw [BitVec.getLsbD_not,least j before,Bool.not_true,Bool.and_false]
  have here : low ≤ i ∧ i < high ∧ clear i = true := by
    have bit := zeros i inside
    rw [zero] at bit
    simpa [and_assoc] using bit
  rw [ffz,ffs_lowest _ i lowest]
  refine ⟨⟨here.1,here.2.1.le,?_,fun _ => here.2.2⟩,here.2.1⟩
  intro j from_low before
  have bit := zeros j (by omega)
  rw [least j before] at bit
  simpa [from_low,show j < high by omega] using bit

theorem zeros_load (mem : Mem) (p : Nat) : Zeros (load mem p) (fun j => !mem (8 * p + j)) 0 64 := by
  intro j inside
  rw [getLsbD_load]
  simp [inside]

theorem Zeros.below {tmp : BitVec 64} {clear : Nat → Bool} (zeros : Zeros tmp clear 0 64) (low : Nat)
    (inside : low < 64) (positive : 0 < low) :
    Zeros (tmp ||| BitVec.allOnes 64 >>> (64 - low)) clear low 64 := by
  intro j bound
  rw [BitVec.getLsbD_or,BitVec.getLsbD_ushiftRight,BitVec.getLsbD_allOnes,zeros j bound]
  rcases Nat.lt_or_ge j low with before | after
  · simp [Nat.not_le.mpr before,show 64 - low + j < 64 by omega]
  · simp [after,bound,show ¬64 - low + j < 64 by omega]

theorem Zeros.above {tmp : BitVec 64} {clear : Nat → Bool} {low : Nat} (zeros : Zeros tmp clear low 64) (high : Nat)
    (inside : high < 64) : Zeros (tmp ||| BitVec.allOnes 64 <<< high) clear low high := by
  intro j bound
  rw [BitVec.getLsbD_or,BitVec.getLsbD_shiftLeft,BitVec.getLsbD_allOnes,zeros j bound]
  rcases Nat.lt_or_ge j high with before | after
  · simp [before,bound]
  · simp [Nat.not_lt.mpr after,bound,show j - high < 64 by omega]

/-! Searching. -/

theorem not_eq_zero_iff (tmp : BitVec 64) : ~~~tmp ≠ 0 ↔ tmp ≠ BitVec.allOnes 64 := by
  rw [not_iff_not]
  constructor
  · intro zero
    rw [← BitVec.not_not (b := tmp),zero]
    rfl
  · rintro rfl
    rfl

theorem zeroFoundFirst_first {tmp : BitVec 64} {clear : Nat → Bool} {low size result : Nat}
    (zeros : Zeros tmp (fun j => clear (result + j)) low 64) (ordered : low ≤ size) (small : size < 64) :
    FirstFrom clear (result + low) (result + size) (zeroFoundFirst tmp size result) := by
  have cut := zeros.above size small
  unfold zeroFoundFirst
  dsimp only
  split
  · rename_i full
    exact FirstFrom.shift (FirstFrom.none_left ordered (cut.full small.le full))
  · rename_i open_
    exact FirstFrom.shift (cut.first open_).1

theorem zeroWords_first (mem : Mem) (addr words p size result : Nat) (whole : words = size / 64)
    (at_p : 8 * p = 8 * addr + result) :
    FirstFrom (fun j => !mem (8 * addr + j)) result (result + size) (zeroWords mem words p size result) := by
  have zeros : Zeros (load mem p) (fun j => !mem (8 * addr + (result + j))) 0 64 := by
    simpa [at_p,Nat.add_assoc] using zeros_load mem p
  induction words generalizing p size result with
  | zero =>
    rw [zeroWords]
    split
    · rename_i empty
      subst empty
      exact FirstFrom.none_left (Nat.le_refl _) fun j low high => absurd high (by omega)
    · exact zeroFoundFirst_first zeros (Nat.zero_le _) (by omega)
  | succ words ih =>
    rw [zeroWords]
    split
    · rename_i found
      obtain ⟨first,inside⟩ := zeros.first ((not_eq_zero_iff _).mp found)
      have found : FirstFrom (fun j => !mem (8 * addr + j)) (result + 0) (result + 64) (result + ffz (load mem p)) :=
        FirstFrom.shift first
      exact FirstFrom.widen (by omega) (Nat.add_lt_add_left inside _) found
    · rename_i full
      have ones : load mem p = BitVec.allOnes 64 := by
        by_contra open_
        exact full ((not_eq_zero_iff _).mpr open_)
      have rest := ih (p + 8) (size - 64) (result + 64) (by omega) (by omega)
        (by simpa [show 8 * (p + 8) = 8 * addr + (result + 64) by omega,Nat.add_assoc] using zeros_load mem (p + 8))
      rw [show result + 64 + (size - 64) = result + size by omega] at rest
      refine FirstFrom.skip (Nat.le_add_right _ _) (fun j low high => ?_) rest
      have bit := zeros.full (Nat.le_refl _) ones (j - result) (Nat.zero_le _) (by omega)
      rwa [Nat.add_sub_cancel' low] at bit

theorem findNextZeroBit_first (mem : Mem) (addr size offset : Nat) (ordered : offset ≤ size) :
    FirstFrom (fun j => !mem (8 * addr + j)) offset size (findNextZeroBit mem addr size offset) := by
  unfold findNextZeroBit
  split
  · rename_i done
    have same := Nat.le_antisymm ordered done
    subst same
    exact FirstFrom.none_left (Nat.le_refl _) fun j low high => absurd high (by omega)
  · dsimp only
    have parts := Nat.div_add_mod' offset 64
    have at_p : 8 * (addr + 8 * (offset / 64)) = 8 * addr + offset / 64 * 64 := by omega
    have total : offset / 64 * 64 + (size - offset / 64 * 64) = size := by omega
    have inside := Nat.mod_lt offset (show 0 < 64 by omega)
    generalize offset / 64 * 64 = result at parts at_p total
    generalize addr + 8 * (offset / 64) = p at at_p
    split
    · rename_i part
      have zeros : Zeros (load mem p) (fun j => !mem (8 * addr + (result + j))) 0 64 := by
        simpa [at_p,Nat.add_assoc] using zeros_load mem p
      have head := zeros.below (offset % 64) inside (Nat.pos_of_ne_zero part)
      split
      · rename_i short
        have found : FirstFrom (fun j => !mem (8 * addr + j)) (result + offset % 64) (result + (size - result)) _ :=
          zeroFoundFirst_first head (by omega) short
        rwa [parts,total] at found
      · split
        · rename_i open_
          obtain ⟨first,bound⟩ := head.first ((not_eq_zero_iff _).mp open_)
          have found : FirstFrom (fun j => !mem (8 * addr + j)) (result + offset % 64) (result + 64) _ :=
            FirstFrom.shift first
          rw [parts] at found
          exact FirstFrom.widen (by omega) (Nat.add_lt_add_left bound _) found
        · rename_i full
          have ones : load mem p ||| BitVec.allOnes 64 >>> (64 - offset % 64) = BitVec.allOnes 64 := by
            by_contra open_
            exact full ((not_eq_zero_iff _).mpr open_)
          have rest := zeroWords_first mem addr _ (p + 8) (size - result - 64) (result + 64) rfl (by omega)
          rw [show result + 64 + (size - result - 64) = size by omega] at rest
          refine FirstFrom.skip (by omega) (fun j low high => ?_) rest
          have bit := head.full (Nat.le_refl _) ones (j - result) (by omega) (by omega)
          rwa [Nat.add_sub_cancel' (by omega)] at bit
    · rename_i whole
      obtain rfl : result = offset := by omega
      have rest := zeroWords_first mem addr _ p (size - result) result rfl at_p
      rwa [total] at rest

theorem correct_addr (bit addr : Nat) :
    8 * (mbCorrectAddrAndBit bit addr).2 + (mbCorrectAddrAndBit bit addr).1 = 8 * addr + bit := by
  simp only [mbCorrectAddrAndBit]
  omega

theorem mbFindNextZeroBit_first (mem : Mem) (addr max start : Nat) (ordered : start ≤ max) :
    FirstFrom (fun j => !mem (8 * addr + j)) start max (mbFindNextZeroBit mem addr max start) := by
  have aligned := correct_addr 0 addr
  unfold mbFindNextZeroBit
  generalize mbCorrectAddrAndBit 0 addr = corrected at aligned
  obtain ⟨fix,word⟩ := corrected
  have found := findNextZeroBit_first mem word (max + fix) (start + fix) (by omega)
  dsimp only at aligned ⊢
  have low := found.from_low
  have high := found.to_high
  rw [if_neg (by omega)]
  refine ⟨by omega,by omega,fun j from_start before => ?_,fun bound => ?_⟩
  · have bit := found.before (fix + j) (by omega) (by omega)
    simpa [← Nat.add_assoc,aligned] using bit
  · have bit := found.here (by omega)
    rw [show 8 * addr + (findNextZeroBit mem word (max + fix) (start + fix) - fix) =
      8 * word + findNextZeroBit mem word (max + fix) (start + fix) by omega]
    exact bit

/-- The length of a run is never looked for: a clear `start` answers 1, and so does a
bitmap without a clear bit. -/
theorem mbFindZeroRunLen_found (mem : Mem) (addr max start : Nat)
    (first : FirstFrom (fun j => !mem (8 * addr + j)) start max start) :
    mbFindZeroRunLen mem addr max start = 1 := by
  have again := mbFindNextZeroBit_first mem addr max start first.to_high
  rw [mbFindZeroRunLen,again.unique first]
  omega

/-! Writing. -/

theorem store_word (mem : Mem) (p nr : Nat) (word : BitVec 64) (v : Bool) (inside : nr < 64)
    (bits : ∀ j, j < 64 → word.getLsbD j = if j = nr then v else (load mem p).getLsbD j) :
    store mem p word = Function.update mem (8 * p + nr) v := by
  funext i
  unfold store
  split
  · rename_i range
    rw [bits (i - 8 * p) (by omega),getLsbD_load]
    rcases eq_or_ne i (8 * p + nr) with rfl | other
    · simp
    · rw [if_neg (by omega),Function.update_of_ne other,Nat.add_sub_cancel' range.1,
        decide_eq_true (by omega),Bool.true_and]
  · rw [Function.update_of_ne (by omega)]

theorem getLsbD_one_shift (nr j : Nat) (inside : j < 64) :
    (1#64 <<< nr).getLsbD j = decide (j = nr) := by
  rw [BitVec.getLsbD_shiftLeft,BitVec.getLsbD_one]
  rcases Nat.lt_trichotomy j nr with less | same | more
  · simp [less,less.ne]
  · simp [same,same ▸ inside]
  · simp [inside,more.ne',Nat.not_lt.mpr more.le,show ¬j - nr = 0 by omega]

theorem setBit_eq (nr : Nat) (mem : Mem) (addr : Nat) :
    setBit nr mem addr = Function.update mem (8 * addr + nr) true := by
  have inside := Nat.mod_lt nr (show 0 < 64 by omega)
  rw [setBit,store_word mem _ (nr % 64) _ true inside]
  · congr 1
    omega
  · intro j bound
    rw [BitVec.getLsbD_or,getLsbD_one_shift _ j bound]
    split <;> simp [*]

theorem clearBit_eq (nr : Nat) (mem : Mem) (addr : Nat) :
    clearBit nr mem addr = Function.update mem (8 * addr + nr) false := by
  have inside := Nat.mod_lt nr (show 0 < 64 by omega)
  rw [clearBit,store_word mem _ (nr % 64) _ false inside]
  · congr 1
    omega
  · intro j bound
    rw [BitVec.getLsbD_and,BitVec.getLsbD_not,getLsbD_one_shift _ j bound]
    split <;> simp [*]

/-- The bits from `low` to `high` of the bitmap at `bm` replaced by `v`. -/
def filled (mem : Mem) (bm low high : Nat) (v : Bool) : Mem :=
  fun i => if 8 * bm + low ≤ i ∧ i < 8 * bm + high then v else mem i

theorem mbWriteLoop_filled (one : Nat → Mem → Nat → Mem) (word : BitVec 32) (v : Bool) (bm len : Nat)
    (one_eq : ∀ bit mem addr, one bit mem addr = Function.update mem (8 * addr + bit) v)
    (word_eq : ∀ j, j < 32 → word.getLsbD j = v) (rounds cur : Nat) (mem : Mem) (enough : len - cur ≤ rounds) :
    mbWriteLoop one word bm len rounds cur mem = filled mem bm cur len v := by
  induction rounds generalizing cur mem with
  | zero =>
    funext i
    rw [mbWriteLoop,filled,if_neg (by omega)]
  | succ rounds ih =>
    rw [mbWriteLoop]
    split_ifs with more fast
    · rw [ih _ _ (by omega)]
      funext i
      simp only [filled,store]
      have aligned : 8 * (bm + cur / 8) = 8 * bm + cur := by omega
      rw [aligned]
      split_ifs with tail head range
      · rfl
      · omega
      · exact word_eq _ (by omega)
      · omega
      · omega
      · rfl
    · rw [ih _ _ (by omega),one_eq]
      funext i
      simp only [filled]
      rcases eq_or_ne i (8 * bm + cur) with rfl | other
      · simp [show cur < len from more]
      · rw [Function.update_of_ne other]
        congr 1
        exact propext ⟨fun range => by omega,fun range => by omega⟩
    · funext i
      rw [filled,if_neg (by omega)]

theorem mbSetBits_eq (mem : Mem) (bm cur : Nat) (len : Int) :
    mbSetBits mem bm cur len = filled mem bm cur (cur + len).toNat true := by
  refine mbWriteLoop_filled _ _ true bm _ ?_ ?_ _ _ _ (Nat.le_refl _)
  · intro bit mem addr
    rw [← correct_addr bit addr]
    exact setBit_eq _ mem _
  · intro j inside
    rw [BitVec.getLsbD_allOnes,decide_eq_true inside]

theorem mbClearBits_eq (mem : Mem) (bm cur : Nat) (len : Int) :
    mbClearBits mem bm cur len = filled mem bm cur (cur + len).toNat false := by
  refine mbWriteLoop_filled _ _ false bm _ ?_ ?_ _ _ _ (Nat.le_refl _)
  · intro bit mem addr
    rw [← correct_addr bit addr]
    exact clearBit_eq _ mem _
  · intro j _
    exact BitVec.getLsbD_zero

end Ext4Fuse.Bitmap
