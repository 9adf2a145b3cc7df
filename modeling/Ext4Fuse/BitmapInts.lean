import Ext4Fuse.Alloc

/-! `bitmap.c` with its `int`s. A sum that is not an `int`, and the shift for a negative bit
number, have no result. -/
namespace Ext4Fuse.BitmapInts
open Machine Ext4Fuse.Types Bitmap Super Alloc Library.Scan

def intSum (a b : Int) : Option Int := if -2^31 ≤ a + b ∧ a + b < 2^31 then some (a + b) else none

/-! The search for a set bit. -/

/-- From the label `found_first` of `find_next_bit` on, with `size < 64`. -/
def bitFoundFirst (tmp : BitVec 64) (size result : Nat) : Nat :=
  let tmp := tmp &&& BitVec.allOnes 64 >>> (64 - size)
  if tmp = 0 then result + size else result + ffs tmp

/-- From the `while` loop over `words = size / 64` whole words on. -/
def bitWords (mem : Mem) : Nat → Nat → Nat → Nat → Nat
  | 0, p, size, result => if size = 0 then result else bitFoundFirst (load mem p) size result
  | words+1, p, size, result =>
    let tmp := load mem p
    if tmp ≠ 0 then result + ffs tmp else bitWords mem words (p + 8) (size - 64) (result + 64)

def findNextBit (mem : Mem) (addr size offset : Nat) : Nat :=
  if size ≤ offset then size
  else
    let p := addr + 8 * (offset / 64)
    let result := offset / 64 * 64
    let size := size - result
    let offset := offset % 64
    if offset ≠ 0 then
      let tmp := load mem p &&& BitVec.allOnes 64 <<< offset
      if size < 64 then bitFoundFirst tmp size result
      else if tmp ≠ 0 then result + ffs tmp
      else bitWords mem ((size - 64) / 64) (p + 8) (size - 64) (result + 64)
    else bitWords mem (size / 64) p size result

/-- `mb_find_next_zero_bit` and `mb_find_next_bit` around their searches. -/
def mbFindNext (find : Mem → Nat → Nat → Nat → Nat) (mem : Mem) (addr : Nat) (max start : Int) : Option Int := do
  let (fix,addr) := mbCorrectAddrAndBit 0 addr
  let tmpmax ← intSum max fix
  let start ← intSum start fix
  let ret := i32 (u64 (find mem addr (u64 tmpmax) (u64 start) - fix : Int))
  return if max < ret then max else ret

def mbFindNextZeroBitInt (mem : Mem) (addr : Nat) (max start : Int) : Option Int :=
  mbFindNext findNextZeroBit mem addr max start

/-- The size that `find_next_bit` is given is an `unsigned int`. -/
def mbFindNextBitInt (mem : Mem) (addr : Nat) (max start : Int) : Option Int :=
  mbFindNext (fun mem addr size offset => findNextBit mem addr (u32 size) offset) mem addr max start

def mbFindZeroRunLenInt (mem : Mem) (addr : Nat) (max start : Int) : Option Int := do
  let next ← mbFindNextZeroBitInt mem addr max start
  let stop ← intSum start 1
  intSum stop (-next)

/-! A set bit is a clear one of the inverted memory. -/

def inverted (mem : Mem) : Mem := fun i => !mem i

theorem load_inverted (mem : Mem) (p : Nat) : load (inverted mem) p = ~~~load mem p := by
  apply BitVec.eq_of_getLsbD_eq
  intro j inside
  rw [BitVec.getLsbD_not,getLsbD_load,getLsbD_load]
  simp [inside,inverted]

theorem not_ones_shiftLeft {k : Nat} (inside : k < 64) :
    ~~~(BitVec.allOnes 64 <<< k) = BitVec.allOnes 64 >>> (64 - k) := by
  apply BitVec.eq_of_getLsbD_eq
  intro j bound
  rw [BitVec.getLsbD_not,BitVec.getLsbD_shiftLeft,BitVec.getLsbD_ushiftRight,BitVec.getLsbD_allOnes,BitVec.getLsbD_allOnes]
  rcases Nat.lt_or_ge j k with before | after
  · simp [before,bound,show 64 - k + j < 64 by omega]
  · simp [Nat.not_lt.mpr after,bound,show j - k < 64 by omega,show ¬64 - k + j < 64 by omega]

theorem not_ones_shiftRight {k : Nat} (inside : k < 64) :
    ~~~(BitVec.allOnes 64 >>> (64 - k)) = BitVec.allOnes 64 <<< k := by
  rw [← not_ones_shiftLeft inside,BitVec.not_not]

theorem zeroFoundFirst_not (tmp : BitVec 64) {size : Nat} (small : size < 64) (result : Nat) :
    zeroFoundFirst (~~~tmp) size result = bitFoundFirst tmp size result := by
  have masked : ~~~(~~~tmp ||| BitVec.allOnes 64 <<< size) = tmp &&& BitVec.allOnes 64 >>> (64 - size) := by
    rw [BitVec.not_or,BitVec.not_not,not_ones_shiftLeft small]
  have full : ~~~tmp ||| BitVec.allOnes 64 <<< size = BitVec.allOnes 64 ↔ tmp &&& BitVec.allOnes 64 >>> (64 - size) = 0 := by
    have opened := not_eq_zero_iff (~~~tmp ||| BitVec.allOnes 64 <<< size)
    rw [masked] at opened
    exact (not_iff_not.mp opened).symm
  unfold zeroFoundFirst bitFoundFirst
  simp only [full,ffz,masked]

theorem zeroWords_inverted (mem : Mem) (words p size result : Nat) (whole : words = size / 64) :
    zeroWords (inverted mem) words p size result = bitWords mem words p size result := by
  induction words generalizing p size result with
  | zero =>
    rw [zeroWords,bitWords,load_inverted,zeroFoundFirst_not _ (by omega)]
  | succ words ih =>
    rw [zeroWords,bitWords]
    simp only [load_inverted,ffz,BitVec.not_not]
    rw [ih (p + 8) (size - 64) (result + 64) (by omega)]

theorem findNextZeroBit_inverted (mem : Mem) (addr size offset : Nat) :
    findNextZeroBit (inverted mem) addr size offset = findNextBit mem addr size offset := by
  have masked (p k : Nat) (inside : k < 64) :
      load (inverted mem) p ||| BitVec.allOnes 64 >>> (64 - k) = ~~~(load mem p &&& BitVec.allOnes 64 <<< k) := by
    rw [load_inverted,BitVec.not_and,← not_ones_shiftRight inside,BitVec.not_not]
  have rest := Nat.mod_lt offset (show 0 < 64 by decide)
  unfold findNextZeroBit findNextBit
  simp only [masked _ _ rest,ffz,BitVec.not_not]
  split_ifs with _ _ short
  · rfl
  · exact zeroFoundFirst_not _ short _
  · rfl
  · exact zeroWords_inverted mem _ _ _ _ rfl
  · exact zeroWords_inverted mem _ _ _ _ rfl

/-! What the searches find. -/

theorem intSum_nat {a b : Nat} (fits : a + b < 2^31) : intSum a b = some ((a + b : Nat) : Int) := by
  rw [intSum,if_pos (by omega)]
  rfl

/-- A search of `bitmap.h`, for the clear or for the set bits, in ranges of `int`s. -/
structure Searches (find : Mem → Nat → Nat → Nat → Nat) (value : Bool) : Prop where
  first : ∀ mem addr size offset, size < 2^31 → offset ≤ size →
    FirstFrom (fun j => mem (8 * addr + j) == value) offset size (find mem addr size offset)
  past : ∀ mem addr size offset, size < 2^31 → size ≤ offset → find mem addr size offset = size

theorem findNextZeroBit_searches : Searches findNextZeroBit false := by
  refine ⟨fun mem addr size offset _ ordered => ?_,fun mem addr size offset _ past => if_pos past⟩
  have found := findNextZeroBit_first mem addr size offset ordered
  simpa only [beq_false] using found

theorem findNextBit_searches : Searches (fun mem addr size offset => findNextBit mem addr (u32 size) offset) true := by
  refine ⟨fun mem addr size offset small ordered => ?_,fun mem addr size offset small past => ?_⟩
  · have found := findNextZeroBit_first (inverted mem) addr size offset ordered
    rw [findNextZeroBit_inverted] at found
    simpa only [inverted,Bool.not_not,beq_true,u32_small size (by omega)] using found
  · simp only [u32_small size (by omega)]
    exact if_pos past

/-- The correction of the address and the bounds finds the same bit. -/
theorem mbFindNext_first {find : Mem → Nat → Nat → Nat → Nat} {value : Bool} (searches : Searches find value) (mem : Mem)
    (addr : Nat) {max start : Nat} (fits : max + addr % 8 * 8 < 2^31) (fits' : start + addr % 8 * 8 < 2^31) :
    ∃ r : Nat, mbFindNext find mem addr max start = some (r : Int) ∧
      FirstOrEnd (fun j => mem (8 * addr + j) == value) start max r := by
  have aligned := correct_addr 0 addr
  have shift : (mbCorrectAddrAndBit 0 addr).1 = addr % 8 * 8 := Nat.zero_add _
  unfold mbFindNext
  generalize mbCorrectAddrAndBit 0 addr = corrected at aligned shift
  obtain ⟨fix,word⟩ := corrected
  simp only at aligned shift
  rw [← shift] at fits fits'
  simp only [intSum_nat fits,intSum_nat fits',Option.bind_eq_bind,Option.bind_some,Option.pure_def,
    u64_small (max + fix) (by omega),u64_small (start + fix) (by omega)]
  have result (r : Nat) (low : fix ≤ r) (high : r ≤ max + fix) :
      (if (max : Int) < i32 (u64 (r - fix : Int)) then (max : Int) else i32 (u64 (r - fix : Int))) = (r - fix : Nat) := by
    rw [show (r - fix : Int) = (r - fix : Nat) by omega,u64_small _ (by omega),i32_small _ (by omega) (by omega),
      if_neg (by omega)]
  rcases Nat.lt_or_ge max start with after | ordered
  · have past := searches.past mem word (max + fix) (start + fix) (by omega) (by omega)
    rw [past,result _ (by omega) (by omega),Nat.add_sub_cancel]
    exact ⟨max,rfl,FirstOrEnd.empty (Nat.le_of_lt after)⟩
  · have found := searches.first mem word (max + fix) (start + fix) (by omega) (by omega)
    generalize find mem word (max + fix) (start + fix) = r at found
    have low := found.from_low
    have high := found.to_high
    rw [result r (by omega) high]
    have bit (j : Nat) : mem (8 * word + (j + fix)) = mem (8 * addr + j) := by
      rw [show 8 * word + (j + fix) = 8 * addr + j by omega]
    refine ⟨r - fix,rfl,by omega,fun j from_start _ less => ?_,fun inside => ⟨by omega,?_⟩⟩
    · have before := found.before (j + fix) (by omega) (by omega)
      rwa [bit] at before
    · have here := found.here (by omega)
      rw [show r = r - fix + fix by omega,bit] at here
      exact here

/-- A search that answers with the first bit of the range that has the value, or with the end
of the range, and looks at no bit outside. -/
structure FindsFirst (find : Mem → Nat → Int → Int → Option Int) (value : Bool) (addr max start : Nat) : Prop where
  first : ∀ mem, ∃ r : Nat, find mem addr max start = some (r : Int) ∧
    FirstOrEnd (fun j => mem (8 * addr + j) == value) start max r
  inside : ∀ mem mem', (∀ j, start ≤ j → j < max → mem (8 * addr + j) = mem' (8 * addr + j)) →
    find mem addr max start = find mem' addr max start

theorem mbFindNext_findsFirst {find : Mem → Nat → Nat → Nat → Nat} {value : Bool} (searches : Searches find value)
    {addr max start : Nat} (fits : max + addr % 8 * 8 < 2^31) (fits' : start + addr % 8 * 8 < 2^31) :
    FindsFirst (mbFindNext find) value addr max start := by
  refine ⟨fun mem => mbFindNext_first searches mem addr fits fits',fun mem mem' same => ?_⟩
  obtain ⟨r,result,first⟩ := mbFindNext_first searches mem addr fits fits'
  obtain ⟨r',result',first'⟩ := mbFindNext_first searches mem' addr fits fits'
  have equal := first.unique first' fun j low high => by rw [same j low high]
  rw [result,result',equal]

/-- Both searches are exact wherever `max` and `start`, counted from the aligned address, are `int`s. -/
theorem searches_exact {addr max start : Nat} (fits : max + addr % 8 * 8 < 2^31) (fits' : start + addr % 8 * 8 < 2^31) :
    FindsFirst mbFindNextZeroBitInt false addr max start ∧ FindsFirst mbFindNextBitInt true addr max start :=
  ⟨mbFindNext_findsFirst findNextZeroBit_searches fits fits',mbFindNext_findsFirst findNextBit_searches fits fits'⟩

theorem searches_exact_odd : FindsFirst mbFindNextZeroBitInt false 5 100 3 ∧ FindsFirst mbFindNextBitInt true 5 100 3 :=
  searches_exact (by decide) (by decide)

/-- At an odd address `max + fix` is not an `int` when `max` is the largest one. -/
theorem searches_overflow : ¬FindsFirst mbFindNextZeroBitInt false 1 (2^31 - 1) 0 := by
  intro exact_
  obtain ⟨r,result,_⟩ := exact_.first fun _ => false
  have none_ : mbFindNextZeroBitInt (fun _ => false) 1 ((2^31 - 1 : Nat) : Int) (0 : Nat) = none := by
    unfold mbFindNextZeroBitInt mbFindNext intSum
    rfl
  exact nomatch none_.symm.trans result

/-! Writing. -/

/-- `mb_set_bit` and `mb_clear_bit`: the sum is an `unsigned long` put back into an `int`. -/
def mbOneBit (one : Nat → Mem → Nat → Mem) (bit : Int) (mem : Mem) (addr : Nat) : Option Mem :=
  let (fix,addr) := mbCorrectAddrAndBit 0 addr
  let bit := i32 (u64 (bit + fix))
  if bit < 0 then none else some (one bit.toNat mem addr)

/-- The loop of `mb_set_bits` and `mb_clear_bits`, for `len - cur` rounds. -/
def mbWriteLoopInt (one : Int → Mem → Nat → Option Mem) (word : BitVec 32) (bm : Nat) (len : Int) :
    Nat → Int → Mem → Option Mem
  | 0, _, mem => some mem
  | rounds+1, cur, mem =>
    if cur < len then
      if cur % 32 = 0 ∧ 32 ≤ len - cur then
        mbWriteLoopInt one word bm len rounds (cur + 32) (store mem (bm + cur.toNat / 8) word)
      else (one cur mem bm).bind fun mem => mbWriteLoopInt one word bm len rounds (cur + 1) mem
    else some mem

def mbWriteBitsInt (one : Nat → Mem → Nat → Mem) (word : BitVec 32) (mem : Mem) (bm : Nat) (cur len : Int) : Option Mem := do
  let len ← intSum cur len
  mbWriteLoopInt (mbOneBit one) word bm len (len - cur).toNat cur mem

def mbSetBitsInt (mem : Mem) (bm : Nat) (cur len : Int) : Option Mem :=
  mbWriteBitsInt setBit (BitVec.allOnes 32) mem bm cur len

def mbClearBitsInt (mem : Mem) (bm : Nat) (cur len : Int) : Option Mem := mbWriteBitsInt clearBit 0 mem bm cur len

theorem mbOneBit_nat (one : Nat → Mem → Nat → Mem) (mem : Mem) {bit addr : Nat} (fits : bit + addr % 8 * 8 < 2^31) :
    mbOneBit one bit mem addr = some (one (mbCorrectAddrAndBit bit addr).1 mem (mbCorrectAddrAndBit bit addr).2) := by
  have shift : ((mbCorrectAddrAndBit 0 addr).1 : Int) = (addr % 8 * 8 : Nat) := by
    rw [mbCorrectAddrAndBit,Nat.zero_add]
  have sum : i32 (u64 (bit + (mbCorrectAddrAndBit 0 addr).1 : Int)) = (bit + addr % 8 * 8 : Nat) := by
    rw [shift,← Nat.cast_add,u64_small _ (by omega),i32_small _ (by omega) (by omega)]
  simp only [mbOneBit,sum]
  rw [if_neg (by omega),Int.toNat_natCast]
  rfl

theorem mbWriteLoopInt_nat (one : Nat → Mem → Nat → Mem) (word : BitVec 32) {bm len : Nat} (fits : len + bm % 8 * 8 ≤ 2^31)
    (rounds cur : Nat) (mem : Mem) : mbWriteLoopInt (mbOneBit one) word bm len rounds cur mem =
      some (mbWriteLoop (fun bit mem addr => one (mbCorrectAddrAndBit bit addr).1 mem (mbCorrectAddrAndBit bit addr).2)
        word bm len rounds cur mem) := by
  induction rounds generalizing cur mem with
  | zero => rfl
  | succ rounds ih =>
    have more : ((cur : Int) < len) = (cur < len) := propext (by omega)
    have fast : ((cur : Int) % 32 = 0 ∧ (32 : Int) ≤ len - cur) = (cur % 32 = 0 ∧ 32 ≤ len - cur) := propext (by omega)
    rw [mbWriteLoopInt,mbWriteLoop]
    simp only [more,fast,Int.toNat_natCast]
    split_ifs with before
    · exact ih (cur + 32) _
    · rw [mbOneBit_nat one mem (show cur + bm % 8 * 8 < 2^31 by omega),Option.bind_some]
      exact ih (cur + 1) _
    · rfl

theorem filled_none (mem : Mem) (bm cur : Nat) (value : Bool) : filled mem bm cur cur value = mem := by
  funext i
  exact if_neg fun range => absurd range.2 (Nat.not_lt.mpr range.1)

theorem mbWriteBitsInt_filled (one : Nat → Mem → Nat → Mem) (word : BitVec 32) (value : Bool)
    (one_eq : ∀ bit mem addr, one bit mem addr = Function.update mem (8 * addr + bit) value)
    (word_eq : ∀ j, j < 32 → word.getLsbD j = value) (mem : Mem) {bm cur len : Nat} (fits : cur + len < 2^31)
    (fits' : 0 < len → cur + len + bm % 8 * 8 ≤ 2^31) :
    mbWriteBitsInt one word mem bm cur len = some (filled mem bm cur (cur + len) value) := by
  rw [mbWriteBitsInt,intSum_nat fits,Option.bind_eq_bind,Option.bind_some,show (((cur + len : Nat) : Int) - cur).toNat = len by omega]
  rcases Nat.eq_zero_or_pos len with rfl | some_
  · rw [mbWriteLoopInt,Nat.add_zero,filled_none]
  · rw [mbWriteLoopInt_nat one word (fits' some_),
      mbWriteLoop_filled _ word value bm (cur + len) (fun bit mem addr => ?_) word_eq len cur mem (by omega)]
    rw [one_eq,correct_addr]

theorem foldl_filled (one : Nat → Mem → Nat → Mem) (value : Bool)
    (one_eq : ∀ bit mem addr, one bit mem addr = Function.update mem (8 * addr + bit) value) (bm len cur : Nat) (mem : Mem) :
    (List.range' cur len).foldl (fun mem bit => one bit mem bm) mem = filled mem bm cur (cur + len) value := by
  induction len generalizing cur mem with
  | zero => exact (filled_none mem bm cur value).symm
  | succ len ih =>
    rw [List.range'_succ,List.foldl_cons,ih,one_eq]
    funext i
    simp only [filled,Function.update_apply]
    split_ifs <;> first | rfl | omega

/-- A range of bits gets the value and no other bit changes, as when each bit is written by itself. -/
structure Writes (write : Mem → Nat → Int → Int → Option Mem) (one : Nat → Mem → Nat → Mem) (value : Bool)
    (bm cur len : Nat) : Prop where
  bits : ∀ mem, ∃ mem', write mem bm cur len = some mem' ∧
    ∀ i, mem' i = if 8 * bm + cur ≤ i ∧ i < 8 * bm + cur + len then value else mem i
  single : ∀ mem, write mem bm cur len = some ((List.range' cur len).foldl (fun mem bit => one bit mem bm) mem)

theorem filled_writes {write : Mem → Nat → Int → Int → Option Mem} {one : Nat → Mem → Nat → Mem} {value : Bool}
    {bm cur len : Nat} (one_eq : ∀ bit mem addr, one bit mem addr = Function.update mem (8 * addr + bit) value)
    (write_eq : ∀ mem, write mem bm cur len = some (filled mem bm cur (cur + len) value)) : Writes write one value bm cur len := by
  refine ⟨fun mem => ⟨_,write_eq mem,fun i => ?_⟩,fun mem => ?_⟩
  · rw [filled,Nat.add_assoc (8 * bm)]
  · rw [foldl_filled one value one_eq]
    exact write_eq mem

theorem mbSetBitsInt_filled (mem : Mem) {bm cur len : Nat} (fits : cur + len < 2^31) (fits' : 0 < len → cur + len + bm % 8 * 8 ≤ 2^31) :
    mbSetBitsInt mem bm cur len = some (filled mem bm cur (cur + len) true) := by
  refine mbWriteBitsInt_filled _ _ true setBit_eq (fun j inside => ?_) mem fits fits'
  rw [BitVec.getLsbD_allOnes,decide_eq_true inside]

theorem mbClearBitsInt_filled (mem : Mem) {bm cur len : Nat} (fits : cur + len < 2^31) (fits' : 0 < len → cur + len + bm % 8 * 8 ≤ 2^31) :
    mbClearBitsInt mem bm cur len = some (filled mem bm cur (cur + len) false) :=
  mbWriteBitsInt_filled _ _ false clearBit_eq (fun _ _ => BitVec.getLsbD_zero) mem fits fits'

/-- Ranges are written exactly, and cleared again after they have been set, wherever their ends and the numbers of their bits,
counted from the aligned address, are `int`s. -/
theorem writes_exact {bm cur len : Nat} (fits : cur + len < 2^31) (fits' : 0 < len → cur + len + bm % 8 * 8 ≤ 2^31) :
    Writes mbSetBitsInt mbSetBit true bm cur len ∧ Writes mbClearBitsInt mbClearBit false bm cur len ∧
      ∀ mem : Mem, (∀ i, cur ≤ i → i < cur + len → mem (8 * bm + i) = false) →
        ((mbSetBitsInt mem bm cur len).bind fun mem => mbClearBitsInt mem bm cur len) = some mem := by
  refine ⟨filled_writes (fun bit mem addr => ?_) fun mem => mbSetBitsInt_filled mem fits fits',
    filled_writes (fun bit mem addr => ?_) fun mem => mbClearBitsInt_filled mem fits fits',fun mem clear => ?_⟩
  · rw [← correct_addr bit addr]
    exact setBit_eq _ mem _
  · rw [← correct_addr bit addr]
    exact clearBit_eq _ mem _
  · rw [mbSetBitsInt_filled mem fits fits',Option.bind_some,mbClearBitsInt_filled _ fits fits']
    congr 1
    funext i
    simp only [filled]
    split_ifs with range
    · rw [← clear (i - 8 * bm) (by omega) (by omega),Nat.add_sub_cancel' (by omega)]
    · rfl

theorem writes_exact_word : Writes mbSetBitsInt mbSetBit true 3 32 40 := (writes_exact (by decide) fun _ => by decide).1

/-- `cur + len` is not an `int` behind the last bit that has a number. -/
theorem writes_overflow : ¬Writes mbSetBitsInt mbSetBit true 0 (2^31 - 1) 1 := by
  intro exact_
  obtain ⟨mem',result,_⟩ := exact_.bits fun _ => false
  have none_ : mbSetBitsInt (fun _ => false) 0 ((2^31 - 1 : Nat) : Int) (1 : Nat) = none := by
    unfold mbSetBitsInt mbWriteBitsInt intSum
    rfl
  exact nomatch none_.symm.trans result

/-! The length of a run. -/

/-- `n` clear bits from `start` on, and then a set one or the end. -/
structure ClearRun (mem : Mem) (addr max start n : Nat) : Prop where
  clear : ∀ i, i < n → mem (8 * addr + (start + i)) = false
  below : start + n ≤ max
  ends : start + n < max → mem (8 * addr + (start + n)) = true

/-- `mb_find_zero_run_len` answers with the length of the run. -/
def RunFound (mem : Mem) (addr max start : Nat) : Prop :=
  ∃ n : Nat, mbFindZeroRunLenInt mem addr max start = some (n : Int) ∧ ClearRun mem addr max start n

/-- The look into a group leads to the next one. -/
def MovesOn (v : Volume) (inode : Inode) (wanted : Int) (g : Nat) : Prop := ∃ v', takeFromGroup v inode wanted g = some (none,v')

theorem ClearRun.unique {mem : Mem} {addr max start n n' : Nat} (one : ClearRun mem addr max start n)
    (other : ClearRun mem addr max start n') : n = n' := by
  have below := one.below
  have below' := other.below
  rcases Nat.lt_trichotomy n n' with less | equal | more
  · have set := one.ends (by omega)
    rw [other.clear n less] at set
    cases set
  · exact equal
  · have set := other.ends (by omega)
    rw [one.clear n' more] at set
    cases set

theorem intSum_over {a b : Nat} (past : 2^31 ≤ a + b) : intSum a b = none := if_neg (by omega)

theorem intSum_succ_neg (r : Nat) : intSum ((r + 1 : Nat) : Int) (-r) = some 1 := by
  have one : ((r + 1 : Nat) : Int) + -r = 1 := by omega
  rw [intSum,one]
  rfl

/-- From a clear bit, or at the end, the next clear bit is that bit or the end: the answer is always 1. -/
theorem mbFindZeroRunLenInt_one (mem : Mem) {addr max start : Nat} (inside : start ≤ max)
    (clear : start < max → mem (8 * addr + start) = false) :
    mbFindZeroRunLenInt mem addr max start =
      if max + addr % 8 * 8 < 2^31 ∧ start + 1 < 2^31 then some 1 else none := by
  rcases Nat.lt_or_ge (max + addr % 8 * 8) (2^31) with fits | past
  · obtain ⟨r,result,first⟩ := mbFindNext_first findNextZeroBit_searches mem addr fits (show start + addr % 8 * 8 < 2^31 by omega)
    have itself : FirstOrEnd (fun j => mem (8 * addr + j) == false) start max start :=
      ⟨inside,fun j from_start _ less => absurd less (by omega),fun before => ⟨Nat.le_refl _,by rw [clear before]; rfl⟩⟩
    obtain rfl := first.unique itself fun _ _ _ => rfl
    rw [mbFindZeroRunLenInt,mbFindNextZeroBitInt,result,Option.bind_eq_bind,Option.bind_some]
    rcases Nat.lt_or_ge (r + 1) (2^31) with below | top
    · rw [show (1 : Int) = (1 : Nat) from rfl,intSum_nat below,Option.bind_some,intSum_succ_neg,if_pos ⟨fits,below⟩]
      rfl
    · rw [show (1 : Int) = (1 : Nat) from rfl,intSum_over top,Option.bind_none,if_neg fun both => absurd both.2 (by omega)]
  · have shift : ((mbCorrectAddrAndBit 0 addr).1 : Int) = (addr % 8 * 8 : Nat) := by
      rw [mbCorrectAddrAndBit,Nat.zero_add]
    have sum : intSum max (mbCorrectAddrAndBit 0 addr).1 = none := by rw [shift,intSum_over past]
    rw [if_neg fun both => absurd both.1 (by omega)]
    simp only [mbFindZeroRunLenInt,mbFindNextZeroBitInt,mbFindNext,sum,Option.bind_eq_bind,Option.bind_none]

theorem runFound_iff (mem : Mem) {addr max start : Nat} (inside : start ≤ max)
    (clear : start < max → mem (8 * addr + start) = false) :
    RunFound mem addr max start ↔ (max + addr % 8 * 8 < 2^31 ∧ start + 1 < 2^31) ∧ start < max ∧
      (start + 1 < max → mem (8 * addr + (start + 1)) = true) := by
  have answer := mbFindZeroRunLenInt_one mem inside clear
  constructor
  · rintro ⟨n,found,run⟩
    rw [answer] at found
    split at found
    · rename_i fits
      have one : (n : Int) = 1 := (Option.some.inj found).symm
      obtain rfl : n = 1 := by omega
      exact ⟨fits,run.below,run.ends⟩
    · nomatch found
  · rintro ⟨fits,before,ends⟩
    rw [if_pos fits] at answer
    refine ⟨1,answer,fun i less => ?_,before,ends⟩
    obtain rfl : i = 0 := by omega
    exact clear before

/-- A group without a clear bit is not taken for a full one, but for its free count. -/
theorem movesOn_iff {v : Volume} {g : Nat} {bg : GroupDesc} (inode : Inode) (wanted : Int) (desc : v.desc g = some bg)
    (full : ∀ i, i < bitmapLen v.superBlock g → v.bitmap (ext4BlockBitmap v.superBlock bg) i = true) :
    MovesOn v inode wanted g ↔ ext4FreeBlksCount v.superBlock bg = 0 := by
  have found := mbFindNextZeroBit_first (v.bitmap (ext4BlockBitmap v.superBlock bg)) 0 (bitmapLen v.superBlock g) 0 (Nat.zero_le _)
  have none_left : mbFindNextZeroBit (v.bitmap (ext4BlockBitmap v.superBlock bg)) 0 (bitmapLen v.superBlock g) 0 =
      bitmapLen v.superBlock g := by
    refine found.unique (FirstFrom.none_left (Nat.zero_le _) fun j _ inside => ?_)
    simp [full j inside]
  have one : mbFindZeroRunLen (v.bitmap (ext4BlockBitmap v.superBlock bg)) 0 (bitmapLen v.superBlock g)
      (bitmapLen v.superBlock g) = 1 := by
    refine mbFindZeroRunLen_found _ _ _ _ (FirstFrom.none_left (Nat.le_refl _) fun j low high => ?_)
    exact absurd low (by omega)
  unfold MovesOn takeFromGroup
  simp only [desc,Option.bind_eq_bind,Option.bind_some,none_left,one,one_ne_zero,if_false]
  constructor
  · rintro ⟨v',moves⟩
    by_contra counted
    rw [if_neg counted] at moves
    split_ifs at moves
    all_goals simp at moves
  · intro zero
    exact ⟨v,if_pos zero⟩

/-- The run's length is found when it is 1, and never that of the empty run at the end: a group
without a clear bit is left for the next one only on account of its free count. -/
theorem zeroRun_iff (mem : Mem) (addr max start : Nat) : (start ≤ max → max < 2^31 →
      (start < max → mem (8 * addr + start) = false) →
      (RunFound mem addr max start ↔ (max + addr % 8 * 8 < 2^31 ∧ start + 1 < 2^31) ∧ start < max ∧
        (start + 1 < max → mem (8 * addr + (start + 1)) = true))) ∧
    ∀ (v : Volume) (g : Nat) (bg : GroupDesc) (inode : Inode) (wanted : Int), v.desc g = some bg →
      (∀ i, i < bitmapLen v.superBlock g → v.bitmap (ext4BlockBitmap v.superBlock bg) i = true) →
      (MovesOn v inode wanted g ↔ ext4FreeBlksCount v.superBlock bg = 0) :=
  ⟨fun inside _ clear => runFound_iff mem inside clear,fun _ _ _ inode wanted desc full => movesOn_iff inode wanted desc full⟩

/-- One group without a free block. -/
def noneFree : Volume := {oneFree with gdesc := fun _ => ⟨3,0,4,0,5,0,0,0,0⟩,bitmap := fun _ _ => true}

/-- A lone clear bit is a run of length 1, and a full group is passed over for its free count. -/
theorem zeroRun_lone : RunFound (fun i => decide (i ≠ 40)) 4 32 8 ∧ MovesOn noneFree anyInode 1 0 :=
  ⟨((zeroRun_iff _ 4 32 8).1 (by decide) (by decide) fun _ => rfl).mpr ⟨by decide,by decide,fun _ => rfl⟩,
    ((zeroRun_iff (fun _ => true) 0 0 0).2 noneFree 0 (noneFree.gdesc 0) anyInode 1 (if_pos (by decide)) fun _ _ => rfl).mpr (by decide)⟩

/-- Two clear bits are a run of length 2, and behind the last bit there is none. -/
theorem zeroRun_two : ClearRun (fun _ => false) 0 2 0 2 ∧ ¬RunFound (fun _ => false) 0 2 0 ∧
    ClearRun (fun _ => true) 0 8 8 0 ∧ ¬RunFound (fun _ => true) 0 8 8 := by
  refine ⟨⟨fun _ _ => rfl,by decide,fun less => absurd less (by decide)⟩,?_,
    ⟨fun i less => absurd less (by omega),by decide,fun less => absurd less (by decide)⟩,?_⟩
  · rintro ⟨n,found,run⟩
    have one : mbFindZeroRunLenInt (fun _ => false) 0 (2 : Nat) (0 : Nat) = some 1 :=
      (mbFindZeroRunLenInt_one _ (by decide) fun _ => rfl).trans (if_pos ⟨by decide,by decide⟩)
    have two : ClearRun (fun _ => false) 0 2 0 2 := ⟨fun _ _ => rfl,by decide,fun less => absurd less (by decide)⟩
    obtain rfl := run.unique two
    exact absurd (one.symm.trans found) (by decide)
  · rintro ⟨n,found,run⟩
    have one : mbFindZeroRunLenInt (fun _ => true) 0 (8 : Nat) (8 : Nat) = some 1 :=
      (mbFindZeroRunLenInt_one _ (Nat.le_refl 8) fun less => absurd less (by decide)).trans (if_pos ⟨by decide,by decide⟩)
    have below := run.below
    obtain rfl : n = 0 := by omega
    exact absurd (one.symm.trans found) (by decide)

end Ext4Fuse.BitmapInts
