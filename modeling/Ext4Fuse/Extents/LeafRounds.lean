import Ext4Fuse.Extents.Merge
import Ext4Fuse.Extents.RemoveSteps

/-! The parts of `ext4_ext_remove_leaf` for any range: a round over an extent, the loop, the
move of the bytes behind the range, and what is done above the leaf. -/
namespace Ext4Fuse.Extents
open Machine Ext4Fuse.Types Super Library.Partial

/-- What the loop over the entries from `ex` on passes to `ext4_ext_free_blocks`. -/
def removedRanges (n : Node) (from_ last : Nat) : Nat → Nat → List (Nat × Int)
  | 0, _ => []
  | rest+1, ex => if last < (n.slot ex).eeBlock then [] else removedRange (n.slot ex) from_ last::removedRanges n from_ last rest (ex + 1)

/-! A round of the loop. -/

theorem cutExtent_whole {x : Slot} {from_ last : Nat} (some_ : x.eeBlock < extentStop x) (after : from_ ≤ x.eeBlock)
    (within : extentStop x ≤ last + 1) (word : last < 2^32) :
    cutExtent x from_ last = ⟨x.eeBlock,ext4ExtGetActualLen x,0,x.eeBlock,false,false⟩ := by
  have length : extentStop x = x.eeBlock + ext4ExtGetActualLen x := rfl
  have end_ : u64 (x.eeBlock + ext4ExtGetActualLen x - 1 : Int) = extentStop x - 1 := by
    rw [show (x.eeBlock + ext4ExtGetActualLen x - 1 : Int) = ((extentStop x - 1 : Nat) : Int) by omega]
    exact u64_small _ (by omega)
  unfold cutExtent
  simp only [if_neg (Nat.not_lt.mpr after)]
  rw [if_neg (by rw [end_]; omega)]

theorem cutExtent_back {x : Slot} {from_ last : Nat} (after : from_ ≤ x.eeBlock) (beyond : last + 1 < extentStop x)
    (bound : extentStop x ≤ 2^32) :
    (cutExtent x from_ last).movesStart = false ∧ (cutExtent x from_ last).atEnd = true ∧
      u32 (cutExtent x from_ last).newStart = (x.eeBlock + (last + 1)) % 2^32 := by
  have length : extentStop x = x.eeBlock + ext4ExtGetActualLen x := rfl
  have start := x.word0.toNat_lt
  have end_ : u64 (x.eeBlock + ext4ExtGetActualLen x - 1 : Int) = extentStop x - 1 := by
    rw [show (x.eeBlock + ext4ExtGetActualLen x - 1 : Int) = ((extentStop x - 1 : Nat) : Int) by omega]
    exact u64_small _ (by omega)
  have next : u32 (last + 1 : Int) = last + 1 := u32_small (last + 1) (by omega)
  unfold cutExtent
  simp only [if_neg (Nat.not_lt.mpr after)]
  rw [if_pos (by rw [end_]; omega)]
  refine ⟨rfl,rfl,?_⟩
  dsimp only
  rw [next,u64_small _ (by change x.word0.toNat + _ < _; omega),u32_cast]

theorem cutExtent_front {x : Slot} {from_ last : Nat} (before : x.eeBlock < from_) : (cutExtent x from_ last).movesStart = true := by
  unfold cutExtent
  simp only [if_pos before]
  split <;> rfl

theorem cutSlot_whole {x : Slot} {from_ last : Nat} (some_ : x.eeBlock < extentStop x) (after : from_ ≤ x.eeBlock)
    (within : extentStop x ≤ last + 1) (word : last < 2^32) : cutSlot x from_ last = x := by
  have same : u32 (x.eeBlock : Nat) = x.eeBlock := u32_small _ x.word0.toNat_lt
  rw [cutSlot,cutExtent_whole some_ after within word]
  dsimp only
  rw [same,Slot.setEeBlock,Slot.eeBlock,UInt32.ofNat_toNat]

/-! The loop. -/

section Loop
variable {eh : Option Nat} {from_ last : Nat}

/-- How many rounds there are: the first entry behind the range ends the loop. -/
theorem rounds_exist (n : Node) (last rest ex : Nat) : ∃ k, k ≤ rest ∧ (∀ j, ex ≤ j → j < ex + k → (n.slot j).eeBlock ≤ last) ∧
    (k < rest → last < (n.slot (ex + k)).eeBlock) := by
  induction rest generalizing ex with
  | zero => exact ⟨0,Nat.le_refl 0,fun j least most => by omega,fun less => absurd less (Nat.lt_irrefl 0)⟩
  | succ rest ih =>
    rcases Nat.lt_or_ge last (n.slot ex).eeBlock with beyond | within
    · exact ⟨0,Nat.zero_le _,fun j least most => by omega,fun _ => beyond⟩
    · obtain ⟨k,most,before,stop⟩ := ih (ex + 1)
      refine ⟨k + 1,by omega,fun j least less => ?_,fun less => ?_⟩
      · rcases Nat.eq_or_lt_of_le least with rfl | behind
        · exact within
        · exact before j behind (by omega)
      · rw [show ex + (k + 1) = ex + 1 + k by omega]
        exact stop (by omega)

theorem removedRanges_rounds {n : Node} {rest k ex : Nat} (most : k ≤ rest)
    (before : ∀ j, ex ≤ j → j < ex + k → (n.slot j).eeBlock ≤ last) (stop : k < rest → last < (n.slot (ex + k)).eeBlock) :
    removedRanges n from_ last rest ex = leafRanges n from_ last k ex := by
  induction k generalizing rest ex with
  | zero =>
    cases rest with
    | zero => rfl
    | succ rest => exact if_pos (stop (Nat.succ_pos rest))
  | succ k ih =>
    obtain ⟨rest,rfl⟩ : ∃ r, rest = r + 1 := ⟨rest - 1,by omega⟩
    rw [removedRanges,leafRanges,if_neg (Nat.not_lt.mpr (before ex (Nat.le_refl _) (by omega))),
      ih (by omega) (fun j least less => before j (by omega) (by omega)) fun less => ?_]
    rw [show ex + 1 + k = ex + (k + 1) by omega]
    exact stop (by omega)

/-- The slot of another entry after a round. -/
theorem round_slot {s s₁ : State} (charged : Charged s s₁) (x : Slot) {ex j : Nat} (other : j ≠ ex) :
    ((s₁.setHdr eh ((s₁.hdr eh).setSlot ex x)).hdr eh).slot j = (s.hdr eh).slot j := by
  rw [setHdr_hdr,setSlot_other _ x other,charged.hdr]

theorem removeLeafLoop_rounds {s : State} {rest k ex startEx : Nat} {ex2 : Option Nat} {newEntries : Int} (most : k ≤ rest)
    (before : ∀ j, ex ≤ j → j < ex + k → ((s.hdr eh).slot j).eeBlock ≤ last)
    (stop : k < rest → last < ((s.hdr eh).slot (ex + k)).eeBlock) :
    removeLeafLoop eh from_ last rest s ex startEx ex2 newEntries = removeLeafLoop eh from_ last k s ex startEx ex2 newEntries := by
  induction k generalizing rest s ex startEx ex2 newEntries with
  | zero =>
    cases rest with
    | zero => rfl
    | succ rest =>
      rw [removeLeafLoop,removeLeafLoop]
      exact if_pos (stop (Nat.succ_pos rest))
  | succ k ih =>
    obtain ⟨rest,rfl⟩ : ∃ r, rest = r + 1 := ⟨rest - 1,by omega⟩
    have first := before ex (Nat.le_refl _) (by omega)
    rw [removeLeafLoop_round first,removeLeafLoop_round first]
    have charged := ext4ExtFreeBlocks_charged s (removedRange ((s.hdr eh).slot ex) from_ last).1
      (removedRange ((s.hdr eh).slot ex) from_ last).2
    generalize ext4ExtFreeBlocks s _ _ = freed at charged
    cases freed with
    | none => rfl
    | some s₁ =>
      rw [Option.bind_some,Option.bind_some]
      refine ih (by omega) (fun j least less => ?_) fun less => ?_
      · rw [round_slot (charged s₁ rfl) _ (by omega)]
        exact before j (by omega) (by omega)
      · rw [round_slot (charged s₁ rfl) _ (by omega),show ex + 1 + k = ex + (k + 1) by omega]
        exact stop (by omega)

/-- Whole extents are given back and stay where they are. -/
theorem removeLeafLoop_whole (word : last < 2^32) {s : State} {k ex startEx : Nat} {ex2 : Option Nat} {newEntries : Int}
    (whole : ∀ j, ex ≤ j → j < ex + k → ((s.hdr eh).slot j).eeBlock < extentStop ((s.hdr eh).slot j) ∧
      from_ ≤ ((s.hdr eh).slot j).eeBlock ∧ extentStop ((s.hdr eh).slot j) ≤ last + 1)
    (rest : Nat) {P : State × Nat × Nat × Option Nat × Int → Prop}
    (next : ∀ s', (∀ a, s'.hdr a = s.hdr a) →
      Ensures (removeLeafLoop eh from_ last rest s' (ex + k) startEx ex2 (newEntries - k)) P) :
    Ensures (removeLeafLoop eh from_ last (k + rest) s ex startEx ex2 newEntries) P := by
  induction k generalizing s ex newEntries with
  | zero =>
    have done := next s fun _ => rfl
    rw [Nat.add_zero,Nat.cast_zero,sub_zero] at done
    rw [Nat.zero_add]
    exact done
  | succ k ih =>
    obtain ⟨some_,after,within⟩ := whole ex (Nat.le_refl _) (by omega)
    rw [show k + 1 + rest = k + rest + 1 by omega,removeLeafLoop_round (by omega),cutSlot_whole some_ after within word,
      cutExtent_whole some_ after within word]
    refine (ext4ExtFreeBlocks_charged s _ _).bind fun s₁ charged => ?_
    have same (a : Option Nat) : (s₁.setHdr eh ((s₁.hdr eh).setSlot ex ((s.hdr eh).slot ex))).hdr a = s.hdr a := by
      rcases eq_or_ne a eh with rfl | differ
      · rw [setHdr_hdr,charged.hdr,Node.setSlot,Function.update_eq_self]
      · rw [setHdr_other _ _ differ,charged.hdr]
    refine ih (fun j least less => ?_) fun s' kept => ?_
    · rw [same]
      exact whole j (by omega) (by omega)
    · have done := next s' fun a => (kept a).trans (same a)
      rw [show ex + (k + 1) = ex + 1 + k by omega,show newEntries - ((k + 1 : Nat) : Int) = newEntries - 1 - k by omega] at done
      exact done

end Loop

/-! The bytes that are moved. -/

theorem node_byte (n : Node) (i : Nat) {r : Nat} (first : r < 4) :
    n.byte (12 * i + r) = (n.slot i).word0.toNat / 2^(8 * r) % 2^8 ∧ n.byte (12 * i + 4 + r) = (n.slot i).word1.toNat / 2^(8 * r) % 2^8 ∧
      n.byte (12 * i + 8 + r) = (n.slot i).word2.toNat / 2^(8 * r) % 2^8 := by
  have place (w : Nat) (third : w < 3) : (12 * i + 4 * w + r) / 12 = i ∧ (12 * i + 4 * w + r) % 12 = 4 * w + r ∧
      (12 * i + 4 * w + r) % 4 = r := by omega
  obtain ⟨slot₀,within₀,byte₀⟩ := place 0 (by decide)
  obtain ⟨slot₁,within₁,byte₁⟩ := place 1 (by decide)
  obtain ⟨slot₂,within₂,byte₂⟩ := place 2 (by decide)
  simp only [Nat.mul_zero,Nat.add_zero,Nat.mul_one,Nat.zero_add] at slot₀ within₀ byte₀ slot₁ within₁ byte₁ slot₂ within₂ byte₂
  refine ⟨?_,?_,?_⟩
  · rw [Node.byte,slot₀,within₀,byte₀]
    rw [if_pos first]
  · rw [Node.byte,slot₁,within₁,byte₁]
    rw [if_neg (by omega),if_pos (by omega)]
  · rw [Node.byte,slot₂,within₂,byte₂]
    rw [if_neg (by omega),if_neg (by omega)]

theorem wordOfBytes_toNat {byte : Nat → Nat} {i : Nat} (small : ∀ r, r < 4 → byte (i + r) < 2^8) :
    (wordOfBytes byte i).toNat = byte i + byte (i + 1) * 2^8 + byte (i + 2) * 2^16 + byte (i + 3) * 2^24 := by
  have := small 0 (by decide)
  have := small 1 (by decide)
  have := small 2 (by decide)
  have := small 3 (by decide)
  rw [Nat.add_zero] at *
  rw [wordOfBytes,UInt32.toNat_ofNat',Nat.mod_eq_of_lt (by omega)]

/-- Four bytes of a word make it up again. -/
theorem wordOfBytes_word {byte : Nat → Nat} {i : Nat} {w : UInt32} (bytes : ∀ r, r < 4 → byte (i + r) = w.toNat / 2^(8 * r) % 2^8) :
    wordOfBytes byte i = w := by
  apply UInt32.toNat_inj.mp
  rw [wordOfBytes_toNat fun r first => by rw [bytes r first]; exact Nat.mod_lt _ (by decide)]
  have := w.toNat_lt
  have := bytes 0 (by decide)
  have := bytes 1 (by decide)
  have := bytes 2 (by decide)
  have := bytes 3 (by decide)
  rw [Nat.add_zero] at *
  omega

section Move
variable (n : Node) (dst src len : Nat)

theorem moveBytes_front {i : Nat} (before : i < dst) : (n.moveBytes dst src len).slot i = n.slot i := if_pos (Or.inl before)

theorem moveBytes_back {i : Nat} (behind : 12 * dst + len ≤ 12 * i) : (n.moveBytes dst src len).slot i = n.slot i :=
  if_pos (Or.inr behind)

theorem moveBytes_self : n.moveBytes dst dst len = n := by
  have bytes (i : Nat) : n.byte (if 12 * dst ≤ i ∧ i < 12 * dst + len then 12 * dst + (i - 12 * dst) else i) = n.byte i := by
    split
    · rw [Nat.add_sub_cancel' (by omega)]
    · rfl
  have slots : (n.moveBytes dst dst len).slot = n.slot := by
    funext i
    rw [Node.moveBytes]
    dsimp only
    split
    · rfl
    · rw [wordOfBytes_word fun r first => (bytes _).trans (node_byte n i first).1,
        wordOfBytes_word fun r first => (bytes _).trans (node_byte n i first).2.1,
        wordOfBytes_word fun r first => (bytes _).trans (node_byte n i first).2.2]
  exact congrArg (fun slot => {n with slot := slot}) slots

variable {n dst src len}

theorem moveBytes_slot (some_ : 0 < len) : ∃ byte : Nat → Nat, (n.moveBytes dst src len).slot dst =
      ⟨wordOfBytes byte (12 * dst),wordOfBytes byte (12 * dst + 4),wordOfBytes byte (12 * dst + 8)⟩ ∧
    ∀ r, byte (12 * dst + r) = n.byte (12 * (if r < len then src else dst) + r) := by
  refine ⟨_,if_neg (by omega),fun r => ?_⟩
  split
  · rw [if_pos (by omega),show 12 * src + (12 * dst + r - 12 * dst) = 12 * src + r by omega]
  · rw [if_neg (by omega)]

/-- The low bytes of the logical start are those of the entry that is moved. -/
theorem moveBytes_eeBlock (some_ : 0 < len) : ((n.moveBytes dst src len).slot dst).eeBlock =
    (n.slot dst).eeBlock / 2^(8 * min len 4) * 2^(8 * min len 4) + (n.slot src).eeBlock % 2^(8 * min len 4) := by
  obtain ⟨byte,moved,bytes⟩ := @moveBytes_slot n dst src len some_
  have word (r : Nat) (first : r < 4) : byte (12 * dst + r) =
      (if r < len then (n.slot src).eeBlock else (n.slot dst).eeBlock) / 2^(8 * r) % 2^8 := by
    rw [bytes,(node_byte n _ first).1]
    split <;> rfl
  rw [moved,Slot.eeBlock,wordOfBytes_toNat fun r first => by rw [word r first]; exact Nat.mod_lt _ (by decide)]
  have zero := word 0 (by decide)
  rw [Nat.add_zero] at zero
  rw [zero,word 1 (by decide),word 2 (by decide),word 3 (by decide)]
  have low : (n.slot dst).eeBlock < 2^32 := (n.slot dst).word0.toNat_lt
  have high : (n.slot src).eeBlock < 2^32 := (n.slot src).word0.toNat_lt
  generalize (n.slot dst).eeBlock = a at *
  generalize (n.slot src).eeBlock = c at *
  obtain rfl | rfl | rfl | least : len = 1 ∨ len = 2 ∨ len = 3 ∨ 4 ≤ len := by omega
  · norm_num
    omega
  · norm_num
    omega
  · norm_num
    omega
  · rw [Nat.min_eq_right least,if_pos (by omega),if_pos (by omega),if_pos (by omega),if_pos (by omega)]
    norm_num
    omega

/-- A single byte leaves the length and the physical block. -/
theorem moveBytes_one : ((n.moveBytes dst src 1).slot dst).word1 = (n.slot dst).word1 ∧
    ((n.moveBytes dst src 1).slot dst).word2 = (n.slot dst).word2 := by
  obtain ⟨byte,moved,bytes⟩ := @moveBytes_slot n dst src 1 Nat.one_pos
  rw [moved]
  constructor
  · refine wordOfBytes_word fun r first => ?_
    rw [Nat.add_assoc,bytes,if_neg (by omega),← Nat.add_assoc]
    exact (node_byte n dst first).2.1
  · refine wordOfBytes_word fun r first => ?_
    rw [Nat.add_assoc,bytes,if_neg (by omega),← Nat.add_assoc]
    exact (node_byte n dst first).2.2

end Move

/-! What the call does above the leaf. -/

/-- The states differ at most in the nodes of the path above level `i`. -/
structure Above (path : Path) (i : Nat) (s s' : State) : Prop where
  volume : s'.volume = s.volume
  hdr : ∀ a, (∀ j, j < i → (path.elem j).pHdr ≠ a) → s'.hdr a = s.hdr a

theorem setPathKey_above (s : State) (path : Path) (i border : Nat) : Above path (i + 1) s (setPathKey s (path.elem i) border) := by
  refine ⟨?_,fun a outside => ?_⟩
  · rw [setPathKey,ext4ExtDirty_volume,setHdr_volume]
  · rw [setPathKey,ext4ExtDirty_hdr,setHdr_other _ _ (outside i (Nat.lt_succ_self i)).symm]

theorem Above.trans {path : Path} {i j : Nat} {s s' s'' : State} (one : Above path i s s') (two : Above path j s' s'') (order : j ≤ i) :
    Above path i s s'' :=
  ⟨two.volume.trans one.volume,fun a outside => (two.hdr a fun k less => outside k (by omega)).trans (one.hdr a outside)⟩

theorem correctIndexesLoop_above (path : Path) (border k : Nat) (s : State) : Above path k s (correctIndexesLoop path border k s) := by
  induction k generalizing s with
  | zero => exact ⟨rfl,fun _ _ => rfl⟩
  | succ k ih =>
    rw [correctIndexesLoop]
    split
    · exact ⟨rfl,fun _ _ => rfl⟩
    · exact (setPathKey_above s path k border).trans (ih _) (Nat.le_succ k)

theorem ext4ExtCorrectIndexes_above {s : State} {path : Path} {p : Nat} (position : (path.elem (extDepth s)).pExt = some p) :
    Above path (extDepth s) s (ext4ExtCorrectIndexes s path).1 ∧ (ext4ExtCorrectIndexes s path).2 = .ok := by
  simp only [ext4ExtCorrectIndexes,position]
  split
  · exact ⟨⟨rfl,fun _ _ => rfl⟩,rfl⟩
  · rename_i deep
    split
    · exact ⟨⟨rfl,fun _ _ => rfl⟩,rfl⟩
    · obtain ⟨depth,level⟩ := Nat.exists_eq_succ_of_ne_zero deep
      rw [level]
      exact ⟨(setPathKey_above s path depth _).trans (correctIndexesLoop_above path _ depth _) (Nat.le_succ depth),rfl⟩

theorem removeIdxLoop_above (path : Path) (i : Nat) (s : State) : Above path i s (removeIdxLoop path i s) := by
  induction i generalizing s with
  | zero => exact ⟨rfl,fun _ _ => rfl⟩
  | succ i ih =>
    rw [removeIdxLoop]
    split
    · exact ⟨rfl,fun _ _ => rfl⟩
    · exact (setPathKey_above s path i _).trans (ih _) (Nat.le_succ i)

/-- An index entry goes, and its block is given back. -/
theorem ext4ExtRemoveIdx_above {s s' : State} {path : Path} {i : Nat} (returns : ext4ExtRemoveIdx s path i = some s') :
    (∀ a, (∀ j, j < i + 1 → (path.elem j).pHdr ≠ a) → s'.hdr a = s.hdr a) ∧
      freeAll s.inode s.volume [(ext4IdxPblock ((s.hdr (path.elem i).pHdr).slot ((path.elem i).pIdx.getD 0)),1)] = some s'.volume := by
  rcases position : (path.elem i).pIdx with _ | p
  · simp [ext4ExtRemoveIdx,position] at returns
  have inside : p < (s.hdr (path.elem i).pHdr).ehEntries := by
    by_contra outside
    unfold ext4ExtRemoveIdx at returns
    simp only [position,Option.bind_eq_bind,Option.bind_some] at returns
    rw [if_pos (Nat.lt_succ_of_le (Nat.not_lt.mp outside))] at returns
    nomatch returns
  rw [ext4ExtRemoveIdx_eq position inside] at returns
  obtain ⟨s₁,freed,rfl⟩ := Option.map_eq_some_iff.mp returns
  have above := removeIdxLoop_above path i s₁
  have charged := ext4ExtFreeBlocks_charged _ _ _ s₁ freed
  constructor
  · intro a outside
    rw [above.hdr a fun j less => outside j (Nat.lt_succ_of_lt less),charged.hdr,ext4ExtDirty_hdr,
      setHdr_other _ _ (outside i (Nat.lt_succ_self i)).symm]
  · have passed := ext4ExtFreeBlocks_freeAll (ext4ExtDirty (s.setHdr (path.elem i).pHdr (removedEntry (s.hdr (path.elem i).pHdr) p))
      (path.elem i)) (ext4IdxPblock ((s.hdr (path.elem i).pHdr).slot p)) 1 []
    rw [ext4ExtDirty_volume,setHdr_volume,freed,Option.bind_some] at passed
    rw [Option.getD_some,freeAll_inode,passed,above.volume]
    rfl

/-- The end of `ext4_ext_remove_leaf`'s work on the leaf itself. -/
def compacted (eh : Node) (entries startEx ex2 : Nat) (newEntries : Int) : Node :=
  {(if ex2 < entries then eh.moveBytes startEx ex2 (entries - ex2) else eh) with ehEntries := u16 newEntries}

/-- What is given back for a leaf that has been emptied: its own block. -/
def emptiedLeaf (s : State) (path : Path) (left : Nat) : List (Nat × Int) :=
  let elem := path.elem (extDepth s - 1)
  if left = 0 ∧ (path.elem (extDepth s)).pBh ≠ none then [(ext4IdxPblock ((s.hdr elem.pHdr).slot (elem.pIdx.getD 0)),1)] else []

/-- The leaf is what the loop and the move leave of it; above it entries may be corrected or removed. -/
theorem ext4ExtRemoveLeaf_returns {s s' : State} {path : Path} {from_ last p : Nat} (position : (path.elem (extDepth s)).pExt = some p)
    (root : (path.elem 0).pBh = none) (apart : ∀ j, j < extDepth s → (path.elem j).pHdr ≠ (path.elem (extDepth s)).pHdr)
    (returns : ext4ExtRemoveLeaf s path from_ last = some s') :
    ∃ s₁ ex startEx ex2 newEntries, removeLeafLoop (path.elem (extDepth s)).pHdr from_ last
        ((s.hdr (path.elem (extDepth s)).pHdr).ehEntries - p) s p p none (s.hdr (path.elem (extDepth s)).pHdr).ehEntries =
          some (s₁,ex,startEx,ex2,newEntries) ∧
      s'.hdr (path.elem (extDepth s)).pHdr = compacted (s₁.hdr (path.elem (extDepth s)).pHdr)
        (s.hdr (path.elem (extDepth s)).pHdr).ehEntries startEx (ex2.getD ex) newEntries ∧
      freeAll s₁.inode s₁.volume (emptiedLeaf s path (s'.hdr (path.elem (extDepth s)).pHdr).ehEntries) = some s'.volume := by
  generalize level : extDepth s = depth at *
  unfold ext4ExtRemoveLeaf at returns
  simp only [level,position,Option.bind_eq_bind,Option.bind_some] at returns
  obtain ⟨⟨s₁,ex,startEx,ex2,newEntries⟩,looped,returns⟩ := Option.bind_eq_some_iff.mp returns
  refine ⟨s₁,ex,startEx,ex2,newEntries,looped,?_⟩
  obtain ⟨k,most,before,stop⟩ := rounds_exist (s.hdr (path.elem depth).pHdr) last ((s.hdr (path.elem depth).pHdr).ehEntries - p) p
  rw [removeLeafLoop_rounds most before stop] at looped
  obtain ⟨cut,_⟩ := removeLeafLoop_cut (path.elem depth).pHdr from_ last k s p p none _ before _ looped
  generalize (s.hdr (path.elem depth).pHdr).ehEntries = entries at *
  generalize left : compacted (s₁.hdr (path.elem depth).pHdr) entries startEx (ex2.getD ex) newEntries = n
  generalize stored : ext4ExtDirty (s₁.setHdr (path.elem depth).pHdr n) (path.elem depth) = s₂
  have same : s₂.hdr (path.elem depth).pHdr = n := by rw [← stored,ext4ExtDirty_hdr,setHdr_hdr]
  have beside (a : Option Nat) (differ : a ≠ (path.elem depth).pHdr) : s₂.hdr a = s.hdr a := by
    rw [← stored,ext4ExtDirty_hdr,setHdr_other _ _ differ,cut.other a differ]
  have volume : s₂.volume = s₁.volume := by rw [← stored,ext4ExtDirty_volume,setHdr_volume]
  have returned : (fun r : State × Ret => if r.2 = .ok ∧ n.ehEntries = 0 ∧ (path.elem depth).pBh ≠ none then
        ext4ExtRemoveIdx r.1 path (depth - 1) else some r.1)
      (if p = 0 ∧ n.ehEntries ≠ 0 then ext4ExtCorrectIndexes s₂ path else (s₂,.ok)) = some s' := by
    subst stored left
    exact returns
  have depth₂ : extDepth s₂ = depth := by
    rw [← level]
    change (s₂.hdr none).ehDepth = (s.hdr none).ehDepth
    rcases eq_or_ne none (path.elem depth).pHdr with leaf | differ
    · have kept : n.ehDepth = (s₁.hdr (path.elem depth).pHdr).ehDepth := by
        rw [← left,compacted]
        dsimp only
        split <;> rfl
      rw [leaf,same,kept,cut.depth]
    · rw [beside none differ]
  rcases eq_or_ne n.ehEntries 0 with empty | some_
  · rw [if_neg fun both => both.2 empty] at returned
    by_cases block : (path.elem depth).pBh = none
    · have unchanged : s₂ = s' := Option.some.inj ((if_neg fun both => both.2.2 block).symm.trans returned)
      subst unchanged
      refine ⟨same,?_⟩
      rw [emptiedLeaf,level,if_neg fun both => both.2 block,volume]
      rfl
    · have removed : ext4ExtRemoveIdx s₂ path (depth - 1) = some s' := (if_pos ⟨rfl,empty,block⟩).symm.trans returned
      have deep : depth ≠ 0 := by
        rintro rfl
        exact block root
      obtain ⟨kept,freed⟩ := ext4ExtRemoveIdx_above removed
      have leaf := (kept _ fun j less => apart j (by omega)).trans same
      refine ⟨leaf,?_⟩
      rw [leaf,emptiedLeaf,level]
      rw [if_pos ⟨empty,block⟩]
      rw [beside _ (apart (depth - 1) (by omega)),volume] at freed
      rw [freeAll_inode]
      exact freed
  · have above : Above path depth s₂ (if p = 0 ∧ n.ehEntries ≠ 0 then ext4ExtCorrectIndexes s₂ path else (s₂,.ok)).1 := by
      split
      · rw [← depth₂]
        exact (ext4ExtCorrectIndexes_above (by rw [depth₂]; exact position)).1
      · exact ⟨rfl,fun _ _ => rfl⟩
    have unchanged : (if p = 0 ∧ n.ehEntries ≠ 0 then ext4ExtCorrectIndexes s₂ path else (s₂,.ok)).1 = s' := by
      generalize (if p = 0 ∧ n.ehEntries ≠ 0 then ext4ExtCorrectIndexes s₂ path else (s₂,.ok)) = r at returned
      exact Option.some.inj ((if_neg fun both => some_ both.2.1).symm.trans returned)
    rw [unchanged] at above
    have leaf := (above.hdr _ fun j less => apart j less).trans same
    refine ⟨leaf,?_⟩
    rw [leaf,emptiedLeaf,if_neg fun both => some_ both.1,above.volume,volume]
    rfl

end Ext4Fuse.Extents
