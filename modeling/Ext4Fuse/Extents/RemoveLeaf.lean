import Ext4Fuse.Extents.LeafRounds

/-! What `ext4_ext_remove_leaf` leaves of a leaf, and what it gives back, when only part of the
leaf's blocks are to go. -/
namespace Ext4Fuse.Extents
open Machine Ext4Fuse.Types Super Library.Partial

/-! Sorted leaves. -/

/-- The extents of a leaf are in order, and none is empty. -/
structure SortedLeaf (n : Node) : Prop where
  positive : ∀ i, i < n.ehEntries → (n.slot i).eeBlock < extentStop (n.slot i)
  bound : ∀ i, i < n.ehEntries → extentStop (n.slot i) ≤ 2^32
  apart : ∀ i j, i < j → j < n.ehEntries → extentStop (n.slot i) ≤ (n.slot j).eeBlock

theorem mem_leafExtents {n : Node} {x : Slot} : x ∈ leafExtents n ↔ ∃ i, i < n.ehEntries ∧ n.slot i = x := by
  simp [leafExtents]

section SortedLeaf
variable {n : Node}

/-- Only one entry covers a block. -/
theorem SortedLeaf.only (sorted : SortedLeaf n) {i j b : Nat} (inside : i < n.ehEntries) (inside' : j < n.ehEntries)
    (one : covers (n.slot i) b) (other : covers (n.slot j) b) : i = j := by
  have := one.1
  have := one.2
  have := other.1
  have := other.2
  rcases Nat.lt_trichotomy i j with before | same | after
  · have := sorted.apart i j before inside'
    omega
  · exact same
  · have := sorted.apart j i after inside
    omega

theorem SortedLeaf.first (sorted : SortedLeaf n) (i : Nat) (inside : i < n.ehEntries) : covers (n.slot i) (n.slot i).eeBlock :=
  ⟨Nat.le_refl _,sorted.positive i inside⟩

/-- An entry in front of another begins no later. -/
theorem SortedLeaf.start_le (sorted : SortedLeaf n) {i j : Nat} (order : i ≤ j) (inside : j < n.ehEntries) :
    (n.slot i).eeBlock ≤ (n.slot j).eeBlock := by
  rcases Nat.eq_or_lt_of_le order with rfl | before
  · exact Nat.le_refl _
  · exact Nat.le_trans (Nat.le_of_lt (sorted.positive i (Nat.lt_trans before inside))) (sorted.apart i j before inside)

theorem SortedLeaf.stop_le (sorted : SortedLeaf n) {i j : Nat} (order : i ≤ j) (inside : j < n.ehEntries) :
    extentStop (n.slot i) ≤ extentStop (n.slot j) := by
  rcases Nat.eq_or_lt_of_le order with rfl | before
  · exact Nat.le_refl _
  · exact Nat.le_trans (sorted.apart i j before inside) (Nat.le_of_lt (sorted.positive j inside))

theorem SortedLeaf.mapped (sorted : SortedLeaf n) {i b : Nat} (inside : i < n.ehEntries) (here : covers (n.slot i) b) :
    mapping (leafExtents n) b = some (ext4ExtPblock (n.slot i) + (b - (n.slot i).eeBlock),ext4ExtIsUnwritten (n.slot i)) := by
  refine mapping_some (mem_leafExtents.mpr ⟨i,inside,rfl⟩) here fun y member other => ?_
  obtain ⟨j,inside',rfl⟩ := mem_leafExtents.mp member
  rw [sorted.only inside inside' here other]

end SortedLeaf

theorem covered_of_mapped {n : Node} {b : Nat} {m : Nat × Bool} (mapped : mapping (leafExtents n) b = some m) :
    ∃ i, i < n.ehEntries ∧ covers (n.slot i) b := by
  by_contra none_
  rw [mapping_none fun x member here => ?_] at mapped
  · nomatch mapped
  · obtain ⟨i,inside,rfl⟩ := mem_leafExtents.mp member
    exact none_ ⟨i,inside,here⟩

theorem mapping_hole {n : Node} {b : Nat} (hole : ∀ i, i < n.ehEntries → ¬covers (n.slot i) b) : mapping (leafExtents n) b = none := by
  refine mapping_none fun x member => ?_
  obtain ⟨i,inside,rfl⟩ := mem_leafExtents.mp member
  exact hole i inside

/-! What is wanted. -/

/-- The blocks that calls of `ext4_ext_free_blocks` are given, each as often as it is given. -/
def freedBlocks (passed : List (Nat × Int)) : List Nat := passed.flatMap fun r => (List.range r.2.toNat).map (r.1 + ·)

/-- The physical blocks that the logical ones of a range are mapped to. -/
def mappedBlocks (extents : List Slot) (from_ last : Nat) : List Nat :=
  (List.range' from_ (last + 1 - from_)).filterMap fun b => (mapping extents b).map Prod.fst

/-- The range, and nothing else, is gone from the leaf, and its blocks have been given back once each. -/
structure Removes (before after : Node) (passed : List (Nat × Int)) (from_ last : Nat) : Prop where
  sorted : SortedLeaf after
  left : ∀ b, mapping (leafExtents after) b = if from_ ≤ b ∧ b ≤ last then none else mapping (leafExtents before) b
  freed : (freedBlocks passed).Perm (mappedBlocks (leafExtents before) from_ last)
  positive : ∀ r ∈ passed, 0 < r.2

/-- The extents agree but for the low byte of where they begin. -/
structure Alike (x z : Slot) : Prop where
  len : ext4ExtGetActualLen x = ext4ExtGetActualLen z
  pblock : ext4ExtPblock x = ext4ExtPblock z
  unwritten : ext4ExtIsUnwritten x = ext4ExtIsUnwritten z
  high : x.eeBlock / 2^8 = z.eeBlock / 2^8

/-- The range begins with entry `p` and cuts no extent at its end; behind it there is no extent, or one like that of entry `p`. -/
structure RangeRemovable (n : Node) (p from_ last : Nat) : Prop where
  start : from_ = (n.slot p).eeBlock
  uncut : ∀ x ∈ leafExtents n, x.eeBlock ≤ last → extentStop x ≤ last + 1
  behind : ∀ i, i < n.ehEntries → last < (n.slot i).eeBlock → i + 1 = n.ehEntries ∧ Alike (n.slot p) (n.slot i)

/-! What can be right. -/

section Right
variable {n after : Node} {p from_ last : Nat} {passed : List (Nat × Int)}

/-- The first entry that is left behind the range begins behind it and was mapped there before. -/
theorem Removes.first (removes : Removes n after passed from_ last) (sorted : SortedLeaf n) (start : from_ = (n.slot p).eeBlock)
    (same : ∀ i, i < p → after.slot i = n.slot i) (some_ : p < after.ehEntries) :
    last < (after.slot p).eeBlock ∧ mapping (leafExtents n) (after.slot p).eeBlock =
      some (ext4ExtPblock (after.slot p),ext4ExtIsUnwritten (after.slot p)) := by
  have covered := removes.sorted.first p some_
  have mapped := removes.sorted.mapped some_ covered
  rw [Nat.sub_self,Nat.add_zero,removes.left] at mapped
  split at mapped
  · nomatch mapped
  · rename_i outside
    refine ⟨?_,mapped⟩
    by_contra within
    obtain ⟨i,old,here⟩ := covered_of_mapped mapped
    -- what begins in front of the range was in front of entry `p`, and still is
    have before : i < p := by
      by_contra behind
      have := sorted.start_le (Nat.not_lt.mp behind) old
      have := here.1
      omega
    have ends := removes.sorted.apart i p before some_
    rw [same i before] at ends
    have := here.2
    omega

/-- A block behind the range is covered by an entry from `p` on. -/
theorem Removes.behind (removes : Removes n after passed from_ last) (sorted : SortedLeaf n)
    (same : ∀ i, i < p → after.slot i = n.slot i) {i b : Nat} (old : i < n.ehEntries) (order : p ≤ i)
    (here : covers (n.slot i) b) (beyond : last < b) : ∃ j, p ≤ j ∧ j < after.ehEntries ∧ covers (after.slot j) b := by
  have mapped := removes.left b
  rw [if_neg (by omega),sorted.mapped old here] at mapped
  obtain ⟨j,new,here'⟩ := covered_of_mapped mapped
  refine ⟨j,?_,new,here'⟩
  by_contra front
  rw [same j (Nat.not_le.mp front)] at here'
  have := sorted.apart j i (by omega) old
  have := here'.2
  have := here.1
  omega

/-- An extent cut at its front is not left right. -/
theorem not_removes_front (sorted : SortedLeaf n) (inside : p < n.ehEntries) (covered : covers (n.slot p) from_)
    (front : (n.slot p).eeBlock < from_) (order : from_ ≤ last) (same : ∀ i, i < p → after.slot i = n.slot i)
    (moved : ∃ e, after.slot p = (n.slot p).setEeBlock e) : ¬Removes n after passed from_ last := by
  intro removes
  have start := sorted.first p inside
  have mapped := removes.left (n.slot p).eeBlock
  rw [if_neg (by omega),sorted.mapped inside start] at mapped
  obtain ⟨j,new,here⟩ := covered_of_mapped mapped
  have behind : p ≤ j := by
    by_contra before
    rw [same j (Nat.not_le.mp before)] at here
    have := sorted.apart j p (Nat.not_le.mp before) inside
    have := here.2
    omega
  have some_ : p < after.ehEntries := Nat.lt_of_le_of_lt behind new
  have low := removes.sorted.start_le behind new
  have first := removes.sorted.first p some_
  have mapped' := removes.sorted.mapped some_ first
  rw [removes.left] at mapped'
  split at mapped'
  · nomatch mapped'
  · rename_i outside
    obtain ⟨i,old,here'⟩ := covered_of_mapped mapped'
    rcases Nat.lt_or_ge (after.slot p).eeBlock (n.slot p).eeBlock with less | least
    · have before : i < p := by
        by_contra other
        have := sorted.start_le (Nat.not_lt.mp other) old
        have := here'.1
        omega
      have ends := removes.sorted.apart i p before some_
      rw [same i before] at ends
      have := here'.2
      omega
    · -- entry `p` has the old length, and so still covers the range's first block
      have equal : (after.slot p).eeBlock = (n.slot p).eeBlock := by
        have := here.1
        omega
      obtain ⟨e,moved⟩ := moved
      have length : ext4ExtGetActualLen (after.slot p) = ext4ExtGetActualLen (n.slot p) := by
        rw [moved]
        rfl
      have still : covers (after.slot p) from_ := by
        unfold covers extentStop at *
        rw [equal,length]
        exact covered
      have gone := removes.left from_
      rw [if_pos ⟨Nat.le_refl _,order⟩,removes.sorted.mapped some_ still] at gone
      nomatch gone

theorem cutSlot_back {x : Slot} {from_ last : Nat} (after : from_ ≤ x.eeBlock) (beyond : last + 1 < extentStop x)
    (bound : extentStop x ≤ 2^32) : (cutSlot x from_ last).eeBlock = (x.eeBlock + (last + 1)) % 2^32 := by
  show (UInt32.ofNat _).toNat = _
  rw [UInt32.toNat_ofNat',(cutExtent_back after beyond bound).2.2,Nat.mod_mod]

theorem compacted_slot (eh : Node) {entries startEx ex2 i : Nat} (newEntries : Int) (before : ex2 < entries) :
    (compacted eh entries startEx ex2 newEntries).slot i = (eh.moveBytes startEx ex2 (entries - ex2)).slot i := by
  rw [compacted,if_pos before]

theorem compacted_front (eh : Node) {entries startEx ex2 i : Nat} (newEntries : Int) (before : i < startEx) :
    (compacted eh entries startEx ex2 newEntries).slot i = eh.slot i := by
  rw [compacted]
  split
  · exact moveBytes_front eh startEx ex2 _ before
  · rfl

/-- Nor is an extent cut at its back. -/
theorem not_removes_back (sorted : SortedLeaf n) (start : from_ = (n.slot p).eeBlock) {q : Nat} (order : p ≤ q) (inside : q < n.ehEntries)
    (here : (n.slot q).eeBlock ≤ last) (beyond : last + 1 < extentStop (n.slot q)) {newEntries : Int}
    (left : after = compacted (n.setSlot q (cutSlot (n.slot q) from_ last)) n.ehEntries p q newEntries)
    (count : after.ehEntries + (q + 1) = n.ehEntries + p) : ¬Removes n after passed from_ last := by
  intro removes
  have after_start : from_ ≤ (n.slot q).eeBlock := start ▸ sorted.start_le order inside
  have new := cutSlot_back after_start beyond (sorted.bound q inside)
  have pblock : ext4ExtPblock (cutSlot (n.slot q) from_ last) = ext4ExtPblock (n.slot q) := rfl
  generalize cutSlot (n.slot q) from_ last = y at left new pblock
  have same (i : Nat) (before : i < p) : after.slot i = n.slot i := by
    rw [left,compacted_front _ _ before,setSlot_other _ _ (by omega)]
  have tail : covers (n.slot q) (last + 1) := ⟨by omega,beyond⟩
  obtain ⟨j,behind,inside',here'⟩ := removes.behind sorted same inside order tail (Nat.lt_succ_self last)
  have some_ : p < after.ehEntries := Nat.lt_of_le_of_lt behind inside'
  obtain ⟨later,mapped⟩ := removes.first sorted start same some_
  have low := removes.sorted.start_le behind inside'
  -- so what is left begins with the block behind the range
  have next : (after.slot p).eeBlock = last + 1 := by
    have := here'.1
    omega
  rw [next,sorted.mapped inside tail] at mapped
  have moved : after.slot p = ((n.setSlot q y).moveBytes p q (n.ehEntries - q)).slot p := by rw [left,compacted_slot _ _ inside]
  rcases Nat.eq_or_lt_of_le order with rfl | less
  · rw [moveBytes_self,setSlot_self] at moved
    rw [moved,pblock] at mapped
    have := (Prod.mk.inj (Option.some.inj mapped)).1
    omega
  · have word := moved ▸ @moveBytes_eeBlock (n.setSlot q y) p q (n.ehEntries - q) (by omega)
    rw [next,setSlot_self,setSlot_other _ _ (Nat.ne_of_lt less),new] at word
    have front := sorted.positive p (by omega)
    have apart := sorted.apart p q less inside
    have bound := sorted.bound q inside
    obtain two | three | four : n.ehEntries - q = 2 ∨ n.ehEntries - q = 3 ∨ 4 ≤ n.ehEntries - q := by omega
    · rw [two] at word
      norm_num at word
      omega
    · rw [three] at word
      norm_num at word
      omega
    · rw [Nat.min_eq_right four] at word
      norm_num at word
      omega

/-- When whole extents go and more than one is left behind them, the last ones are not moved. -/
theorem not_removes_stale (sorted : SortedLeaf n) {k m : Nat} (some_ : 1 ≤ k) (total : p + k + m = n.ehEntries) (two : 2 ≤ m)
    (beyond : last < (n.slot (p + k)).eeBlock) {newEntries : Int} (left : after = compacted n n.ehEntries p (p + k) newEntries)
    (count : after.ehEntries = p + m) : ¬Removes n after passed from_ last := by
  intro removes
  have same (i : Nat) (before : i < p) : after.slot i = n.slot i := by rw [left,compacted_front _ _ before]
  have final : p + k + m - 1 < n.ehEntries := by omega
  have stale : after.slot (p + m - 1) = n.slot (p + m - 1) := by
    rw [left,compacted_slot _ _ (by omega),moveBytes_back _ _ _ _ (by omega)]
  have positive := sorted.positive _ final
  have least := sorted.start_le (show p + k ≤ p + k + m - 1 by omega) final
  have apart := sorted.apart (p + m - 1) (p + k + m - 1) (by omega) final
  obtain ⟨j,_,inside,here⟩ := removes.behind sorted same final (by omega)
    (show covers (n.slot (p + k + m - 1)) (extentStop (n.slot (p + k + m - 1)) - 1) from ⟨by omega,by omega⟩) (by omega)
  have most := removes.sorted.stop_le (show j ≤ p + m - 1 by omega) (by omega)
  rw [stale] at most
  have := here.2
  omega

end Right

/-! What is given back for whole extents. -/

/-- The physical blocks of `k` entries from `p` on. -/
def entryBlocks (n : Node) (p k : Nat) : List Nat :=
  (List.range' p k).flatMap fun i => (List.range (ext4ExtGetActualLen (n.slot i))).map (ext4ExtPblock (n.slot i) + ·)

section Freed
variable {n : Node}

theorem removedRange_whole {x : Slot} {from_ last : Nat} (some_ : x.eeBlock < extentStop x) (after : from_ ≤ x.eeBlock)
    (within : extentStop x ≤ last + 1) (word : last < 2^32) :
    removedRange x from_ last = (ext4ExtPblock x,(ext4ExtGetActualLen x : Int)) := by
  have length : extentStop x = x.eeBlock + ext4ExtGetActualLen x := rfl
  have short := actualLen_le x
  have physical := ext4ExtPblock_lt x
  have start : u32 (x.eeBlock : Nat) = x.eeBlock := u32_small _ x.word0.toNat_lt
  have end_ : u32 (x.eeBlock + ext4ExtGetActualLen x - 1 : Int) = extentStop x - 1 := by
    rw [show (x.eeBlock + ext4ExtGetActualLen x - 1 : Int) = ((extentStop x - 1 : Nat) : Int) by omega]
    exact u32_small _ (by omega)
  have nothing : u32 ((x.eeBlock : Int) - x.eeBlock) = 0 := by
    rw [Int.sub_self]
    rfl
  rw [removedRange,cutExtent_whole some_ after within word]
  dsimp only
  rw [start,end_,nothing,Nat.add_zero,u64_small _ (by omega),i32_small _ (by omega) (by omega)]
  exact Prod.ext rfl (by dsimp only; omega)

theorem leafRanges_whole {from_ last k p : Nat} (word : last < 2^32) (whole : ∀ i, p ≤ i → i < p + k →
    (n.slot i).eeBlock < extentStop (n.slot i) ∧ from_ ≤ (n.slot i).eeBlock ∧ extentStop (n.slot i) ≤ last + 1) :
    freedBlocks (leafRanges n from_ last k p) = entryBlocks n p k ∧ ∀ r ∈ leafRanges n from_ last k p, 0 < r.2 := by
  induction k generalizing p with
  | zero => exact ⟨rfl,nofun⟩
  | succ k ih =>
    obtain ⟨some_,after,within⟩ := whole p (Nat.le_refl p) (by omega)
    obtain ⟨blocks,positive⟩ := @ih (p + 1) fun i least most => whole i (by omega) (by omega)
    rw [leafRanges,removedRange_whole some_ after within word]
    constructor
    · rw [freedBlocks,List.flatMap_cons,entryBlocks,List.range'_succ,List.flatMap_cons,Int.toNat_natCast]
      exact congrArg _ blocks
    · intro r member
      rcases List.mem_cons.mp member with rfl | rest
      · change (0 : Int) < ext4ExtGetActualLen (n.slot p)
        unfold extentStop at some_
        omega
      · exact positive r rest

theorem mapped_hole {lo len : Nat} (hole : ∀ b, lo ≤ b → b < lo + len → ∀ i, i < n.ehEntries → ¬covers (n.slot i) b) :
    (List.range' lo len).filterMap (fun b => (mapping (leafExtents n) b).map Prod.fst) = [] := by
  refine List.filterMap_eq_nil_iff.mpr fun b member => ?_
  obtain ⟨low,high⟩ := List.mem_range'_1.mp member
  rw [mapping_hole (hole b low high)]
  rfl

theorem SortedLeaf.mapped_entry (sorted : SortedLeaf n) {i : Nat} (inside : i < n.ehEntries) :
    (List.range' (n.slot i).eeBlock (ext4ExtGetActualLen (n.slot i))).filterMap (fun b => (mapping (leafExtents n) b).map Prod.fst) =
      (List.range (ext4ExtGetActualLen (n.slot i))).map (ext4ExtPblock (n.slot i) + ·) := by
  rw [List.range'_eq_map_range,List.filterMap_map,← List.filterMap_eq_map]
  refine List.filterMap_congr fun j member => ?_
  have less := List.mem_range.mp member
  rw [Function.comp_apply,sorted.mapped inside ⟨Nat.le_add_right _ _,Nat.add_lt_add_left less _⟩,Nat.add_sub_cancel_left]
  rfl

theorem SortedLeaf.mapped_entries (sorted : SortedLeaf n) {k p lo hi : Nat} (total : p + k ≤ n.ehEntries) (order : lo ≤ hi)
    (front : ∀ i, i < p → extentStop (n.slot i) ≤ lo) (behind : ∀ i, p + k ≤ i → i < n.ehEntries → hi ≤ (n.slot i).eeBlock)
    (within : ∀ i, p ≤ i → i < p + k → lo ≤ (n.slot i).eeBlock ∧ extentStop (n.slot i) ≤ hi) :
    (List.range' lo (hi - lo)).filterMap (fun b => (mapping (leafExtents n) b).map Prod.fst) = entryBlocks n p k := by
  induction k generalizing p lo with
  | zero =>
    refine mapped_hole fun b low high i inside here => ?_
    have := here.1
    have := here.2
    rcases Nat.lt_or_ge i p with before | after
    · have := front i before
      omega
    · have := behind i (by omega) inside
      omega
  | succ k ih =>
    obtain ⟨low,high⟩ := within p (Nat.le_refl p) (by omega)
    have length : extentStop (n.slot p) = (n.slot p).eeBlock + ext4ExtGetActualLen (n.slot p) := rfl
    have rest := @ih (p + 1) (extentStop (n.slot p)) (by omega) high
      (fun i before => sorted.stop_le (Nat.le_of_lt_succ before) (by omega)) (fun i after inside => behind i (by omega) inside)
      (fun i least most => ⟨sorted.apart p i (by omega) (by omega),(within i (by omega) (by omega)).2⟩)
    have parts : List.range' lo (hi - lo) = List.range' lo ((n.slot p).eeBlock - lo) ++ (List.range' (n.slot p).eeBlock
        (ext4ExtGetActualLen (n.slot p)) ++ List.range' (extentStop (n.slot p)) (hi - extentStop (n.slot p))) := by
      have back := @List.range'_append_1 (n.slot p).eeBlock (ext4ExtGetActualLen (n.slot p)) (hi - extentStop (n.slot p))
      have whole := @List.range'_append_1 lo ((n.slot p).eeBlock - lo) (ext4ExtGetActualLen (n.slot p) + (hi - extentStop (n.slot p)))
      rw [Nat.add_sub_cancel' low] at whole
      rw [length] at back ⊢
      rw [back]
      rw [length] at whole
      rw [whole]
      congr 1
      omega
    have hole : (List.range' lo ((n.slot p).eeBlock - lo)).filterMap (fun b => (mapping (leafExtents n) b).map Prod.fst) = [] := by
      refine mapped_hole fun b low' high' i inside here => ?_
      have := here.1
      have := here.2
      rcases Nat.lt_or_ge i p with before | after
      · have := front i before
        omega
      · have := sorted.start_le after inside
        omega
    rw [parts,List.filterMap_append,List.filterMap_append,hole,sorted.mapped_entry (by omega),rest,entryBlocks,entryBlocks,
      List.range'_succ,List.flatMap_cons]
    rfl

end Freed

/-! Whole extents that go. -/

/-- The two extents map the same blocks to the same places. -/
structure SameExtent (x y : Slot) : Prop where
  start : x.eeBlock = y.eeBlock
  len : ext4ExtGetActualLen x = ext4ExtGetActualLen y
  pblock : ext4ExtPblock x = ext4ExtPblock y
  unwritten : ext4ExtIsUnwritten x = ext4ExtIsUnwritten y

/-- Only the first word has the logical start. -/
theorem same_words {x y : Slot} (word1 : x.word1 = y.word1) (word2 : x.word2 = y.word2) :
    ext4ExtGetActualLen x = ext4ExtGetActualLen y ∧ ext4ExtPblock x = ext4ExtPblock y ∧ ext4ExtIsUnwritten x = ext4ExtIsUnwritten y := by
  obtain ⟨start,_,_⟩ := x
  obtain ⟨start',_,_⟩ := y
  obtain rfl : _ = _ := word1
  obtain rfl : _ = _ := word2
  exact ⟨rfl,rfl,rfl⟩

theorem SameExtent.stop {x y : Slot} (same : SameExtent x y) : extentStop x = extentStop y := by
  rw [extentStop,extentStop,same.start,same.len]

theorem SameExtent.covers_iff {x y : Slot} (same : SameExtent x y) (b : Nat) : covers x b ↔ covers y b := by
  rw [covers,covers,same.start,same.stop]

section Whole
variable {n after : Node} {p k from_ last : Nat}

/-- What is right: the entries in front of the range and those behind it, one after another. -/
theorem removes_kept (sorted : SortedLeaf n) (start : from_ = (n.slot p).eeBlock) (word : last < 2^32) (order : from_ ≤ last)
    (total : p + k ≤ n.ehEntries) (whole : ∀ i, p ≤ i → i < p + k → extentStop (n.slot i) ≤ last + 1)
    (behind : ∀ i, p + k ≤ i → i < n.ehEntries → last < (n.slot i).eeBlock) (inside : p < n.ehEntries)
    (count : after.ehEntries + k = n.ehEntries)
    (same : ∀ i, i < after.ehEntries → SameExtent (after.slot i) (n.slot (if i < p then i else i + k))) :
    Removes n after (leafRanges n from_ last k p) from_ last := by
  have place (i : Nat) (new : i < after.ehEntries) : (if i < p then i else i + k) < n.ehEntries := by
    split <;> omega
  have sorted' : SortedLeaf after := by
    refine ⟨fun i new => ?_,fun i new => ?_,fun i j before new => ?_⟩
    · rw [(same i new).start,(same i new).stop]
      exact sorted.positive _ (place i new)
    · rw [(same i new).stop]
      exact sorted.bound _ (place i new)
    · rw [(same i (Nat.lt_trans before new)).stop,(same j new).start]
      refine sorted.apart _ _ ?_ (place j new)
      split <;> split <;> omega
  have removed (i : Nat) (least : p ≤ i) (most : i < p + k) : (n.slot i).eeBlock < extentStop (n.slot i) ∧
      from_ ≤ (n.slot i).eeBlock ∧ extentStop (n.slot i) ≤ last + 1 :=
    ⟨sorted.positive i (by omega),start ▸ sorted.start_le least (by omega),whole i least most⟩
  obtain ⟨freed,positive⟩ := leafRanges_whole word removed
  refine ⟨sorted',fun b => ?_,?_,positive⟩
  · by_cases covered : ∃ i, i < after.ehEntries ∧ covers (after.slot i) b
    · obtain ⟨i,new,here⟩ := covered
      have here' := ((same i new).covers_iff b).mp here
      have outside : ¬(from_ ≤ b ∧ b ≤ last) := by
        have := here'.1
        have := here'.2
        split at here'
        · have := sorted.apart i p ‹_› inside
          have := here'.2
          omega
        · have := behind (i + k) (by omega) (by omega)
          have := here'.1
          omega
      rw [if_neg outside,sorted'.mapped new here,sorted.mapped (place i new) here',(same i new).start,(same i new).pblock,
        (same i new).unwritten]
    · rw [mapping_hole fun i new here => covered ⟨i,new,here⟩]
      split
      · rfl
      · rename_i outside
        refine (mapping_hole fun i old here => ?_).symm
        rcases Nat.lt_or_ge i p with front | later
        · have kept := same i (by omega)
          rw [if_pos front] at kept
          exact covered ⟨i,by omega,(kept.covers_iff b).mpr here⟩
        · rcases Nat.lt_or_ge i (p + k) with gone | back
          · have := (removed i later gone).2
            have := here.1
            have := here.2
            omega
          · have kept := same (i - k) (by omega)
            rw [if_neg (by omega),Nat.sub_add_cancel (by omega)] at kept
            exact covered ⟨i - k,by omega,(kept.covers_iff b).mpr here⟩
  · rw [freed,mappedBlocks,sorted.mapped_entries total (by omega) (fun i before => start ▸ sorted.apart i p before inside) behind
      fun i least most => (removed i least most).2]

/-- One byte of the single entry behind the range is moved: whether that is enough. -/
theorem removes_one_iff (sorted : SortedLeaf n) (start : from_ = (n.slot p).eeBlock) (word : last < 2^32) (order : from_ ≤ last)
    (some_ : 1 ≤ k) (total : p + k + 1 = n.ehEntries) (whole : ∀ i, p ≤ i → i < p + k → extentStop (n.slot i) ≤ last + 1)
    (behind : last < (n.slot (p + k)).eeBlock) {newEntries : Int} (left : after = compacted n n.ehEntries p (p + k) newEntries)
    (count : after.ehEntries = p + 1) :
    Removes n after (leafRanges n from_ last k p) from_ last ↔ Alike (n.slot p) (n.slot (p + k)) := by
  have same (i : Nat) (before : i < p) : after.slot i = n.slot i := by rw [left,compacted_front _ _ before]
  have moved : after.slot p = (n.moveBytes p (p + k) 1).slot p := by
    rw [left,compacted_slot _ _ (by omega),show n.ehEntries - (p + k) = 1 by omega]
  obtain ⟨word1,word2⟩ := @moveBytes_one n p (p + k)
  have low := @moveBytes_eeBlock n p (p + k) 1 Nat.one_pos
  rw [← moved] at word1 word2 low
  rw [show min 1 4 = 1 from rfl,Nat.mul_one] at low
  have rest := same_words word1 word2
  have last_ : p + k < n.ehEntries := by omega
  have positive := sorted.positive _ last_
  constructor
  · intro removes
    have new : p < after.ehEntries := by omega
    obtain ⟨later,mapped⟩ := removes.first sorted start same new
    have positive' := removes.sorted.positive p new
    -- behind the range there is only one extent
    have only (b : Nat) (beyond : last < b) (i : Nat) (old : i < n.ehEntries) (here : covers (n.slot i) b) : i = p + k := by
      rcases Nat.lt_or_ge i (p + k) with less | least
      · have := here.2
        rcases Nat.lt_or_ge i p with before | after'
        · have := sorted.apart i p before (by omega)
          omega
        · have := whole i after' less
          omega
      · omega
    have covered (b : Nat) (here : covers (n.slot (p + k)) b) : covers (after.slot p) b := by
      obtain ⟨j,least,new',here'⟩ := removes.behind sorted same last_ (Nat.le_add_right p k) here (Nat.lt_of_lt_of_le behind here.1)
      obtain rfl : j = p := by omega
      exact here'
    obtain ⟨i,old,here⟩ := covered_of_mapped mapped
    obtain rfl := only _ later i old here
    rw [sorted.mapped old here] at mapped
    obtain ⟨block,state⟩ := Prod.mk.inj (Option.some.inj mapped)
    have front := (covered _ (sorted.first _ old)).1
    have back := (covered (extentStop (n.slot (p + k)) - 1) ⟨by omega,by omega⟩).2
    have equal : (after.slot p).eeBlock = (n.slot (p + k)).eeBlock := Nat.le_antisymm front here.1
    have end_ := removes.left (extentStop (after.slot p) - 1)
    rw [removes.sorted.mapped new (show covers (after.slot p) (extentStop (after.slot p) - 1) from ⟨by omega,by omega⟩),
      if_neg (by omega)] at end_
    obtain ⟨i,old',here'⟩ := covered_of_mapped end_.symm
    obtain rfl := only _ (by omega) i old' here'
    have most := here'.2
    rw [extentStop,extentStop] at *
    refine ⟨by omega,by omega,rest.2.2.symm.trans state.symm,?_⟩
    omega
  · intro alike
    refine removes_kept sorted start word order (by omega) whole (fun i least old => ?_) (by omega) (by omega) fun i new => ?_
    · rwa [show i = p + k by omega]
    · split
      · rename_i front
        rw [same i front]
        exact ⟨rfl,rfl,rfl,rfl⟩
      · obtain rfl : i = p := by omega
        have high := alike.high
        exact ⟨by omega,rest.1.trans alike.len,rest.2.1.trans alike.pblock,rest.2.2.trans alike.unwritten⟩

/-- Whole extents have gone: what is behind them decides. -/
theorem removes_whole_iff (sorted : SortedLeaf n) (start : from_ = (n.slot p).eeBlock) (word : last < 2^32) (order : from_ ≤ last)
    (some_ : 1 ≤ k) (total : p + k ≤ n.ehEntries) (whole : ∀ i, p ≤ i → i < p + k → extentStop (n.slot i) ≤ last + 1)
    (behind : ∀ i, p + k ≤ i → i < n.ehEntries → last < (n.slot i).eeBlock) {newEntries : Int}
    (left : after = compacted n n.ehEntries p (p + k) newEntries) (count : after.ehEntries + k = n.ehEntries) :
    Removes n after (leafRanges n from_ last k p) from_ last ↔ RangeRemovable n p from_ last := by
  have final := whole (p + k - 1) (by omega) (by omega)
  have least (i : Nat) (old : i < n.ehEntries) (beyond : last < (n.slot i).eeBlock) : p + k ≤ i := by
    by_contra less
    have := sorted.positive i old
    have := sorted.stop_le (show i ≤ p + k - 1 by omega) (by omega)
    omega
  have uncut : ∀ x ∈ leafExtents n, x.eeBlock ≤ last → extentStop x ≤ last + 1 := by
    intro x member begins
    obtain ⟨i,old,rfl⟩ := mem_leafExtents.mp member
    rcases Nat.lt_or_ge i (p + k) with less | least
    · exact Nat.le_trans (sorted.stop_le (show i ≤ p + k - 1 by omega) (by omega)) final
    · exact absurd (behind i least old) (Nat.not_lt.mpr begins)
  obtain ⟨m,parts⟩ := Nat.exists_eq_add_of_le total
  obtain rfl | rfl | two : m = 0 ∨ m = 1 ∨ 2 ≤ m := by omega
  · refine iff_of_true ?_ ⟨start,uncut,fun i old beyond => absurd (least i old beyond) (by omega)⟩
    refine removes_kept sorted start word order total whole behind (by omega) count fun i new => ?_
    rw [if_pos (by omega),left,compacted_front _ _ (by omega)]
    exact ⟨rfl,rfl,rfl,rfl⟩
  · have beyond := behind (p + k) (Nat.le_refl _) (by omega)
    rw [removes_one_iff sorted start word order some_ parts.symm whole beyond left (by omega)]
    refine ⟨fun alike => ⟨start,uncut,fun i old beyond => ?_⟩,fun removable => (removable.behind _ (by omega) beyond).2⟩
    have := least i old beyond
    obtain rfl : i = p + k := by omega
    exact ⟨parts.symm,alike⟩
  · have beyond := behind (p + k) (Nat.le_refl _) (by omega)
    refine iff_of_false (not_removes_stale sorted some_ parts.symm two beyond left (by omega)) fun removable => ?_
    have := (removable.behind (p + k) (by omega) beyond).1
    omega

end Whole

/-! The call. -/

section Call
variable {eh : Option Nat} {from_ last : Nat} {s : State} {k ex startEx : Nat} {ex2 : Option Nat} {newEntries : Int}

/-- The first extent is cut at its front: it stays, with its length, in front of all that is moved. -/
theorem removeLeafLoop_front (before : ∀ j, ex ≤ j → j < ex + (k + 1) → ((s.hdr eh).slot j).eeBlock ≤ last)
    (front : ((s.hdr eh).slot ex).eeBlock < from_) :
    Ensures (removeLeafLoop eh from_ last (k + 1) s ex startEx ex2 newEntries) fun (s',_,startEx',_,_) =>
      (∀ i, i < ex → (s'.hdr eh).slot i = (s.hdr eh).slot i) ∧ (∃ e, (s'.hdr eh).slot ex = ((s.hdr eh).slot ex).setEeBlock e) ∧
        startEx + 1 ≤ startEx' := by
  rw [removeLeafLoop_round (before ex (Nat.le_refl _) (by omega)),cutExtent_front front,if_pos rfl]
  refine (ext4ExtFreeBlocks_charged s _ _).bind fun s₁ charged => ?_
  refine (removeLeafLoop_cut eh from_ last k _ (ex + 1) (startEx + 1) _ _ fun j least less => ?_).imp
    fun (s',_,startEx',_,_) ⟨cut,_,_,most,_⟩ => ⟨fun i less => ?_,?_,most⟩
  · rw [round_slot charged _ (by omega)]
    exact before j (by omega) (by omega)
  · rw [cut.front i (by omega),round_slot charged _ (by omega)]
  · refine ⟨u32 (cutExtent ((s.hdr eh).slot ex) from_ last).newStart,?_⟩
    rw [cut.front ex (Nat.lt_succ_self ex),setHdr_hdr,setSlot_self,cutSlot]

/-- Whole extents go, and nothing is cut. -/
theorem removeLeafLoop_all (word : last < 2^32) (whole : ∀ j, ex ≤ j → j < ex + k →
      ((s.hdr eh).slot j).eeBlock < extentStop ((s.hdr eh).slot j) ∧ from_ ≤ ((s.hdr eh).slot j).eeBlock ∧
        extentStop ((s.hdr eh).slot j) ≤ last + 1) :
    Ensures (removeLeafLoop eh from_ last k s ex startEx ex2 newEntries) fun (s',ex',startEx',ex2',_) =>
      s'.hdr eh = s.hdr eh ∧ ex' = ex + k ∧ startEx' = startEx ∧ ex2' = ex2 :=
  removeLeafLoop_whole word whole 0 fun _ same => ensures_some ⟨same eh,rfl,rfl,rfl⟩

/-- Whole extents go, and the last one is cut at its back. -/
theorem removeLeafLoop_back (word : last < 2^32) (whole : ∀ j, ex ≤ j → j < ex + k →
      ((s.hdr eh).slot j).eeBlock < extentStop ((s.hdr eh).slot j) ∧ from_ ≤ ((s.hdr eh).slot j).eeBlock ∧
        extentStop ((s.hdr eh).slot j) ≤ last + 1)
    (here : ((s.hdr eh).slot (ex + k)).eeBlock ≤ last) (after : from_ ≤ ((s.hdr eh).slot (ex + k)).eeBlock)
    (beyond : last + 1 < extentStop ((s.hdr eh).slot (ex + k))) (bound : extentStop ((s.hdr eh).slot (ex + k)) ≤ 2^32) :
    Ensures (removeLeafLoop eh from_ last (k + 1) s ex startEx ex2 newEntries) fun (s',_,startEx',ex2',newEntries') =>
      s'.hdr eh = (s.hdr eh).setSlot (ex + k) (cutSlot ((s.hdr eh).slot (ex + k)) from_ last) ∧ startEx' = startEx ∧
        ex2' = some (ex + k) ∧ newEntries' = newEntries - k - 1 := by
  refine removeLeafLoop_whole word whole 1 fun s₁ same => ?_
  obtain ⟨start,atEnd,_⟩ := cutExtent_back after beyond bound
  rw [removeLeafLoop_round (by rw [same]; exact here),same,start,atEnd,if_neg (by decide),if_pos rfl]
  refine (ext4ExtFreeBlocks_charged s₁ _ _).bind fun s₂ charged => ensures_some ⟨?_,rfl,rfl,rfl⟩
  rw [setHdr_hdr,charged.hdr,same]

end Call

/-- The leaf is left right when no extent is cut, and the entries behind the range need not be
moved; what is passed on is what takes the volume to its new state. -/
theorem ext4ExtRemoveLeaf_iff {s s' : State} {path : Path} {from_ last p : Nat} (position : (path.elem (extDepth s)).pExt = some p)
    (root : (path.elem 0).pBh = none) (apart : ∀ j, j < extDepth s → (path.elem j).pHdr ≠ (path.elem (extDepth s)).pHdr) {n : Node}
    (leaf : s.hdr (path.elem (extDepth s)).pHdr = n) (sorted : SortedLeaf n) (counted : n.ehEntries ≤ le16Max) (inside : p < n.ehEntries)
    (covered : covers (n.slot p) from_) (order : from_ ≤ last) (word : last < 2^32)
    (returns : ext4ExtRemoveLeaf s path from_ last = some s') :
    freeAll s.inode s.volume (removedRanges n from_ last (n.ehEntries - p) p ++
        emptiedLeaf s path (s'.hdr (path.elem (extDepth s)).pHdr).ehEntries) = some s'.volume ∧
      (Removes n (s'.hdr (path.elem (extDepth s)).pHdr) (removedRanges n from_ last (n.ehEntries - p) p) from_ last ↔
        RangeRemovable n p from_ last) := by
  obtain ⟨s₁,ex,startEx,ex2,newEntries,looped,left,emptied⟩ := ext4ExtRemoveLeaf_returns position root apart returns
  generalize (path.elem (extDepth s)).pHdr = eh at *
  subst leaf
  obtain ⟨k,most,before,stop⟩ := rounds_exist (s.hdr eh) last ((s.hdr eh).ehEntries - p) p
  rw [removedRanges_rounds most before stop]
  rw [removeLeafLoop_rounds most before stop] at looped
  have frees := removeLeafLoop_frees eh from_ last k s p p none (s.hdr eh).ehEntries before
  rw [looped,Option.map_some] at frees
  refine ⟨?_,?_⟩
  · rw [freeAll_append,← frees,Option.bind_some,freeAll_inode]
    exact emptied
  obtain ⟨_,_,_,_,entries⟩ := removeLeafLoop_cut eh from_ last k s p p none _ before _ looped
  have count : (s'.hdr eh).ehEntries + k = (s.hdr eh).ehEntries := by
    have stored : (s'.hdr eh).ehEntries = u16 newEntries := congrArg Node.ehEntries left
    have short : le16Max = 2^16 - 1 := rfl
    rw [stored,show newEntries = (((s.hdr eh).ehEntries - k : Nat) : Int) by omega,u16_small _ (by omega)]
    omega
  have some_ : 1 ≤ k := by
    by_contra none_
    have := stop (by omega)
    rw [show p + k = p by omega] at this
    have := covered.1
    omega
  obtain ⟨k,rfl⟩ : ∃ r, k = r + 1 := ⟨k - 1,by omega⟩
  rcases Nat.eq_or_lt_of_le covered.1 with start | front
  · have behind (i : Nat) (least : p + (k + 1) ≤ i) (old : i < (s.hdr eh).ehEntries) : last < ((s.hdr eh).slot i).eeBlock :=
      Nat.lt_of_lt_of_le (stop (by omega)) (sorted.start_le least old)
    have whole (j : Nat) (least : p ≤ j) (less : j < p + k) : ((s.hdr eh).slot j).eeBlock < extentStop ((s.hdr eh).slot j) ∧
        from_ ≤ ((s.hdr eh).slot j).eeBlock ∧ extentStop ((s.hdr eh).slot j) ≤ last + 1 := by
      have next := before (j + 1) (by omega) (by omega)
      have ends := sorted.apart j (j + 1) (Nat.lt_succ_self j) (by omega)
      exact ⟨sorted.positive j (by omega),start ▸ sorted.start_le least (by omega),by omega⟩
    have after := sorted.start_le (show p ≤ p + k by omega) (by omega)
    have here := before (p + k) (by omega) (by omega)
    rw [start] at after
    rcases Nat.lt_or_ge (last + 1) (extentStop ((s.hdr eh).slot (p + k))) with beyond | within
    · obtain ⟨hdr,first,cut,_⟩ := removeLeafLoop_back word whole here after beyond (sorted.bound _ (by omega)) _ looped
      rw [hdr,first,cut,Option.getD_some] at left
      refine iff_of_false (not_removes_back sorted start.symm (Nat.le_add_right p k) (by omega) here beyond left (by omega)) ?_
      intro removable
      have uncut := removable.uncut _ (mem_leafExtents.mpr ⟨p + k,by omega,rfl⟩) here
      omega
    · have all (j : Nat) (least : p ≤ j) (less : j < p + (k + 1)) : ((s.hdr eh).slot j).eeBlock < extentStop ((s.hdr eh).slot j) ∧
          from_ ≤ ((s.hdr eh).slot j).eeBlock ∧ extentStop ((s.hdr eh).slot j) ≤ last + 1 := by
        rcases Nat.lt_or_ge j (p + k) with inner | outer
        · exact whole j least inner
        · rw [show j = p + k by omega]
          exact ⟨sorted.positive _ (by omega),after,within⟩
      obtain ⟨hdr,at_,first,none_⟩ := removeLeafLoop_all word all _ looped
      rw [hdr,at_,first,none_,Option.getD_none] at left
      exact removes_whole_iff sorted start.symm word order (by omega) (by omega) (fun i least less => (all i least less).2.2) behind left
        count
  · obtain ⟨same,moved,first⟩ := removeLeafLoop_front before front _ looped
    have kept (i : Nat) (less : i ≤ p) : (s'.hdr eh).slot i = (s₁.hdr eh).slot i := by rw [left,compacted_front _ _ (by omega)]
    refine iff_of_false (not_removes_front sorted inside covered front order (fun i less => ?_) ?_) fun removable => ?_
    · rw [kept i (Nat.le_of_lt less),same i less]
    · rw [kept p (Nat.le_refl p)]
      exact moved
    · exact absurd removable.start (Nat.ne_of_gt front)

/-- Three blocks in an extent, and a fourth one in another extent. -/
def twoExtents : State := rootFile Alloc.oneFree [⟨0,3,3⟩,⟨5,1,2⟩]

def secondPath : Path := ⟨fun _ => ⟨2,0,some 1,none,none,none,none⟩,1⟩

theorem twoExtents_sorted : SortedLeaf (twoExtents.hdr none) := by
  refine ⟨fun i inside => ?_,fun i inside => ?_,fun i j before inside => ?_⟩
  all_goals have two : _ < 2 := inside
  · interval_cases i <;> decide
  · interval_cases i <;> decide
  · obtain ⟨rfl,rfl⟩ : i = 0 ∧ j = 1 := by omega
    decide

theorem twoExtents_removable : RangeRemovable (twoExtents.hdr none) 1 5 5 := by
  refine ⟨rfl,fun x member _ => ?_,fun i inside beyond => ?_⟩
  · rcases List.mem_cons.mp member with rfl | last
    · decide
    · obtain rfl := List.mem_singleton.mp last
      decide
  · have two : i < 2 := inside
    interval_cases i <;> exact absurd beyond (by decide)

/-- The second extent goes, and the first one stays. -/
theorem ext4ExtRemoveLeaf_iff_all : ∃ s', ext4ExtRemoveLeaf twoExtents secondPath 5 5 = some s' ∧
    Removes (twoExtents.hdr none) (s'.hdr none) (removedRanges (twoExtents.hdr none) 5 5 1 1) 5 5 := by
  obtain ⟨s',result⟩ := Option.isSome_iff_exists.mp (by decide : (ext4ExtRemoveLeaf twoExtents secondPath 5 5).isSome = true)
  exact ⟨s',result,(@ext4ExtRemoveLeaf_iff twoExtents s' secondPath 5 5 1 rfl rfl (fun j less => absurd less (Nat.not_lt_zero j)) _ rfl
    twoExtents_sorted (by decide) (by decide) (by decide) (by decide) (by decide) result).2.mpr twoExtents_removable⟩

/-- A file of one extent, of the three blocks from 0 on. -/
def tripleFile : State := rootFile Alloc.oneFree [⟨0,3,3⟩]

theorem tripleFile_sorted : SortedLeaf (tripleFile.hdr none) := by
  refine ⟨fun i inside => ?_,fun i inside => ?_,fun i j before inside => ?_⟩
  all_goals have one : _ < 1 := inside
  · obtain rfl := Nat.lt_one_iff.mp one
    decide
  · obtain rfl := Nat.lt_one_iff.mp one
    decide
  · omega

/-- Of three blocks the last is to go, and none is left. -/
theorem ext4ExtRemoveLeaf_takes_front : SortedLeaf (tripleFile.hdr none) ∧ covers ((tripleFile.hdr none).slot 0) 2 ∧
    ∃ s', ext4ExtRemoveLeaf tripleFile shortPath 2 2 = some s' ∧
      ¬Removes (tripleFile.hdr none) (s'.hdr none) (removedRanges (tripleFile.hdr none) 2 2 1 0) 2 2 := by
  have left : (ext4ExtRemoveLeaf tripleFile shortPath 2 2).map (fun s' => (s'.hdr none).ehEntries) = some 0 := by decide
  obtain ⟨s',result,empty⟩ := Option.map_eq_some_iff.mp left
  refine ⟨tripleFile_sorted,by decide,s',result,fun removes => ?_⟩
  have first := removes.left 0
  rw [mapping_hole fun i inside => by omega,if_neg (by decide)] at first
  exact absurd first (by decide)

end Ext4Fuse.Extents
