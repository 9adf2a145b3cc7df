import Ext4Fuse.Extents.Lookup

/-! The two merges of `ext4_ext_insert_leaf`: a new extent joined to the one that the path
is at. -/
namespace Ext4Fuse.Extents
open Machine Ext4Fuse.Types Super Library.Segments

/-! The lengths and the mark in `ee_len`. -/

theorem word1_setEeLen (x : Slot) (len : Nat) : (x.setEeLen len).word1.toNat = x.eeStartHi * 2^16 + len % 2^16 := by
  have high : x.eeStartHi < 2^16 := Nat.div_lt_of_lt_mul x.word1.toNat_lt
  have low : len % 2^16 < 2^16 := Nat.mod_lt _ (by decide)
  show (UInt32.ofNat _).toNat = _
  rw [UInt32.toNat_ofNat',Nat.mod_eq_of_lt (by omega)]

theorem eeLen_setEeLen (x : Slot) (len : Nat) : (x.setEeLen len).eeLen = len % 2^16 := by
  rw [Slot.eeLen,word1_setEeLen,Nat.mul_comm,Nat.mul_add_mod,Nat.mod_mod]

theorem eeStartHi_setEeLen (x : Slot) (len : Nat) : (x.setEeLen len).eeStartHi = x.eeStartHi := by
  have low : len % 2^16 < 2^16 := Nat.mod_lt _ (by decide)
  rw [Slot.eeStartHi,word1_setEeLen]
  omega

theorem others_setEeLen (x : Slot) (len : Nat) : (x.setEeLen len).word0 = x.word0 ∧ (x.setEeLen len).word2 = x.word2 := by
  obtain ⟨word0,_,word2⟩ := x
  exact ⟨Eq.refl word0,Eq.refl word2⟩

theorem eeBlock_setEeLen (x : Slot) (len : Nat) : (x.setEeLen len).eeBlock = x.eeBlock :=
  congrArg UInt32.toNat (others_setEeLen x len).1

theorem eeStartLo_setEeLen (x : Slot) (len : Nat) : (x.setEeLen len).eeStartLo = x.eeStartLo :=
  congrArg UInt32.toNat (others_setEeLen x len).2

theorem ext4ExtPblock_setEeLen (x : Slot) (len : Nat) : ext4ExtPblock (x.setEeLen len) = ext4ExtPblock x := by
  rw [ext4ExtPblock,eeStartHi_setEeLen,eeStartLo_setEeLen,ext4ExtPblock]

/-- A length that fits can be stored and marked, with nothing else of the extent changed. -/
theorem marked_setEeLen (x : Slot) {len : Nat} (some_ : 0 < len) (unwritten : Bool)
    (fits : len ≤ if unwritten then extUnwrittenMaxLen else extInitMaxLen) :
    let marked := if unwritten then ext4ExtMarkUnwritten (x.setEeLen len) else x.setEeLen len
    marked.eeBlock = x.eeBlock ∧ ext4ExtGetActualLen marked = len ∧ ext4ExtPblock marked = ext4ExtPblock x ∧
      ext4ExtIsUnwritten marked = unwritten := by
  have init : extInitMaxLen = 32768 := rfl
  have most : extUnwrittenMaxLen = 32767 := rfl
  cases unwritten with
  | false =>
    simp only [Bool.false_eq_true,if_false,init] at fits ⊢
    have stored : (x.setEeLen len).eeLen = len := by
      rw [eeLen_setEeLen,Nat.mod_eq_of_lt (by omega)]
    refine ⟨eeBlock_setEeLen x len,?_,ext4ExtPblock_setEeLen x len,?_⟩
    · rw [ext4ExtGetActualLen,stored,init,if_pos fits]
    · rw [ext4ExtIsUnwritten,stored,init]
      exact decide_eq_false (Nat.not_lt.mpr fits)
  | true =>
    simp only [if_true,most] at fits ⊢
    have plain : (x.setEeLen len).eeLen = len := by
      rw [eeLen_setEeLen,Nat.mod_eq_of_lt (by omega)]
    have stored : ((x.setEeLen len).setEeLen (len + 32768)).eeLen = len + 32768 := by
      rw [eeLen_setEeLen,Nat.mod_eq_of_lt (by omega)]
    rw [ext4ExtMarkUnwritten,plain,init,if_pos (by omega)]
    refine ⟨?_,?_,?_,?_⟩
    · rw [eeBlock_setEeLen,eeBlock_setEeLen]
    · rw [ext4ExtGetActualLen,stored,init,if_neg (by omega),Nat.add_sub_cancel]
    · rw [ext4ExtPblock_setEeLen,ext4ExtPblock_setEeLen]
    · rw [ext4ExtIsUnwritten,stored,init]
      exact decide_eq_true (by omega)

/-- The merged extent begins where the old one does, there and on the device, and has the old one's state. -/
theorem mergeLen_fields {ex newext : Slot} (some_ : 0 < ext4ExtGetActualLen ex) (fits : lengthsFit ex newext = true) :
    (mergeLen ex newext).eeBlock = ex.eeBlock ∧
      ext4ExtGetActualLen (mergeLen ex newext) = ext4ExtGetActualLen ex + ext4ExtGetActualLen newext ∧
      ext4ExtPblock (mergeLen ex newext) = ext4ExtPblock ex ∧ ext4ExtIsUnwritten (mergeLen ex newext) = ext4ExtIsUnwritten ex :=
  marked_setEeLen ex (Nat.lt_of_lt_of_le some_ (Nat.le_add_right _ _)) (ext4ExtIsUnwritten ex) (of_decide_eq_true fits)

/-! The extents of a leaf. -/

def leafExtents (n : Node) : List Slot := (List.range n.ehEntries).map n.slot

theorem leafExtents_length (n : Node) : (leafExtents n).length = n.ehEntries := by
  rw [leafExtents,List.length_map,List.length_range]

theorem leafExtents_getElem (n : Node) (i : Nat) (inside : i < (leafExtents n).length) : (leafExtents n)[i] = n.slot i := by
  simp [leafExtents]

theorem leafExtents_setSlot (n : Node) (p : Nat) (x : Slot) : leafExtents (n.setSlot p x) = (leafExtents n).set p x := by
  apply List.ext_getElem
  · rw [List.length_set,leafExtents_length,leafExtents_length]
    rfl
  · intro i inside _
    rw [leafExtents_getElem,List.getElem_set,leafExtents_getElem]
    rcases eq_or_ne p i with rfl | other
    · simp [Node.setSlot]
    · simp [Node.setSlot,other,other.symm]

/-- An entry in the middle of a leaf, before and after it is replaced. -/
theorem leafExtents_middle (n : Node) {p : Nat} (inside : p < n.ehEntries) :
    ∃ l r, leafExtents n = l ++ n.slot p::r ∧ ∀ x, leafExtents (n.setSlot p x) = l ++ x::r := by
  have bound : p < (leafExtents n).length := by rwa [leafExtents_length]
  refine ⟨(leafExtents n).take p,(leafExtents n).drop (p + 1),?_,fun x => ?_⟩
  · rw [← leafExtents_getElem n p bound,← List.drop_eq_getElem_cons bound,List.take_append_drop]
  · rw [leafExtents_setSlot,List.set_eq_take_append_cons_drop,if_pos bound]

theorem mapping_skip {l r : List Slot} {x : Slot} {b : Nat} (missed : ¬covers x b) :
    mapping (l ++ x::r) b = mapping (l ++ r) b := by
  rw [mapping,mapping,List.find?_append,List.find?_append,List.find?_cons_of_neg (by simpa using missed)]

theorem mapping_only {l r : List Slot} {x : Slot} {b : Nat} (others : ∀ y ∈ l ++ r, ¬covers y b) :
    mapping (l ++ x::r) b = if covers x b then some (ext4ExtPblock x + (b - x.eeBlock),ext4ExtIsUnwritten x) else none := by
  have front : l.find? (fun y => covers y b) = none :=
    List.find?_eq_none.mpr fun y member => by simpa using others y (List.mem_append_left r member)
  have back : r.find? (fun y => covers y b) = none :=
    List.find?_eq_none.mpr fun y member => by simpa using others y (List.mem_append_right l member)
  rw [mapping,List.find?_append,front,Option.none_or]
  split
  · rename_i here
    rw [List.find?_cons_of_pos (by simpa using here)]
    rfl
  · rename_i missed
    rw [List.find?_cons_of_neg (by simpa using missed),back]
    rfl

/-- A block of one extent is a block of no other. -/
theorem alone_of_apart {l r : List Slot} {ex : Slot} (pairwise : (l ++ ex::r).Pairwise fun x y => extentStop x ≤ y.eeBlock) {b : Nat}
    (here : covers ex b) : ∀ y ∈ l ++ r, ¬covers y b := by
  intro y member other
  obtain ⟨_,rest,across⟩ := List.pairwise_append.mp pairwise
  rcases List.mem_append.mp member with front | back
  · have := across y front ex List.mem_cons_self
    have := other.2
    have := here.1
    omega
  · have := (List.pairwise_cons.mp rest).1 y back
    have := other.1
    have := here.2
    omega

/-! What a merge does to the mapping. -/

/-- What a new extent maps a block to. -/
def newMapping (newext : Slot) (b : Nat) : Nat × Bool := (ext4ExtPblock newext + (b - newext.eeBlock),ext4ExtIsUnwritten newext)

/-- The mapping is the old one and the new extent. -/
def Extended (before after : List Slot) (newext : Slot) : Prop :=
  ∀ b, mapping after b = if covers newext b then some (newMapping newext b) else mapping before b

section Merge
variable {l r : List Slot} {ex newext merged : Slot}

/-- An extent and a new one right behind it, on the disk too and in the same state. -/
theorem append_extended (tiled : Tiled extentAt 0 (l ++ ex::r) (2^32)) (apart : ∀ x ∈ l ++ ex::r, ∀ b, covers newext b → ¬covers x b)
    (start : merged.eeBlock = ex.eeBlock) (len : ext4ExtGetActualLen merged = ext4ExtGetActualLen ex + ext4ExtGetActualLen newext)
    (block : ext4ExtPblock merged = ext4ExtPblock ex) (state : ext4ExtIsUnwritten merged = ext4ExtIsUnwritten ex)
    (behind : extentStop ex = newext.eeBlock) (contiguous : ext4ExtPblock ex + ext4ExtGetActualLen ex = ext4ExtPblock newext)
    (same : ext4ExtIsUnwritten ex = ext4ExtIsUnwritten newext) : Extended (l ++ ex::r) (l ++ merged::r) newext := by
  have pairwise := (@Tiled.apart _ _ _ extentAt _ _ _ _ _ (fun _ _ _ at_ => ⟨at_.1,at_.2.1⟩) extentAt_forward tiled)
  have alone (b : Nat) (here : covers ex b) : ∀ y ∈ l ++ r, ¬covers y b := alone_of_apart pairwise here
  have union (b : Nat) : covers merged b ↔ covers ex b ∨ covers newext b := by
    unfold covers extentStop at *
    rw [start,len]
    omega
  intro b
  rcases Classical.em (covers newext b) with new | old
  · have others : ∀ y ∈ l ++ r, ¬covers y b := fun y member => apart y (by
      rcases List.mem_append.mp member with front | back
      · exact List.mem_append_left _ front
      · exact List.mem_append_right _ (List.mem_cons_of_mem _ back)) b new
    rw [mapping_only others,if_pos ((union b).mpr (Or.inr new)),if_pos new,newMapping,block,state,start,same]
    have first := new.1
    unfold extentStop at behind
    rw [show ext4ExtPblock ex + (b - ex.eeBlock) = ext4ExtPblock newext + (b - newext.eeBlock) by omega]
  · rw [if_neg old]
    rcases Classical.em (covers ex b) with inside | outside
    · rw [mapping_only (alone b inside),mapping_only (alone b inside),if_pos ((union b).mpr (Or.inl inside)),if_pos inside,block,
        state,start]
    · rw [mapping_skip outside,mapping_skip fun either => ((union b).mp either).elim outside old]

/-- A merged extent that covers the first new block but maps it to another block, or leaves it unmapped. -/
theorem not_extended (apart : ∀ x ∈ l ++ ex::r, ∀ b, covers newext b → ¬covers x b) (some_ : 0 < ext4ExtGetActualLen newext)
    (differs : covers merged newext.eeBlock →
      (ext4ExtPblock merged + (newext.eeBlock - merged.eeBlock),ext4ExtIsUnwritten merged) ≠ newMapping newext newext.eeBlock) :
    ¬Extended (l ++ ex::r) (l ++ merged::r) newext := by
  intro extended
  have first : covers newext newext.eeBlock := ⟨Nat.le_refl _,by unfold extentStop; omega⟩
  have others : ∀ y ∈ l ++ r, ¬covers y newext.eeBlock := fun y member => apart y (by
    rcases List.mem_append.mp member with front | back
    · exact List.mem_append_left _ front
    · exact List.mem_append_right _ (List.mem_cons_of_mem _ back)) _ first
  have mapped := extended newext.eeBlock
  rw [mapping_only others,if_pos first] at mapped
  split at mapped
  · exact differs ‹_› (Option.some.inj mapped)
  · nomatch mapped

end Merge

theorem leafDone_ok (s : State) (path : Path) (at_ : Nat) (newext : Slot) (spt : SplitTrans) (eh : Option Nat) (ex : Nat) :
    ∃ path', leafDone s path at_ newext spt eh ex none .ok = (s,path',{spt with index := 0,ptr := 0},.ok) := ⟨_,rfl⟩

section Taken
variable {s : State} {path : Path} {at_ p : Nat} {ex newext : Slot} {spt : SplitTrans}

/-- The state that a merge leaves. -/
def mergedState (s : State) (path : Path) (at_ p : Nat) (merged : Slot) : State :=
  ext4ExtDirty (s.setHdr (path.elem at_).pHdr ((s.hdr (path.elem at_).pHdr).setSlot p merged)) (path.elem at_)

theorem mergedState_hdr (merged : Slot) : (mergedState s path at_ p merged).hdr (path.elem at_).pHdr =
    (s.hdr (path.elem at_).pHdr).setSlot p merged := by
  rw [mergedState,ext4ExtDirty_hdr,setHdr_hdr]

theorem any_entry (position : (path.elem at_).pExt = some p) (entry : (s.hdr (path.elem at_).pHdr).slot p = ex) (test : Slot → Bool) :
    ((path.elem at_).pExt.any fun p => test ((s.hdr (path.elem at_).pHdr).slot p)) = test ex := by
  rw [position,Option.any_some,entry]

theorem ext4ExtInsertLeaf_append (position : (path.elem at_).pExt = some p) (entry : (s.hdr (path.elem at_).pHdr).slot p = ex)
    (fresh : newext.eeBlock ≠ ex.eeBlock) (appends : ext4ExtCanAppend ex newext = true) {out : State × Path × SplitTrans × Ret}
    (done : leafDone (mergedState s path at_ p (mergeLen ex newext)) path at_ newext spt (path.elem at_).pHdr p none .ok = out) :
    ext4ExtInsertLeaf s path at_ newext spt = some out := by
  have place : (path.elem at_).pExt.getD 0 = p := by
    rw [position]
    rfl
  have first : ¬((path.elem at_).pExt.any fun p => newext.eeBlock = ((s.hdr (path.elem at_).pHdr).slot p).eeBlock) = true := by
    rw [any_entry position entry fun x => newext.eeBlock = x.eeBlock]
    simpa using fresh
  unfold ext4ExtInsertLeaf
  refine (if_neg first).trans ((if_pos ?_).trans ?_)
  · exact (any_entry position entry fun x => ext4ExtCanAppend x newext).trans appends
  · rw [← entry,← place] at done
    exact congrArg some done

theorem ext4ExtInsertLeaf_prepend (position : (path.elem at_).pExt = some p) (entry : (s.hdr (path.elem at_).pHdr).slot p = ex)
    (fresh : newext.eeBlock ≠ ex.eeBlock) (refuses : ¬ext4ExtCanAppend ex newext = true)
    (prepends : ext4ExtCanPrepend ex newext = true) {out : State × Path × SplitTrans × Ret}
    (done : leafDone (mergedState s path at_ p (mergeLen (ex.setEeBlock newext.eeBlock) newext)) path at_ newext spt
      (path.elem at_).pHdr p none .ok = out) : ext4ExtInsertLeaf s path at_ newext spt = some out := by
  have place : (path.elem at_).pExt.getD 0 = p := by
    rw [position]
    rfl
  have first : ¬((path.elem at_).pExt.any fun p => newext.eeBlock = ((s.hdr (path.elem at_).pHdr).slot p).eeBlock) = true := by
    rw [any_entry position entry fun x => newext.eeBlock = x.eeBlock]
    simpa using fresh
  unfold ext4ExtInsertLeaf
  refine (if_neg first).trans ((if_neg ?_).trans ((if_pos ?_).trans ?_))
  · rwa [any_entry position entry fun x => ext4ExtCanAppend x newext]
  · exact (any_entry position entry fun x => ext4ExtCanPrepend x newext).trans prepends
  · rw [← entry,← place] at done
    exact congrArg some done

/-- Which merge is taken, and what is left in the leaf. -/
theorem ext4ExtInsertLeaf_merges (spt : SplitTrans) (position : (path.elem at_).pExt = some p)
    (entry : (s.hdr (path.elem at_).pHdr).slot p = ex) (fresh : newext.eeBlock ≠ ex.eeBlock)
    (merges : ext4ExtCanAppend ex newext = true ∨ ext4ExtCanPrepend ex newext = true) :
    ∃ s' path' spt', ext4ExtInsertLeaf s path at_ newext spt = some (s',path',spt',.ok) ∧
      s'.hdr (path.elem at_).pHdr = (s.hdr (path.elem at_).pHdr).setSlot p
        (if ext4ExtCanAppend ex newext then mergeLen ex newext else mergeLen (ex.setEeBlock newext.eeBlock) newext) := by
  rcases Classical.em (ext4ExtCanAppend ex newext = true) with appends | refuses
  · obtain ⟨path',done⟩ := leafDone_ok (mergedState s path at_ p (mergeLen ex newext)) path at_ newext spt (path.elem at_).pHdr p
    exact ⟨_,_,_,ext4ExtInsertLeaf_append position entry fresh appends done,by rw [if_pos appends,mergedState_hdr]⟩
  · obtain ⟨path',done⟩ := leafDone_ok (mergedState s path at_ p (mergeLen (ex.setEeBlock newext.eeBlock) newext)) path at_ newext
      spt (path.elem at_).pHdr p
    exact ⟨_,_,_,ext4ExtInsertLeaf_prepend position entry fresh refuses (merges.resolve_left refuses) done,
      by rw [if_neg refuses,mergedState_hdr]⟩

end Taken

/-- A merge leaves the leaf with the old mapping and the new extent just when it appends, and
appends an extent of the same state. -/
theorem ext4ExtInsertLeaf_merge_iff {s : State} {path : Path} {at_ p : Nat} {newext : Slot} (spt : SplitTrans)
    (leaf : Tiled extentAt 0 (leafExtents (s.hdr (path.elem at_).pHdr)) (2^32))
    (position : (path.elem at_).pExt = some p) (inside : p < (s.hdr (path.elem at_).pHdr).ehEntries) {ex : Slot}
    (entry : (s.hdr (path.elem at_).pHdr).slot p = ex) (some_ : 0 < ext4ExtGetActualLen newext) (bound : extentStop newext ≤ 2^32)
    (apart : ∀ x ∈ leafExtents (s.hdr (path.elem at_).pHdr), ∀ b, covers newext b → ¬covers x b)
    (merges : ext4ExtCanAppend ex newext = true ∨ ext4ExtCanPrepend ex newext = true) :
    ∃ s' path' spt', ext4ExtInsertLeaf s path at_ newext spt = some (s',path',spt',.ok) ∧
      (Extended (leafExtents (s.hdr (path.elem at_).pHdr)) (leafExtents (s'.hdr (path.elem at_).pHdr)) newext ↔
        extentStop ex = newext.eeBlock ∧ ext4ExtIsUnwritten ex = ext4ExtIsUnwritten newext) := by
  obtain ⟨l,r,before,after⟩ := leafExtents_middle _ inside
  rw [entry] at before
  rw [before] at leaf apart
  have member : ex ∈ l ++ ex::r := List.mem_append_right l List.mem_cons_self
  obtain ⟨_,_,_,⟨rfl,rfl,long⟩,end_⟩ := leaf.bounds extentAt_forward member
  have positive : 0 < ext4ExtGetActualLen ex := by
    unfold extentStop at long
    omega
  have first : covers newext newext.eeBlock := ⟨Nat.le_refl _,by unfold extentStop; omega⟩
  have outside := apart ex member _ first
  have fresh : newext.eeBlock ≠ ex.eeBlock := fun same => outside (by rw [same]; exact ⟨Nat.le_refl _,long⟩)
  obtain ⟨s',path',spt',result,stored⟩ := ext4ExtInsertLeaf_merges spt position entry fresh merges
  refine ⟨s',path',spt',result,?_⟩
  rw [stored,after,before]
  have physical := ext4ExtPblock_lt ex
  have physical' := ext4ExtPblock_lt newext
  have short := actualLen_le ex
  have short' := actualLen_le newext
  split
  · rename_i appends
    simp only [ext4ExtCanAppend,Bool.and_eq_true,decide_eq_true_eq] at appends
    obtain ⟨⟨contiguous,fits⟩,follows⟩ := appends
    obtain ⟨start,len,block,state⟩ := mergeLen_fields positive fits
    rw [u64_small _ (by omega)] at contiguous
    constructor
    · intro extended
      by_contra fails
      refine not_extended apart some_ (fun here => ?_) extended
      rw [start,block,state,newMapping]
      intro equal
      obtain ⟨_,same⟩ := Prod.mk.inj equal
      refine fails ⟨?_,same⟩
      -- the sum wraps only when the new extent begins at block 0, which the merged one does not cover
      have low := here.1
      rw [start] at low
      unfold extentStop at end_ outside ⊢
      rcases Nat.lt_or_ge (ex.eeBlock + ext4ExtGetActualLen ex) (2^32) with less | wraps
      · rwa [u32_small _ less] at follows
      · rw [show ex.eeBlock + ext4ExtGetActualLen ex = 2^32 by omega] at follows
        have zero : newext.eeBlock = 0 := follows.symm.trans (by decide)
        omega
    · rintro ⟨behind,same⟩
      exact append_extended leaf apart start len block state behind contiguous same
  · rename_i refuses
    have prepends := merges.resolve_left refuses
    simp only [ext4ExtCanPrepend,Bool.and_eq_true,decide_eq_true_eq] at prepends
    obtain ⟨⟨contiguous,fits⟩,follows⟩ := prepends
    rw [u64_small _ (by omega)] at contiguous
    obtain ⟨start,len,block,state⟩ := @mergeLen_fields (ex.setEeBlock newext.eeBlock) _ positive fits
    constructor
    · intro extended
      refine absurd extended (not_extended apart some_ fun here => ?_)
      rw [block,newMapping]
      intro equal
      have moved := (Prod.mk.inj equal).1
      rw [start] at moved
      have same : ext4ExtPblock (ex.setEeBlock newext.eeBlock) = ext4ExtPblock ex := rfl
      have low : (ex.setEeBlock newext.eeBlock).eeBlock = newext.eeBlock := by
        show (UInt32.ofNat newext.eeBlock).toNat = _
        rw [UInt32.toNat_ofNat']
        exact Nat.mod_eq_of_lt newext.word0.toNat_lt
      rw [same,low] at moved
      omega
    · rintro ⟨behind,_⟩
      unfold extentStop at behind bound
      rcases Nat.lt_or_ge (newext.eeBlock + ext4ExtGetActualLen newext) (2^32) with less | wraps
      · rw [u32_small _ less] at follows
        omega
      · rw [show newext.eeBlock + ext4ExtGetActualLen newext = 2^32 by omega] at follows
        have zero : ex.eeBlock = 0 := follows.symm.trans (by decide)
        omega

/-- A file of one extent, of the two blocks from 3 on, and the path to it. -/
def shortFile : State where
  volume := Alloc.oneFree
  inode := ⟨12,false,⟨5120,0,4,0,0,⟨0xf30a,1,4,0,fun _ => ⟨3,2,100⟩⟩⟩⟩
  node := fun _ => ⟨0,0,0,0,fun _ => ⟨0,0,0⟩⟩
  verified := fun _ => false
  count := fun _ => 0

def shortPath : Path := ⟨fun _ => ⟨100,0,some 0,none,none,none,none⟩,1⟩

theorem shortFile_leaf : Tiled extentAt 0 (leafExtents (shortFile.hdr none)) (2^32) :=
  ⟨3,5,by decide,⟨by decide,by decide,by decide⟩,(by decide : 5 ≤ 2^32)⟩

theorem shortFile_apart {newext : Slot} (outside : extentStop newext ≤ 3 ∨ 5 ≤ newext.eeBlock) :
    ∀ x ∈ leafExtents (shortFile.hdr none), ∀ b, covers newext b → ¬covers x b := by
  intro x member b new old
  obtain rfl : x = ⟨3,2,100⟩ := List.mem_singleton.mp member
  have low : 3 ≤ b := old.1
  have high : b < 5 := old.2
  have := new.1
  have := new.2
  omega

theorem ext4ExtInsertLeaf_merge_iff_append : ∃ s' path' spt',
    ext4ExtInsertLeaf shortFile shortPath 0 ⟨5,1,102⟩ zeroTrans = some (s',path',spt',.ok) ∧
      (Extended (leafExtents (shortFile.hdr none)) (leafExtents (s'.hdr none)) ⟨5,1,102⟩ ↔
        extentStop ⟨3,2,100⟩ = Slot.eeBlock ⟨5,1,102⟩ ∧ ext4ExtIsUnwritten ⟨3,2,100⟩ = ext4ExtIsUnwritten ⟨5,1,102⟩) :=
  @ext4ExtInsertLeaf_merge_iff _ shortPath 0 0 _ zeroTrans shortFile_leaf rfl (by decide) ⟨3,2,100⟩
    rfl (by decide) (by decide) (shortFile_apart (Or.inr (by decide))) (Or.inl (by decide))

/-- A new extent in front: the physical start stays, and the old blocks move by one. -/
theorem ext4ExtInsertLeaf_prepend_moves : Tiled extentAt 0 (leafExtents (shortFile.hdr none)) (2^32) ∧
    (∀ x ∈ leafExtents (shortFile.hdr none), ∀ b, covers ⟨2,1,99⟩ b → ¬covers x b) ∧
    ext4ExtCanPrepend ⟨3,2,100⟩ ⟨2,1,99⟩ = true ∧
    ∃ s' path' spt', ext4ExtInsertLeaf shortFile shortPath 0 ⟨2,1,99⟩ zeroTrans = some (s',path',spt',.ok) ∧
      mapping (leafExtents (s'.hdr none)) 3 = some (101,false) ∧
      ¬Extended (leafExtents (shortFile.hdr none)) (leafExtents (s'.hdr none)) ⟨2,1,99⟩ := by
  have old : mapping (leafExtents (shortFile.hdr none)) 3 = some (100,false) := by decide
  have moved : (ext4ExtInsertLeaf shortFile shortPath 0 ⟨2,1,99⟩ zeroTrans).any (fun r =>
      r.2.2.2 = .ok ∧ mapping (leafExtents (r.1.hdr none)) 3 = some (101,false)) = true := by decide
  refine ⟨shortFile_leaf,shortFile_apart (Or.inl (by decide)),by decide,?_⟩
  cases result : ext4ExtInsertLeaf shortFile shortPath 0 ⟨2,1,99⟩ zeroTrans with
  | none => simp [result] at moved
  | some r =>
    obtain ⟨s',path',spt',ret⟩ := r
    rw [result,Option.any_some,decide_eq_true_eq] at moved
    obtain ⟨rfl,wrong⟩ := moved
    refine ⟨s',path',spt',rfl,wrong,fun extended => ?_⟩
    have right := extended 3
    rw [wrong,old,if_neg (by decide)] at right
    exact absurd right (by decide)

end Ext4Fuse.Extents
