import Ext4Fuse.Extents.InsertLeaf

/-! What `ext4_ext_insert_index` does to a node and to its new sibling. The new index goes behind
the one that the path is at. -/
namespace Ext4Fuse.Extents
open Machine Ext4Fuse.Types Super Library.Partial

theorem storeIdx_pointer {key block : Nat} (small : key < 2^32) (bound : block < 2^48) (z : Slot) :
    pointer (storeIdx key block z) = (key,block) := by
  have high : z.word2.toNat < 2^32 := z.word2.toNat_lt
  refine Prod.ext (UInt32.toNat_ofNat_of_lt' small) ?_
  change (UInt32.ofNat block).toNat + (UInt32.ofNat (z.word2.toNat / 2^16 * 2^16 + block / 2^32 % 2^16)).toNat % 2^16 * 2^32 = block
  rw [UInt32.toNat_ofNat',UInt32.toNat_ofNat']
  omega

theorem indexDone_free (s : State) (path : Path) (at_ : Nat) (newext : Slot) (spt : SplitTrans) (eh : Option Nat) (ix : Nat) :
    ∃ path', indexDone s path at_ newext spt eh ix none .ok = (s,path',{spt with index := 0,ptr := 0},.ok) ∧
      ((path'.elem at_).pHdr = (path.elem at_).pHdr ∧ (path'.elem at_).pIn = eh ∧ (path'.elem at_).pIdx = some ix) ∧
      ∀ j, j ≠ at_ → path'.elem j = path.elem j := by
  refine ⟨_,rfl,?_,fun _ other => Path.set_other _ _ other⟩
  rw [Path.set_self]
  exact ⟨rfl,rfl,rfl⟩

theorem indexDone_split (s : State) (path : Path) (at_ : Nat) (newext : Slot) (spt : SplitTrans) (eh : Option Nat) (ix bh : Nat) :
    ∃ path' spt', indexDone s path at_ newext spt eh ix (some bh) .ok = (s,path',spt',.ok) ∧ spt'.ptr = spt.ptr ∧
      spt'.index = ext4ExtBlockIndex s bh ∧ Recorded newext ix bh spt.switchTo spt' ∧ (path'.elem at_).pHdr = (path.elem at_).pHdr ∧
      ∀ j, j ≠ at_ → path'.elem j = path.elem j := by
  simp only [indexDone]
  split
  · rename_i reached
    exact ⟨_,_,rfl,rfl,rfl,recorded_over reached,rfl,fun _ _ => rfl⟩
  · rename_i short
    refine ⟨_,_,rfl,rfl,rfl,recorded_stay short,?_,fun j other => Path.set_other _ _ other⟩
    rw [Path.set_self]

/-- A node that took the index in behind entry `p`. -/
structure IndexFree (s : State) (path : Path) (at_ p key block : Nat) (s' : State) (path' : Path) : Prop where
  placed : ∃ y, pointer y = (key,block) ∧ slots (s'.hdr (path.elem at_).pHdr) = withSlot (slots (s.hdr (path.elem at_).pHdr)) (p + 1) y
  alike : SameHeader (s.hdr (path.elem at_).pHdr) (s'.hdr (path.elem at_).pHdr)
  fits : (s'.hdr (path.elem at_).pHdr).ehEntries ≤ (s'.hdr (path.elem at_).pHdr).ehMax
  other : ∀ a, a ≠ (path.elem at_).pHdr → s'.hdr a = s.hdr a
  volume : s'.volume = s.volume
  pHdr : (path'.elem at_).pHdr = (path.elem at_).pHdr
  pIn : (path'.elem at_).pIn = (path.elem at_).pHdr
  pIdx : (path'.elem at_).pIdx = some (p + 1)
  kept : ∀ j, j ≠ at_ → path'.elem j = path.elem j

/-- A node that was split for it, with the new node in `sibling`. -/
structure IndexSplit (s : State) (path : Path) (at_ p key block height room : Nat) (blocks : List Nat) (s' : State) (path' : Path)
    (sibling : Nat) : Prop where
  placed : ∃ y, pointer y = (key,block) ∧ slots (s'.hdr (path.elem at_).pHdr) ++ slots (s'.node sibling) =
    withSlot (slots (s.hdr (path.elem at_).pHdr)) (p + 1) y ∧ (ownHalf (s.hdr (path.elem at_).pHdr).ehMax p true = false →
      slots (s'.node sibling) = y::(slots (s.hdr (path.elem at_).pHdr)).drop (p + 1))
  own : ownHalf (s.hdr (path.elem at_).pHdr).ehMax p true = true →
    slots (s'.node sibling) = (slots (s.hdr (path.elem at_).pHdr)).drop (p + 1)
  left : slots (s'.hdr (path.elem at_).pHdr) ≠ []
  right : slots (s'.node sibling) ≠ []
  alike : SameHeader (s.hdr (path.elem at_).pHdr) (s'.hdr (path.elem at_).pHdr)
  fits : (s'.hdr (path.elem at_).pHdr).ehEntries ≤ (s'.hdr (path.elem at_).pHdr).ehMax
  header : Header (s'.node sibling) height room (s'.node sibling).ehEntries
  other : ∀ a, a ≠ (path.elem at_).pHdr → a ≠ some sibling → s'.hdr a = s.hdr a
  fresh : sibling ∉ 0::blocks
  small : sibling < 2^48
  reserved : Reserved s'.volume (sibling::blocks)
  space : ext4ExtSpaceBlock s' = room
  pHdr : (path'.elem at_).pHdr = (path.elem at_).pHdr
  kept : ∀ j, j ≠ at_ → path'.elem j = path.elem j

/-- What an insertion into the node comes to. -/
inductive IndexResult (s : State) (path : Path) (newext : Slot) (switchTo : Bool) (at_ p key block height room : Nat) (blocks : List Nat) :
    State × Path × SplitTrans × Ret → Prop
  | failed {s' : State} {path' : Path} {spt : SplitTrans} (err : Errno) :
      IndexResult s path newext switchTo at_ p key block height room blocks (s',path',spt,.fail err)
  | grow {spt : SplitTrans} : at_ = 0 → (s.hdr (path.elem at_).pHdr).ehEntries = (s.hdr (path.elem at_).pHdr).ehMax →
      IndexResult s path newext switchTo at_ p key block height room blocks (s,path,spt,.needGrow)
  | free {s' : State} {path' : Path} {spt : SplitTrans} : spt.ptr = 0 →
      (s.hdr (path.elem at_).pHdr).ehEntries ≠ (s.hdr (path.elem at_).pHdr).ehMax → IndexFree s path at_ p key block s' path' →
      IndexResult s path newext switchTo at_ p key block height room blocks (s',path',spt,.ok)
  | split {s' : State} {path' : Path} {spt : SplitTrans} : 0 < at_ →
      (s.hdr (path.elem at_).pHdr).ehEntries = (s.hdr (path.elem at_).pHdr).ehMax → spt.index = ext4ExtBlockIndex s' spt.ptr →
      (∃ ix, Recorded newext ix spt.ptr switchTo spt ∧ (ownHalf (s.hdr (path.elem at_).pHdr).ehMax p true = false → ix = 0)) →
      IndexSplit s path at_ p key block height room blocks s' path' spt.ptr →
      IndexResult s path newext switchTo at_ p key block height room blocks (s',path',spt,.ok)

section Index
variable {s : State} {path : Path} {newext : Slot} {at_ depth room limit p key block : Nat} {blocks : List Nat}
  (ready : Ready s depth room blocks) (fits : RoomFits room) (most : limit ≤ room) (above : at_ < depth) (lower : depth < 2^16)
  (header : Header (s.hdr (path.elem at_).pHdr) (depth - at_) limit (s.hdr (path.elem at_).pHdr).ehEntries)
  (position : (path.elem at_).pIdx = some p) (inside : p < (s.hdr (path.elem at_).pHdr).ehEntries)
  (behind : ((s.hdr (path.elem at_).pHdr).slot p).eiBlock < key) (small : key < 2^32) (bound : block < 2^48)
include ready fits most above lower header position inside behind small bound

omit ready above lower in
theorem insertIndexFree_result (spt : SplitTrans)
    (free : (s.hdr (path.elem at_).pHdr).ehEntries ≠ (s.hdr (path.elem at_).pHdr).ehMax) :
    Ensures (insertIndexFree s path at_ newext key block spt) (IndexResult s path newext spt.switchTo at_ p key block (depth - at_) room blocks) := by
  have limit_ := header.limit
  have counted := header.fits
  have short := fits.2
  obtain ⟨n',put,alike,array⟩ := @placeEntry_free s (path.elem at_).pHdr (p + 1) inside (by omega) (by omega) (storeIdx key block)
  have self : (s.setHdr (path.elem at_).pHdr n').hdr (path.elem at_).pHdr = n' := setHdr_hdr _ _ _
  unfold insertIndexFree
  simp only [position,behind,reduceCtorEq,if_false,if_true,put,Option.bind_eq_bind,Option.bind_some,indexStored,and_self,Option.pure_def]
  obtain ⟨path',done,⟨pHdr,pIn,pIdx⟩,kept⟩ := indexDone_free (ext4ExtDirty (s.setHdr (path.elem at_).pHdr n') (path.elem at_)) path at_ newext spt
    (path.elem at_).pHdr (p + 1)
  rw [done]
  refine ensures_some (.free rfl free ⟨⟨_,storeIdx_pointer small bound ((s.hdr (path.elem at_).pHdr).slot (p + 1)),?_⟩,?_,?_,
    fun a other => ?_,?_,pHdr,pIn,pIdx,kept⟩)
  · rw [ext4ExtDirty_hdr,self]
    exact array
  · rw [ext4ExtDirty_hdr,self]
    exact alike
  · rw [ext4ExtDirty_hdr,self,← slots_length,array,withSlot_length (by rw [slots_length]; exact inside),slots_length,alike.max]
    omega
  · rw [ext4ExtDirty_hdr,setHdr_other _ _ other]
  · rw [ext4ExtDirty_volume,setHdr_volume]

theorem insertIndexSplit_result (owned : ∀ c, (path.elem at_).pHdr = some c → c ∈ blocks) (spt : SplitTrans)
    (full : (s.hdr (path.elem at_).pHdr).ehEntries = (s.hdr (path.elem at_).pHdr).ehMax) :
    Ensures (insertIndexSplit s path at_ newext key block spt) (IndexResult s path newext spt.switchTo at_ p key block (depth - at_) room blocks) := by
  have limit_ := header.limit
  have short := fits.2
  unfold insertIndexSplit
  simp only
  refine ensures_ite (fun root => ensures_some (.grow root full)) fun deep => ?_
  refine (@ext4ExtSplitNode_parted s path at_ depth room p newext blocks ready
    (by simpa [PathElem.position,Nat.ne_of_lt above] using position) owned full (by omega) (by omega)).bind fun r split => ?_
  obtain ⟨s₁,result⟩ := r
  cases result with
  | error err => exact ensures_some (.failed err)
  | ok sibling =>
    obtain ⟨s₀,hdr,parted,apart',level,space,fresh,small',reserved,space₁⟩ := split
    have entry : ((s₁.hdr (path.elem at_).pHdr).slot p).eiBlock < key := by
      rw [parted.kept (by rw [hdr]; exact full) (by rw [hdr]; omega),hdr]
      exact behind
    obtain ⟨ix,s₂,z,place,put,halves,volume,own,crossed⟩ := parted.placed apart' (by rw [hdr]; exact full) (by rw [hdr]; omega)
      (by rw [level]; omega) (by omega) fits space (by rw [hdr]; omega) true (by rintro ⟨⟩) (storeIdx key block)
    simp only [position,Option.bind_eq_bind,Option.bind_some,entry,decide_true,place,put,Option.pure_def]
    rw [hdr] at own crossed
    generalize (if ownHalf (s₀.hdr (path.elem at_).pHdr).ehMax p true = true then (path.elem at_).pHdr else some sibling) = eh
    have stored (a : Option Nat) : (indexStored s₂ (path.elem at_) eh .ok).hdr a = s₂.hdr a := by
      unfold indexStored
      split
      · exact ext4ExtDirty_hdr _ _ _
      · rfl
    have storedVolume : (indexStored s₂ (path.elem at_) eh .ok).volume = s₂.volume := by
      unfold indexStored
      split
      · exact ext4ExtDirty_volume _ _
      · rfl
    generalize indexStored s₂ (path.elem at_) eh .ok = s₃ at stored storedVolume
    obtain ⟨path',spt',done,ptr,index,recorded,pHdr,kept⟩ := indexDone_split s₃ path at_ newext {spt with ptr := sibling} eh ix sibling
    rw [done]
    have node : s₃.node sibling = s₂.node sibling := stored (some sibling)
    refine ensures_some (.split (Nat.pos_of_ne_zero deep) full (by rw [index,ptr]) ⟨ix,ptr ▸ recorded,fun goes => (crossed goes).1⟩
      (ptr ▸ ⟨⟨_,storeIdx_pointer small bound z,?_,fun goes => ?_⟩,fun stays => ?_,?_,?_,?_,?_,?_,fun a one two => ?_,fresh,small',?_,?_,pHdr,kept⟩))
    · rw [stored,node,halves.whole,hdr]
      rfl
    · rw [node]
      exact (crossed goes).2
    · rw [node]
      exact own stays
    · rw [stored]
      exact halves.left
    · rw [node]
      exact halves.right
    · rw [stored,← hdr]
      exact halves.alike
    · rw [stored]
      exact halves.fits
    · rw [node]
      exact halves.header
    · rw [stored,halves.other a one two,hdr]
    · rw [storedVolume,volume,← parted.volume]
      exact reserved
    · rw [ext4ExtSpaceBlock,storedVolume,volume,← parted.volume]
      exact space₁

theorem ext4ExtInsertIndex_result (owned : ∀ c, (path.elem at_).pHdr = some c → c ∈ blocks) (spt : SplitTrans) :
    Ensures (ext4ExtInsertIndex s path at_ newext key block spt) (IndexResult s path newext spt.switchTo at_ p key block (depth - at_) room blocks) := by
  have code : ext4ExtInsertIndex s path at_ newext key block spt =
      if (s.hdr (path.elem at_).pHdr).ehEntries = (s.hdr (path.elem at_).pHdr).ehMax then
        insertIndexSplit s path at_ newext key block spt
      else insertIndexFree s path at_ newext key block spt := by
    rw [ext4ExtInsertIndex]
    simp only [position]
    rw [if_neg]
    rw [Option.any_some,decide_eq_true_eq]
    exact Nat.ne_of_gt behind
  rw [code]
  refine ensures_ite (fun full => ?_) fun free => ?_
  · exact insertIndexSplit_result ready fits most above lower header position inside behind small bound owned spt full
  · exact insertIndexFree_result fits most header position inside behind small bound spt free

end Index

end Ext4Fuse.Extents
