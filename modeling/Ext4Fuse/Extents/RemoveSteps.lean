import Ext4Fuse.Extents.Remove
import Ext4Fuse.Extents.Steady

/-! What the steps of `ext4_ext_remove_space` leave of the nodes they work on: the extents of a
leaf from some entry on are gone, whatever the range, and so is one entry of an index node. -/
namespace Ext4Fuse.Extents
open Machine Ext4Fuse.Types Super Library.Partial

theorem charged_refl (s : State) : Charged s s := ⟨Steady.refl s,fun _ => rfl⟩

theorem Charged.trans {s s' s'' : State} (one : Charged s s') (two : Charged s' s'') : Charged s s'' :=
  ⟨one.steady.trans two.steady,fun at_ => (two.hdr at_).trans (one.hdr at_)⟩

theorem Same.charged {s s' : State} (same : Same s s') : Charged s s' := ⟨same.steady,same.hdr⟩

theorem ext4ExtDirty_charged (s : State) (elem : PathElem) : Charged s (ext4ExtDirty s elem) :=
  ⟨ext4ExtDirty_steady s elem,ext4ExtDirty_hdr s elem⟩

/-! What a round over an extent computes. -/

theorem i32_mod (x : Int) : i32 x % 2^32 = x % 2^32 := by
  unfold i32
  exact Int.bmod_emod

theorem u64_mod (x : Int) : (u64 x : Int) % 2^32 = x % 2^32 := by
  unfold u64
  omega

theorem i32_eq_zero {x : Int} (zero : x % 2^32 = 0) : i32 x = 0 := by
  unfold i32
  rw [Int.bmod_def]
  omega

theorem endLen_zero (start : Nat) (len : Int) (last : Nat) :
    i32 (u64 (start + i32 (len - u64 (start + len - 1 - last)) - 1 - last) : Nat) = 0 := by
  apply i32_eq_zero
  have inner := i32_mod (len - u64 (start + len - 1 - last))
  have outer := u64_mod (start + i32 (len - u64 (start + len - 1 - last)) - 1 - last)
  have back := u64_mod (start + len - 1 - last)
  generalize u64 (start + len - 1 - last) = a at *
  generalize i32 (len - a) = b at *
  rw [outer]
  omega

theorem cutExtent_newLen (ex : Slot) (from_ last : Nat) : (cutExtent ex from_ last).newLen = 0 := by
  unfold cutExtent
  extract_lets whole start cut len newLen
  have moved : i32 (u64 (from_ - start : Int) : Nat) = 0 := i32_eq_zero (by rw [u64_mod,Int.sub_self]; rfl)
  have front : cut.newLen = 0 := by
    unfold cut
    split
    · dsimp only
      exact moved
    · rfl
  have back : newLen = 0 := endLen_zero cut.start cut.len last
  clear_value cut newLen
  split
  · dsimp only
    exact back
  · exact front

/-- What a round of the loop over a leaf gives back. -/
def removedRange (x : Slot) (from_ last : Nat) : Nat × Int :=
  let cut := cutExtent x from_ last
  let start := u32 cut.start
  (u64 (ext4ExtPblock x + u32 (start - x.eeBlock : Int) : Nat),i32 ((u32 (cut.start + cut.len - 1) : Nat) - (start : Int) + 1))

theorem ext4ExtRemoveBlocks_eq (s : State) (x : Slot) (from_ last : Nat) :
    ext4ExtRemoveBlocks s x (u32 (cutExtent x from_ last).start) (u32 ((cutExtent x from_ last).start + (cutExtent x from_ last).len - 1)) =
      ext4ExtFreeBlocks s (removedRange x from_ last).1 (removedRange x from_ last).2 := by
  unfold ext4ExtRemoveBlocks removedRange
  rfl

/-- What a round leaves in the place of an extent. -/
def cutSlot (x : Slot) (from_ last : Nat) : Slot := x.setEeBlock (u32 (cutExtent x from_ last).newStart)

theorem removeLeafLoop_round {eh : Option Nat} {from_ last ex : Nat} {s : State} (before : ((s.hdr eh).slot ex).eeBlock ≤ last)
    (rest startEx : Nat) (ex2 : Option Nat) (newEntries : Int) :
    removeLeafLoop eh from_ last (rest + 1) s ex startEx ex2 newEntries =
      (ext4ExtFreeBlocks s (removedRange ((s.hdr eh).slot ex) from_ last).1 (removedRange ((s.hdr eh).slot ex) from_ last).2).bind
        fun s₁ => removeLeafLoop eh from_ last rest (s₁.setHdr eh ((s₁.hdr eh).setSlot ex (cutSlot ((s.hdr eh).slot ex) from_ last))) (ex + 1)
          (if (cutExtent ((s.hdr eh).slot ex) from_ last).movesStart then startEx + 1 else startEx)
          (if (cutExtent ((s.hdr eh).slot ex) from_ last).atEnd then some ex else ex2) (newEntries - 1) := by
  rw [removeLeafLoop]
  simp only [cutExtent_newLen,if_true]
  rw [if_neg (Nat.not_lt.mpr before),ext4ExtRemoveBlocks_eq]
  rfl

/-! The leaf. -/

/-- Of the node at `eh` only the slots from `p` on and the count may have changed. -/
structure LeafCut (eh : Option Nat) (p : Nat) (s s' : State) : Prop where
  steady : Steady s s'
  magic : (s'.hdr eh).ehMagic = (s.hdr eh).ehMagic
  max : (s'.hdr eh).ehMax = (s.hdr eh).ehMax
  depth : (s'.hdr eh).ehDepth = (s.hdr eh).ehDepth
  front : ∀ i, i < p → (s'.hdr eh).slot i = (s.hdr eh).slot i
  other : ∀ a, a ≠ eh → s'.hdr a = s.hdr a

theorem LeafCut.trans {eh : Option Nat} {p p' : Nat} {s s' s'' : State} (one : LeafCut eh p s s') (two : LeafCut eh p' s' s'')
    (order : p ≤ p') : LeafCut eh p s s'' := by
  refine ⟨one.steady.trans two.steady,two.magic.trans one.magic,two.max.trans one.max,two.depth.trans one.depth,fun i less => ?_,
    fun a differ => (two.other a differ).trans (one.other a differ)⟩
  exact (two.front i (Nat.lt_of_lt_of_le less order)).trans (one.front i less)

theorem Charged.leafCut {s s' : State} (charged : Charged s s') (eh : Option Nat) (p : Nat) : LeafCut eh p s s' :=
  ⟨charged.steady,by rw [charged.hdr],by rw [charged.hdr],by rw [charged.hdr],fun i _ => by rw [charged.hdr],fun a _ => charged.hdr a⟩

/-- A new node with the old header fields and the old slots in front of `p`. -/
theorem setHdr_leafCut {s : State} {eh : Option Nat} {p : Nat} {n : Node} (magic : n.ehMagic = (s.hdr eh).ehMagic)
    (max : n.ehMax = (s.hdr eh).ehMax) (depth : n.ehDepth = (s.hdr eh).ehDepth)
    (front : ∀ i, i < p → n.slot i = (s.hdr eh).slot i) : LeafCut eh p s (s.setHdr eh n) := by
  refine ⟨setHdr_steady s eh n,?_,?_,?_,?_,fun a differ => setHdr_other s n differ⟩
  · rw [setHdr_hdr]
    exact magic
  · rw [setHdr_hdr]
    exact max
  · rw [setHdr_hdr]
    exact depth
  · rw [setHdr_hdr]
    exact front

/-- Every round takes an entry away. -/
theorem removeLeafLoop_cut (eh : Option Nat) (from_ last rest : Nat) (s : State) (ex startEx : Nat) (ex2 : Option Nat) (newEntries : Int)
    (before : ∀ j, ex ≤ j → j < ex + rest → ((s.hdr eh).slot j).eeBlock ≤ last) :
    Ensures (removeLeafLoop eh from_ last rest s ex startEx ex2 newEntries) fun (s',ex',startEx',_,newEntries') =>
      LeafCut eh ex s s' ∧ (s'.hdr eh).ehEntries = (s.hdr eh).ehEntries ∧ ex' = ex + rest ∧ startEx ≤ startEx' ∧
        newEntries' = newEntries - rest := by
  induction rest generalizing s ex startEx ex2 newEntries with
  | zero => exact ensures_some ⟨(charged_refl s).leafCut eh ex,rfl,rfl,Nat.le_refl _,by omega⟩
  | succ rest ih =>
    rw [removeLeafLoop_round (before ex (Nat.le_refl _) (by omega))]
    refine (ext4ExtFreeBlocks_charged s _ _).bind fun s₁ charged => ?_
    generalize cutSlot ((s.hdr eh).slot ex) from_ last = x
    have cut : LeafCut eh ex s₁ (s₁.setHdr eh ((s₁.hdr eh).setSlot ex x)) :=
      setHdr_leafCut rfl rfl rfl fun i less => setSlot_other _ x (Nat.ne_of_lt less)
    have next (j : Nat) (least : ex + 1 ≤ j) (most : j < ex + 1 + rest) :
        (((s₁.setHdr eh ((s₁.hdr eh).setSlot ex x)).hdr eh).slot j).eeBlock ≤ last := by
      rw [setHdr_hdr,charged.hdr]
      rw [setSlot_other _ x (by omega)]
      exact before j (by omega) (by omega)
    refine (ih _ _ _ _ _ next).imp fun (s',ex',startEx',ex2',newEntries') ⟨cut',count,position,start,entries⟩ => ?_
    have first : startEx ≤ if (cutExtent ((s.hdr eh).slot ex) from_ last).movesStart = true then startEx + 1 else startEx := by
      split <;> omega
    dsimp only
    refine ⟨((charged.leafCut eh ex).trans cut (Nat.le_refl _)).trans cut' (Nat.le_succ _),?_,by omega,Nat.le_trans first start,by omega⟩
    rw [count,setHdr_hdr,← charged.hdr]
    rfl

/-! What is given back. -/

/-- One range after another is given back. -/
def freeAll (inode : Inode) : Volume → List (Nat × Int) → Option Volume
  | v, [] => some v
  | v, (block,count)::ranges => (Alloc.ext4ExtFreeBlocks v inode block count).bind fun r => freeAll inode r.1 ranges

theorem freeAll_append (inode : Inode) (v : Volume) (one two : List (Nat × Int)) :
    freeAll inode v (one ++ two) = (freeAll inode v one).bind fun v => freeAll inode v two := by
  induction one generalizing v with
  | nil => rfl
  | cons r one ih =>
    rw [List.cons_append,freeAll,freeAll,Option.bind_assoc]
    exact congrArg _ (funext fun r => ih r.1)

theorem countBlocks_volume (v : Volume) (inode inode' : Inode) (g : Nat) (bg : GroupDesc) (len : Int) :
    (Alloc.countBlocks v inode g bg len).1 = (Alloc.countBlocks v inode' g bg len).1 := rfl

/-- The inode is only charged: which bits are cleared does not depend on it. -/
theorem ext4ExtFreeBlocks_volume (v : Volume) (inode inode' : Inode) (block : Nat) (count : Int) :
    (Alloc.ext4ExtFreeBlocks v inode block count).map Prod.fst = (Alloc.ext4ExtFreeBlocks v inode' block count).map Prod.fst := by
  simp only [Alloc.ext4ExtFreeBlocks,Option.bind_eq_bind,Option.map_bind]
  refine congrArg _ (funext fun bg => ?_)
  rw [Function.comp_apply,Function.comp_apply]
  rw [apply_ite (Option.map Prod.fst),apply_ite (Option.map Prod.fst),apply_ite (Option.map Prod.fst),apply_ite (Option.map Prod.fst)]
  refine congrArg _ (congrArg _ ?_)
  exact congrArg some (countBlocks_volume _ _ _ _ _ _)

theorem freeAll_inode (inode inode' : Inode) (v : Volume) (ranges : List (Nat × Int)) :
    freeAll inode v ranges = freeAll inode' v ranges := by
  induction ranges generalizing v with
  | nil => rfl
  | cons r ranges ih =>
    have same := ext4ExtFreeBlocks_volume v inode inode' r.1 r.2
    rw [freeAll,freeAll]
    generalize Alloc.ext4ExtFreeBlocks v inode r.1 r.2 = one at same
    generalize Alloc.ext4ExtFreeBlocks v inode' r.1 r.2 = other at same
    have parts (x : Option (Volume × Inode)) (inode : Inode) : (x.bind fun r => freeAll inode r.1 ranges) =
        (x.map Prod.fst).bind fun v => freeAll inode v ranges := by cases x <;> rfl
    rw [parts,parts,same]
    exact congrArg _ (funext ih)

/-- The ranges of the entries from `ex` on. -/
def leafRanges (n : Node) (from_ last : Nat) : Nat → Nat → List (Nat × Int)
  | 0, _ => []
  | rest+1, ex => removedRange (n.slot ex) from_ last::leafRanges n from_ last rest (ex + 1)

theorem leafRanges_congr {n n' : Node} {from_ last rest ex : Nat} (same : ∀ j, ex ≤ j → n'.slot j = n.slot j) :
    leafRanges n' from_ last rest ex = leafRanges n from_ last rest ex := by
  induction rest generalizing ex with
  | zero => rfl
  | succ rest ih =>
    rw [leafRanges,leafRanges,same ex (Nat.le_refl _),ih fun j least => same j (by omega)]

theorem ext4ExtFreeBlocks_freeAll (s : State) (block : Nat) (count : Int) (ranges : List (Nat × Int)) :
    freeAll s.inode s.volume ((block,count)::ranges) =
      (ext4ExtFreeBlocks s block count).bind fun s' => freeAll s'.inode s'.volume ranges := by
  unfold ext4ExtFreeBlocks
  rw [freeAll,Option.map_eq_bind,Option.bind_assoc]
  exact congrArg _ (funext fun r => freeAll_inode s.inode r.2 r.1 ranges)

theorem removeLeafLoop_frees (eh : Option Nat) (from_ last rest : Nat) (s : State) (ex startEx : Nat) (ex2 : Option Nat) (newEntries : Int)
    (before : ∀ j, ex ≤ j → j < ex + rest → ((s.hdr eh).slot j).eeBlock ≤ last) :
    (removeLeafLoop eh from_ last rest s ex startEx ex2 newEntries).map (fun r => r.1.volume) =
      freeAll s.inode s.volume (leafRanges (s.hdr eh) from_ last rest ex) := by
  induction rest generalizing s ex startEx ex2 newEntries with
  | zero => rfl
  | succ rest ih =>
    rw [removeLeafLoop_round (before ex (Nat.le_refl _) (by omega)),leafRanges,ext4ExtFreeBlocks_freeAll]
    generalize cutSlot ((s.hdr eh).slot ex) from_ last = x
    have charged := ext4ExtFreeBlocks_charged s (removedRange ((s.hdr eh).slot ex) from_ last).1 (removedRange ((s.hdr eh).slot ex) from_ last).2
    generalize ext4ExtFreeBlocks s (removedRange ((s.hdr eh).slot ex) from_ last).1 (removedRange ((s.hdr eh).slot ex) from_ last).2 = freed at charged ⊢
    cases freed with
    | none => rfl
    | some s₁ =>
      have hdr := (charged s₁ rfl).hdr eh
      have slots (j : Nat) (behind : ex + 1 ≤ j) : ((s₁.setHdr eh ((s₁.hdr eh).setSlot ex x)).hdr eh).slot j = (s.hdr eh).slot j := by
        rw [setHdr_hdr,setSlot_other _ x (by omega),hdr]
      have next (j : Nat) (least : ex + 1 ≤ j) (most : j < ex + 1 + rest) :
          (((s₁.setHdr eh ((s₁.hdr eh).setSlot ex x)).hdr eh).slot j).eeBlock ≤ last := by
        rw [slots j least]
        exact before j (by omega) (by omega)
      have volume : (s₁.setHdr eh ((s₁.hdr eh).setSlot ex x)).volume = s₁.volume := by cases eh <;> rfl
      rw [Option.bind_some,Option.bind_some,ih _ _ _ _ _ next,leafRanges_congr slots,volume]
      exact freeAll_inode _ _ _ _

/-- The leaf keeps the entries in front of the path's; when there are none its index entry goes too. -/
theorem ext4ExtRemoveLeaf_cut {s : State} {path : Path} {from_ last p depth : Nat} (level : extDepth s = depth)
    (position : (path.elem depth).pExt = some p) (small : p < 2^16) (inside : p ≤ (s.hdr (path.elem depth).pHdr).ehEntries)
    (before : ∀ j, p ≤ j → j < (s.hdr (path.elem depth).pHdr).ehEntries → ((s.hdr (path.elem depth).pHdr).slot j).eeBlock ≤ last) :
    ∃ x : Option State, ext4ExtRemoveLeaf s path from_ last =
        x.bind (fun s₁ => if p = 0 ∧ (path.elem depth).pBh ≠ none then ext4ExtRemoveIdx s₁ path (depth - 1) else some s₁) ∧
      x.map State.volume = freeAll s.inode s.volume
        (leafRanges (s.hdr (path.elem depth).pHdr) from_ last ((s.hdr (path.elem depth).pHdr).ehEntries - p) p) ∧
      Ensures x fun s₁ => LeafCut (path.elem depth).pHdr p s s₁ ∧ (s₁.hdr (path.elem depth).pHdr).ehEntries = p := by
  unfold ext4ExtRemoveLeaf
  simp only [level,position,Option.bind_eq_bind,Option.bind_some]
  have cuts := removeLeafLoop_cut (path.elem depth).pHdr from_ last ((s.hdr (path.elem depth).pHdr).ehEntries - p) s p p none
    (s.hdr (path.elem depth).pHdr).ehEntries fun j least most => before j least (by omega)
  have frees := removeLeafLoop_frees (path.elem depth).pHdr from_ last ((s.hdr (path.elem depth).pHdr).ehEntries - p) s p p none
    (s.hdr (path.elem depth).pHdr).ehEntries fun j least most => before j least (by omega)
  generalize removeLeafLoop (path.elem depth).pHdr from_ last ((s.hdr (path.elem depth).pHdr).ehEntries - p) s p p none
    (s.hdr (path.elem depth).pHdr).ehEntries = looped at cuts frees ⊢
  rcases looped with _ | ⟨s₁,ex,startEx,ex2,newEntries⟩
  · exact ⟨none,rfl,frees,ensures_none⟩
  obtain ⟨cut,count,_,start,entries⟩ := cuts _ rfl
  have left : newEntries = p := by omega
  simp only [Option.map_some] at frees
  generalize (path.elem depth).pHdr = eh at *
  simp only [Option.bind_some]
  generalize moved : (if ex2.getD ex < (s.hdr eh).ehEntries then (s₁.hdr eh).moveBytes startEx (ex2.getD ex)
    ((s.hdr eh).ehEntries - ex2.getD ex) else s₁.hdr eh) = n
  have kept : n.ehMagic = (s₁.hdr eh).ehMagic ∧ n.ehMax = (s₁.hdr eh).ehMax ∧ n.ehDepth = (s₁.hdr eh).ehDepth ∧
      ∀ i, i < p → n.slot i = (s₁.hdr eh).slot i := by
    rw [← moved]
    split
    · exact ⟨rfl,rfl,rfl,fun i less => if_pos (Or.inl (Nat.lt_of_lt_of_le less start))⟩
    · exact ⟨rfl,rfl,rfl,fun _ _ => rfl⟩
  have stored : u16 newEntries = p := by rw [left,u16_small p small]
  have neither : ¬(p = 0 ∧ p ≠ 0) := fun both => both.2 both.1
  simp only [stored,if_neg neither,true_and]
  have cut' : LeafCut eh p s₁ (s₁.setHdr eh {n with ehEntries := p}) := setHdr_leafCut kept.1 kept.2.1 kept.2.2.1 kept.2.2.2
  have dirty := (ext4ExtDirty_charged (s₁.setHdr eh {n with ehEntries := p}) (path.elem depth)).leafCut eh p
  have volume : (ext4ExtDirty (s₁.setHdr eh {n with ehEntries := p}) (path.elem depth)).volume = s₁.volume := by
    unfold ext4ExtDirty
    cases (path.elem depth).pBh <;> cases eh <;> rfl
  refine ⟨some _,rfl,?_,ensures_some ⟨(cut.trans cut' (Nat.le_refl _)).trans dirty (Nat.le_refl _),?_⟩⟩
  · rw [Option.map_some,volume]
    exact frees
  · rw [ext4ExtDirty_hdr,setHdr_hdr]

/-! Index entries. The keys of the path's own entries change while the walk goes on. -/

/-- The nodes agree in all but the keys of their entries. -/
structure Repointed (n n' : Node) : Prop where
  magic : n'.ehMagic = n.ehMagic
  entries : n'.ehEntries = n.ehEntries
  max : n'.ehMax = n.ehMax
  depth : n'.ehDepth = n.ehDepth
  pointers : ∀ i, ext4IdxPblock (n'.slot i) = ext4IdxPblock (n.slot i)

theorem Repointed.refl (n : Node) : Repointed n n := ⟨rfl,rfl,rfl,rfl,fun _ => rfl⟩

theorem repointed_of_eq {n n' : Node} (same : n' = n) : Repointed n n' := same ▸ Repointed.refl n

theorem Repointed.trans {n n' n'' : Node} (one : Repointed n n') (two : Repointed n' n'') : Repointed n n'' :=
  ⟨two.magic.trans one.magic,two.entries.trans one.entries,two.max.trans one.max,two.depth.trans one.depth,
    fun i => (two.pointers i).trans (one.pointers i)⟩

theorem Repointed.header {n n' : Node} (same : Repointed n n') {depth limit count : Nat} (header : Header n depth limit count) :
    Header n' depth limit count := by
  have fits := header.fits
  have max := header.max
  have most := header.limit
  rw [← same.max] at fits max most
  exact ⟨same.magic.trans header.magic,same.depth.trans header.depth,same.entries.trans header.entries,fits,max,most⟩

/-- Only keys have changed, on the path above level `i`, and in the root none in front of the path's entry. -/
structure Rekeyed (path : Path) (i : Nat) (s s' : State) : Prop where
  steady : Steady s s'
  repointed : ∀ a, Repointed (s.hdr a) (s'.hdr a)
  other : ∀ a, (∀ j, j < i → (path.elem j).pHdr ≠ a) → s'.hdr a = s.hdr a
  root : ∀ k, k < (path.elem 0).pIdx.getD 0 → (s'.hdr none).slot k = (s.hdr none).slot k

theorem Charged.rekeyed {s s' : State} (charged : Charged s s') (path : Path) (i : Nat) : Rekeyed path i s s' :=
  ⟨charged.steady,fun a => repointed_of_eq (charged.hdr a),fun a _ => charged.hdr a,fun k _ => by rw [charged.hdr]⟩

theorem Rekeyed.trans {path : Path} {i i' : Nat} {s s' s'' : State} (one : Rekeyed path i s s') (two : Rekeyed path i' s' s'')
    (order : i' ≤ i) : Rekeyed path i s s'' := by
  refine ⟨one.steady.trans two.steady,fun a => (one.repointed a).trans (two.repointed a),fun a outside => ?_,
    fun k less => (two.root k less).trans (one.root k less)⟩
  exact (two.other a fun j before => outside j (by omega)).trans (one.other a outside)

/-- Below the first level no element of the path is at the root. -/
def rootOnly (path : Path) (i : Nat) : Prop := ∀ j, 0 < j → j < i → (path.elem j).pHdr ≠ none

theorem rootOnly.less {path : Path} {i j : Nat} (only : rootOnly path i) (order : j ≤ i) : rootOnly path j :=
  fun k some_ before => only k some_ (Nat.lt_of_lt_of_le before order)

theorem setPathKey_rekeyed {path : Path} {i : Nat} (only : rootOnly path (i + 1)) (s : State) (border : Nat) :
    Rekeyed path (i + 1) s (setPathKey s (path.elem i) border) := by
  unfold setPathKey
  generalize position : (path.elem i).pIdx.getD 0 = p
  generalize at_ : (path.elem i).pHdr = eh
  have pointer : ext4IdxPblock (((s.hdr eh).slot p).setEiBlock border) = ext4IdxPblock ((s.hdr eh).slot p) := rfl
  dsimp only
  generalize ((s.hdr eh).slot p).setEiBlock border = x at pointer ⊢
  have changed : Rekeyed path (i + 1) s (s.setHdr eh ((s.hdr eh).setSlot p x)) := by
    refine ⟨setHdr_steady _ _ _,fun a => ?_,fun a outside => setHdr_other _ _ fun same => ?_,fun k less => ?_⟩
    · rcases eq_or_ne a eh with rfl | differ
      · rw [setHdr_hdr]
        refine ⟨rfl,rfl,rfl,rfl,fun j => ?_⟩
        rcases eq_or_ne j p with rfl | beside
        · exact (congrArg ext4IdxPblock (setSlot_self _ j x)).trans pointer
        · exact congrArg ext4IdxPblock (setSlot_other _ x beside)
      · exact repointed_of_eq (setHdr_other _ _ differ)
    · exact outside i (Nat.lt_succ_self i) (at_.trans same.symm)
    · rcases eq_or_ne none eh with rfl | differ
      · have first : i = 0 := by
          by_contra deep
          exact only i (Nat.pos_of_ne_zero deep) (Nat.lt_succ_self i) at_
        subst first
        rw [setHdr_hdr]
        exact setSlot_other _ x (by omega)
      · rw [setHdr_other _ _ differ]
  exact changed.trans ((ext4ExtDirty_charged _ _).rekeyed path (i + 1)) (Nat.le_refl _)

theorem removeIdxLoop_rekeyed {path : Path} {i : Nat} (only : rootOnly path i) (s : State) :
    Rekeyed path i s (removeIdxLoop path i s) := by
  induction i generalizing s with
  | zero => exact (charged_refl s).rekeyed path 0
  | succ i ih =>
    rw [removeIdxLoop]
    split
    · exact (charged_refl s).rekeyed path (i + 1)
    · exact (setPathKey_rekeyed only s _).trans (ih (only.less (Nat.le_succ i)) _) (Nat.le_succ i)

/-! An entry of an index node. -/

/-- What an `__le16` can be. -/
def le16Max : Nat := 2^16 - 1

/-- An index node and the blocks that its entries point to; the keys may be anything. -/
structure Listed (n : Node) (depth : Nat) (blocks : List Nat) : Prop where
  header : Header n depth le16Max blocks.length
  pointers : ∀ i b : Nat, blocks[i]? = some b → ext4IdxPblock (n.slot i) = b

theorem Listed.repointed {n n' : Node} {depth : Nat} {blocks : List Nat} (listed : Listed n depth blocks) (same : Repointed n n') :
    Listed n' depth blocks :=
  ⟨same.header listed.header,fun i b here => (same.pointers i).trans (listed.pointers i b here)⟩

theorem Listed.pointer {n : Node} {depth b : Nat} {l r : List Nat} (listed : Listed n depth (l ++ b::r)) :
    ext4IdxPblock (n.slot l.length) = b := by
  apply listed.pointers
  rw [List.getElem?_append_right (Nat.le_refl _),Nat.sub_self]
  rfl

theorem Listed.inside {n : Node} {depth b : Nat} {l r : List Nat} (listed : Listed n depth (l ++ b::r)) :
    l.length < n.ehEntries := by
  rw [listed.header.entries,List.length_append,List.length_cons]
  omega

def removedEntry (n : Node) (p : Nat) : Node := (n.moveSlots p (p + 1) (n.ehEntries - 1 - p)).addEntries (-1)

theorem removedEntry_front (n : Node) {p i : Nat} (less : i < p) : (removedEntry n p).slot i = n.slot i :=
  if_neg fun moved => absurd less (Nat.not_lt.mpr moved.1)

theorem removedEntry_back {n : Node} {p i : Nat} (least : p ≤ i) (inside : i + 1 < n.ehEntries) :
    (removedEntry n p).slot i = n.slot (i + 1) := by
  have moved : (removedEntry n p).slot i = n.slot (p + 1 + (i - p)) := if_pos ⟨least,by omega⟩
  rw [moved,show p + 1 + (i - p) = i + 1 by omega]

theorem Listed.removed {n : Node} {depth b : Nat} {l r : List Nat} (listed : Listed n depth (l ++ b::r)) :
    Listed (removedEntry n l.length) depth (l ++ r) := by
  have header := listed.header
  have count := header.entries
  have fits := header.fits
  have short := header.limit
  rw [List.length_append,List.length_cons] at count fits
  have less : (removedEntry n l.length).ehEntries = (l ++ r).length := by
    have counted : (removedEntry n l.length).ehEntries = u16 (n.ehEntries + -1) := rfl
    have one : (n.ehEntries + -1 : Int) = ((l.length + r.length : Nat) : Int) := by
      rw [count]
      push_cast
      omega
    rw [counted,one,List.length_append]
    apply u16_small
    unfold le16Max at short
    omega
  refine ⟨⟨header.magic,header.depth,less,?_,header.max,short⟩,fun i x here => ?_⟩
  · rw [List.length_append]
    exact Nat.le_trans (Nat.add_le_add_left (Nat.le_succ _) _) fits
  · rcases Nat.lt_or_ge i l.length with front | back
    · rw [removedEntry_front n front]
      apply listed.pointers
      rw [List.getElem?_append_left front] at here ⊢
      exact here
    · have inside := (List.getElem?_eq_some_iff.mp here).1
      rw [List.length_append] at inside
      rw [removedEntry_back back (by omega)]
      apply listed.pointers
      rw [List.getElem?_append_right back] at here
      rw [List.getElem?_append_right (by omega),show i + 1 - l.length = i - l.length + 1 by omega,List.getElem?_cons_succ]
      exact here

theorem ext4ExtRemoveIdx_eq {s : State} {path : Path} {i p : Nat} (position : (path.elem i).pIdx = some p)
    (inside : p < (s.hdr (path.elem i).pHdr).ehEntries) :
    ext4ExtRemoveIdx s path i = (ext4ExtFreeBlocks (ext4ExtDirty (s.setHdr (path.elem i).pHdr
      (removedEntry (s.hdr (path.elem i).pHdr) p)) (path.elem i)) (ext4IdxPblock ((s.hdr (path.elem i).pHdr).slot p)) 1).map
      (removeIdxLoop path i) := by
  unfold ext4ExtRemoveIdx
  simp only [position,Option.bind_eq_bind,Option.bind_some]
  rw [if_neg (Nat.not_lt.mpr inside),Option.map_eq_bind]
  rfl

/-- Work at level `i` of the path and above it: only its node's entries from the path's on have
changed, and keys above. -/
structure Shrunk (path : Path) (i : Nat) (s s' : State) : Prop where
  steady : Steady s s'
  depth : extDepth s' = extDepth s
  max : (s'.hdr none).ehMax = (s.hdr none).ehMax
  above : ∀ j, j < i → Repointed (s.hdr (path.elem j).pHdr) (s'.hdr (path.elem j).pHdr)
  other : ∀ a, (∀ j, j ≤ i → (path.elem j).pHdr ≠ a) → s'.hdr a = s.hdr a
  root : ∀ k, k < (path.elem 0).pIdx.getD 0 → (s'.hdr none).slot k = (s.hdr none).slot k

/-- The elements of the path up to level `i` have headers of their own. -/
def HeadersApart (path : Path) (i : Nat) : Prop := ∀ j k, j < k → k ≤ i → (path.elem j).pHdr ≠ (path.elem k).pHdr

theorem HeadersApart.rootOnly {path : Path} {i : Nat} (apart : HeadersApart path i) (top : (path.elem 0).pHdr = none) :
    rootOnly path (i + 1) := by
  intro j deep inside at_
  exact apart 0 j deep (Nat.le_of_lt_succ inside) (top.trans at_.symm)

theorem ext4ExtRemoveIdx_listed {s : State} {path : Path} {i depth b : Nat} {l r : List Nat} (apart : HeadersApart path i)
    (top : (path.elem 0).pHdr = none) (position : (path.elem i).pIdx = some l.length)
    (listed : Listed (s.hdr (path.elem i).pHdr) depth (l ++ b::r)) :
    Ensures (ext4ExtRemoveIdx s path i) fun s' => Shrunk path i s s' ∧ Listed (s'.hdr (path.elem i).pHdr) depth (l ++ r) := by
  have only := apart.rootOnly top
  rw [ext4ExtRemoveIdx_eq position listed.inside]
  refine Ensures.map (ext4ExtFreeBlocks_charged _ _ _) fun s₁ charged => ?_
  have keyed := removeIdxLoop_rekeyed (only.less (Nat.le_succ i)) s₁
  have dirty := ext4ExtDirty_charged (s.setHdr (path.elem i).pHdr (removedEntry (s.hdr (path.elem i).pHdr) l.length)) (path.elem i)
  have both := dirty.trans charged
  have stored := setHdr_steady s (path.elem i).pHdr (removedEntry (s.hdr (path.elem i).pHdr) l.length)
  have self : s₁.hdr (path.elem i).pHdr = removedEntry (s.hdr (path.elem i).pHdr) l.length := by rw [both.hdr,setHdr_hdr]
  have beside (a : Option Nat) (differ : a ≠ (path.elem i).pHdr) : s₁.hdr a = s.hdr a := by rw [both.hdr,setHdr_other _ _ differ]
  have root : extDepth s₁ = extDepth s ∧ (s₁.hdr none).ehMax = (s.hdr none).ehMax := by
    change (s₁.hdr none).ehDepth = (s.hdr none).ehDepth ∧ _
    rcases eq_or_ne none (path.elem i).pHdr with same | differ
    · rw [same,self]
      exact ⟨rfl,rfl⟩
    · rw [beside none differ]
      exact ⟨rfl,rfl⟩
  refine ⟨⟨(stored.trans both.steady).trans keyed.steady,(keyed.repointed none).depth.trans root.1,(keyed.repointed none).max.trans root.2,
    fun j less => ?_,fun a outside => ?_,fun k less => ?_⟩,?_⟩
  · have same := keyed.repointed (path.elem j).pHdr
    rw [beside _ (apart j i less (Nat.le_refl i))] at same
    exact same
  · rw [keyed.other a fun j less => outside j (Nat.le_of_lt less),beside a fun same => outside i (Nat.le_refl i) same.symm]
  · rw [keyed.root k less]
    rcases eq_or_ne none (path.elem i).pHdr with same | differ
    · have first : i = 0 := by
        by_contra deep
        exact only i (Nat.pos_of_ne_zero deep) (Nat.lt_succ_self i) same.symm
      subst first
      rw [same,self]
      rw [position] at less
      exact removedEntry_front _ less
    · rw [beside none differ]
  · rw [keyed.other _ fun j less => apart j i less (Nat.le_refl i),self]
    exact listed.removed

end Ext4Fuse.Extents
