import Ext4Fuse.Extents.CorrectIndexes
import Ext4Fuse.Extents.Reserved

/-! What `ext4_ext_insert_leaf` does to the leaf, to its new sibling and to the keys above it. -/
namespace Ext4Fuse.Extents
open Machine Ext4Fuse.Types Super Library.Partial

theorem storeExtent_eq (newext z : Slot) : storeExtent newext z = newext := by
  have bound : newext.word1.toNat < 2^32 := newext.word1.toNat_lt
  have low : newext.word2.toNat < 2^32 := newext.word2.toNat_lt
  have high : z.word1.toNat < 2^32 := z.word1.toNat_lt
  have length : ((z.setEeBlock newext.eeBlock).setEeLen newext.eeLen).eeLen = newext.eeLen := by
    rw [Slot.eeLen,Slot.setEeLen,Slot.setEeBlock,Slot.eeStartHi,Slot.eeLen,UInt32.toNat_ofNat_of_lt' (show _ < 2^32 by simp only; omega)]
    simp only
    omega
  have first : ((z.setEeBlock newext.eeBlock).setEeLen newext.eeLen).word0 = newext.word0 := by
    simp [Slot.setEeLen,Slot.setEeBlock,Slot.eeBlock]
  rw [storeExtent,ext4ExtStorePblock,length,first,ext4ExtPblock,Slot.eeStartLo,Slot.eeStartHi]
  cases newext with
  | mk word0 word1 word2 =>
    have split : Slot.eeLen ⟨word0,word1,word2⟩ = word1.toNat % 2^16 := rfl
    simp only at bound low ⊢
    refine congrArg₂ (Slot.mk word0) ?_ ?_
    · refine UInt32.toNat_inj.mp ?_
      rw [UInt32.toNat_ofNat',split]
      omega
    · refine UInt32.toNat_inj.mp ?_
      rw [UInt32.toNat_ofNat']
      omega

/-! The new node. -/

/-- The tree's part of a state, and the blocks that are in use. -/
structure Ready (s : State) (depth room : Nat) (blocks : List Nat) : Prop where
  depth : extDepth s = depth
  space : ext4ExtSpaceBlock s = room
  reserved : Reserved s.volume blocks

theorem Charged.space {s s' : State} (charged : Charged s s') : ext4ExtSpaceBlock s' = ext4ExtSpaceBlock s := by
  rw [ext4ExtSpaceBlock,charged.steady.block,ext4ExtSpaceBlock]

theorem Charged.depth {s s' : State} (charged : Charged s s') : extDepth s' = extDepth s := congrArg Node.ehDepth (charged.hdr none)

/-- The split of a node, unless no block is left. -/
theorem ext4ExtSplitNode_parted {s : State} {path : Path} {at_ depth room p : Nat} {newext : Slot} {blocks : List Nat}
    (ready : Ready s depth room blocks) (position : (path.elem at_).position (at_ = depth) = some p)
    (owned : ∀ c, (path.elem at_).pHdr = some c → c ∈ blocks)
    (full : (s.hdr (path.elem at_).pHdr).ehEntries = (s.hdr (path.elem at_).pHdr).ehMax)
    (inside : p < (s.hdr (path.elem at_).pHdr).ehMax) (small : (s.hdr (path.elem at_).pHdr).ehMax < 2^16) :
    Ensures (ext4ExtSplitNode s path at_ newext) fun (s₁,result) => match result with
      | .error _ => True
      | .ok sibling => ∃ s₀, (∀ a, s₀.hdr a = s.hdr a) ∧ Parted s₀ s₁ (path.elem at_).pHdr sibling p (depth - at_) ∧
          (path.elem at_).pHdr ≠ some sibling ∧ extDepth s₀ = depth ∧ ext4ExtSpaceBlock s₀ = room ∧
          sibling ∉ 0::blocks ∧ sibling < 2^48 ∧ Reserved s₁.volume (sibling::blocks) ∧ ext4ExtSpaceBlock s₁ = room := by
  unfold ext4ExtSplitNode ext4ExtNewMetaBlock
  rw [ready.depth]
  refine (newMetaBlocks_given ready.reserved _).bind fun (allocated,s₀) ⟨charged,given⟩ => ?_
  simp only
  split
  · exact ensures_some trivial
  · rename_i fine
    obtain ⟨fresh,bound,reserved⟩ := given.success fine
    have differ : (path.elem at_).pHdr ≠ some allocated.block := fun equal =>
      fresh (List.mem_cons_of_mem _ (owned _ equal))
    have hdr (a : Option Nat) : (fsBwrite s₀ allocated.block).hdr a = s.hdr a := by
      rw [← charged.hdr a]
      cases a <;> rfl
    have height : (if at_ = depth then 0 else depth - at_) = depth - at_ := by
      split
      · rename_i leaf
        rw [leaf,Nat.sub_self]
      · rfl
    obtain ⟨s₁,split,parted⟩ := @splitInto_parted (fsBwrite s₀ allocated.block) (path.elem at_) (depth - at_) allocated.block p differ
      (by rw [hdr]; exact full) (by rw [hdr]; exact inside) (by rw [hdr]; exact small)
    have space : ext4ExtSpaceBlock s₀ = room := charged.space.trans ready.space
    rw [position,Option.bind_eq_bind,Option.bind_some,height,split,Option.bind_eq_bind,Option.bind_some]
    refine ensures_some ⟨fsBwrite s₀ allocated.block,hdr,parted,differ,charged.depth.trans ready.depth,space,fresh,bound,?_,?_⟩
    · rw [parted.volume]
      exact reserved
    · rw [ext4ExtSpaceBlock,parted.volume]
      exact space

/-! The leaf. -/

/-- `ys` has the extent `x` at its place among those of `xs`. -/
structure Placed (x : Slot) (xs l r ys : List Slot) : Prop where
  before : xs = l ++ r
  after : ys = l ++ x::r
  less : ∀ y ∈ l, y.eeBlock < x.eeBlock
  more : ∀ y ∈ r, x.eeBlock < y.eeBlock

/-- What is kept of a split: the new node, the place of the new entry in its half, and whether the path is to move over. -/
structure Recorded (newext : Slot) (ix bh : Nat) (switchTo : Bool) (spt : SplitTrans) : Prop where
  bh : spt.bh = some bh
  itemOffset : spt.itemOffset = ix
  goes : spt.index ≤ newext.eeBlock → spt.switchTo = true
  stay : newext.eeBlock < spt.index → spt.switchTo = switchTo

theorem recorded_over {newext : Slot} {index ix bh : Nat} {spt : SplitTrans} (reached : index ≤ newext.eeBlock) :
    Recorded newext ix bh spt.switchTo {spt with index := index,bh := some bh,itemOffset := ix,switchTo := true} :=
  ⟨rfl,rfl,fun _ => rfl,fun short => absurd reached (Nat.not_le.mpr short)⟩

theorem recorded_stay {newext : Slot} {index ix bh : Nat} {spt : SplitTrans} (short : ¬index ≤ newext.eeBlock) :
    Recorded newext ix bh spt.switchTo {spt with index := index,bh := some bh,itemOffset := ix} :=
  ⟨rfl,rfl,fun reached => absurd reached short,fun _ => rfl⟩

theorem leafDone_free (s : State) (path : Path) (at_ : Nat) (newext : Slot) (spt : SplitTrans) (eh : Option Nat) (ex : Nat) :
    ∃ path', leafDone s path at_ newext spt eh ex none .ok = (s,path',{spt with index := 0,ptr := 0},.ok) ∧
      ((path'.elem at_).pHdr = (path.elem at_).pHdr ∧ (path'.elem at_).pIn = eh ∧ (path'.elem at_).pExt = some ex) ∧
      ∀ j, j ≠ at_ → path'.elem j = path.elem j := by
  refine ⟨_,rfl,?_,fun _ other => Path.set_other _ _ other⟩
  rw [Path.set_self]
  exact ⟨rfl,rfl,rfl⟩

theorem leafDone_split (s : State) (path : Path) (at_ : Nat) (newext : Slot) (spt : SplitTrans) (eh : Option Nat) (ex bh : Nat) :
    ∃ path' spt', leafDone s path at_ newext spt eh ex (some bh) .ok = (s,path',spt',.ok) ∧ spt'.ptr = spt.ptr ∧
      spt'.index = ext4ExtBlockIndex s bh ∧ Recorded newext ex bh spt.switchTo spt' ∧ (path'.elem at_).pHdr = (path.elem at_).pHdr ∧
      ∀ j, j ≠ at_ → path'.elem j = path.elem j := by
  simp only [leafDone]
  split
  · rename_i reached
    exact ⟨_,_,rfl,rfl,rfl,recorded_over reached,rfl,fun _ _ => rfl⟩
  · rename_i short
    refine ⟨_,_,rfl,rfl,rfl,recorded_stay short,?_,fun j other => Path.set_other _ _ other⟩
    rw [Path.set_self]

/-- An entry in the path's own leaf: the keys above are corrected if it is, or is behind, the first. -/
theorem leafPlaced_based {s s₁ : State} {path : Path} {curp : PathElem} {depth block ex : Nat} {xs : List Slot}
    (level : extDepth s₁ = depth) (position : (path.elem depth).pExt = some ex)
    (front : ex = 0 → ((s₁.hdr (path.elem depth).pHdr).slot 0).eeBlock ≤ block ∧
      (∀ x ∈ xs, ((s₁.hdr (path.elem depth).pHdr).slot 0).eeBlock ≤ x.eeBlock) ∧
      (((s₁.hdr (path.elem depth).pHdr).slot 0).eeBlock = block ∨ ∃ x ∈ xs, x.eeBlock = ((s₁.hdr (path.elem depth).pHdr).slot 0).eeBlock))
    (behind : ex ≠ 0 → ∃ x ∈ xs, x.eeBlock ≤ block) :
    ∃ s₂ b, leafPlaced s₁ path curp = (s₂,.ok) ∧ Based path block depth xs s b ∧ s₂.volume = s₁.volume ∧
      (∀ a, (∀ j, j < depth → (path.elem j).pHdr ≠ a) → s₂.hdr a = s₁.hdr a) ∧ ∀ a, s₁.hdr a = s.hdr a → s₂.hdr a = b.hdr a := by
  have kept (based : Based path block depth xs s s) (code : ext4ExtCorrectIndexes s₁ path = (s₁,.ok)) :
      ∃ s₂ b, leafPlaced s₁ path curp = (s₂,.ok) ∧ Based path block depth xs s b ∧ s₂.volume = s₁.volume ∧
        (∀ a, (∀ j, j < depth → (path.elem j).pHdr ≠ a) → s₂.hdr a = s₁.hdr a) ∧ ∀ a, s₁.hdr a = s.hdr a → s₂.hdr a = b.hdr a := by
    refine ⟨ext4ExtDirty s₁ curp,s,by rw [leafPlaced,code],based,ext4ExtDirty_volume _ _,fun a _ => ext4ExtDirty_hdr _ _ _,fun a same => ?_⟩
    rw [ext4ExtDirty_hdr,same]
  rcases Nat.eq_zero_or_pos depth with root | deep
  · refine kept (.kept (Or.inl root)) ?_
    simp only [ext4ExtCorrectIndexes,level,position,if_pos root]
  · rcases Nat.eq_zero_or_pos ex with rfl | later
    · obtain ⟨least,first,met⟩ := front rfl
      generalize border : ((s₁.hdr (path.elem depth).pHdr).slot 0).eeBlock = key at least first met
      have small : key < 2^32 := by
        rw [← border]
        exact ((s₁.hdr (path.elem depth).pHdr).slot 0).word0.toNat_lt
      have code : ext4ExtCorrectIndexes s₁ path =
          (correctIndexesLoop path key (depth - 1) (setPathKey s₁ (path.elem (depth - 1)) key),.ok) := by
        simp only [ext4ExtCorrectIndexes,level,position,if_neg (Nat.ne_of_gt deep),border,ne_eq,not_true_eq_false,if_false]
      refine ⟨ext4ExtDirty (correctIndexesLoop path key (depth - 1) (setPathKey s₁ (path.elem (depth - 1)) key)) curp,_,
        by rw [leafPlaced,code],.corrected deep small least first met,?_,fun a differ => ?_,fun a same => ?_⟩
      · rw [ext4ExtDirty_volume,correctIndexesLoop_volume,setPathKey_volume]
      · rw [ext4ExtDirty_hdr,correctIndexesLoop_other fun j before => differ j (by omega),setPathKey_hdr,
          if_neg (differ _ (by omega)).symm]
      · rw [ext4ExtDirty_hdr]
        refine correctIndexesLoop_congr _ _ _ ?_
        rw [setPathKey_hdr,setPathKey_hdr,same]
    · refine kept (.kept (Or.inr (behind (Nat.ne_of_gt later)))) ?_
      simp only [ext4ExtCorrectIndexes,level,position,if_neg (Nat.ne_of_gt deep)]
      exact if_pos (Nat.ne_of_gt later)

theorem chosen_placed {newext x : Slot} {xs l r : List Slot} (sorted : xs.Pairwise fun x y => x.eeBlock ≤ y.eeBlock)
    (chosen : Chosen Slot.eeBlock newext.eeBlock xs l x r) (differ : newext.eeBlock ≠ x.eeBlock) :
    ∃ l' r', Placed newext xs l' r' (withSlot xs (if x.eeBlock < newext.eeBlock then l.length + 1 else l.length) newext) := by
  have parts := chosen.parts
  rcases Nat.lt_or_ge x.eeBlock newext.eeBlock with behind | front
  · rw [if_pos behind]
    have cut : xs = (l ++ [x]) ++ r := by rw [parts,List.append_assoc,List.singleton_append]
    have length : (l ++ [x]).length = l.length + 1 := by rw [List.length_append,List.length_singleton]
    refine ⟨l ++ [x],r,cut,?_,fun y member => ?_,chosen.above⟩
    · rw [withSlot,cut,← length,List.take_left,List.drop_left]
    · rcases List.mem_append.mp member with earlier | last
      · rw [parts] at sorted
        exact Nat.lt_of_le_of_lt ((List.pairwise_append.mp sorted).2.2 y earlier x List.mem_cons_self) behind
      · rw [List.mem_singleton.mp last]
        exact behind
  · rw [if_neg (Nat.not_lt.mpr front)]
    have first : l = [] := by
      by_contra some_
      exact differ (Nat.le_antisymm front (chosen.below some_))
    subst first
    refine ⟨[],x::r,parts,by rw [withSlot,parts]; rfl,(by rintro _ ⟨⟩),fun y member => ?_⟩
    rcases List.mem_cons.mp member with rfl | later
    · exact Nat.lt_of_le_of_ne front differ
    · exact chosen.above y later

/-- What the first of the extents is afterwards. -/
theorem Placed.head {newext e : Slot} {xs l r rest : List Slot} (placed : Placed newext xs l r (e::rest))
    (sorted : xs.Pairwise fun x y => x.eeBlock ≤ y.eeBlock) : e.eeBlock ≤ newext.eeBlock ∧ (∀ x ∈ xs, e.eeBlock ≤ x.eeBlock) ∧
      (e.eeBlock = newext.eeBlock ∨ ∃ x ∈ xs, x.eeBlock = e.eeBlock) := by
  have parts := placed.before
  have after := placed.after
  cases l with
  | nil =>
    obtain ⟨rfl,_⟩ := List.cons.inj after
    refine ⟨Nat.le_refl _,fun x member => Nat.le_of_lt (placed.more x ?_),Or.inl rfl⟩
    rw [parts] at member
    exact member
  | cons y l =>
    obtain ⟨rfl,_⟩ := List.cons.inj after
    have self : e ∈ xs := by
      rw [parts]
      exact List.mem_cons_self
    refine ⟨Nat.le_of_lt (placed.less e List.mem_cons_self),fun x member => ?_,Or.inr ⟨e,self,rfl⟩⟩
    rw [parts] at sorted member
    rcases List.mem_cons.mp member with rfl | later
    · exact Nat.le_refl _
    · exact List.rel_of_pairwise_cons sorted later

theorem slot_zero {n : Node} {e : Slot} {rest : List Slot} (array : slots n = e::rest) : n.slot 0 = e := by
  refine slots_getElem? ?_
  rw [array]
  rfl

section Chosen
variable {n : Node} {newext x : Slot} {l r : List Slot} (chosen : Chosen Slot.eeBlock newext.eeBlock (slots n) l x r)
include chosen

/-- The extent that the path is at, when it is not the first, is not behind the new one. -/
theorem chosen_behind (front : l.length ≠ 0) : ∃ y ∈ slots n, y.eeBlock ≤ newext.eeBlock := by
  refine ⟨x,?_,chosen.below fun empty => front (by rw [empty,List.length_nil])⟩
  rw [chosen.parts]
  exact List.mem_append_right _ List.mem_cons_self

theorem chosen_slot : n.slot l.length = x := by
  refine slots_getElem? ?_
  rw [chosen.parts,List.getElem?_append_right (Nat.le_refl _),Nat.sub_self]
  rfl

theorem chosen_count : l.length < n.ehEntries := by
  rw [← slots_length,chosen.parts,List.length_append,List.length_cons]
  omega

end Chosen

/-- A leaf that took the extent in. -/
structure LeafFree (s : State) (path : Path) (newext : Slot) (depth : Nat) (s' : State) (path' : Path) : Prop where
  based : ∃ b, Based path newext.eeBlock depth (slots (s.hdr (path.elem depth).pHdr)) s b ∧
    ∀ a, a ≠ (path.elem depth).pHdr → s'.hdr a = b.hdr a
  placed : ∃ l r, Placed newext (slots (s.hdr (path.elem depth).pHdr)) l r (slots (s'.hdr (path.elem depth).pHdr))
  alike : SameHeader (s.hdr (path.elem depth).pHdr) (s'.hdr (path.elem depth).pHdr)
  fits : (s'.hdr (path.elem depth).pHdr).ehEntries ≤ (s'.hdr (path.elem depth).pHdr).ehMax
  volume : s'.volume = s.volume
  pHdr : (path'.elem depth).pHdr = (path.elem depth).pHdr
  pIn : (path'.elem depth).pIn = (path.elem depth).pHdr
  pExt : ∃ ex, (path'.elem depth).pExt = some ex ∧ (slots (s'.hdr (path.elem depth).pHdr))[ex]? = some newext
  kept : ∀ j, j ≠ depth → path'.elem j = path.elem j

/-- Whether the new entry for the node of height `e` on the path goes to the new node when that is split. -/
def crossesAt (s : State) (path : Path) (newext : Slot) (depth e : Nat) : Bool :=
  let elem := path.elem (depth - e)
  let hdr := s.hdr elem.pHdr
  if e = 0 then elem.pExt.any fun p => !ownHalf hdr.ehMax p ((hdr.slot p).eeBlock < newext.eeBlock)
  else elem.pIdx.any fun p => !ownHalf hdr.ehMax p true

/-- A leaf that was split for it, with the new node in `sibling`. -/
structure LeafSplit (s : State) (path : Path) (newext : Slot) (depth room : Nat) (blocks : List Nat) (s' : State) (path' : Path)
    (sibling : Nat) : Prop where
  based : ∃ b, Based path newext.eeBlock depth (slots (s.hdr (path.elem depth).pHdr)) s b ∧
    ∀ a, a ≠ (path.elem depth).pHdr → a ≠ some sibling → s'.hdr a = b.hdr a
  placed : ∃ l r, Placed newext (slots (s.hdr (path.elem depth).pHdr)) l r
    (slots (s'.hdr (path.elem depth).pHdr) ++ slots (s'.node sibling))
  left : slots (s'.hdr (path.elem depth).pHdr) ≠ []
  right : slots (s'.node sibling) ≠ []
  alike : SameHeader (s.hdr (path.elem depth).pHdr) (s'.hdr (path.elem depth).pHdr)
  fits : (s'.hdr (path.elem depth).pHdr).ehEntries ≤ (s'.hdr (path.elem depth).pHdr).ehMax
  header : Header (s'.node sibling) 0 room (s'.node sibling).ehEntries
  fresh : sibling ∉ 0::blocks
  small : sibling < 2^48
  reserved : Reserved s'.volume (sibling::blocks)
  space : ext4ExtSpaceBlock s' = room
  goes : crossesAt s path newext depth 0 = true → ∃ rest, slots (s'.node sibling) = newext::rest
  stay : crossesAt s path newext depth 0 = false → ∀ y ∈ slots (s'.node sibling), newext.eeBlock < y.eeBlock
  pHdr : (path'.elem depth).pHdr = (path.elem depth).pHdr
  kept : ∀ j, j ≠ depth → path'.elem j = path.elem j

/-- What an insertion into the leaf comes to. -/
inductive LeafResult (s : State) (path : Path) (newext : Slot) (switchTo : Bool) (depth room : Nat) (blocks : List Nat) :
    State × Path × SplitTrans × Ret → Prop
  | failed {s' : State} {path' : Path} {spt : SplitTrans} (err : Errno) :
      LeafResult s path newext switchTo depth room blocks (s',path',spt,.fail err)
  | grow {spt : SplitTrans} : depth = 0 → spt.switchTo = switchTo → (s.hdr (path.elem depth).pHdr).ehEntries = (s.hdr (path.elem depth).pHdr).ehMax →
      LeafResult s path newext switchTo depth room blocks (s,path,spt,.needGrow)
  | free {s' : State} {path' : Path} {spt : SplitTrans} : spt.ptr = 0 →
      (s.hdr (path.elem depth).pHdr).ehEntries ≠ (s.hdr (path.elem depth).pHdr).ehMax → LeafFree s path newext depth s' path' →
      LeafResult s path newext switchTo depth room blocks (s',path',spt,.ok)
  | split {s' : State} {path' : Path} {spt : SplitTrans} : 0 < depth →
      (s.hdr (path.elem depth).pHdr).ehEntries = (s.hdr (path.elem depth).pHdr).ehMax → spt.index = ext4ExtBlockIndex s' spt.ptr →
      (∃ ix, Recorded newext ix spt.ptr switchTo spt ∧ (crossesAt s path newext depth 0 = true → ix = 0)) →
      LeafSplit s path newext depth room blocks s' path' spt.ptr → LeafResult s path newext switchTo depth room blocks (s',path',spt,.ok)

section Leaf
variable {s : State} {path : Path} {newext : Slot} {depth room limit : Nat} {blocks : List Nat}
  (ready : Ready s depth room blocks) (fits : RoomFits room) (most : limit ≤ room)
  (header : Header (s.hdr (path.elem depth).pHdr) 0 limit (s.hdr (path.elem depth).pHdr).ehEntries)
include ready fits most header

/-- An empty root. -/
theorem ext4ExtInsertLeaf_empty (roomy : 2 ≤ (s.hdr (path.elem depth).pHdr).ehMax) (spt : SplitTrans) (root : depth = 0)
    (empty : slots (s.hdr (path.elem depth).pHdr) = [])
    (position : (path.elem depth).pExt = none) :
    Ensures (ext4ExtInsertLeaf s path depth newext spt) (LeafResult s path newext spt.switchTo depth room blocks) := by
  subst root
  have count : (s.hdr (path.elem 0).pHdr).ehEntries = 0 := by rw [← slots_length,empty,List.length_nil]
  have limit_ := header.limit
  have bound := fits.2
  obtain ⟨n',placed,alike,array⟩ := @placeEntry_free s (path.elem 0).pHdr 0 (by omega) (by omega) (by omega) (storeExtent newext)
  rw [storeExtent_eq,empty] at array
  have self : (s.setHdr (path.elem 0).pHdr n').hdr (path.elem 0).pHdr = n' := setHdr_hdr _ _ _
  have place : ((path.set 0 {path.elem 0 with pExt := some 0,pIn := (path.elem 0).pHdr}).elem 0) =
      {path.elem 0 with pExt := some 0,pIn := (path.elem 0).pHdr} := Path.set_self _ _ _
  have level : extDepth (s.setHdr (path.elem 0).pHdr n') = 0 := by
    change ((s.setHdr (path.elem 0).pHdr n').hdr none).ehDepth = 0
    rcases eq_or_ne none (path.elem 0).pHdr with same | other
    · rw [same,self,alike.depth]
      exact header.depth
    · rw [setHdr_other _ _ other]
      exact ready.depth
  obtain ⟨s₂,b,stored,based,volume,untouched,others⟩ := @leafPlaced_based s (s.setHdr (path.elem 0).pHdr n')
    (path.set 0 {path.elem 0 with pExt := some 0,pIn := (path.elem 0).pHdr}) (path.elem 0) 0 newext.eeBlock 0 [newext] level (by rw [place])
    (fun _ => by
      rw [place,self,slot_zero array]
      exact ⟨Nat.le_refl _,fun x member => by rw [List.mem_singleton.mp member],Or.inl rfl⟩)
    (fun other => absurd rfl other)
  have same := (untouched (path.elem 0).pHdr fun j before => absurd before (Nat.not_lt_zero j)).trans self
  unfold ext4ExtInsertLeaf
  simp only [position,Option.any_none,Bool.false_eq_true,if_false]
  rw [if_neg (by omega),insertLeafFree]
  simp only [position,if_true,placed,Option.bind_eq_bind,Option.bind_some,leafStored,and_self,stored,Option.pure_def]
  obtain ⟨path',done,⟨pHdr,pIn,pExt⟩,kept⟩ := leafDone_free s₂ (path.set 0 {path.elem 0 with pExt := some 0,pIn := (path.elem 0).pHdr}) 0 newext
    spt (path.elem 0).pHdr 0
  rw [done]
  rw [place] at pHdr
  refine ensures_some (.free rfl (by omega) ⟨⟨s,.kept (Or.inl rfl),fun a other => ?_⟩,⟨[],[],empty,?_,nofun,nofun⟩,?_,?_,?_,pHdr,pIn,
    ⟨0,pExt,?_⟩,?_⟩)
  · have same := others a (setHdr_other _ _ other)
    cases based with
    | kept _ => exact same
    | corrected deep => exact absurd deep (Nat.lt_irrefl 0)
  · rw [same,array]
    rfl
  · rw [same]
    exact alike
  · rw [same,← slots_length,array,alike.max]
    exact Nat.le_of_succ_le roomy
  · rw [volume,setHdr_volume]
  · rw [same,array]
    rfl
  · exact fun j other => (kept j other).trans (Path.set_other _ _ other)

variable {l r : List Slot} {x : Slot} (apart : ∀ j, j < depth → (path.elem j).pHdr ≠ (path.elem depth).pHdr)
  (sorted : (slots (s.hdr (path.elem depth).pHdr)).Pairwise fun x y => x.eeBlock ≤ y.eeBlock)
  (chosen : Chosen Slot.eeBlock newext.eeBlock (slots (s.hdr (path.elem depth).pHdr)) l x r)
  (position : (path.elem depth).pExt = some l.length) (differ : newext.eeBlock ≠ x.eeBlock)
include apart sorted chosen position differ

/-- A leaf with a free entry. -/
theorem insertLeafFree_result (spt : SplitTrans)
    (free : (s.hdr (path.elem depth).pHdr).ehEntries ≠ (s.hdr (path.elem depth).pHdr).ehMax) :
    Ensures (insertLeafFree s path depth newext spt) (LeafResult s path newext spt.switchTo depth room blocks) := by
  have limit_ := header.limit
  have counted := header.fits
  have bound := fits.2
  have entry := chosen_slot chosen
  have count := chosen_count chosen
  obtain ⟨l',r',placed⟩ := chosen_placed sorted chosen differ
  have inside : (if x.eeBlock < newext.eeBlock then l.length + 1 else l.length) ≤ (s.hdr (path.elem depth).pHdr).ehEntries := by
    split <;> omega
  have code : insertLeafFree s path depth newext spt = (placeEntry s (path.elem depth).pHdr
      (if x.eeBlock < newext.eeBlock then l.length + 1 else l.length) (storeExtent newext)).bind fun put =>
        some (leafDone (leafStored put.1 path (path.elem depth) (path.elem depth).pHdr put.2).1 path depth newext spt (path.elem depth).pHdr
          (if x.eeBlock < newext.eeBlock then l.length + 1 else l.length) none
          (leafStored put.1 path (path.elem depth) (path.elem depth).pHdr put.2).2) := by
    simp only [insertLeafFree,position,entry,reduceCtorEq,if_false]
    rfl
  rw [code]
  generalize (if x.eeBlock < newext.eeBlock then l.length + 1 else l.length) = ix at placed inside
  obtain ⟨n',put,alike,array⟩ := placeEntry_free inside (by omega) (by omega) (storeExtent newext)
  rw [storeExtent_eq] at array
  have self : (s.setHdr (path.elem depth).pHdr n').hdr (path.elem depth).pHdr = n' := setHdr_hdr _ _ _
  have level : extDepth (s.setHdr (path.elem depth).pHdr n') = depth := by
    change ((s.setHdr (path.elem depth).pHdr n').hdr none).ehDepth = depth
    rcases eq_or_ne none (path.elem depth).pHdr with same | other
    · rw [same,self,alike.depth,← same]
      exact ready.depth
    · rw [setHdr_other _ _ other]
      exact ready.depth
  obtain ⟨s₂,b,stored,based,volume,untouched,others⟩ := @leafPlaced_based s (s.setHdr (path.elem depth).pHdr n') path (path.elem depth) depth
    newext.eeBlock l.length (slots (s.hdr (path.elem depth).pHdr)) level position
    (fun _ => by
      rw [self]
      obtain ⟨e,rest,first⟩ := List.exists_cons_of_ne_nil (show slots n' ≠ [] by
        rw [array]
        exact List.append_ne_nil_of_right_ne_nil _ (List.cons_ne_nil _ _))
      rw [slot_zero first]
      rw [← array,first] at placed
      exact placed.head sorted)
    (chosen_behind chosen)
  have same := (untouched (path.elem depth).pHdr apart).trans self
  obtain ⟨path',done,⟨pHdr,pIn,pExt⟩,kept⟩ := leafDone_free s₂ path depth newext spt (path.elem depth).pHdr ix
  rw [put,Option.bind_some]
  simp only [leafStored,and_self,if_true,stored,done]
  refine ensures_some (.free rfl free ⟨⟨b,based,fun a other => others a (setHdr_other _ _ other)⟩,⟨l',r',?_⟩,?_,?_,?_,pHdr,pIn,
    ⟨ix,pExt,?_⟩,kept⟩)
  · rw [same,array]
    exact placed
  · rw [same]
    exact alike
  · rw [same,← slots_length,array,withSlot_length (by rw [slots_length]; exact inside),slots_length,alike.max]
    omega
  · rw [volume,setHdr_volume]
  · rw [same,array]
    exact withSlot_getElem (by rw [slots_length]; exact inside) newext

/-- A full leaf, of which the root is not split. -/
theorem insertLeafSplit_result (roomy : 2 ≤ (s.hdr (path.elem depth).pHdr).ehMax)
    (owned : ∀ j, j ≤ depth → ∀ c, (path.elem j).pHdr = some c → c ∈ blocks) (spt : SplitTrans)
    (full : (s.hdr (path.elem depth).pHdr).ehEntries = (s.hdr (path.elem depth).pHdr).ehMax) :
    Ensures (insertLeafSplit s path depth newext spt) (LeafResult s path newext spt.switchTo depth room blocks) := by
  have bound := fits.2
  have limit_ := header.limit
  have count := chosen_count chosen
  unfold insertLeafSplit
  simp only
  refine ensures_ite (fun root => ensures_some (.grow root rfl full)) fun deep => ?_
  refine (@ext4ExtSplitNode_parted s path depth depth room l.length newext blocks ready
    (by simpa [PathElem.position] using position) (owned depth (Nat.le_refl _)) full (by omega)
    (by omega)).bind fun (s₁,result) split => ?_
  cases result with
  | error err => exact ensures_some (.failed err)
  | ok sibling =>
    obtain ⟨s₀,hdr,parted,apart',level,space,fresh,small,reserved,space₁⟩ := split
    have entry : (s₁.hdr (path.elem depth).pHdr).slot l.length = x := by
      rw [parted.kept (by rw [hdr]; exact full) (by rw [hdr]; omega),hdr,chosen_slot chosen]
    have front : decide (x.eeBlock < newext.eeBlock) = false → l.length = 0 ∧ 2 ≤ (s₀.hdr (path.elem depth).pHdr).ehMax := fun before => by
      refine ⟨?_,by rw [hdr]; exact roomy⟩
      by_contra some_
      have least := chosen.below fun empty => some_ (by rw [empty,List.length_nil])
      exact of_decide_eq_false before (Nat.lt_of_le_of_ne least differ.symm)
    obtain ⟨ix,s₂,z,place,put,halves,volume,stays,crossed⟩ := parted.placed apart' (by rw [hdr]; exact full) (by rw [hdr]; omega)
      (by rw [level,Nat.sub_self]; exact Nat.pos_of_ne_zero deep) (by rw [Nat.sub_self]; decide) fits space (by rw [hdr]; omega)
      (decide (x.eeBlock < newext.eeBlock)) front (storeExtent newext)
    rw [storeExtent_eq,Nat.sub_self] at halves
    rw [hdr] at stays crossed
    rw [storeExtent_eq] at crossed
    have crossing : crossesAt s path newext depth 0 =
        !ownHalf (s.hdr (path.elem depth).pHdr).ehMax l.length (decide (x.eeBlock < newext.eeBlock)) := by
      simp only [crossesAt,Nat.sub_zero,if_true,position,Option.any_some,chosen_slot chosen]
    obtain ⟨l',r',placed⟩ := chosen_placed sorted chosen differ
    have whole : slots (s₂.hdr (path.elem depth).pHdr) ++ slots (s₂.node sibling) = withSlot (slots (s.hdr (path.elem depth).pHdr))
        (if x.eeBlock < newext.eeBlock then l.length + 1 else l.length) newext := by
      rw [← hdr,halves.whole]
      simp only [decide_eq_true_eq]
    have others (a : Option Nat) (one : a ≠ (path.elem depth).pHdr) (two : a ≠ some sibling) : s₂.hdr a = s.hdr a :=
      (halves.other a one two).trans (hdr a)
    have level₂ : extDepth s₂ = depth := by
      change (s₂.hdr none).ehDepth = depth
      rcases eq_or_ne none (path.elem depth).pHdr with same | other
      · rw [same,halves.alike.depth,hdr,← same]
        exact ready.depth
      · rw [others none other nofun]
        exact ready.depth
    have unlisted (j : Nat) (above : j < depth) : (path.elem j).pHdr ≠ some sibling := fun equal =>
      fresh (List.mem_cons_of_mem _ (owned j (Nat.le_of_lt above) sibling equal))
    -- the state that the two nodes are in when the indexes have been seen to
    have finish {s₃ b : State} {eh : Option Nat} (stored : leafStored s₂ path (path.elem depth) eh .ok = (s₃,.ok))
        (based : Based path newext.eeBlock depth (slots (s.hdr (path.elem depth).pHdr)) s b) (volume₃ : s₃.volume = s₂.volume)
        (own : s₃.hdr (path.elem depth).pHdr = s₂.hdr (path.elem depth).pHdr) (new : s₃.hdr (some sibling) = s₂.hdr (some sibling))
        (rest : ∀ a, s₂.hdr a = s.hdr a → s₃.hdr a = b.hdr a) :
        LeafResult s path newext spt.switchTo depth room blocks (leafDone (leafStored s₂ path (path.elem depth) eh .ok).1 path depth newext
          {spt with ptr := sibling} eh ix (some sibling) (leafStored s₂ path (path.elem depth) eh .ok).2) := by
      obtain ⟨path',spt',done,ptr,index,recorded,pHdr,kept⟩ := leafDone_split s₃ path depth newext {spt with ptr := sibling} eh ix sibling
      rw [stored,done]
      have new' : s₃.node sibling = s₂.node sibling := new
      refine .split (Nat.pos_of_ne_zero deep) full (by rw [index,ptr]) ⟨ix,ptr ▸ recorded,fun goes => (crossed (by simpa [crossing] using goes)).1⟩
        (ptr ▸ ⟨⟨b,based,fun a one two => rest a (others a one two)⟩,⟨l',r',?_⟩,?_,?_,?_,?_,?_,fresh,small,?_,?_,fun goes => ?_,
          fun own => ?_,pHdr,kept⟩)
      · rw [own,new',whole]
        exact placed
      · rw [own]
        exact halves.left
      · rw [new']
        exact halves.right
      · rw [own,← hdr]
        exact halves.alike
      · rw [own]
        exact halves.fits
      · rw [new']
        exact halves.header
      · rw [volume₃,volume,← parted.volume]
        exact reserved
      · rw [ext4ExtSpaceBlock,volume₃,volume,← parted.volume]
        exact space₁
      · rw [new']
        exact ⟨_,(crossed (by simpa [crossing] using goes)).2⟩
      · rw [new',stays (by simpa [crossing] using own),chosen.parts]
        intro y member
        refine chosen.above y ?_
        rwa [← List.singleton_append,← List.append_assoc,List.drop_left' (by rw [List.length_append,List.length_singleton])] at member
    simp only [position,Option.bind_eq_bind,Option.bind_some,entry,place,put,Option.pure_def]
    refine ensures_some ?_
    rcases Bool.eq_false_or_eq_true (ownHalf (s₀.hdr (path.elem depth).pHdr).ehMax l.length (decide (x.eeBlock < newext.eeBlock)))
      with own | other
    · simp only [own,if_true]
      obtain ⟨e,rest,first⟩ := List.exists_cons_of_ne_nil halves.left
      rw [← whole,first,List.cons_append] at placed
      obtain ⟨s₃,b,stored,based,volume₃,untouched,others₃⟩ := @leafPlaced_based s s₂ path (path.elem depth) depth newext.eeBlock l.length
        (slots (s.hdr (path.elem depth).pHdr)) level₂ position (fun _ => by rw [slot_zero first]; exact placed.head sorted)
        (chosen_behind chosen)
      refine finish (by rw [leafStored,if_pos ⟨rfl,rfl⟩,stored]) based volume₃ (untouched _ apart) (untouched _ unlisted) others₃
    · simp only [other,Bool.false_eq_true,if_false]
      have behind : x.eeBlock < newext.eeBlock := by
        by_contra before
        rw [decide_eq_false before] at other
        nomatch other
      have member : x ∈ slots (s.hdr (path.elem depth).pHdr) := by
        rw [chosen.parts]
        exact List.mem_append_right _ List.mem_cons_self
      refine finish (by rw [leafStored,if_neg (fun both => apart' both.2.symm)]) (.kept (Or.inr ⟨x,member,Nat.le_of_lt behind⟩)) rfl rfl rfl
        fun a same => same

/-- An extent that is not merged with the one that the path is at. -/
theorem ext4ExtInsertLeaf_result (roomy : 2 ≤ (s.hdr (path.elem depth).pHdr).ehMax)
    (owned : ∀ j, j ≤ depth → ∀ c, (path.elem j).pHdr = some c → c ∈ blocks) (apart₁ : ext4ExtCanAppend x newext = false)
    (apart₂ : ext4ExtCanPrepend x newext = false) (spt : SplitTrans) :
    Ensures (ext4ExtInsertLeaf s path depth newext spt) (LeafResult s path newext spt.switchTo depth room blocks) := by
  have entry := chosen_slot chosen
  have code : ext4ExtInsertLeaf s path depth newext spt =
      if (s.hdr (path.elem depth).pHdr).ehEntries = (s.hdr (path.elem depth).pHdr).ehMax then insertLeafSplit s path depth newext spt
      else insertLeafFree s path depth newext spt := by
    rw [ext4ExtInsertLeaf]
    simp only [position]
    rw [if_neg,if_neg,if_neg]
    · rw [Option.any_some,entry,apart₂]
      exact Bool.false_ne_true
    · rw [Option.any_some,entry,apart₁]
      exact Bool.false_ne_true
    · rw [Option.any_some,entry,decide_eq_true_eq]
      exact differ
  rw [code]
  refine ensures_ite (fun full => ?_) fun free => ?_
  · exact insertLeafSplit_result ready fits most header apart sorted chosen position differ roomy owned spt full
  · exact insertLeafFree_result ready fits most header apart sorted chosen position differ spt free

end Leaf

end Ext4Fuse.Extents
