import Ext4Fuse.Extents.Split

/-! What `ext4_ext_convert_to_initialized` leaves of an unwritten extent. Every second half
that it inserts is joined to the first one again. -/
namespace Ext4Fuse.Extents
open Machine Ext4Fuse.Types Super Library.Segments

/-! One extent of a tree is replaced. -/

/-- The states differ in entry `p` of one node and in what is not the tree's. -/
structure SlotPut (at_ : Option Nat) (p : Nat) (y : Slot) (s s' : State) : Prop where
  hdr : s'.hdr at_ = (s.hdr at_).setSlot p y
  other : ∀ a, a ≠ at_ → s'.hdr a = s.hdr a
  volume : s'.volume = s.volume

theorem setSlot_twice (n : Node) (p : Nat) (x y : Slot) : (n.setSlot p x).setSlot p y = n.setSlot p y := by
  simp [Node.setSlot]

theorem SlotPut.trans {at_ : Option Nat} {p : Nat} {x y : Slot} {s s' s'' : State} (one : SlotPut at_ p x s s')
    (two : SlotPut at_ p y s' s'') : SlotPut at_ p y s s'' := by
  refine ⟨?_,fun a differ => (two.other a differ).trans (one.other a differ),two.volume.trans one.volume⟩
  rw [two.hdr,one.hdr,setSlot_twice]

theorem SlotPut.depth {at_ : Option Nat} {p : Nat} {y : Slot} {s s' : State} (put : SlotPut at_ p y s s') :
    extDepth s' = extDepth s := by
  change (s'.hdr none).ehDepth = (s.hdr none).ehDepth
  rcases eq_or_ne none at_ with rfl | differ
  · rw [put.hdr]
    rfl
  · rw [put.other none differ]

theorem putExtent_put (s : State) (elem : PathElem) (p : Nat) (x : Slot) : SlotPut elem.pHdr p x s (putExtent s elem p x) := by
  refine ⟨by rw [putExtent,ext4ExtDirty_hdr,setHdr_hdr],fun a differ => by rw [putExtent,ext4ExtDirty_hdr,setHdr_other _ _ differ],?_⟩
  unfold putExtent ext4ExtDirty
  cases elem.pBh <;> cases elem.pHdr <;> rfl

theorem SlotPut.node {at_ : Option Nat} {p : Nat} {y : Slot} {s s' : State} (put : SlotPut at_ p y s s') {b : Nat}
    (differ : at_ ≠ some b) : s'.node b = s.node b := put.other (some b) differ.symm

/-- In a leaf. -/
theorem replace_leaf {heap heap' : Nat → Node} {room limit low high : Nat} {n : Node} {t : Tree 0} (holds : Holds heap room 0 limit n t)
    (wf : Wf 0 low t high) {l r : List Slot} {x y : Slot} (parts : extentsOf t = l ++ x::r) (start : y.eeBlock = x.eeBlock)
    (len : ext4ExtGetActualLen y = ext4ExtGetActualLen x) :
    Wf 0 low (l ++ y::r : List Slot) high ∧ Holds heap' room 0 limit (n.setSlot l.length y) (l ++ y::r : List Slot) := by
  have stop : extentStop y = extentStop x := by rw [extentStop,extentStop,start,len]
  obtain ⟨header,slots⟩ := holds
  rw [parts] at header slots
  constructor
  · rw [Wf,parts] at wf
    obtain ⟨a,b,left,⟨first,last,some_⟩,right⟩ := (tiled_middle l r x).mp wf
    exact (tiled_middle l r y).mpr ⟨a,b,left,⟨start.trans first,stop.trans last,some_⟩,right⟩
  · refine ⟨⟨header.magic,header.depth,header.entries.trans (by simp),?_,header.max,header.limit⟩,fun i z here => ?_⟩
    · change (l ++ y::r).length ≤ n.ehMax
      simpa using header.fits
    · change (l ++ y::r)[i]? = some z at here
      rcases Nat.lt_trichotomy i l.length with front | rfl | back
      · rw [setSlot_other _ _ (Nat.ne_of_lt front)]
        apply slots
        rw [List.getElem?_append_left front] at here ⊢
        exact here
      · rw [setSlot_self]
        rw [List.getElem?_append_right (Nat.le_refl _),Nat.sub_self] at here
        exact Option.some.inj here
      · rw [setSlot_other _ _ (Nat.ne_of_gt back)]
        apply slots
        rw [List.getElem?_append_right (Nat.le_of_lt back)] at here ⊢
        obtain ⟨j,gap⟩ := Nat.exists_eq_succ_of_ne_zero (Nat.sub_ne_zero_of_lt back)
        rw [gap] at here ⊢
        exact here

/-- Below an index entry. -/
theorem replace_kid {d room limit low high : Nat} {s s' : State} {at_ leaf : Option Nat} {t : Tree (d + 1)}
    (holds : Holds s.node room (d + 1) limit (s.hdr at_) t) (distinct : (foot (d + 1) t).Nodup) {l r : List (Kid (Tree d))}
    {k : Kid (Tree d)} (parts : kidsOf t = l ++ k::r) {t' : Tree d} (wf : Wf (d + 1) low t high) (wf' : ∀ high', Wf d k.key k.tree high' →
      Wf d k.key t' high')
    (count : entries d t' = entries d k.tree) (inside : leaf = some k.block ∨ ∃ b ∈ foot d k.tree, leaf = some b) :
    Wf (d + 1) low (l ++ ⟨k.key,k.block,t'⟩::r : List (Kid (Tree d))) high ∧
      ((∀ a, a ≠ leaf → s'.hdr a = s.hdr a) → at_ ≠ leaf → Holds s'.node room d room (s'.node k.block) t' →
        Holds s'.node room (d + 1) limit (s'.hdr at_) (l ++ ⟨k.key,k.block,t'⟩::r : List (Kid (Tree d)))) := by
  constructor
  · rw [wf_succ,parts] at wf
    obtain ⟨a,b,left,⟨first,some_,tree⟩,right⟩ := (tiled_middle l r k).mp wf
    subst first
    exact (tiled_middle l r _).mpr ⟨_,b,left,⟨rfl,by rw [count]; exact some_,wf' b tree⟩,right⟩
  · intro other differ kid
    obtain ⟨header,pointers,below⟩ := holds
    rw [parts] at header pointers below
    rw [other at_ differ]
    refine ⟨⟨header.magic,header.depth,header.entries.trans (by simp),by simpa using header.fits,header.max,header.limit⟩,
      fun i k' here => ?_,fun k' member => ?_⟩
    · change (l ++ ⟨k.key,k.block,t'⟩::r)[i]? = some k' at here
      rcases Nat.lt_trichotomy i l.length with front | rfl | back
      · rw [List.getElem?_append_left front] at here
        exact pointers i k' (by rw [List.getElem?_append_left front]; exact here)
      · rw [List.getElem?_append_right (Nat.le_refl _),Nat.sub_self] at here
        obtain rfl := Option.some.inj here
        exact pointers l.length k (by rw [List.getElem?_append_right (Nat.le_refl _),Nat.sub_self]; rfl)
      · obtain ⟨j,gap⟩ := Nat.exists_eq_succ_of_ne_zero (Nat.sub_ne_zero_of_lt back)
        rw [List.getElem?_append_right (Nat.le_of_lt back),gap] at here
        exact pointers i k' (by rw [List.getElem?_append_right (Nat.le_of_lt back),gap]; exact here)
    · have elsewhere (k₁ : Kid (Tree d)) (member₁ : k₁ ∈ l ∨ k₁ ∈ r) : Holds s'.node room d room (s'.node k₁.block) k₁.tree := by
        rw [foot,parts,List.nodup_flatMap] at distinct
        obtain ⟨_,apart,both⟩ := List.pairwise_append.mp distinct.2
        have disjoint : ∀ b ∈ k₁.block::foot d k₁.tree, b ∉ k.block::foot d k.tree := by
          rcases member₁ with front | behind
          · exact fun b one two => both k₁ front k List.mem_cons_self one two
          · exact fun b one two => (List.pairwise_cons.mp apart).1 k₁ behind two one
        have same (b : Nat) (here : b ∈ k₁.block::foot d k₁.tree) : s'.node b = s.node b := by
          refine other (some b) ?_
          rintro rfl
          rcases inside with same | ⟨c,inKid,same⟩
          · exact disjoint b here (by rw [Option.some.inj same]; exact List.mem_cons_self)
          · exact disjoint b here (by rw [Option.some.inj same]; exact List.mem_cons_of_mem _ inKid)
        rw [same _ List.mem_cons_self]
        exact (below k₁ (by
          rcases member₁ with front | behind
          · exact List.mem_append_left _ front
          · exact List.mem_append_right _ (List.mem_cons_of_mem _ behind))).frame fun b here => same b (List.mem_cons_of_mem _ here)
      rcases List.mem_append.mp member with front | rest
      · exact elsewhere k' (Or.inl front)
      · rcases List.mem_cons.mp rest with rfl | behind
        · exact kid
        · exact elsewhere k' (Or.inr behind)

/-- The leaf that the path leads to holds the extent that covers the block, and with another extent of
the same blocks in its place there is a tree again. -/
theorem onPath_replace {block d level limit low high : Nat} {s : State} {path : Path} {t : Tree d} {at_ : Option Nat}
    (onPath : OnPath block path d t at_ level) (holds : Holds s.node (ext4ExtSpaceBlock s) d limit (s.hdr at_) t)
    (wf : Wf d low t high) (distinct : (foot d t).Nodup) (clear : ∀ b ∈ foot d t, at_ ≠ some b) {x : Slot} (member : x ∈ flat d t)
    (covered : covers x block) :
    ∃ p, (path.elem (level + d)).pExt = some p ∧ (s.hdr (path.elem (level + d)).pHdr).slot p = x ∧
      ((path.elem (level + d)).pHdr = at_ ∨ ∃ b ∈ foot d t, (path.elem (level + d)).pHdr = some b) ∧
      ∃ l r, flat d t = l ++ x::r ∧ ∀ y : Slot, y.eeBlock = x.eeBlock → ext4ExtGetActualLen y = ext4ExtGetActualLen x →
        ∃ t', flat d t' = l ++ y::r ∧ foot d t' = foot d t ∧ entries d t' = entries d t ∧ (∀ high, Wf d low t high → Wf d low t' high) ∧
          ∀ s', SlotPut (path.elem (level + d)).pHdr p y s s' → Holds s'.node (ext4ExtSpaceBlock s) d limit (s'.hdr at_) t' := by
  induction d generalizing level limit low high at_ with
  | zero =>
    have found := onPath_extent onPath holds wf
    obtain ⟨pHdr,_,_,⟨empty,_⟩ | ⟨l,x',r,chosen,position⟩⟩ := onPath
    · rw [flat,empty] at member
      cases member
    obtain ⟨pExt,_⟩ | ⟨i,pExt,_,only⟩ := found
    · cases pExt.symm.trans position
    obtain rfl := Option.some.inj (pExt.symm.trans position)
    have same := only x member covered
    have here : (extentsOf t)[l.length]? = some x' := by
      rw [chosen.parts,List.getElem?_append_right (Nat.le_refl _),Nat.sub_self]
      rfl
    rw [Nat.add_zero] at *
    rw [pHdr,holds.2 _ x' here] at same
    subst same
    refine ⟨l.length,position,by rw [pHdr,holds.2 _ x here],Or.inl pHdr,l,r,chosen.parts,fun y start len => ?_⟩
    refine ⟨l ++ y::r,rfl,rfl,?_,fun high wf => (@replace_leaf _ s.node _ _ _ _ _ _ holds wf _ _ _ _ chosen.parts start len).1,fun s' put => ?_⟩
    · change (l ++ y::r).length = (extentsOf t).length
      rw [chosen.parts]
      simp
    · rw [pHdr] at put
      rw [put.hdr]
      exact (replace_leaf holds wf chosen.parts start len).2
  | succ d ih =>
    have found := onPath_extent onPath holds wf
    obtain ⟨_,_,l,k,r,chosen,_,_,below⟩ := onPath
    have inKids : k ∈ kidsOf t := by
      rw [chosen.parts]
      exact List.mem_append_right l List.mem_cons_self
    have parts := (wf_succ d low high t).mp wf
    rw [chosen.parts] at parts
    obtain ⟨a,b,_,⟨rfl,some_,inside⟩,_⟩ := (tiled_middle l r k).mp parts
    have kid := holds.2.2 k inKids
    have own := (List.nodup_flatMap.mp distinct).1 k inKids
    rw [show level + (d + 1) = level + 1 + d by omega] at found ⊢
    have memberKid : x ∈ flat d k.tree := by
      obtain ⟨_,empty⟩ | ⟨i,pExt,inTree,_⟩ := onPath_extent below kid inside
      · exact absurd empty (flat_ne_nil inside some_)
      obtain ⟨pExt',_⟩ | ⟨i',pExt',_,only⟩ := found
      · cases pExt'.symm.trans pExt
      obtain rfl := Option.some.inj (pExt'.symm.trans pExt)
      rw [only x member covered]
      exact inTree
    obtain ⟨p,position,entry,leaf,l',r',flatKid,replace⟩ := ih below kid inside (List.nodup_cons.mp own).2
      (fun c inKid same => (List.nodup_cons.mp own).1 (by rw [Option.some.inj same]; exact inKid)) memberKid
    have leafInFoot : ∃ b ∈ foot (d + 1) t, (path.elem (level + 1 + d)).pHdr = some b := by
      rcases leaf with same | ⟨c,inKid,same⟩
      · exact ⟨k.block,List.mem_flatMap.mpr ⟨k,inKids,List.mem_cons_self⟩,same⟩
      · exact ⟨c,List.mem_flatMap.mpr ⟨k,inKids,List.mem_cons_of_mem _ inKid⟩,same⟩
    refine ⟨p,position,entry,Or.inr leafInFoot,l.flatMap (fun k => flat d k.tree) ++ l',r' ++ r.flatMap fun k => flat d k.tree,?_,
      fun y start len => ?_⟩
    · rw [flat,chosen.parts,List.flatMap_append,List.flatMap_cons,flatKid]
      simp
    · obtain ⟨t',flat',foot',count,wf',holds'⟩ := replace y start len
      have replaced (s' : State) (high : Nat) (wf : Wf (d + 1) low t high) := @replace_kid _ _ _ _ _ s s' _ _ _ holds distinct _ _ _
        chosen.parts _ wf wf' count leaf
      refine ⟨(l ++ ⟨k.key,k.block,t'⟩::r : List (Kid (Tree d))),?_,?_,?_,fun high wf => (replaced s high wf).1,fun s' put => ?_⟩
      · change (l ++ ⟨k.key,k.block,t'⟩::r).flatMap (fun k => flat d k.tree) = _
        rw [List.flatMap_append,List.flatMap_cons,flat']
        simp
      · change (l ++ ⟨k.key,k.block,t'⟩::r).flatMap (fun k => k.block::foot d k.tree) = (kidsOf t).flatMap fun k => k.block::foot d k.tree
        rw [chosen.parts,List.flatMap_append,List.flatMap_cons,List.flatMap_append,List.flatMap_cons,foot']
      · change (l ++ ⟨k.key,k.block,t'⟩::r).length = (kidsOf t).length
        rw [chosen.parts]
        simp
      · refine (replaced s' high wf).2 put.other ?_ (holds' s' put)
        obtain ⟨c,inFoot,same⟩ := leafInFoot
        rw [same]
        exact clear c inFoot

/-! An insertion that appends. -/

theorem switchSiblings_zero (depth level : Nat) (s : State) (path : Path) :
    switchSiblings depth (fun _ => zeroTrans) level s path = (s,path) := by
  induction level with
  | zero => rfl
  | succ level ih => exact ih

theorem leafDone_path (s : State) (path : Path) (at_ : Nat) (newext : Slot) (spt : SplitTrans) (eh : Option Nat) (ex : Nat) :
    ∃ path', leafDone s path at_ newext spt eh ex none .ok = (s,path',{spt with index := 0,ptr := 0},.ok) ∧
      (path'.elem at_).pExt = some ex ∧ (path'.elem at_).pHdr = (path.elem at_).pHdr :=
  ⟨_,rfl,by rw [Path.set_self],by rw [Path.set_self]⟩

/-- The loop over the levels is done after the leaf. -/
theorem insertLoop_leaf {s s' : State} {path path' : Path} {depth : Nat} {newext : Slot} {spt : SplitTrans} (done : spt.ptr = 0)
    (leaf : ext4ExtInsertLeaf s path depth newext zeroTrans = some (s',path',spt,.ok)) :
    insertLoop newext depth depth s path zeroTrans (fun _ => zeroTrans) = some (s',path',spt,fun _ => zeroTrans,.ok) := by
  have one : insertLevel newext depth depth s path zeroTrans (fun _ => zeroTrans) = some (s',path',spt,.ok) := by
    rw [insertLevel,Nat.sub_self]
    exact (if_pos rfl).trans leaf
  cases depth with
  | zero =>
    rw [insertLoop,one,Option.bind_eq_bind,Option.bind_some]
    exact if_pos (Or.inr done)
  | succ depth =>
    rw [insertLoop,one,Option.bind_eq_bind,Option.bind_some]
    exact if_pos (Or.inr done)

theorem insertAgain_leaf {s s' : State} {path path' : Path} {depth : Nat} {newext : Slot} {spt : SplitTrans} (level : extDepth s = depth)
    (done : spt.ptr = 0) (leaf : ext4ExtInsertLeaf s path depth newext zeroTrans = some (s',path',spt,.ok)) (rounds : Nat) :
    insertAgain newext (rounds + 1) 0 s path zeroTrans (fun _ => zeroTrans) = some (s',path',depth,fun _ => zeroTrans,none) := by
  rw [insertAgain,level,Nat.sub_zero,insertLoop_leaf done leaf,Option.bind_eq_bind,Option.bind_some,Option.pure_def]

theorem ext4ExtInsertExtent_leaf {s s' : State} {path path' : Path} {depth : Nat} {newext : Slot} {spt : SplitTrans}
    (level : extDepth s = depth) (done : spt.ptr = 0)
    (leaf : ext4ExtInsertLeaf s path depth newext zeroTrans = some (s',path',spt,.ok)) :
    ext4ExtInsertExtent s path newext = some (s',path',none) := by
  have again := insertAgain_leaf level done leaf (ext4BlocksCount s.volume.superBlock + 1)
  rw [ext4ExtInsertExtent,again,Option.bind_eq_bind,Option.bind_some]
  simp only [switchSiblings_zero,Option.pure_def]

/-- The extent that the path is at takes the new one in, and nothing else happens. -/
theorem ext4ExtInsertExtent_append {s : State} {path : Path} {depth p : Nat} {ex newext : Slot} (level : extDepth s = depth)
    (position : (path.elem depth).pExt = some p) (entry : (s.hdr (path.elem depth).pHdr).slot p = ex)
    (fresh : newext.eeBlock ≠ ex.eeBlock) (appends : ext4ExtCanAppend ex newext = true) :
    ∃ path', ext4ExtInsertExtent s path newext = some (putExtent s (path.elem depth) p (mergeLen ex newext),path',none) ∧
      (path'.elem depth).pExt = some p ∧ (path'.elem depth).pHdr = (path.elem depth).pHdr := by
  obtain ⟨path',done,place,hdr⟩ := leafDone_path (mergedState s path depth p (mergeLen ex newext)) path depth newext zeroTrans
    (path.elem depth).pHdr p
  have leaf := ext4ExtInsertLeaf_append position entry fresh appends done
  exact ⟨path',ext4ExtInsertExtent_leaf level rfl leaf,place,hdr⟩

/-! The halves of an extent. -/

/-- An extent's blocks and its state. -/
structure Describes (x : Slot) (start len pblock : Nat) (unwritten : Bool) : Prop where
  start : x.eeBlock = start
  len : ext4ExtGetActualLen x = len
  pblock : ext4ExtPblock x = pblock
  unwritten : ext4ExtIsUnwritten x = unwritten

def stateLimit (unwritten : Bool) : Nat := if unwritten then extUnwrittenMaxLen else extInitMaxLen

theorem stateLimit_le (unwritten : Bool) : stateLimit unwritten ≤ 2^15 := by cases unwritten <;> decide

def flagged (splitFlag mark : Nat) : Bool := splitFlag &&& mark ≠ 0

theorem describes_marked {x : Slot} {start len pblock : Nat} (unwritten : Bool) (first : x.eeBlock = start)
    (physical : ext4ExtPblock x = pblock) (some_ : 0 < len) (fits : len ≤ stateLimit unwritten) :
    Describes (if unwritten then ext4ExtMarkUnwritten (x.setEeLen len) else x.setEeLen len) start len pblock unwritten := by
  obtain ⟨start',len',block',state⟩ := marked_setEeLen x some_ unwritten fits
  exact ⟨start'.trans first,len',block'.trans physical,state⟩

theorem firstHalf_describes {ex : Slot} {split len : Nat} (splitFlag : Nat) (behind : split = ex.eeBlock + len) (some_ : 0 < len)
    (low : split < 2^32) (fits : len ≤ stateLimit (flagged splitFlag ext4ExtMarkUnwrit1)) :
    Describes (firstHalf ex split splitFlag) ex.eeBlock len (ext4ExtPblock ex) (flagged splitFlag ext4ExtMarkUnwrit1) := by
  have count : u32 (split - ex.eeBlock : Int) = len := by
    rw [show (split - ex.eeBlock : Int) = (len : Nat) by omega,u32_small _ (by omega)]
  have described := @describes_marked ex _ _ _ (flagged splitFlag ext4ExtMarkUnwrit1) rfl rfl some_ fits
  rw [firstHalf,count]
  simpa only [flagged,decide_eq_true_eq] using described

theorem ext4ExtStorePblock_fields (x : Slot) {pb : Nat} (bound : pb < 2^48) : (ext4ExtStorePblock x pb).eeBlock = x.eeBlock ∧
    (ext4ExtStorePblock x pb).eeLen = x.eeLen ∧ ext4ExtPblock (ext4ExtStorePblock x pb) = pb := by
  have short : x.eeLen < 2^16 := Nat.mod_lt _ (by decide)
  have high : pb / 2^32 % 2^16 = pb / 2^32 := Nat.mod_eq_of_lt (by omega)
  have word1 : (ext4ExtStorePblock x pb).word1.toNat = pb / 2^32 * 2^16 + x.eeLen := by
    change (UInt32.ofNat (pb / 2^32 % 2^16 * 2^16 + x.eeLen)).toNat = _
    rw [high,UInt32.toNat_ofNat',Nat.mod_eq_of_lt (by omega)]
  have word2 : (ext4ExtStorePblock x pb).word2.toNat = pb % 2^32 := UInt32.toNat_ofNat'
  have word0 : (ext4ExtStorePblock x pb).word0 = x.word0 := by
    obtain ⟨word0,_,_⟩ := x
    exact Eq.refl word0
  refine ⟨congrArg UInt32.toNat word0,?_,?_⟩
  · rw [Slot.eeLen,word1]
    omega
  · rw [ext4ExtPblock,Slot.eeStartLo,Slot.eeStartHi,word1,word2]
    omega

theorem setEeLen_same (x : Slot) : x.setEeLen x.eeLen = x := by
  have whole : x.eeStartHi * 2^16 + x.eeLen % 2^16 = x.word1.toNat := by
    unfold Slot.eeStartHi Slot.eeLen
    omega
  rw [Slot.setEeLen,whole,UInt32.ofNat_toNat]

theorem secondHalf_describes {ex : Slot} {split len rest : Nat} (splitFlag : Nat) (behind : split = ex.eeBlock + len)
    (low : split < 2^32) (whole : ext4ExtGetActualLen ex = len + rest) (some_ : 0 < rest)
    (fits : rest ≤ stateLimit (flagged splitFlag ext4ExtMarkUnwrit2)) (addressed : ext4ExtPblock ex + len < 2^48) :
    Describes (secondHalf ex split splitFlag) split rest (ext4ExtPblock ex + len) (flagged splitFlag ext4ExtMarkUnwrit2) := by
  have short := Nat.le_trans fits (stateLimit_le _)
  have count : u32 (split - ex.eeBlock : Int) = len := by
    rw [show (split - ex.eeBlock : Int) = (len : Nat) by omega,u32_small _ (by omega)]
  have others : u16 (u32 (ext4ExtGetActualLen ex - (len : Nat) : Int) : Nat) = rest := by
    rw [show (ext4ExtGetActualLen ex - (len : Nat) : Int) = (rest : Nat) by omega,u32_small _ (by omega),u16_small _ (by omega)]
  have block : u64 (len + ext4ExtPblock ex : Nat) = ext4ExtPblock ex + len := by
    rw [Nat.add_comm,u64_small _ (by omega)]
  obtain ⟨start,length,pblock⟩ := ext4ExtStorePblock_fields (Slot.setEeLen (Slot.setEeBlock ⟨0,0,0⟩ split) rest) addressed
  have first : (Slot.setEeBlock ⟨0,0,0⟩ split).eeBlock = split := by
    change (UInt32.ofNat split).toNat = split
    rw [UInt32.toNat_ofNat',Nat.mod_eq_of_lt low]
  rw [eeLen_setEeLen,Nat.mod_eq_of_lt (by omega)] at length
  rw [eeBlock_setEeLen,first] at start
  simp only [secondHalf,count,others,block]
  generalize ext4ExtStorePblock (Slot.setEeLen (Slot.setEeBlock ⟨0,0,0⟩ split) rest) (ext4ExtPblock ex + len) = stored at start length pblock ⊢
  have described := describes_marked (flagged splitFlag ext4ExtMarkUnwrit2) start pblock some_ fits
  rw [← length,setEeLen_same,length] at described
  simpa only [flagged,decide_eq_true_eq] using described

/-! The two halves are joined again. -/

theorem halves_append {x y : Slot} {start len rest pblock : Nat} {one other : Bool} (first : Describes x start len pblock one)
    (second : Describes y (start + len) rest (pblock + len) other) (low : start + len < 2^32) (addressed : pblock + len < 2^48)
    (fits : len + rest ≤ stateLimit one) (some_ : 0 < len) :
    ext4ExtCanAppend x y = true ∧ Describes (mergeLen x y) start (len + rest) pblock one := by
  have lengths : lengthsFit x y = true := by
    rw [lengthsFit,first.len,second.len,first.unwritten]
    exact decide_eq_true fits
  constructor
  · rw [ext4ExtCanAppend,lengths,first.pblock,first.len,second.pblock,first.start,second.start,u64_small _ (by omega),u32_small _ low]
    simp
  · obtain ⟨start',len',block',state⟩ := mergeLen_fields (by rw [first.len]; exact some_) lengths
    rw [first.len,second.len] at len'
    exact ⟨start'.trans first.start,len',block'.trans first.pblock,state.trans first.unwritten⟩

/-- An extent that is split behind its beginning, in halves that fit one extent in the first one's state,
is one extent in that state afterwards. -/
theorem splitExtentAt_joins {s : State} {path : Path} {depth p split start len rest pblock splitFlag : Nat} {unwritten : Bool}
    (level : extDepth s = depth) (position : (path.elem depth).pExt = some p)
    (ex : Describes ((s.hdr (path.elem depth).pHdr).slot p) start (len + rest) pblock unwritten) (behind : split = start + len)
    (some_ : 0 < len) (more : 0 < rest) (low : start + len < 2^32) (addressed : pblock + len < 2^48)
    (fits : len + rest ≤ stateLimit (flagged splitFlag ext4ExtMarkUnwrit1))
    (fits' : rest ≤ stateLimit (flagged splitFlag ext4ExtMarkUnwrit2)) :
    ∃ s' path' y, ext4ExtSplitExtentAt s path split splitFlag = some (s',path',none) ∧ SlotPut (path.elem depth).pHdr p y s s' ∧
      Describes y start (len + rest) pblock (flagged splitFlag ext4ExtMarkUnwrit1) ∧
      (path'.elem depth).pExt = some p ∧ (path'.elem depth).pHdr = (path.elem depth).pHdr := by
  subst behind
  have put := putExtent_put s (path.elem depth) p (firstHalf ((s.hdr (path.elem depth).pHdr).slot p) (start + len) splitFlag)
  have first := @firstHalf_describes ((s.hdr (path.elem depth).pHdr).slot p) (start + len) len splitFlag (by rw [ex.start]) some_ low (by omega)
  have second := @secondHalf_describes ((s.hdr (path.elem depth).pHdr).slot p) (start + len) len rest splitFlag (by rw [ex.start]) low ex.len more fits'
    (by rw [ex.pblock]; exact addressed)
  rw [ex.start,ex.pblock] at first
  rw [ex.pblock] at second
  obtain ⟨appends,joined⟩ := halves_append first second low addressed fits some_
  have entry : ((putExtent s (path.elem depth) p (firstHalf ((s.hdr (path.elem depth).pHdr).slot p) (start + len) splitFlag)).hdr
      (path.elem depth).pHdr).slot p = firstHalf ((s.hdr (path.elem depth).pHdr).slot p) (start + len) splitFlag := by
    rw [put.hdr,setSlot_self]
  have fresh : (secondHalf ((s.hdr (path.elem depth).pHdr).slot p) (start + len) splitFlag).eeBlock ≠
      (firstHalf ((s.hdr (path.elem depth).pHdr).slot p) (start + len) splitFlag).eeBlock := by
    rw [first.start,second.start]
    omega
  obtain ⟨path',inserted,place,hdr⟩ := ext4ExtInsertExtent_append (put.depth.trans level) position entry fresh appends
  refine ⟨_,path',_,?_,put.trans (putExtent_put _ (path.elem depth) p _),joined,place,hdr⟩
  have differs : start + len ≠ ((s.hdr (path.elem depth).pHdr).slot p).eeBlock := by
    rw [ex.start]
    omega
  simp only [ext4ExtSplitExtentAt,level,position,Option.bind_eq_bind,Option.bind_some,if_neg differs,inserted]
  rfl

/-- Split at its beginning, the extent is only marked. -/
theorem splitExtentAt_start {s : State} {path : Path} {depth p split len pblock : Nat} {unwritten : Bool} (level : extDepth s = depth)
    (position : (path.elem depth).pExt = some p) (ex : Describes ((s.hdr (path.elem depth).pHdr).slot p) split len pblock unwritten)
    (some_ : 0 < len) : ∃ s' y, ext4ExtSplitExtentAt s path split ext4ExtMarkUnwrit1 = some (s',path,none) ∧
      SlotPut (path.elem depth).pHdr p y s s' ∧ Describes y split len pblock false := by
  have short := actualLen_le ((s.hdr (path.elem depth).pHdr).slot p)
  rw [ex.len] at short
  refine ⟨_,ext4ExtMarkInitialized ((s.hdr (path.elem depth).pHdr).slot p),?_,putExtent_put s (path.elem depth) p _,?_⟩
  · simp only [ext4ExtSplitExtentAt,level,position,Option.bind_eq_bind,Option.bind_some,if_pos ex.start.symm]
    rfl
  · rw [ext4ExtMarkInitialized,ex.len]
    exact describes_marked false ex.start ex.pblock some_ short

/-- The split at the start of a range that also ends inside the extent. -/
def thenSplit (split : Nat) : State × Path × Option Errno → Option (State × Path × Option Errno)
  | (s,path,some err) => some (s,path,some err)
  | (s,path,none) => ext4ExtSplitExtentAt s path split ext4ExtMarkUnwrit1

/-- What is left in the place of an unwritten extent: the whole of it, initialised if the range begins where it does. -/
theorem convertToInitialized_leaves {s : State} {path : Path} {depth p start len pblock split blocks : Nat} (level : extDepth s = depth)
    (position : (path.elem depth).pExt = some p) (ex : Describes ((s.hdr (path.elem depth).pHdr).slot p) start len pblock true)
    (bounded : start + len ≤ extMaxBlocks) (addressed : pblock + len ≤ 2^48) (inside : start ≤ split) (some_ : 1 ≤ blocks)
    (within : split + blocks ≤ start + len) (fits : len ≤ extUnwrittenMaxLen) :
    ∃ s' path' y, ext4ExtConvertToInitialized s path split blocks = some (s',path',none) ∧
      SlotPut (path.elem depth).pHdr p y s s' ∧ Describes y start len pblock (decide (split ≠ start)) := by
  have most : extMaxBlocks = 2^32 - 1 := rfl
  have limits : stateLimit true = extUnwrittenMaxLen ∧ stateLimit false = extInitMaxLen := ⟨rfl,rfl⟩
  have init : extInitMaxLen = 32768 := rfl
  have unwritten : extUnwrittenMaxLen = 32767 := rfl
  have one : flagged ext4ExtMarkUnwrit1 ext4ExtMarkUnwrit1 = true ∧ flagged ext4ExtMarkUnwrit1 ext4ExtMarkUnwrit2 = false := by decide
  have two : flagged ext4ExtMarkUnwrit2 ext4ExtMarkUnwrit1 = false ∧ flagged ext4ExtMarkUnwrit2 ext4ExtMarkUnwrit2 = true := by decide
  have both : flagged (ext4ExtMarkUnwrit1 ||| ext4ExtMarkUnwrit2) ext4ExtMarkUnwrit1 = true ∧
      flagged (ext4ExtMarkUnwrit1 ||| ext4ExtMarkUnwrit2) ext4ExtMarkUnwrit2 = true := by decide
  have code : ext4ExtConvertToInitialized s path split blocks =
      if split + blocks = start + len then ext4ExtSplitExtentAt s path split ext4ExtMarkUnwrit1
      else if start = split then ext4ExtSplitExtentAt s path (split + blocks) ext4ExtMarkUnwrit2
      else (ext4ExtSplitExtentAt s path (split + blocks) (ext4ExtMarkUnwrit1 ||| ext4ExtMarkUnwrit2)).bind (thenSplit split) := by
    simp only [ext4ExtConvertToInitialized,level,position,Option.bind_eq_bind,Option.bind_some,ex.start,ex.len,
      if_neg (Nat.not_lt.mpr inside),u64_small _ (show split + blocks < 2^64 by omega),u32_small _ (show start + len < 2^32 by omega),
      u32_small _ (show split + blocks < 2^32 by omega)]
    rfl
  rw [code]
  -- every split of a part leaves one extent, in the state of its first half
  rcases Nat.eq_or_lt_of_le inside with rfl | behind
  · rw [show decide (start ≠ start) = false from decide_eq_false (not_not.mpr rfl)]
    rcases Nat.eq_or_lt_of_le within with whole | part
    · rw [if_pos whole]
      obtain ⟨s',y,result,put,described⟩ := splitExtentAt_start level position ex (by omega)
      exact ⟨s',path,y,result,put,described⟩
    · rw [if_neg (Nat.ne_of_lt part),if_pos rfl]
      obtain ⟨rest,parts⟩ := Nat.exists_eq_add_of_lt part
      obtain rfl : len = blocks + (rest + 1) := by omega
      obtain ⟨s',path',y,result,put,described,_⟩ := @splitExtentAt_joins _ _ _ _ _ _ _ _ _ ext4ExtMarkUnwrit2 _ level position ex rfl
        (by omega) (by omega) (by omega) (by omega) (by rw [two.1,limits.2]; omega) (by rw [two.2,limits.1]; omega)
      rw [two.1] at described
      exact ⟨s',path',y,result,put,described⟩
  · rw [show decide (split ≠ start) = true from decide_eq_true (Nat.ne_of_gt behind)]
    obtain ⟨front,parts⟩ := Nat.exists_eq_add_of_lt behind
    obtain ⟨rest,total⟩ : ∃ rest, len = (front + 1) + rest := ⟨len - (front + 1),by omega⟩
    have right (s₁ : State) (path₁ : Path) (level₁ : extDepth s₁ = depth) (position₁ : (path₁.elem depth).pExt = some p)
        (ex₁ : Describes ((s₁.hdr (path₁.elem depth).pHdr).slot p) start len pblock true) :=
      @splitExtentAt_joins s₁ path₁ depth p split start (front + 1) rest pblock ext4ExtMarkUnwrit1 true level₁ position₁
        (total ▸ ex₁) (by omega) (by omega) (by omega) (by omega) (by omega) (by rw [one.1,limits.1]; omega) (by rw [one.2,limits.2]; omega)
    rcases Nat.eq_or_lt_of_le within with to_end | part
    · rw [if_pos to_end]
      obtain ⟨s',path',y,result,put,described,_⟩ := right s path level position ex
      rw [one.1,← total] at described
      exact ⟨s',path',y,result,put,described⟩
    · rw [if_neg (Nat.ne_of_lt part),if_neg (Nat.ne_of_lt behind)]
      obtain ⟨rest',total'⟩ : ∃ rest', len = (split + blocks - start) + rest' := ⟨len - (split + blocks - start),by omega⟩
      obtain ⟨s₁,path₁,y₁,result₁,put₁,described₁,place₁,hdr₁⟩ := @splitExtentAt_joins s path depth p (split + blocks) start
        (split + blocks - start) rest' pblock (ext4ExtMarkUnwrit1 ||| ext4ExtMarkUnwrit2) true level position (total' ▸ ex) (by omega)
        (by omega) (by omega) (by omega) (by omega) (by rw [both.1,limits.1]; omega) (by rw [both.2,limits.1]; omega)
      rw [both.1,← total'] at described₁
      have entry : (s₁.hdr (path₁.elem depth).pHdr).slot p = y₁ := by rw [hdr₁,put₁.hdr,setSlot_self]
      obtain ⟨s',path',y,result,put,described,_⟩ := right s₁ path₁ (put₁.depth.trans level) place₁ (by rw [entry]; exact described₁)
      rw [one.1,← total] at described
      rw [hdr₁] at put
      exact ⟨s',path',y,by rw [result₁]; exact result,put₁.trans put,described⟩

/-! What has become of the mapping. -/

/-- The range has become initialised, and nothing else is changed. -/
def Converted (before after : List Slot) (split blocks : Nat) : Prop := ∀ b, mapping after b =
  if split ≤ b ∧ b < split + blocks then (mapping before b).map (fun m => (m.1,false)) else mapping before b

theorem converted_iff {l r : List Slot} {x y : Slot} {start len pblock split blocks : Nat} {state : Bool}
    (apart : (l ++ x::r).Pairwise fun x y => extentStop x ≤ y.eeBlock) (ex : Describes x start len pblock true)
    (ex' : Describes y start len pblock state) (inside : start ≤ split) (some_ : 1 ≤ blocks) (within : split + blocks ≤ start + len) :
    Converted (l ++ x::r) (l ++ y::r) split blocks ↔ state = false ∧ split = start ∧ split + blocks = start + len := by
  have same (b : Nat) : covers y b ↔ covers x b := by rw [covers,covers,extentStop,extentStop,ex.start,ex.len,ex'.start,ex'.len]
  have covered (b : Nat) : covers x b ↔ start ≤ b ∧ b < start + len := by rw [covers,extentStop,ex.start,ex.len]
  have before (b : Nat) (here : covers x b) : mapping (l ++ x::r) b = some (pblock + (b - start),true) := by
    rw [mapping_only (alone_of_apart apart here),if_pos here,ex.pblock,ex.start,ex.unwritten]
  have after (b : Nat) (here : covers x b) : mapping (l ++ y::r) b = some (pblock + (b - start),state) := by
    rw [mapping_only (alone_of_apart apart here),if_pos ((same b).mpr here),ex'.pblock,ex'.start,ex'.unwritten]
  have beside (b : Nat) (missed : ¬covers x b) : mapping (l ++ y::r) b = mapping (l ++ x::r) b := by
    rw [mapping_skip missed,mapping_skip fun here => missed ((same b).mp here)]
  constructor
  · intro converted
    have range (b : Nat) (low : start ≤ b) (high : b < start + len) : state = decide (¬(split ≤ b ∧ b < split + blocks)) := by
      have here := (covered b).mpr ⟨low,high⟩
      have mapped := converted b
      rw [before b here,after b here] at mapped
      split at mapped
      · rename_i inRange
        rw [decide_eq_false (not_not.mpr inRange)]
        exact (Prod.mk.inj (Option.some.inj mapped)).2
      · rename_i outside
        rw [decide_eq_true outside]
        exact (Prod.mk.inj (Option.some.inj mapped)).2
    have first := range split inside (by omega)
    rw [decide_eq_false (not_not.mpr ⟨Nat.le_refl _,by omega⟩)] at first
    have front := range start (Nat.le_refl _) (by omega)
    have back := range (start + len - 1) (by omega) (by omega)
    rw [first] at front back
    have inFront := not_not.mp (of_decide_eq_false front.symm)
    have inBack := not_not.mp (of_decide_eq_false back.symm)
    exact ⟨first,by omega,by omega⟩
  · rintro ⟨rfl,rfl,whole⟩ b
    rcases Classical.em (covers x b) with here | missed
    · rw [before b here,after b here,if_pos (by rw [whole]; exact (covered b).mp here)]
      rfl
    · rw [beside b missed,if_neg fun both => missed ((covered b).mpr (by rw [whole] at both; exact both))]

/-- Whenever it returns 0, the range, and nothing else, has become initialised. -/
def Converts (s : State) (path : Path) (split blocks : Nat) (extents : List Slot) : Prop :=
  ∀ s' path', ext4ExtConvertToInitialized s path split blocks = some (s',path',none) →
    ∃ (d : Nat) (t : Tree d), HasTree s' d t ∧ Converted extents (flat d t) split blocks

theorem SlotPut.hasTree {s s' : State} {d : Nat} {t t' : Tree d} {at_ : Option Nat} {p : Nat} {y : Slot} (put : SlotPut at_ p y s s')
    (tree : HasTree s d t) (foot' : foot d t' = foot d t) (count : entries d t' = entries d t) (wf : Wf d 0 t' (2^32))
    (holds : Holds s'.node (ext4ExtSpaceBlock s) d ext4ExtSpaceRoot (s'.hdr none) t') : HasTree s' d t' := by
  have room : ext4ExtSpaceBlock s' = ext4ExtSpaceBlock s := by rw [ext4ExtSpaceBlock,put.volume,ext4ExtSpaceBlock]
  refine ⟨by rw [room]; exact holds,by rw [foot']; exact tree.distinct,wf,?_⟩
  rw [count]
  exact tree.nonempty

/-- The conversion returns 0, and is right when the range is the whole extent, and only then. No extent
reaches the number that stands for no block, and the device's blocks have 48-bit numbers. -/
theorem convertToInitialized_iff {s : State} {d : Nat} {t : Tree d} (tree : HasTree s d t) {block : Nat} {path : Path}
    (onPath : OnPath block path d t none 0) {x : Slot} (member : x ∈ flat d t) (covered : covers x block)
    (unwritten : ext4ExtIsUnwritten x = true) (bounded : extentStop x ≤ extMaxBlocks)
    (addressed : ext4ExtPblock x + ext4ExtGetActualLen x ≤ 2^48) {split blocks : Nat} (inside : x.eeBlock ≤ split) (some_ : 1 ≤ blocks)
    (within : split + blocks ≤ extentStop x) :
    (∃ s' path', ext4ExtConvertToInitialized s path split blocks = some (s',path',none)) ∧
      (Converts s path split blocks (flat d t) ↔ split = x.eeBlock ∧ split + blocks = extentStop x) := by
  obtain ⟨p,position,entry,_,l,r,parts,replace⟩ := onPath_replace onPath tree.holds tree.wf tree.distinct (fun _ _ => nofun) member covered
  rw [Nat.zero_add] at position entry replace
  have ex : Describes ((s.hdr (path.elem d).pHdr).slot p) x.eeBlock (ext4ExtGetActualLen x) (ext4ExtPblock x) true := by
    rw [entry]
    exact ⟨rfl,rfl,rfl,unwritten⟩
  have short : ext4ExtGetActualLen x ≤ extUnwrittenMaxLen := by
    have length : x.eeLen < 2^16 := Nat.mod_lt _ (by decide)
    have marked := of_decide_eq_true unwritten
    have init : extInitMaxLen = 32768 := rfl
    have most : extUnwrittenMaxLen = 32767 := rfl
    rw [ext4ExtGetActualLen,if_neg (Nat.not_le.mpr marked)]
    omega
  obtain ⟨s',path',y,result,put,described⟩ := convertToInitialized_leaves tree.depth position ex bounded addressed inside some_ within short
  obtain ⟨t',flat',foot',count,wf',holds'⟩ := replace y described.start described.len
  have tree' := put.hasTree tree foot' count (wf' _ tree.wf) (holds' s' put)
  have apart := wf_apart tree.wf
  rw [parts] at apart
  have exact_ := converted_iff apart ⟨rfl,rfl,rfl,unwritten⟩ described inside some_ within
  rw [decide_eq_false_iff_not,not_not,← and_assoc,and_self,← parts,← flat'] at exact_
  refine ⟨⟨s',path',result⟩,?_,fun whole => ?_⟩
  · intro converts
    obtain ⟨d'',t'',other,converted⟩ := converts s' path' result
    rw [other.unique tree'] at converted
    exact exact_.mp converted
  · intro s'' path'' returned
    obtain ⟨rfl,_⟩ := Prod.mk.inj (Option.some.inj (result.symm.trans returned))
    exact ⟨d,t',tree',exact_.mpr whole⟩

/-- A file of one unwritten extent, of the four blocks from 10 on. -/
def unwrittenFile : State where
  volume := Alloc.oneFree
  inode := ⟨12,false,⟨14336,0,8,0,0,⟨0xf30a,1,4,0,fun _ => ⟨10,32772,100⟩⟩⟩⟩
  node := fun _ => ⟨0,0,0,0,fun _ => ⟨0,0,0⟩⟩
  verified := fun _ => false
  count := fun _ => 0

def unwrittenTree : Tree 0 := [(⟨10,32772,100⟩ : Slot)]

theorem unwrittenFile_tree : HasTree unwrittenFile 0 unwrittenTree := by
  refine ⟨⟨⟨rfl,rfl,rfl,by decide,by decide,by decide⟩,fun i x here => ?_⟩,List.nodup_nil,?_,Or.inl rfl⟩
  · exact (List.mem_singleton.mp (List.mem_of_getElem? here)).symm
  · exact ⟨10,14,by decide,⟨by decide,by decide,by decide⟩,(by decide : 14 ≤ 2^32)⟩

theorem unwrittenFile_path : OnPath 10 shortPath 0 unwrittenTree none 0 :=
  ⟨rfl,rfl,rfl,Or.inr ⟨[],⟨10,32772,100⟩,[],⟨rfl,fun front => absurd rfl front,nofun⟩,rfl⟩⟩

theorem convertToInitialized_iff_whole : Converts unwrittenFile shortPath 10 4 (flat 0 unwrittenTree) :=
  (convertToInitialized_iff unwrittenFile_tree unwrittenFile_path (List.mem_singleton.mpr rfl) (by decide) (by decide) (by decide)
    (by decide) (by decide) (by decide) (by decide)).2.mpr (by decide)

theorem HasTree.leafExtents {s : State} {t : Tree 0} (tree : HasTree s 0 t) : flat 0 t = leafExtents (s.hdr none) := by
  have count : s.inode.rawInode.iData.ehEntries = (extentsOf t).length := tree.holds.1.entries
  refine List.ext_getElem ?_ fun i inside _ => ?_
  · rw [leafExtents_length]
    exact count.symm
  · rw [leafExtents_getElem]
    exact (tree.holds.2 i _ (List.getElem?_eq_getElem inside)).symm

/-- Of the four blocks the last two stay unwritten. -/
theorem convertToInitialized_not : HasTree unwrittenFile 0 unwrittenTree ∧ OnPath 10 shortPath 0 unwrittenTree none 0 ∧
    ¬Converts unwrittenFile shortPath 12 2 (flat 0 unwrittenTree) := by
  refine ⟨unwrittenFile_tree,unwrittenFile_path,fun converts => ?_⟩
  have ran : (ext4ExtConvertToInitialized unwrittenFile shortPath 12 2).map (fun r =>
      (r.2.2,extDepth r.1,mapping (leafExtents (r.1.hdr none)) 12)) = some (none,0,some (102,true)) := by decide
  obtain ⟨⟨s',path',err⟩,result,outcome⟩ := Option.map_eq_some_iff.mp ran
  obtain ⟨rfl,rest⟩ := Prod.mk.inj outcome
  obtain ⟨depth,left⟩ := Prod.mk.inj rest
  obtain ⟨d,t,tree,converted⟩ := converts s' path' result
  obtain rfl := depth.symm.trans tree.depth
  have right := converted 12
  rw [tree.leafExtents,left] at right
  exact absurd right (by decide)

end Ext4Fuse.Extents
