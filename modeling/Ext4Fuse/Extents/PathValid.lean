import Ext4Fuse.Extents.InsertIndex

/-! The path that `ext4_ext_insert_extent` leaves behind, once it has moved over to the new nodes. -/
namespace Ext4Fuse.Extents
open Machine Ext4Fuse.Types Super

/-- `path[level].p_ext` covers the block. -/
def AtExtent (s : State) (path : Path) (level block : Nat) : Prop := ∃ i y, (path.elem level).pExt = some i ∧
  (slots (s.hdr (path.elem level).pIn))[i]? = some y ∧ covers y block

/-- `path[level].p_idx` is an entry of `path[level].p_hdr` that points to the node of `path[level + 1]`. -/
def PointsBelow (s : State) (path : Path) (level : Nat) : Prop := ∃ i y, (path.elem level).pIdx = some i ∧
  (path.elem level).pIn = (path.elem level).pHdr ∧ (slots (s.hdr (path.elem level).pHdr))[i]? = some y ∧
  (path.elem (level + 1)).pHdr = some (ext4IdxPblock y)

structure PathValid (s : State) (path : Path) (newext : Slot) : Prop where
  extent : AtExtent s path (extDepth s) newext.eeBlock
  index : ∀ k, k < extDepth s → PointsBelow s path k

/-- The same from level `level` on, over `d` levels of indexes. -/
def Reaches (s : State) (path : Path) (block : Nat) : Nat → Nat → Prop
  | 0, level => AtExtent s path level block
  | d+1, level => PointsBelow s path level ∧ Reaches s path block d (level + 1)

theorem reaches_iff (s : State) (path : Path) (block d level : Nat) :
    Reaches s path block d level ↔ AtExtent s path (level + d) block ∧ ∀ k, k < d → PointsBelow s path (level + k) := by
  induction d generalizing level with
  | zero => exact ⟨fun here => ⟨here,fun k none_ => absurd none_ (Nat.not_lt_zero k)⟩,fun both => both.1⟩
  | succ d ih =>
    rw [Reaches,ih,show level + 1 + d = level + (d + 1) by omega]
    constructor
    · rintro ⟨first,extent,rest⟩
      refine ⟨extent,fun k inside => ?_⟩
      cases k with
      | zero => exact first
      | succ k =>
        rw [show level + (k + 1) = level + 1 + k by omega]
        exact rest k (Nat.lt_of_succ_lt_succ inside)
    · rintro ⟨extent,index⟩
      refine ⟨index 0 (Nat.succ_pos d),extent,fun k inside => ?_⟩
      rw [show level + 1 + k = level + (k + 1) by omega]
      exact index (k + 1) (Nat.succ_lt_succ inside)

theorem pathValid_iff (s : State) (path : Path) (newext : Slot) :
    PathValid s path newext ↔ Reaches s path newext.eeBlock (extDepth s) 0 := by
  rw [reaches_iff]
  simp only [Nat.zero_add]
  exact ⟨fun valid => ⟨valid.extent,valid.index⟩,fun both => ⟨both.1,both.2⟩⟩

/-! A path that has just been found. -/

/-- Every element down to the leaf counts entries of its header's array. -/
def Plain (path : Path) (depth : Nat) : Prop := ∀ j, j ≤ depth → (path.elem j).pIn = (path.elem j).pHdr

theorem leafElem_pIn (elem : PathElem) (eh : Node) (pExt : Option Nat) : (leafElem elem eh pExt).pIn = (leafElem elem eh pExt).pHdr := by
  cases elem
  cases pExt <;> rfl

theorem findExtentLoop_plain {block depth i ppos : Nat} {s s' : State} {path path' : Path}
    (found : findExtentLoop block depth i ppos s path = (s',.ok path')) :
    (∀ j, ppos ≤ j → j ≤ ppos + i → (path'.elem j).pIn = (path'.elem j).pHdr) ∧ ∀ j, j < ppos → path'.elem j = path.elem j := by
  induction i generalizing ppos s path with
  | zero =>
    obtain ⟨_,equal⟩ := Prod.mk.inj found
    obtain rfl := Except.ok.inj equal
    refine ⟨fun j start stop => ?_,fun j before => Path.set_other _ _ (Nat.ne_of_lt before)⟩
    obtain rfl := Nat.le_antisymm stop start
    rw [Path.set_self]
    exact leafElem_pIn _ _ _
  | succ i ih =>
    rw [findExtentLoop] at found
    split at found
    · cases found
    · split at found
      · cases found
      · obtain ⟨below,kept⟩ := ih found
        refine ⟨fun j start stop => ?_,fun j before => ?_⟩
        · rcases Nat.eq_or_lt_of_le start with rfl | after
          · rw [kept ppos (Nat.lt_succ_self ppos),Path.enter,Path.set_other _ _ (Nat.ne_of_lt (Nat.lt_succ_self ppos)),Path.select,Path.set_self]
          · exact below j after (by omega)
        · rw [kept j (Nat.lt_succ_of_lt before),Path.enter,Path.set_other _ _ (by omega),Path.select,Path.set_other _ _ (Nat.ne_of_lt before)]

theorem ext4FindExtent_plain {s s' : State} {block : Nat} {origPath : Option Path} {path : Path}
    (found : ext4FindExtent s block origPath = (s',.ok path)) : Plain path (extDepth s) := by
  have loop {s₁ : State} {path₁ : Path} (found : findExtentLoop block (extDepth s) (extDepth s) 0 s₁ path₁ = (s',.ok path)) :
      Plain path (extDepth s) := fun j inside => (findExtentLoop_plain found).1 j (Nat.zero_le j) (by rw [Nat.zero_add]; exact inside)
  unfold ext4FindExtent at found
  cases origPath with
  | none => exact loop found
  | some path₀ => exact loop found

/-- Two elements point to the same entries. -/
structure PathElem.Agrees (elem elem' : PathElem) : Prop where
  pExt : elem'.pExt = elem.pExt
  pIdx : elem'.pIdx = elem.pIdx
  pIn : elem'.pIn = elem.pIn
  pHdr : elem'.pHdr = elem.pHdr

theorem PathElem.Agrees.trans {elem elem' elem'' : PathElem} (one : elem.Agrees elem') (two : elem'.Agrees elem'') : elem.Agrees elem'' :=
  ⟨two.pExt.trans one.pExt,two.pIdx.trans one.pIdx,two.pIn.trans one.pIn,two.pHdr.trans one.pHdr⟩

/-- The element is at the new entry in the new node. -/
structure SwitchedTo (trans : SplitTrans) (leaf : Bool) (elem : PathElem) : Prop where
  pHdr : elem.pHdr = trans.bh
  pIn : elem.pIn = trans.bh
  position : elem.position leaf = some trans.itemOffset

/-- The path after it has moved over at the heights whose record says so. -/
structure Switched (depth : Nat) (spt : Nat → SplitTrans) (path path' : Path) : Prop where
  goes : ∀ e, e ≤ depth → (spt e).switchTo = true → SwitchedTo (spt e) (e = 0) (path'.elem (depth - e))
  stay : ∀ e, e ≤ depth → (spt e).switchTo = false → (path.elem (depth - e)).Agrees (path'.elem (depth - e))

theorem foldl_agrees {j : Nat} {f : State × Path → Nat → State × Path} (one : ∀ s (path : Path) a, (path.elem j).Agrees ((f (s,path) a).2.elem j))
    (xs : List Nat) (s : State) (path : Path) : (path.elem j).Agrees ((xs.foldl f (s,path)).2.elem j) := by
  induction xs generalizing s path with
  | nil => exact ⟨rfl,rfl,rfl,rfl⟩
  | cons a xs ih => exact (one s path a).trans (ih _ _)

theorem ext4ExtDropRefs_agrees (s : State) (path : Path) (i : Nat) (keepOther : Bool) (j : Nat) :
    (path.elem j).Agrees ((ext4ExtDropRefs s path i keepOther).2.elem j) := by
  refine foldl_agrees (fun s path a => ?_) _ s path
  simp only
  split
  · rcases eq_or_ne j (i + a) with rfl | other
    · rw [Path.set_self]
      exact ⟨rfl,rfl,rfl,rfl⟩
    · rw [Path.set_other _ _ other]
      exact ⟨rfl,rfl,rfl,rfl⟩
  · exact ⟨rfl,rfl,rfl,rfl⟩

/-- One height after the other, from `level` down. -/
theorem switchSiblings_elem {depth level e : Nat} {spt : Nat → SplitTrans} (inside : level ≤ depth + 1) (within : e ≤ depth) (s : State)
    (path : Path) : (e < level ∧ (spt e).switchTo = true →
      SwitchedTo (spt e) (e = 0) ((switchSiblings depth spt level s path).2.elem (depth - e))) ∧
    (¬(e < level ∧ (spt e).switchTo = true) → (path.elem (depth - e)).Agrees ((switchSiblings depth spt level s path).2.elem (depth - e))) := by
  induction level generalizing s path with
  | zero => exact ⟨fun both => absurd both.1 (Nat.not_lt_zero e),fun _ => ⟨rfl,rfl,rfl,rfl⟩⟩
  | succ n ih =>
    rw [switchSiblings]
    simp only
    split
    · rename_i goes
      have agrees := ext4ExtDropRefs_agrees s path (depth - n) true (depth - e)
      generalize ext4ExtDropRefs s path (depth - n) true = dropped at agrees
      generalize moved : (if n ≠ 0 then _ else _ : PathElem) = elem
      have at_ : SwitchedTo (spt n) (n = 0) elem := by
        subst moved
        rcases Nat.eq_zero_or_pos n with rfl | positive
        · exact ⟨rfl,rfl,rfl⟩
        · rw [if_pos (Nat.ne_of_gt positive)]
          refine ⟨rfl,rfl,?_⟩
          rw [decide_eq_false (Nat.ne_of_gt positive)]
          rfl
      obtain ⟨below,beyond⟩ := ih (Nat.le_of_succ_le inside) dropped.1 (dropped.2.set (depth - n) elem)
      rcases eq_or_ne e n with rfl | other
      · refine ⟨fun _ => ?_,fun none_ => absurd ⟨Nat.lt_succ_self e,goes⟩ none_⟩
        have same := beyond fun both => Nat.lt_irrefl e both.1
        rw [Path.set_self] at same
        refine ⟨same.pHdr.trans at_.pHdr,same.pIn.trans at_.pIn,?_⟩
        rw [← at_.position,PathElem.position,PathElem.position,same.pExt,same.pIdx]
      · rw [Path.set_other _ _ (show depth - e ≠ depth - n by omega)] at beyond
        exact ⟨fun both => below ⟨by omega,both.2⟩,fun none_ => agrees.trans (beyond fun both => none_ ⟨by omega,both.2⟩)⟩
    · rename_i stays
      refine ⟨fun both => (ih (Nat.le_of_succ_le inside) _ path).1 ⟨?_,both.2⟩,
        fun none_ => (ih (Nat.le_of_succ_le inside) _ path).2 fun both => none_ ⟨Nat.lt_succ_of_lt both.1,both.2⟩⟩
      rcases Nat.eq_or_lt_of_le (Nat.le_of_lt_succ both.1) with rfl | lower
      · exact absurd both.2 stays
      · exact lower

theorem switchSiblings_switched {depth level : Nat} {spt : Nat → SplitTrans} (rest : ∀ e, level ≤ e → (spt e).switchTo = false)
    (inside : level ≤ depth + 1) (s : State) (path : Path) : Switched depth spt path (switchSiblings depth spt level s path).2 := by
  refine ⟨fun e within goes => (switchSiblings_elem inside within s path).1 ⟨?_,goes⟩,
    fun e within kept => (switchSiblings_elem inside within s path).2 fun both => ?_⟩
  · by_contra beyond
    rw [rest e (Nat.not_lt.mp beyond)] at goes
    cases goes
  · rw [kept] at both
    cases both.2

/-! The new nodes that are recorded. -/

/-- The new nodes lead from height `e` down to the extent, each by the entry that was put into it. -/
def Reached (s : State) (spt : Nat → SplitTrans) (block : Nat) : Nat → Prop
  | 0 => ∃ b y, (spt 0).bh = some b ∧ (slots (s.node b))[(spt 0).itemOffset]? = some y ∧ covers y block
  | e+1 => (∃ b y, (spt (e + 1)).bh = some b ∧ (slots (s.node b))[(spt (e + 1)).itemOffset]? = some y ∧
      (spt e).bh = some (ext4IdxPblock y)) ∧ Reached s spt block e

/-- One of the new nodes does not lead to the next. -/
def Missed (s : State) (spt : Nat → SplitTrans) (e : Nat) : Prop := ∃ j b c, j < e ∧ (spt (j + 1)).bh = some b ∧
  (spt j).bh = some c ∧ ∀ y ∈ slots (s.node b), ext4IdxPblock y ≠ c

section Switched
variable {s : State} {depth e block : Nat} {spt : Nat → SplitTrans} {path path' : Path} (switched : Switched depth spt path path')
include switched

theorem Reached.reaches (inside : e ≤ depth) (all : ∀ j, j ≤ e → (spt j).switchTo = true) (reached : Reached s spt block e) :
    Reaches s path' block e (depth - e) := by
  induction e with
  | zero =>
    obtain ⟨b,y,bh,entry,covered⟩ := reached
    have at_ := switched.goes 0 inside (all 0 (Nat.le_refl 0))
    refine ⟨(spt 0).itemOffset,y,at_.position,?_,covered⟩
    rw [at_.pIn,bh]
    exact entry
  | succ e ih =>
    obtain ⟨⟨b,y,bh,entry,below⟩,rest⟩ := reached
    have at_ := switched.goes (e + 1) inside (all (e + 1) (Nat.le_refl _))
    have next := switched.goes e (Nat.le_of_succ_le inside) (all e (Nat.le_succ e))
    have level : depth - (e + 1) + 1 = depth - e := by omega
    rw [Reaches,level]
    refine ⟨⟨(spt (e + 1)).itemOffset,y,at_.position,at_.pIn.trans at_.pHdr.symm,?_,?_⟩,
      ih (Nat.le_of_succ_le inside) (fun j less => all j (Nat.le_succ_of_le less)) rest⟩
    · rw [at_.pHdr,bh]
      exact entry
    · rw [level,next.pHdr]
      exact below

theorem Missed.not_reaches (inside : e ≤ depth) (all : ∀ j, j ≤ e → (spt j).switchTo = true) (missed : Missed s spt e) :
    ¬Reaches s path' block e (depth - e) := by
  induction e with
  | zero =>
    obtain ⟨j,_,_,less,_⟩ := missed
    exact absurd less (Nat.not_lt_zero j)
  | succ e ih =>
    obtain ⟨j,b,c,less,bh,next,none_⟩ := missed
    have level : depth - (e + 1) + 1 = depth - e := by omega
    rw [Reaches,level]
    rintro ⟨⟨i,y,_,_,entry,below⟩,rest⟩
    rcases Nat.eq_or_lt_of_le (Nat.le_of_lt_succ less) with rfl | lower
    · rw [(switched.goes (j + 1) inside (all (j + 1) (Nat.le_refl _))).pHdr,bh] at entry
      rw [level,(switched.goes j (Nat.le_of_succ_le inside) (all j (Nat.le_succ j))).pHdr,next] at below
      exact none_ y (List.mem_of_getElem? entry) (Option.some.inj below).symm
    · exact ih (Nat.le_of_succ_le inside) (fun j less => all j (Nat.le_succ_of_le less)) ⟨j,b,c,lower,bh,next,none_⟩ rest

end Switched

/-- What is recorded up to height `e`, where the key of the new node is `key`: the path moves over to all of the new nodes or to none,
and the new extent is below the last of them or not. -/
structure Trail (s : State) (spt : Nat → SplitTrans) (switchTo : Bool) (block e key : Nat) (taken : List Nat) : Prop where
  records : ∀ j, j ≤ e → (spt j).switchTo = switchTo ∧ ∃ b ∈ taken, (spt j).bh = some b
  goes : key ≤ block → switchTo = true ∧ Reached s spt block e
  stay : block < key → switchTo = false ∨ Missed s spt e
  rest : ∀ j, e < j → (spt j).switchTo = false

theorem Reached.frame {s s' : State} {spt spt' : Nat → SplitTrans} {block e : Nat} (reached : Reached s spt block e)
    (kept : ∀ j, j ≤ e → spt' j = spt j) (same : ∀ j, j ≤ e → ∀ b, (spt j).bh = some b → s'.node b = s.node b) : Reached s' spt' block e := by
  induction e with
  | zero =>
    obtain ⟨b,y,bh,entry,covered⟩ := reached
    rw [Reached,kept 0 (Nat.le_refl 0)]
    exact ⟨b,y,bh,by rw [same 0 (Nat.le_refl 0) b bh]; exact entry,covered⟩
  | succ e ih =>
    obtain ⟨⟨b,y,bh,entry,below⟩,rest⟩ := reached
    rw [Reached,kept (e + 1) (Nat.le_refl _),kept e (Nat.le_succ e)]
    exact ⟨⟨b,y,bh,by rw [same (e + 1) (Nat.le_refl _) b bh]; exact entry,below⟩,
      ih rest (fun j less => kept j (Nat.le_succ_of_le less)) fun j less => same j (Nat.le_succ_of_le less)⟩

theorem Missed.frame {s s' : State} {spt spt' : Nat → SplitTrans} {e : Nat} (missed : Missed s spt e) (kept : ∀ j, j ≤ e → spt' j = spt j)
    (same : ∀ j, j ≤ e → ∀ b, (spt j).bh = some b → s'.node b = s.node b) : Missed s' spt' e := by
  obtain ⟨j,b,c,less,bh,next,apart⟩ := missed
  refine ⟨j,b,c,less,by rw [kept (j + 1) less]; exact bh,by rw [kept j (Nat.le_of_lt less)]; exact next,?_⟩
  rw [same (j + 1) less b bh]
  exact apart

/-- The first of the records. -/
theorem Recorded.trail {s : State} {spt : Nat → SplitTrans} {newblock : SplitTrans} {x : Slot} {ix sibling : Nat}
    (recorded : Recorded x ix sibling false newblock) (none_ : ∀ j, (spt j).switchTo = false) (some_ : x.eeBlock < extentStop x)
    (goes : newblock.index ≤ x.eeBlock → ix = 0 ∧ ∃ rest, slots (s.node sibling) = x::rest) :
    Trail s (Function.update spt 0 newblock) newblock.switchTo x.eeBlock 0 newblock.index [sibling] := by
  refine ⟨fun j least => ?_,fun reached => ⟨recorded.goes reached,?_⟩,fun short => Or.inl (recorded.stay short),fun j above => ?_⟩
  · obtain rfl := Nat.le_zero.mp least
    rw [Function.update_self]
    exact ⟨rfl,sibling,List.mem_singleton_self _,recorded.bh⟩
  · obtain ⟨rfl,rest,array⟩ := goes reached
    rw [Reached,Function.update_self,recorded.itemOffset,recorded.bh]
    exact ⟨sibling,x,rfl,by rw [array]; rfl,Nat.le_refl _,some_⟩
  · rw [Function.update_of_ne (Nat.ne_of_gt above)]
    exact none_ j

section Trail
variable {s s' : State} {spt : Nat → SplitTrans} {switchTo : Bool} {block e key : Nat} {taken : List Nat}
  (trail : Trail s spt switchTo block e key taken)
include trail

theorem Trail.nodes (same : ∀ b ∈ taken, s'.node b = s.node b) (j : Nat) (less : j ≤ e) (b : Nat) (bh : (spt j).bh = some b) :
    s'.node b = s.node b := by
  obtain ⟨_,b',member,bh'⟩ := trail.records j less
  obtain rfl := Option.some.inj (bh.symm.trans bh')
  exact same b member

theorem Trail.frame (same : ∀ b ∈ taken, s'.node b = s.node b) : Trail s' spt switchTo block e key taken :=
  ⟨trail.records,fun reached => ⟨(trail.goes reached).1,(trail.goes reached).2.frame (fun _ _ => rfl) (trail.nodes same)⟩,
    fun short => (trail.stay short).imp_right fun missed => missed.frame (fun _ _ => rfl) (trail.nodes same),trail.rest⟩

/-- The record of the next split: the new node has the index of the last one, or it does not. -/
theorem Trail.up {newext : Slot} {newblock : SplitTrans} {ix sibling c : Nat} (recorded : Recorded newext ix sibling switchTo newblock)
    (block_ : newext.eeBlock = block) (same : ∀ b ∈ taken, s'.node b = s.node b) (last : (spt e).bh = some c)
    (next : (newblock.index = key ∧ ∃ y, (slots (s'.node sibling))[ix]? = some y ∧ ext4IdxPblock y = c) ∨
      block < newblock.index ∧ ∀ y ∈ slots (s'.node sibling), ext4IdxPblock y ≠ c) :
    Trail s' (Function.update spt (e + 1) newblock) newblock.switchTo block (e + 1) newblock.index (sibling::taken) := by
  subst block_
  have kept (j : Nat) (less : j ≤ e) : Function.update spt (e + 1) newblock j = spt j :=
    Function.update_of_ne (Nat.ne_of_lt (Nat.lt_succ_of_le less)) _ _
  have nodes := trail.nodes same
  -- no record says anything else than the first
  have switch : newblock.switchTo = switchTo := by
    rcases Nat.lt_or_ge newext.eeBlock newblock.index with short | reached
    · exact recorded.stay short
    · rcases next with ⟨index,_⟩ | ⟨beyond,_⟩
      · rw [recorded.goes reached,(trail.goes (index ▸ reached)).1]
      · exact absurd beyond (Nat.not_lt.mpr reached)
  refine ⟨fun j least => ?_,fun reached => ⟨recorded.goes reached,?_⟩,fun short => ?_,fun j above => ?_⟩
  · rcases Nat.eq_or_lt_of_le least with rfl | less
    · rw [Function.update_self]
      exact ⟨rfl,sibling,List.mem_cons_self,recorded.bh⟩
    · obtain ⟨old,b,member,bh⟩ := trail.records j (Nat.le_of_lt_succ less)
      rw [kept j (Nat.le_of_lt_succ less),switch]
      exact ⟨old,b,List.mem_cons_of_mem _ member,bh⟩
  · rcases next with ⟨index,y,entry,points⟩ | ⟨beyond,_⟩
    · refine ⟨⟨sibling,y,?_,?_,?_⟩,(trail.goes (index ▸ reached)).2.frame kept nodes⟩
      · rw [Function.update_self]
        exact recorded.bh
      · rw [Function.update_self,recorded.itemOffset]
        exact entry
      · rw [kept e (Nat.le_refl e),points]
        exact last
    · exact absurd beyond (Nat.not_lt.mpr reached)
  · rcases next with ⟨index,_⟩ | ⟨_,apart⟩
    · rcases trail.stay (index ▸ short) with none_ | ⟨j,b,c',less,bh,below,apart⟩
      · exact Or.inl (switch.trans none_)
      · obtain ⟨j',b',c'',less',rest⟩ := Missed.frame ⟨j,b,c',less,bh,below,apart⟩ kept nodes
        exact Or.inr ⟨j',b',c'',Nat.lt_succ_of_lt less',rest⟩
    · refine Or.inr ⟨e,sibling,c,Nat.lt_succ_self e,?_,?_,apart⟩
      · rw [Function.update_self]
        exact recorded.bh
      · rw [kept e (Nat.le_refl e)]
        exact last
  · rw [Function.update_of_ne (Nat.ne_of_gt above)]
    exact trail.rest j (Nat.lt_of_succ_lt above)

/-- The index of the last new node has been put into the node above, which the path stays in. -/
theorem Trail.reaches {depth i k : Nat} {path path' : Path} {y : Slot} (inside : e + 1 ≤ depth) (switched : Switched depth spt path path')
    (position : (path.elem (depth - (e + 1))).pIdx = some i)
    (own : (path.elem (depth - (e + 1))).pIn = (path.elem (depth - (e + 1))).pHdr)
    (entry : (slots (s.hdr (path.elem (depth - (e + 1))).pHdr))[i]? = some y) (below : (spt e).bh = some (ext4IdxPblock y))
    (old : (path.elem (depth - e)).pHdr = some k) (apart : k ≠ ext4IdxPblock y) :
    Reaches s path' block (e + 1) (depth - (e + 1)) ↔ key ≤ block := by
  have level : depth - (e + 1) + 1 = depth - e := by omega
  have top := switched.stay (e + 1) inside (trail.rest (e + 1) (Nat.lt_succ_self e))
  obtain ⟨switch,_⟩ := trail.records e (Nat.le_refl e)
  rw [Reaches,level]
  constructor
  · rintro ⟨⟨i',y',position',_,entry',next⟩,rest⟩
    by_contra short
    rw [top.pIdx,position] at position'
    obtain rfl := Option.some.inj position'
    rw [top.pHdr,entry] at entry'
    obtain rfl := Option.some.inj entry'
    rcases trail.stay (Nat.not_le.mp short) with none_ | missed
    · rw [level,(switched.stay e (Nat.le_of_succ_le inside) (switch.trans none_)).pHdr,old] at next
      exact apart (Option.some.inj next)
    · cases switchTo with
      | false =>
        rw [level,(switched.stay e (Nat.le_of_succ_le inside) switch).pHdr,old] at next
        exact apart (Option.some.inj next)
      | true => exact missed.not_reaches switched (Nat.le_of_succ_le inside) (fun j less => (trail.records j less).1) rest
  · intro reached
    obtain ⟨rfl,reached⟩ := trail.goes reached
    refine ⟨⟨i,y,top.pIdx.trans position,?_,?_,?_⟩,reached.reaches switched (Nat.le_of_succ_le inside) fun j less => (trail.records j less).1⟩
    · rw [top.pIn,own,top.pHdr]
    · rw [top.pHdr]
      exact entry
    · rw [level,(switched.goes e (Nat.le_of_succ_le inside) switch).pHdr]
      exact below

end Trail

end Ext4Fuse.Extents
