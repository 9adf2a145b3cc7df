import Ext4Fuse.Extents.InsertTree

/-! A round of `ext4_ext_insert_extent`: from the leaf up to the level that has a free entry, or to the root. -/
namespace Ext4Fuse.Extents
open Machine Ext4Fuse.Types Super Library.Partial Library.Segments

theorem tiled_kid {d : Nat} {l r : List (Kid (Tree d))} {k : Kid (Tree d)} {low high stop : Nat} (wf : Tiled (kidAt d) low (l ++ k::r) high)
    (beyond : ∀ y ∈ r, stop ≤ y.key) (within : stop ≤ high) :
    ∃ middle, Tiled (kidAt d) low l k.key ∧ kidAt d k k.key middle ∧ Tiled (kidAt d) middle r high ∧ stop ≤ middle := by
  obtain ⟨a,b,left,⟨rfl,some_,inside⟩,right⟩ := (tiled_middle l r k).mp wf
  cases r with
  | nil => exact ⟨high,left,⟨rfl,some_,wf_widen inside (Nat.le_refl _) right⟩,Nat.le_refl high,within⟩
  | cons y r =>
    obtain ⟨a',b',start,item,rest⟩ := right
    obtain rfl := item.1
    exact ⟨y.key,left,⟨rfl,some_,wf_widen inside (Nat.le_refl _) start⟩,⟨y.key,b',Nat.le_refl _,item,rest⟩,beyond y List.mem_cons_self⟩

/-- Where the path leads in the tree in `b`, the node at level `level` holds `t`, in which the new extent has its place. -/
structure Way (b : State) (room : Nat) (path : Path) (x : Slot) (blocks : List Nat) (d : Nat) (t : Tree d) (at_ : Option Nat)
    (limit level low high : Nat) : Prop where
  led : Led x.eeBlock path d t at_ level
  holds : Holds b.node room d limit (b.hdr at_) t
  wf : Wf d low t high
  distinct : (foot d t).Nodup
  clear : ∀ c ∈ foot d t, at_ ≠ some c
  listed : ∀ c ∈ foot d t, c ∈ blocks
  own : ∀ c, at_ = some c → c ∈ blocks
  new : NewExtent x (flat d t)
  gap : ∀ c ∈ keys d t, c ≤ x.eeBlock ∨ extentStop x ≤ c
  start : low ≤ x.eeBlock
  stop : extentStop x ≤ high

section Way
variable {b : State} {room : Nat} {path : Path} {x : Slot} {blocks : List Nat} {d : Nat} {t : Tree (d + 1)} {at_ : Option Nat}
  {limit level low high : Nat}

theorem Way.down (way : Way b room path x blocks (d + 1) t at_ limit level low high) :
    ∃ l k r middle, kidsOf t = l ++ k::r ∧ (path.elem level).pHdr = at_ ∧ (path.elem level).pIdx = some l.length ∧
      Tiled (kidAt d) low l k.key ∧ Tiled (kidAt d) middle r high ∧ Spot b room limit d at_ l k r blocks ∧
      Way b room path x blocks d k.tree (some k.block) room (level + 1) k.key middle := by
  obtain ⟨pHdr,l,k,r,chosen,key,position,below⟩ := way.led
  have parts := chosen.parts
  have lists : t = (l ++ k::r : List (Kid (Tree d))) := parts
  have keyed (y : Kid (Tree d)) (member : y ∈ l ++ k::r) (c : Nat) (here : c ∈ y.key::keys d y.tree) : c ≤ x.eeBlock ∨ extentStop x ≤ c := by
    refine way.gap c ?_
    rw [lists]
    exact List.mem_flatMap.mpr ⟨y,member,here⟩
  have here : k ∈ l ++ k::r := List.mem_append_right _ List.mem_cons_self
  have wf := (wf_succ d low high t).mp way.wf
  rw [parts] at wf
  obtain ⟨middle,left,item,right,stop⟩ := tiled_kid wf (fun y member => (keyed y
    (List.mem_append_right _ (List.mem_cons_of_mem _ member)) y.key List.mem_cons_self).resolve_left
      (Nat.not_le.mpr (chosen.above y member))) way.stop
  have holds := way.holds
  have distinct := way.distinct
  have clear := way.clear
  have listed := way.listed
  have new := way.new
  rw [lists] at holds distinct clear listed new
  have inside (c : Nat) (member : c ∈ k.block::foot d k.tree) : c ∈ footOf (l ++ k::r) := mem_footOf.mpr ⟨k,here,member⟩
  have own : (k.block::foot d k.tree).Nodup := by
    rw [foot_succ,footOf_append,footOf_cons] at distinct
    exact (List.nodup_append.mp (List.nodup_append.mp distinct).2.1).1
  refine ⟨l,k,r,middle,parts,pHdr,position,left,right,⟨holds,distinct,clear,listed,way.own⟩,?_⟩
  refine ⟨below,(holds_index.mp holds).2.2 k here,item.2.2,(List.nodup_cons.mp own).2,fun c member equal => ?_,
    fun c member => listed c (inside c (List.mem_cons_of_mem _ member)),fun c equal => ?_,new.sub fun y member => ?_,
    fun c member => keyed k here c (List.mem_cons_of_mem _ member),key,stop⟩
  · exact (List.nodup_cons.mp own).1 (Option.some.inj equal ▸ member)
  · obtain rfl := Option.some.inj equal
    exact listed _ (inside _ List.mem_cons_self)
  · exact List.mem_flatMap.mpr ⟨k,here,member⟩

end Way

/-! The index of the new child goes into the node above. -/

theorem ext4ExtBlockIndex_lt (s : State) (bh : Nat) : ext4ExtBlockIndex s bh < 2^32 := by
  unfold ext4ExtBlockIndex
  simp only
  split
  · exact ((s.node bh).slot 0).word0.toNat_lt
  · exact ((s.node bh).slot 0).word0.toNat_lt

theorem Regrown.below {b s' : State} {room d : Nat} {k k₁ k₂ : Kid (Tree d)} {x : Slot} {taken : List Nat} {high : Nat}
    (regrown : Regrown b s' room d k [k₁,k₂] x taken high) : k.key < k₂.key := by
  obtain ⟨a,middle,start,⟨rfl,some_,inside⟩,a',_,next,⟨rfl,_,_⟩,_⟩ := regrown.wf
  obtain ⟨y,member⟩ := List.exists_mem_of_ne_nil _ (flat_ne_nil inside some_)
  have bounds := wf_bounds inside member
  omega

theorem Spot.entry {b : State} {room limit d : Nat} {at_ : Option Nat} {l r : List (Kid (Tree d))} {k : Kid (Tree d)} {blocks : List Nat}
    (spot : Spot b room limit d at_ l k r blocks) : l.length < (b.hdr at_).ehEntries ∧
      (slots (b.hdr at_))[l.length]? = some ((b.hdr at_).slot l.length) ∧ pointer ((b.hdr at_).slot l.length) = (k.key,k.block) := by
  obtain ⟨_,pointers,_⟩ := holds_index.mp spot.holds
  have count : (b.hdr at_).ehEntries = (l ++ k::r).length := by
    rw [← slots_length,← List.length_map,pointers,List.length_map]
  have inside : l.length < (b.hdr at_).ehEntries := by
    rw [count,List.length_append,List.length_cons]
    omega
  refine ⟨inside,slot_mem inside,?_⟩
  have both := congrArg (·[l.length]?) pointers
  rw [List.getElem?_map,slot_mem inside,Option.map_some] at both
  refine Option.some.inj (both.trans ?_)
  change ((l ++ k::r).map _)[l.length]? = _
  rw [List.getElem?_map,List.getElem?_append_right (Nat.le_refl _),Nat.sub_self]
  rfl

section Index
variable {b s' : State} {path path' : Path} {room limit d level depth : Nat} {at_ : Option Nat} {l r : List (Kid (Tree d))}
  {k k₁ k₂ : Kid (Tree d)} {x : Slot} {taken blocks : List Nat} {middle : Nat} {spt : Nat → SplitTrans}
  (spot : Spot b room limit d at_ l k r blocks) (owned : Owned s' room taken blocks)
  (regrown : Regrown b s' room d k [k₁,k₂] x taken middle) (levels : level + (d + 1) = depth) (deep : extDepth b = depth)
  (lower : depth < 2^16) (fits : RoomFits room) (most : limit ≤ room) (location : (path'.elem level).pHdr = at_)
  (position : (path'.elem level).pIdx = some l.length) (index : (spt d).index = k₂.key) (ptr : (spt d).ptr = k₂.block)
  (small : k₂.key < 2^32) (member : k₂.block ∈ taken)
include spot owned regrown levels deep lower fits most location position index ptr small member

theorem Spot.index_result (newblock : SplitTrans) : Ensures (insertLevel x depth level s' path' newblock spt)
    (IndexResult s' path' x newblock.switchTo level l.length k₂.key k₂.block (d + 1) room (taken ++ blocks)) := by
  obtain ⟨header,_,_⟩ := holds_index.mp spot.holds
  have root : s'.hdr none = b.hdr none := regrown.other none fun c _ => nofun
  have ready : Ready s' depth room (taken ++ blocks) := ⟨(congrArg Node.ehDepth root).trans deep,owned.space,owned.reserved⟩
  have height : depth - level = d + 1 := by omega
  obtain ⟨inside,_,entry⟩ := spot.entry
  have own := spot.kept owned regrown
  unfold insertLevel
  rw [height]
  simp only
  rw [if_neg (Nat.succ_ne_zero d),Nat.succ_sub_one,index,ptr]
  have result := @ext4ExtInsertIndex_result s' path' x level depth room limit l.length k₂.key k₂.block (taken ++ blocks) ready fits most
    (by omega) lower (by rw [location,own,height]; exact header) position (by rw [location,own]; exact inside)
    (by
      rw [location,own]
      exact lt_of_eq_of_lt (Prod.mk.inj entry).1 regrown.below)
    small (owned.small _ member) (fun c equal => List.mem_append_right _ (spot.own c (location.symm.trans equal))) newblock
  rw [height] at result
  exact result

end Index

/-- The loop after one level. -/
theorem insertLoop_cases {x : Slot} {depth level : Nat} {s : State} {path : Path} {newblock : SplitTrans} {spt : Nat → SplitTrans}
    {r : LoopResult} (result : insertLoop x depth level s path newblock spt = some r) :
    ∃ s' path' newblock' ret, insertLevel x depth level s path newblock spt = some (s',path',newblock',ret) ∧
      ((ret ≠ .ok ∨ newblock'.ptr = 0) ∧ r = (s',path',newblock',spt,ret) ∨ ret = .ok ∧ newblock'.ptr ≠ 0 ∧
        (level = 0 ∧ r = (s',path',newblock',Function.update spt depth newblock',ret) ∨ ∃ above, level = above + 1 ∧
          insertLoop x depth above s' path' newblock' (Function.update spt (depth - level) newblock') = some r)) := by
  unfold insertLoop at result
  obtain ⟨⟨s',path',newblock',ret⟩,found,result⟩ := Option.bind_eq_some_iff.mp result
  refine ⟨s',path',newblock',ret,found,?_⟩
  simp only at result
  split at result
  · rename_i last
    exact Or.inl ⟨last,(Option.some.inj result).symm⟩
  · rename_i more
    rw [not_or,not_not] at more
    refine Or.inr ⟨more.1,more.2,?_⟩
    cases level with
    | zero => exact Or.inl ⟨rfl,(Option.some.inj result).symm⟩
    | succ above => exact Or.inr ⟨above,rfl,result⟩

theorem Owned.same_volume {s s' : State} {room : Nat} {taken blocks : List Nat} (owned : Owned s room taken blocks) (same : s'.volume = s.volume) :
    Owned s' room taken blocks := by
  refine ⟨?_,same ▸ owned.reserved,owned.distinct,owned.small⟩
  rw [ext4ExtSpaceBlock,same]
  exact owned.space

/-! Where the path leads. -/

theorem Spot.fits {b : State} {room limit d : Nat} {at_ : Option Nat} {l r : List (Kid (Tree d))} {k : Kid (Tree d)} {blocks : List Nat}
    (spot : Spot b room limit d at_ l k r blocks) : (b.hdr at_).ehEntries ≤ (b.hdr at_).ehMax := by
  have header := (holds_index.mp spot.holds).1
  rw [header.entries]
  exact header.fits

/-- The children behind begin behind the extent. -/
theorem Way.beyond {b : State} {room : Nat} {path : Path} {x : Slot} {blocks : List Nat} {d : Nat} {t : Tree d} {at_ : Option Nat}
    {limit level low middle high : Nat} {r : List (Kid (Tree d))} (way : Way b room path x blocks d t at_ limit level low middle)
    (right : Tiled (kidAt d) middle r high) (y : Kid (Tree d)) (member : y ∈ r) : x.eeBlock < y.key := by
  obtain ⟨a,_,start,⟨rfl,_⟩,_⟩ := right.bounds (kidAt_forward d) member
  have := way.stop
  have := way.new.some_
  omega

theorem Children.apart {b s' : State} {room limit d : Nat} {at_ : Option Nat} {l r : List (Kid (Tree d))} {k k₁ k₂ : Kid (Tree d)} {x : Slot}
    {taken blocks : List Nat} {low high : Nat} (children : Children s' room d l k r [k₁,k₂] x taken low high)
    (spot : Spot b room limit d at_ l k r blocks) (owned : Owned s' room taken blocks) (y : Kid (Tree d)) (member : y ∈ r) :
    y.block ≠ k₂.block := by
  have all := children.blocks.nodup_iff.mpr (List.nodup_append.mpr ⟨(List.nodup_append.mp owned.distinct).1,spot.distinct,
    fun c new c' old equal => owned.fresh new (spot.listed c (equal ▸ old))⟩)
  rw [show l ++ [k₁,k₂] ++ r = (l ++ [k₁]) ++ k₂::r by simp] at all
  exact fun equal => foot_beside all (List.mem_append_right _ member) List.mem_cons_self (equal ▸ List.mem_cons_self)

theorem extHasFreeIndex_full {s : State} {elem : PathElem} (full : (s.hdr elem.pHdr).ehEntries = (s.hdr elem.pHdr).ehMax) :
    extHasFreeIndex s elem = false := decide_eq_false (by rw [full]; exact Nat.lt_irrefl _)

theorem extHasFreeIndex_free {s : State} {elem : PathElem} (fits : (s.hdr elem.pHdr).ehEntries ≤ (s.hdr elem.pHdr).ehMax)
    (free : (s.hdr elem.pHdr).ehEntries ≠ (s.hdr elem.pHdr).ehMax) : extHasFreeIndex s elem = true :=
  decide_eq_true (Nat.lt_of_le_of_ne fits free)

section Path
variable {b s' s'' : State} {path path' path₁ : Path} {room limit d level depth n : Nat} {at_ : Option Nat} {l r ks : List (Kid (Tree d))}
  {k k₁ k₂ : Kid (Tree d)} {x : Slot} {taken blocks : List Nat} {middle : Nat} {spt : Nat → SplitTrans} {newblock newblock₁ : SplitTrans}
  (spot : Spot b room limit d at_ l k r blocks) (owned : Owned s' room taken blocks) (levels : level + (d + 1) = depth)
  (pHdr : (path.elem level).pHdr = at_) (pIdx : (path.elem level).pIdx = some l.length) (below : (path.elem (level + 1)).pHdr = some k.block)
include spot owned levels pHdr pIdx below

/-- A node whose child has been seen to. -/
theorem Arrived.up (regrown : Regrown b s' room d k ks x taken middle) (plain : (path.elem level).pIn = (path.elem level).pHdr)
    (arrived : Arrived b s' path path' spt x depth d n) : Arrived b s' path path' spt x depth (d + 1) n := by
  obtain rfl : depth - (d + 1) = level := by omega
  have next : depth - (d + 1) + 1 = depth - d := by omega
  have kept := arrived.kept (depth - (d + 1)) (by omega)
  refine ⟨Nat.le_succ_of_le arrived.inside,arrived.full,arrived.free,arrived.rest,by rw [kept],fun j less => arrived.kept j (by omega),
    fun path'' switched => ?_⟩
  have top := switched.stay (d + 1) (by omega) (arrived.rest _ (Nat.le_succ_of_le arrived.inside))
  rw [← arrived.reaches path'' switched,Reaches,next]
  refine and_iff_right ⟨l.length,(b.hdr at_).slot l.length,?_,?_,?_,?_⟩
  · rw [top.pIdx,kept,pIdx]
  · rw [top.pIn,top.pHdr,kept,plain]
  · rw [top.pHdr,kept,pHdr,spot.kept owned regrown]
    exact spot.entry.2.1
  · rw [next] at below ⊢
    rw [(switched.stay d (by omega) (arrived.rest d arrived.inside)).pHdr,arrived.pHdr,below]
    exact congrArg some (Prod.mk.inj spot.entry.2.2).2.symm

section Linked
variable (regrown : Regrown b s' room d k [k₁,k₂] x taken middle) (kept : ∀ j, j ≤ level → path'.elem j = path.elem j)
  (stays : (path'.elem (level + 1)).pHdr = (path.elem (level + 1)).pHdr) (crossed : Crossed b path x depth d k₂.key)
  (trail : Trail s' spt newblock.switchTo x.eeBlock d k₂.key taken) (last : (spt d).bh = some k₂.block) (member : k₂.block ∈ taken)
include regrown kept stays crossed trail last member

/-- A node that has linked the last new node. -/
theorem Trail.arrived (fits : (b.hdr at_).ehEntries ≤ (b.hdr at_).ehMax)
    (notFull : (s'.hdr (path'.elem level).pHdr).ehEntries ≠ (s'.hdr (path'.elem level).pHdr).ehMax)
    (free : IndexFree s' path' level l.length k₂.key k₂.block s'' path₁) : Arrived b s'' path path₁ spt x depth (d + 1) (d + 1) := by
  obtain rfl : depth - (d + 1) = level := by omega
  have next : depth - (d + 1) + 1 = depth - d := by omega
  have own := kept _ (Nat.le_refl _)
  have location : (path'.elem (depth - (d + 1))).pHdr = at_ := by rw [own,pHdr]
  have same := spot.kept owned regrown
  obtain ⟨y,new,array⟩ := free.placed
  have inside := spot.entry.1
  rw [location,same] at notFull array
  have framed : Trail s'' spt newblock.switchTo x.eeBlock d k₂.key taken := by
    refine trail.frame fun c taken_ => free.other (some c) fun equal => ?_
    exact owned.fresh taken_ (spot.own c (location.symm.trans equal.symm))
  have apart : k.block ≠ ext4IdxPblock y := by
    rw [show ext4IdxPblock y = k₂.block from (Prod.mk.inj new).2]
    intro equal
    exact owned.fresh member (equal ▸ spot.listed _ (mem_footOf.mpr ⟨k,List.mem_append_right _ List.mem_cons_self,List.mem_cons_self⟩))
  refine ⟨Nat.le_refl _,fun j less => crossed.full j (Nat.le_of_lt_succ less),extHasFreeIndex_free (by rw [pHdr]; exact fits) (by rw [pHdr]; exact notFull),
    fun j least => trail.rest j least,by rw [free.pHdr,own],fun j less => ?_,fun path'' switched => ?_⟩
  · rw [free.kept j (Nat.ne_of_lt less),kept j (Nat.le_of_lt less)]
  · rw [framed.reaches (by omega) switched free.pIdx (free.pIn.trans free.pHdr.symm) (y := y) (k := k.block) ?_ ?_ ?_ apart,crossed.goes]
    · exact ⟨fun all j less => all j (Nat.le_of_lt_succ less),fun all j least => all j (Nat.lt_succ_of_le least)⟩
    · rw [free.pHdr,location,array]
      exact withSlot_getElem (by rw [slots_length]; exact inside) y
    · rw [last]
      exact congrArg some (Prod.mk.inj new).2.symm
    · rw [← next,free.kept _ (Nat.succ_ne_self _),stays,below]

/-- A node that was split to link the last new node: the index goes to the new half, with which the path goes on, or it does not. -/
theorem Trail.climbs {ix sibling : Nat} {e : Kid (Tree d)} {rest : List (Kid (Tree d))}
    (full : (s'.hdr (path'.elem level).pHdr).ehEntries = (s'.hdr (path'.elem level).pHdr).ehMax)
    (recorded : Recorded x ix sibling newblock.switchTo newblock₁) (index : newblock₁.index = e.key)
    (first : ownHalf (s'.hdr (path'.elem level).pHdr).ehMax l.length true = false → ix = 0)
    (split : IndexSplit s' path' level l.length k₂.key k₂.block (d + 1) room (taken ++ blocks) s'' path₁ sibling)
    (holds : Holds s''.node room (d + 1) room (s''.node sibling) (e::rest : List (Kid (Tree d))))
    (own : ownHalf (b.hdr at_).ehMax l.length true = true → e::rest = r)
    (goes : ownHalf (b.hdr at_).ehMax l.length true = false → e::rest = k₂::r) (beyond : ∀ y ∈ r, x.eeBlock < y.key)
    (apart : ∀ y ∈ r, y.block ≠ k₂.block) : Crossed b path x depth (d + 1) e.key ∧
      Trail s'' (Function.update spt (d + 1) newblock₁) newblock₁.switchTo x.eeBlock (d + 1) e.key (sibling::taken) := by
  obtain rfl : depth - (d + 1) = level := by omega
  have location : (path'.elem (depth - (d + 1))).pHdr = at_ := by rw [kept _ (Nat.le_refl _),pHdr]
  rw [location,spot.kept owned regrown] at full first
  obtain ⟨_,pointers,_⟩ := holds_index.mp holds
  have crossing : crossesAt b path x depth (d + 1) = !ownHalf (b.hdr at_).ehMax l.length true := by
    simp only [crossesAt,Nat.succ_ne_zero,if_false,pIdx,Option.any_some,pHdr]
  -- whether the extent is below the new half
  have halves : (ownHalf (b.hdr at_).ehMax l.length true = false ∧ ix = 0 ∧ newblock₁.index = k₂.key ∧
      ∃ y, (slots (s''.node sibling))[ix]? = some y ∧ ext4IdxPblock y = k₂.block) ∨
      ownHalf (b.hdr at_).ehMax l.length true = true ∧ x.eeBlock < newblock₁.index ∧
        ∀ y ∈ slots (s''.node sibling), ext4IdxPblock y ≠ k₂.block := by
    cases half : ownHalf (b.hdr at_).ehMax l.length true with
    | false =>
      obtain rfl := first half
      obtain ⟨rfl,rfl⟩ := List.cons.inj (goes half)
      obtain ⟨z,zs,cells⟩ := List.exists_cons_of_ne_nil split.right
      rw [cells,List.map_cons] at pointers
      exact Or.inl ⟨rfl,rfl,index,z,by rw [cells]; rfl,(Prod.mk.inj (List.cons.inj pointers).1).2⟩
    | true =>
      have list := own half
      refine Or.inr ⟨rfl,index ▸ beyond e (list ▸ List.mem_cons_self),fun y inside => ?_⟩
      have listed := List.mem_map_of_mem (f := pointer) inside
      rw [pointers] at listed
      obtain ⟨m,among,equal⟩ := List.mem_map.mp listed
      rw [← (Prod.mk.inj equal).2]
      exact apart m (list ▸ among)
  have up : Trail s'' (Function.update spt (d + 1) newblock₁) newblock₁.switchTo x.eeBlock (d + 1) newblock₁.index (sibling::taken) :=
    trail.up recorded rfl (fun c taken_ => split.other (some c) (fun equal => ?_) fun equal => ?_) last
    (halves.imp (fun both => both.2.2) fun both => both.2)
  · refine ⟨⟨fun j least => ?_,?_⟩,index ▸ up⟩
    · rcases Nat.eq_or_lt_of_le least with rfl | less
      · exact extHasFreeIndex_full (by rw [pHdr]; exact full)
      · exact crossed.full j (Nat.le_of_lt_succ less)
    · rw [← index]
      rcases halves with ⟨half,_,same,_⟩ | ⟨half,short,_⟩
      · rw [same,crossed.goes]
        refine ⟨fun all j least => ?_,fun all j least => all j (Nat.le_succ_of_le least)⟩
        rcases Nat.eq_or_lt_of_le least with rfl | less
        · rw [crossing,half]
          rfl
        · exact all j (Nat.le_of_lt_succ less)
      · refine ⟨fun reached => absurd short (Nat.not_lt.mpr reached),fun all => ?_⟩
        have none_ := all (d + 1) (Nat.le_refl _)
        rw [crossing,half] at none_
        cases none_
  · exact owned.fresh taken_ (spot.own c (location.symm.trans equal.symm))
  · obtain rfl := Option.some.inj equal
    exact split.fresh (List.mem_cons_of_mem _ (List.mem_append_left _ taken_))

end Linked

end Path

section Up
variable {b : State} {path : Path} {room d level depth : Nat} {K : Kid (Tree (d + 1))} {x : Slot} {blocks : List Nat} {high : Nat}
  {r : LoopResult} (levels : level + (d + 1) = depth) (positive : 0 < level) (deep : extDepth b = depth) (lower : depth < 2^16)
  (fits : RoomFits room) (plain : Plain path depth)
include levels positive deep lower fits plain

/-- From one level to the next. -/
theorem Outcome.up (way : Way b room path x blocks (d + 1) K.tree (some K.block) room level K.key high)
    (child : ∀ k middle, Way b room path x blocks d k.tree (some k.block) room (level + 1) k.key middle →
      Outcome b room x blocks depth path d (level + 1) k middle r) : Outcome b room x blocks depth path (d + 1) level K high r := by
  obtain ⟨l,k,rest,middle,parts,pHdr,pIdx,left,right,spot,below⟩ := way.down
  cases child k middle below with
  | failed err => exact .failed err
  | done owned regrown key block arrived =>
    have children := spot.children owned regrown left right
    exact .done owned (regrown.linked parts children (List.cons_ne_nil _ _) (fun _ _ => rfl)
      (spot.same_node owned regrown children key block)) rfl rfl
      (arrived.up spot owned levels pHdr pIdx below.led.hdr regrown (plain level (by omega)))
  | @pending _ s' path' newblock spt taken k₁ k₂ above step result owned regrown key block index ptr small member kept stays crossed trail last =>
    obtain rfl := Nat.succ.inj step
    have children := spot.children owned regrown left right
    have elem := kept level (Nat.le_refl _)
    have location : (path'.elem level).pHdr = some K.block := by rw [elem,pHdr]
    obtain ⟨s₁,path₁,newblock₁,ret,found,next⟩ := insertLoop_cases result
    have placed := spot.index_result owned regrown levels deep lower fits (Nat.le_refl room) location (by rw [elem,pIdx]) index ptr small
      member newblock _ found
    cases placed with
    | failed err =>
      obtain ⟨_,rfl⟩ | ⟨nothing,_⟩ := next
      · exact .failed err
      · nomatch nothing
    | grow root => exact absurd root (Nat.ne_of_gt positive)
    | free empty notFull free =>
      obtain ⟨_,rfl⟩ | ⟨_,some_,_⟩ := next
      · obtain ⟨holds,other⟩ := spot.free_node owned regrown children location key block free
        exact .done (owned.same_volume free.volume) (regrown.linked parts children (List.cons_ne_nil _ _) other holds) rfl rfl
          (trail.arrived spot owned levels pHdr pIdx below.led.hdr regrown kept stays crossed last member spot.fits notFull free)
      · exact absurd empty some_
    | split _ full first recorded split =>
      have some_ : newblock₁.ptr ≠ 0 := fun zero => split.fresh (by rw [zero]; exact List.mem_cons_self)
      obtain ⟨stop,_⟩ | ⟨_,_,more⟩ := next
      · exact absurd (stop.resolve_left (not_not.mpr rfl)) some_
      · obtain ⟨root,_⟩ | ⟨above,upper,result'⟩ := more
        · exact absurd root (Nat.ne_of_gt positive)
        · obtain ⟨t₁,e,rest₁,cut,front,own,goes,holds,holds',start,other⟩ := spot.split_nodes owned regrown children location key block split
          have height : depth - level = d + 1 := by omega
          rw [height] at result'
          obtain ⟨ix,record,place⟩ := recorded
          obtain ⟨crossed',trail'⟩ := trail.climbs spot owned levels pHdr pIdx below.led.hdr regrown kept stays crossed last member full record
            (first.trans start) place split holds' own goes (below.beyond right) (children.apart spot owned)
          refine .pending upper result' (owned.take split.fresh split.small split.reserved split.space)
            (regrown.divided parts children cut front other holds holds') rfl rfl ?_ ?_ ?_ List.mem_cons_self (fun j before => ?_) ?_ crossed' trail' ?_
          · rw [Function.update_self,first]
            exact start
          · rw [Function.update_self]
          · rw [← start]
            exact ext4ExtBlockIndex_lt _ _
          · rw [split.kept j (by omega)]
            exact kept j (by omega)
          · rw [split.pHdr,elem]
          · rw [Function.update_self]
            exact record.bh

end Up

theorem Outcome.climb {b : State} {path : Path} {room depth : Nat} {x : Slot} {blocks : List Nat} {r : LoopResult}
    (leaf : ∀ k middle, Way b room path x blocks 0 k.tree (some k.block) room depth k.key middle →
    Outcome b room x blocks depth path 0 depth k middle r) {d level : Nat} (levels : level + d = depth) (positive : 0 < level)
    (deep : extDepth b = depth) (lower : depth < 2^16) (fits : RoomFits room)
    (plain : Plain path depth) {k : Kid (Tree d)} {high : Nat}
    (way : Way b room path x blocks d k.tree (some k.block) room level k.key high) : Outcome b room x blocks depth path d level k high r := by
  induction d generalizing level high with
  | zero =>
    obtain rfl : level = depth := levels
    exact leaf k high way
  | succ d ih => exact Outcome.up levels positive deep lower fits plain way fun k' middle below => ih (by omega) (Nat.succ_pos level) below

/-! The leaf. -/

theorem onPath_nodes {block : Nat} {path : Path} {s : State} {room d level limit : Nat} {t : Tree d} {at_ : Option Nat}
    (onPath : OnPath block path d t at_ level) (holds : Holds s.node room d limit (s.hdr at_) t) {j : Nat} (inside : j ≤ d) :
    (path.elem (level + j)).pHdr = at_ ∨ ∃ b ∈ foot d t, (path.elem (level + j)).pHdr = some b := by
  induction d generalizing level at_ limit j with
  | zero =>
    obtain rfl := Nat.le_zero.mp inside
    exact Or.inl onPath.1
  | succ d ih =>
    cases j with
    | zero => exact Or.inl onPath.1
    | succ j =>
      obtain ⟨_,_,l,k,r,chosen,_,_,below⟩ := onPath
      have member : k ∈ kidsOf t := by
        rw [chosen.parts]
        exact List.mem_append_right _ List.mem_cons_self
      rw [show level + (j + 1) = level + 1 + j by omega]
      rcases ih below ((holds_index.mp holds).2.2 k member) (Nat.le_of_succ_le_succ inside) with top | ⟨b,here,deeper⟩
      · exact Or.inr ⟨k.block,mem_footOf.mpr ⟨k,member,List.mem_cons_self⟩,top⟩
      · exact Or.inr ⟨b,mem_footOf.mpr ⟨k,member,List.mem_cons_of_mem _ here⟩,deeper⟩

/-- The leaf at the end of the path. -/
theorem onPath_bottom {block : Nat} {path : Path} {s : State} {room d level limit low high : Nat} {t : Tree (d + 1)} {at_ : Option Nat}
    (onPath : OnPath block path (d + 1) t at_ level) (holds : Holds s.node room (d + 1) limit (s.hdr at_) t) (wf : Wf (d + 1) low t high) :
    ∃ (k : Kid (Tree 0)) (start stop : Nat) (l : List Slot) (x : Slot) (r : List Slot),
      (path.elem (level + (d + 1))).pHdr = some k.block ∧ Holds s.node room 0 room (s.node k.block) k.tree ∧ Wf 0 start k.tree stop ∧
        Chosen Slot.eeBlock block (extentsOf k.tree) l x r ∧ (path.elem (level + (d + 1))).pExt = some l.length ∧ x ∈ flat (d + 1) t := by
  induction d generalizing level at_ limit low high with
  | zero =>
    obtain ⟨_,_,l,k,r,chosen,_,_,pHdr,_,_,leaf⟩ := onPath
    have member : k ∈ kidsOf t := by
      rw [chosen.parts]
      exact List.mem_append_right _ List.mem_cons_self
    obtain ⟨a,b,_,⟨_,some_,inside⟩,_⟩ := Tiled.bounds (kidAt_forward 0) ((wf_succ 0 low high t).mp wf) member
    obtain ⟨empty,_⟩ | ⟨l',x,r',here,pExt⟩ := leaf
    · exact absurd (congrArg List.length empty) some_
    · refine ⟨k,a,b,l',x,r',pHdr,(holds_index.mp holds).2.2 k member,inside,here,pExt,List.mem_flatMap.mpr ⟨k,member,?_⟩⟩
      change x ∈ extentsOf k.tree
      rw [here.parts]
      exact List.mem_append_right _ List.mem_cons_self
  | succ d ih =>
    obtain ⟨_,_,l,k,r,chosen,_,_,below⟩ := onPath
    have member : k ∈ kidsOf t := by
      rw [chosen.parts]
      exact List.mem_append_right _ List.mem_cons_self
    obtain ⟨a,b,_,⟨_,_,inside⟩,_⟩ := Tiled.bounds (kidAt_forward (d + 1)) ((wf_succ (d + 1) low high t).mp wf) member
    obtain ⟨k',start,stop,l',x,r',pHdr,leaf,wf',here,pExt,inTree⟩ := ih below ((holds_index.mp holds).2.2 k member) inside
    rw [show level + (d + 1 + 1) = level + 1 + (d + 1) by omega]
    exact ⟨k',start,stop,l',x,r',pHdr,leaf,wf',here,pExt,List.mem_flatMap.mpr ⟨k,member,inTree⟩⟩

/-- The extent cannot be merged with the one that the path is at. -/
def Unmerged (s : State) (path : Path) (depth : Nat) (newext : Slot) : Prop := ∀ i, (path.elem depth).pExt = some i →
  ext4ExtCanAppend ((s.hdr (path.elem depth).pHdr).slot i) newext = false ∧
    ext4ExtCanPrepend ((s.hdr (path.elem depth).pHdr).slot i) newext = false

theorem NewExtent.differ {x y : Slot} {extents : List Slot} (new : NewExtent x extents) (member : y ∈ extents) (some_ : y.eeBlock < extentStop y) :
    x.eeBlock ≠ y.eeBlock := by
  have := new.some_
  have := new.apart y member
  omega

/-- A leaf that took the extent in. -/
theorem LeafFree.arrived {b s s' : State} {path path' : Path} {x : Slot} {depth : Nat} {spt : Nat → SplitTrans}
    (free : LeafFree s path x depth s' path') (same : b.hdr (path.elem depth).pHdr = s.hdr (path.elem depth).pHdr)
    (fits : (s.hdr (path.elem depth).pHdr).ehEntries ≤ (s.hdr (path.elem depth).pHdr).ehMax)
    (notFull : (s.hdr (path.elem depth).pHdr).ehEntries ≠ (s.hdr (path.elem depth).pHdr).ehMax) (none_ : ∀ j, (spt j).switchTo = false)
    (some_ : x.eeBlock < extentStop x) : Arrived b s' path path' spt x depth 0 0 := by
  refine ⟨Nat.le_refl 0,fun j below => absurd below (Nat.not_lt_zero j),extHasFreeIndex_free (by rw [Nat.sub_zero,same]; exact fits)
    (by rw [Nat.sub_zero,same]; exact notFull),fun j _ => none_ j,free.pHdr,fun j above => free.kept j (Nat.ne_of_lt above),fun path'' switched => ?_⟩
  have at_ := switched.stay 0 (Nat.zero_le _) (none_ 0)
  obtain ⟨ex,pExt,entry⟩ := free.pExt
  refine iff_of_true ⟨ex,x,at_.pExt.trans pExt,?_,Nat.le_refl _,some_⟩ fun j below => absurd below (Nat.not_lt_zero j)
  rw [at_.pIn]
  change (slots (s'.hdr (path'.elem depth).pIn))[ex]? = some x
  rw [free.pIn]
  exact entry

section Leaf
variable {b s s' : State} {path path' : Path} {x : Slot} {depth room : Nat} {blocks : List Nat} {newblock : SplitTrans}
  (split : LeafSplit s path x depth room blocks s' path' newblock.ptr) (index : newblock.index = ext4ExtBlockIndex s' newblock.ptr)
include split index

theorem LeafSplit.crosses : crossesAt s path x depth 0 = true ∧ newblock.index = x.eeBlock ∧ (∃ rest, slots (s'.node newblock.ptr) = x::rest) ∨
    crossesAt s path x depth 0 = false ∧ x.eeBlock < newblock.index := by
  have leaf : ¬(s'.node newblock.ptr).ehDepth ≠ 0 := not_not.mpr split.header.depth
  rw [index,ext4ExtBlockIndex,if_neg leaf]
  cases crossing : crossesAt s path x depth 0 with
  | true =>
    obtain ⟨rest,array⟩ := split.goes crossing
    exact Or.inl ⟨rfl,by rw [slot_zero array],rest,array⟩
  | false =>
    obtain ⟨e,rest,array⟩ := List.exists_cons_of_ne_nil split.right
    rw [slot_zero array]
    exact Or.inr ⟨rfl,split.stay crossing e (array ▸ List.mem_cons_self)⟩

/-- A leaf that was split. -/
theorem LeafSplit.crossed (same : b.hdr (path.elem depth).pHdr = s.hdr (path.elem depth).pHdr)
    (full : (s.hdr (path.elem depth).pHdr).ehEntries = (s.hdr (path.elem depth).pHdr).ehMax) : Crossed b path x depth 0 newblock.index := by
  have crossing : crossesAt b path x depth 0 = crossesAt s path x depth 0 := by
    simp only [crossesAt,Nat.sub_zero,same]
  refine ⟨fun j least => ?_,?_⟩
  · obtain rfl := Nat.le_zero.mp least
    exact extHasFreeIndex_full (by rw [Nat.sub_zero,same]; exact full)
  · rcases split.crosses index with ⟨crossed,equal,_⟩ | ⟨stays,short⟩
    · refine iff_of_true (Nat.le_of_eq equal) fun j least => ?_
      obtain rfl := Nat.le_zero.mp least
      exact crossing.trans crossed
    · refine iff_of_false (Nat.not_le.mpr short) fun all => ?_
      have none_ := all 0 (Nat.le_refl 0)
      rw [crossing,stays] at none_
      cases none_

theorem LeafSplit.trail {spt : Nat → SplitTrans} {ix : Nat} (recorded : Recorded x ix newblock.ptr false newblock)
    (first : crossesAt s path x depth 0 = true → ix = 0) (none_ : ∀ j, (spt j).switchTo = false) (some_ : x.eeBlock < extentStop x) :
    Trail s' (Function.update spt 0 newblock) newblock.switchTo x.eeBlock 0 newblock.index [newblock.ptr] := by
  refine recorded.trail none_ some_ fun reached => ?_
  rcases split.crosses index with ⟨crossed,_,array⟩ | ⟨_,short⟩
  · exact ⟨first crossed,array⟩
  · exact absurd reached (Nat.not_le.mpr short)

end Leaf

/-- The first level of a round, in a leaf below the root. -/
theorem insertLoop_leaf_outcome {s : State} {path : Path} {d : Nat} {t : Tree (d + 1)} {x : Slot} {newblock : SplitTrans}
    {spt : Nat → SplitTrans} {r : LoopResult} (tree : HasTree s (d + 1) t) (onPath : OnPath x.eeBlock path (d + 1) t none 0)
    (new : NewExtent x (flat (d + 1) t)) (unmerged : Unmerged s path (d + 1) x) (roomy : 2 ≤ (s.hdr (path.elem (d + 1)).pHdr).ehMax)
    (reserved : Reserved s.volume (foot (d + 1) t)) (fits : RoomFits (ext4ExtSpaceBlock s)) (first : newblock.switchTo = false)
    (none_ : ∀ j, (spt j).switchTo = false) (result : insertLoop x (d + 1) (d + 1) s path newblock spt = some r) :
    (∃ s' path' newblock' spt' err, r = (s',path',newblock',spt',.fail err)) ∨
      ∃ b, Based path x.eeBlock (d + 1) (slots (s.hdr (path.elem (d + 1)).pHdr)) s b ∧
        ∀ k middle, Way b (ext4ExtSpaceBlock s) path x (foot (d + 1) t) 0 k.tree (some k.block) (ext4ExtSpaceBlock s) (d + 1) k.key middle →
          Outcome b (ext4ExtSpaceBlock s) x (foot (d + 1) t) (d + 1) path 0 (d + 1) k middle r := by
  obtain ⟨k,start,stop,l,y,rest,pHdr,leaf,wf,chosen,pExt,member⟩ := onPath_bottom (s := s) onPath tree.holds tree.wf
  rw [Nat.zero_add] at pHdr pExt
  have nodes {j : Nat} (inside : j ≤ d + 1) := onPath_nodes (s := s) onPath tree.holds inside
  simp only [Nat.zero_add] at nodes
  obtain ⟨header,array⟩ := holds_leaf.mp leaf
  change slots (s.hdr (some k.block)) = _ at array
  change Header (s.hdr (some k.block)) 0 _ (s.hdr (some k.block)).ehEntries at header
  rw [← pHdr] at array header
  rw [← array] at chosen
  have bounds := wf_bounds tree.wf member
  obtain ⟨merged₁,merged₂⟩ := unmerged _ pExt
  rw [chosen_slot chosen] at merged₁ merged₂
  obtain ⟨s₁,path₁,newblock₁,ret,found,next⟩ := insertLoop_cases result
  rw [insertLevel,Nat.sub_self,if_pos rfl] at found
  have placed := @ext4ExtInsertLeaf_result s path x (d + 1) (ext4ExtSpaceBlock s) (ext4ExtSpaceBlock s) (foot (d + 1) t)
    ⟨tree.depth,rfl,reserved⟩ fits (Nat.le_refl _) header l rest y
    (fun j above => by
      have differ := path_apart (s := s) onPath tree.holds tree.distinct (fun _ _ => nofun) above
      rwa [Nat.zero_add,Nat.zero_add] at differ)
    (by rw [array]; exact extents_sorted wf) chosen pExt (new.differ member bounds.2.1) roomy
    (fun j inside c equal => by
      rcases nodes inside with top | ⟨c',here,deep⟩
      · rw [top] at equal
        nomatch equal
      · rw [deep] at equal
        exact Option.some.inj equal ▸ here) merged₁ merged₂ newblock _ found
  cases placed with
  | failed err =>
    obtain ⟨_,rfl⟩ | ⟨nothing,_⟩ := next
    · exact Or.inl ⟨_,_,_,_,err,rfl⟩
    · nomatch nothing
  | grow root => exact absurd root (Nat.succ_ne_zero d)
  | free empty notFull free =>
    obtain ⟨_,rfl⟩ | ⟨_,some_,_⟩ := next
    · obtain ⟨b,based,other⟩ := free.based
      obtain ⟨same,_⟩ := based.leaf tree onPath
      refine Or.inr ⟨b,based,fun k' middle way => ?_⟩
      exact .done ⟨congrArg (fun v : Volume => (superBlockSize v.superBlock - 12) / 12) free.volume,by rw [free.volume]; exact reserved,
        tree.distinct,fun _ nothing => absurd nothing List.not_mem_nil⟩ (free.regrown way.led.1 same way.holds way.wf way.new way.start way.stop other) rfl rfl
        (free.arrived same header.fits notFull none_ new.some_)
    · exact absurd empty some_
  | split _ full index recorded split =>
    have some_ : newblock₁.ptr ≠ 0 := fun zero => split.fresh (by rw [zero]; exact List.mem_cons_self)
    obtain ⟨last,_⟩ | ⟨_,_,more⟩ := next
    · exact absurd (last.resolve_left (not_not.mpr rfl)) some_
    · obtain ⟨root,_⟩ | ⟨above,upper,result'⟩ := more
      · exact absurd root (Nat.succ_ne_zero d)
      · obtain ⟨b,based,other⟩ := split.based
        obtain ⟨same,_⟩ := based.leaf tree onPath
        rw [Nat.sub_self] at result'
        refine Or.inr ⟨b,based,fun k' middle way => ?_⟩
        have owned : Owned s₁ (ext4ExtSpaceBlock s) [newblock₁.ptr] (foot (d + 1) t) := by
          refine ⟨split.space,split.reserved,List.nodup_cons.mpr ⟨fun old => split.fresh (List.mem_cons_of_mem _ old),tree.distinct⟩,
            fun c member => ?_⟩
          rw [List.mem_singleton.mp member]
          exact split.small
        obtain ⟨ix,record,place⟩ := recorded
        rw [first] at record
        refine .pending upper result' owned (split.regrown way.led.1 same way.holds way.wf way.new way.start way.stop other) rfl rfl ?_ ?_
          (ext4ExtBlockIndex_lt _ _) List.mem_cons_self (fun j before => split.kept j (by omega)) split.pHdr
          (index ▸ split.crossed index same full) (index ▸ split.trail index record place none_ new.some_) ?_
        · rw [Function.update_self,index]
        · rw [Function.update_self]
        · rw [Function.update_self]
          exact record.bh

/-! The root. -/

/-- The tree with the new extent in it, in the blocks `blocks` and `taken`. -/
structure Enlarged (s' : State) (room : Nat) (x : Slot) (extents : List Slot) (taken blocks : List Nat) (d : Nat) (t' : Tree d) : Prop where
  owned : Owned s' room taken blocks
  tree : HasTree s' d t'
  extents : Inserted x extents (flat d t')
  blocks : (foot d t').Perm (taken ++ blocks)

/-- A full root, one of whose children has a sibling that is not linked. -/
structure Stuck (b s' : State) (path : Path) (spt : Nat → SplitTrans) (room : Nat) (x : Slot) (extents : List Slot) (taken blocks : List Nat)
    (d : Nat) (l r : List (Kid (Tree d))) (k k₁ k₂ : Kid (Tree d)) (middle : Nat) : Prop where
  spot : Spot b room ext4ExtSpaceRoot d none l k r blocks
  owned : Owned s' room taken blocks
  regrown : Regrown b s' room d k [k₁,k₂] x taken middle
  left : Tiled (kidAt d) 0 l k.key
  right : Tiled (kidAt d) middle r (2^32)
  start : k.key ≤ x.eeBlock
  stop : extentStop x ≤ middle
  some_ : x.eeBlock < extentStop x
  extents : flat (d + 1) (l ++ k::r : List (Kid (Tree d))) = extents
  blocks : footOf (l ++ k::r) = blocks
  key : k₁.key = k.key
  block : k₁.block = k.block
  index : (spt d).index = k₂.key
  ptr : (spt d).ptr = k₂.block
  small : k₂.key < 2^32
  member : k₂.block ∈ taken
  crossed : Crossed b path x (d + 1) d k₂.key
  full : extHasFreeIndex b (path.elem 0) = false
  trail : ∃ switchTo, Trail s' spt switchTo x.eeBlock d k₂.key taken
  last : (spt d).bh = some k₂.block

/-- What a round comes to. -/
inductive Rooted (b : State) (path : Path) (room : Nat) (x : Slot) (extents : List Slot) (blocks : List Nat) (d : Nat) : LoopResult → Prop
  | failed {s' : State} {path' : Path} {newblock : SplitTrans} {spt : Nat → SplitTrans} (err : Errno) :
      Rooted b path room x extents blocks d (s',path',newblock,spt,.fail err)
  | done {s' : State} {path' : Path} {newblock : SplitTrans} {spt : Nat → SplitTrans} {taken : List Nat} {t' : Tree (d + 1)} {n : Nat} :
      Enlarged s' room x extents taken blocks (d + 1) t' → Arrived b s' path path' spt x (d + 1) (d + 1) n →
      Rooted b path room x extents blocks d (s',path',newblock,spt,.ok)
  | grow {s' : State} {path' : Path} {newblock : SplitTrans} {spt : Nat → SplitTrans} {taken : List Nat} {l r : List (Kid (Tree d))}
      {k k₁ k₂ : Kid (Tree d)} {middle : Nat} : Stuck b s' path spt room x extents taken blocks d l r k k₁ k₂ middle →
      Rooted b path room x extents blocks d (s',path',newblock,spt,.needGrow)

theorem Children.enlarged {s' s'' : State} {room d : Nat} {l r ks : List (Kid (Tree d))} {k : Kid (Tree d)} {x : Slot} {taken : List Nat}
    (children : Children s' room d l k r ks x taken 0 (2^32)) (some_ : ks ≠ []) (owned : Owned s'' room taken (footOf (l ++ k::r)))
    (holds : Holds s''.node room (d + 1) ext4ExtSpaceRoot (s''.hdr none) (l ++ ks ++ r : List (Kid (Tree d)))) :
    Enlarged s'' room x (flat (d + 1) (l ++ k::r : List (Kid (Tree d)))) taken (footOf (l ++ k::r)) (d + 1)
      (l ++ ks ++ r : List (Kid (Tree d))) := by
  refine ⟨owned,⟨?_,children.blocks.nodup_iff.mpr owned.distinct,children.wf,Or.inr ?_⟩,children.extents,children.blocks⟩
  · rw [owned.space]
    exact holds
  · change (l ++ ks ++ r).length ≠ 0
    rw [List.length_append,List.length_append]
    have := List.length_pos_iff.mpr some_
    omega

theorem Way.rooted {b : State} {path : Path} {room d depth : Nat} {t : Tree (d + 1)} {x : Slot} {blocks : List Nat} {r : LoopResult}
    (levels : d + 1 = depth) (deep : extDepth b = depth) (lower : depth < 2^16) (fits : RoomFits room) (most : ext4ExtSpaceRoot ≤ room)
    (plain : Plain path depth) (all : foot (d + 1) t = blocks)
    (way : Way b room path x blocks (d + 1) t none ext4ExtSpaceRoot 0 0 (2^32))
    (child : ∀ k middle, Way b room path x blocks d k.tree (some k.block) room 1 k.key middle →
      Outcome b room x blocks depth path d 1 k middle r) : Rooted b path room x (flat (d + 1) t) blocks d r := by
  obtain ⟨l,k,rest,middle,parts,pHdr,pIdx,left,right,spot,below⟩ := way.down
  have lists : t = (l ++ k::rest : List (Kid (Tree d))) := parts
  subst lists
  change footOf (l ++ k::rest) = blocks at all
  subst all levels
  have sum : 0 + (d + 1) = d + 1 := Nat.zero_add (d + 1)
  cases child k middle below with
  | failed err => exact .failed err
  | done owned regrown key block arrived =>
    have children := spot.children owned regrown left right
    exact .done (children.enlarged (List.cons_ne_nil _ _) owned (spot.same_node owned regrown children key block))
      (arrived.up spot owned sum pHdr pIdx below.led.hdr regrown (plain 0 (Nat.zero_le _)))
  | @pending _ s' path' newblock spt taken k₁ k₂ above step result owned regrown key block index ptr small member kept stays crossed trail last =>
    obtain rfl := Nat.succ.inj step
    have children := spot.children owned regrown left right
    have elem := kept 0 (Nat.le_refl _)
    have location : (path'.elem 0).pHdr = none := by rw [elem,pHdr]
    obtain ⟨s₁,path₁,newblock₁,ret,found,next⟩ := insertLoop_cases result
    have placed := spot.index_result owned regrown sum deep lower fits most location (by rw [elem,pIdx]) index
      ptr small member newblock _ found
    cases placed with
    | failed err =>
      obtain ⟨_,rfl⟩ | ⟨nothing,_⟩ := next
      · exact .failed err
      · nomatch nothing
    | grow _ full =>
      rw [location,spot.kept owned regrown] at full
      obtain ⟨_,rfl⟩ | ⟨nothing,_⟩ := next
      · exact .grow ⟨spot,owned,regrown,left,right,below.start,below.stop,below.new.some_,rfl,rfl,key,block,index,ptr,small,member,crossed,
          extHasFreeIndex_full (by rw [pHdr]; exact full),⟨_,trail⟩,last⟩
      · nomatch nothing
    | free empty notFull free =>
      obtain ⟨_,rfl⟩ | ⟨_,some_,_⟩ := next
      · obtain ⟨holds,_⟩ := spot.free_node owned regrown children location key block free
        exact .done (children.enlarged (List.cons_ne_nil _ _) (owned.same_volume free.volume) holds)
          (trail.arrived spot owned sum pHdr pIdx below.led.hdr regrown kept stays crossed last member spot.fits notFull free)
      · exact absurd empty some_
    | split top => exact absurd top (Nat.lt_irrefl 0)

/-! A round. -/

theorem Reserved.space {v : Volume} {blocks : List Nat} (reserved : Reserved v blocks) : 84 ≤ (superBlockSize v.superBlock - 12) / 12 ∧
    (superBlockSize v.superBlock - 12) / 12 < 2^16 := by
  obtain ⟨⟨w,initialised,counted,_⟩,_⟩ := reserved
  have small := counted.geometry.small
  rw [initialised.superBlock] at small
  have least := superBlockSize_ge small
  have most := superBlockSize_le small
  omega

theorem Reserved.fits {s : State} {blocks : List Nat} (reserved : Reserved s.volume blocks) : RoomFits (ext4ExtSpaceBlock s) := by
  obtain ⟨least,most⟩ := reserved.space
  exact ⟨Nat.le_trans (by decide) least,most⟩

theorem Keyed.way {s b : State} {path : Path} {d : Nat} {t t' : Tree d} {x : Slot} {room : Nat} (tree : HasTree s d t)
    (keyed : Keyed x.eeBlock path s b room ext4ExtSpaceRoot d t t' none 0) (wf : Wf d 0 t' (2^32)) (new : NewExtent x (flat d t))
    (gap : ∀ c ∈ keys d t, c ≤ x.eeBlock ∨ extentStop x ≤ c) (stop : extentStop x ≤ 2^32) :
    Way b room path x (foot d t) d t' none ext4ExtSpaceRoot 0 0 (2^32) := by
  refine ⟨keyed.led,keyed.holds,wf,keyed.blocks ▸ tree.distinct,fun _ _ => nofun,fun c member => keyed.blocks ▸ member,nofun,
    keyed.extents ▸ new,fun c member => ?_,Nat.zero_le _,stop⟩
  rcases keyed.below c member with old | low
  · exact gap c old
  · exact Or.inl low

/-- The nodes of the path are as full in `b`, and their entries go to the same halves. -/
structure Likewise (s b : State) (path : Path) (x : Slot) (depth : Nat) : Prop where
  free : ∀ elem, extHasFreeIndex b elem = extHasFreeIndex s elem
  crosses : ∀ e, crossesAt b path x depth e = crossesAt s path x depth e

theorem Based.likewise {path : Path} {depth : Nat} {xs : List Slot} {s b : State} {x : Slot} (based : Based path x.eeBlock depth xs s b)
    (leaf : b.hdr (path.elem depth).pHdr = s.hdr (path.elem depth).pHdr) : Likewise s b path x depth := by
  refine ⟨fun elem => ?_,fun e => ?_⟩
  · obtain ⟨entries,max⟩ := based.counts elem.pHdr
    rw [extHasFreeIndex,extHasFreeIndex,entries,max]
  · cases e with
    | zero => simp only [crossesAt,Nat.sub_zero,leaf]
    | succ e => simp only [crossesAt,Nat.succ_ne_zero,if_false,(based.counts _).2]

/-- The loop from the leaf of a tree with indexes. -/
theorem insertLoop_rooted {s : State} {path : Path} {d : Nat} {t : Tree (d + 1)} {x : Slot} {newblock : SplitTrans}
    {spt : Nat → SplitTrans} {r : LoopResult} (tree : HasTree s (d + 1) t) (onPath : OnPath x.eeBlock path (d + 1) t none 0)
    (new : NewExtent x (flat (d + 1) t)) (gap : ∀ c ∈ keys (d + 1) t, c ≤ x.eeBlock ∨ extentStop x ≤ c) (stop : extentStop x ≤ 2^32)
    (unmerged : Unmerged s path (d + 1) x) (roomy : 2 ≤ (s.hdr (path.elem (d + 1)).pHdr).ehMax)
    (reserved : Reserved s.volume (foot (d + 1) t)) (lower : d + 1 < 2^16) (plain : Plain path (d + 1))
    (first : newblock.switchTo = false) (none_ : ∀ j, (spt j).switchTo = false)
    (result : insertLoop x (d + 1) (d + 1) s path newblock spt = some r) :
    ∃ b, Likewise s b path x (d + 1) ∧ Rooted b path (ext4ExtSpaceBlock s) x (flat (d + 1) t) (foot (d + 1) t) d r := by
  obtain ⟨_,_,_,_,err,rfl⟩ | ⟨b,based,leaf⟩ := insertLoop_leaf_outcome tree onPath new unmerged roomy reserved reserved.fits first none_ result
  · exact ⟨s,⟨fun _ => rfl,fun _ => rfl⟩,.failed err⟩
  · obtain ⟨t',keyed,wf⟩ := based.keyed tree onPath
    have way := keyed.way tree wf new gap stop
    have deep : extDepth b = d + 1 := keyed.holds.header.depth
    have most : ext4ExtSpaceRoot ≤ ext4ExtSpaceBlock s := Nat.le_trans (by decide) reserved.space.1
    refine ⟨b,based.likewise (based.leaf tree onPath).1,?_⟩
    rw [← keyed.extents]
    exact way.rooted rfl deep lower reserved.fits most plain keyed.blocks fun k middle below =>
      Outcome.climb leaf (Nat.add_comm 1 d) Nat.one_pos deep lower reserved.fits plain below

end Ext4Fuse.Extents
