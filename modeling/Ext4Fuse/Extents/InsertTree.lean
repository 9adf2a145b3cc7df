import Ext4Fuse.Extents.PathValid

/-! The insertion of an extent into the tree, from the leaf up: at each level the node below has
taken the extent in, or has a new sibling that is not linked yet. -/
namespace Ext4Fuse.Extents
open Machine Ext4Fuse.Types Super Library.Partial Library.Segments

/-- `ys` is `xs` with one more extent. -/
def Inserted (x : Slot) (xs ys : List Slot) : Prop := ∃ l r, xs = l ++ r ∧ ys = l ++ x::r

theorem Inserted.beside {x : Slot} {xs ys : List Slot} (inserted : Inserted x xs ys) (l r : List Slot) :
    Inserted x (l ++ (xs ++ r)) (l ++ (ys ++ r)) := by
  obtain ⟨front,back,rfl,rfl⟩ := inserted
  exact ⟨l ++ front,back ++ r,by simp only [List.append_assoc],by simp only [List.append_assoc,List.cons_append]⟩

/-- A new extent: it has a block, and meets none of the others. -/
structure NewExtent (x : Slot) (extents : List Slot) : Prop where
  some_ : x.eeBlock < extentStop x
  apart : ∀ y ∈ extents, extentStop y ≤ x.eeBlock ∨ extentStop x ≤ y.eeBlock

theorem NewExtent.sub {x : Slot} {xs ys : List Slot} (new : NewExtent x xs) (sub : ∀ y ∈ ys, y ∈ xs) : NewExtent x ys :=
  ⟨new.some_,fun y member => new.apart y (sub y member)⟩

theorem extentAt_key (x : Slot) (a b : Nat) (at_ : extentAt x a b) : x.eeBlock = a := at_.1

theorem kidAt_key {d : Nat} (k : Kid (Tree d)) (a b : Nat) (at_ : kidAt d k a b) : k.key = a := at_.1

/-- The leaf with the new extent in its place. -/
theorem wf_placed {x : Slot} {t : Tree 0} {l r ys : List Slot} {low high : Nat} (wf : Wf 0 low t high) (placed : Placed x (extentsOf t) l r ys)
    (new : NewExtent x (extentsOf t)) (start : low ≤ x.eeBlock) (stop : extentStop x ≤ high) : Wf 0 low (ys : List Slot) high := by
  change Tiled extentAt low (extentsOf t) high at wf
  rw [placed.before] at wf
  change Tiled extentAt low ys high
  rw [placed.after]
  refine wf.insert ⟨rfl,rfl,new.some_⟩ start stop (fun y member c d at_ => ?_) fun y member c d at_ => ?_
  · rw [← at_.2.1]
    rcases new.apart y (by rw [placed.before]; exact List.mem_append_left _ member) with before | after
    · exact before
    · exact absurd (placed.less y member) (by have := new.some_; omega)
  · rw [← at_.1]
    rcases new.apart y (by rw [placed.before]; exact List.mem_append_right _ member) with before | after
    · have more := placed.more y member
      have positive := at_.2.2
      rw [← at_.1,← at_.2.1] at positive
      omega
    · exact after

/-- What is known of the blocks after `taken` have been allocated, besides those the tree had. -/
structure Owned (s : State) (room : Nat) (taken blocks : List Nat) : Prop where
  space : ext4ExtSpaceBlock s = room
  reserved : Reserved s.volume (taken ++ blocks)
  distinct : (taken ++ blocks).Nodup
  small : ∀ c ∈ taken, c < 2^48

theorem Owned.take {s s' : State} {room q : Nat} {taken blocks : List Nat} (owned : Owned s room taken blocks) (fresh : q ∉ 0::(taken ++ blocks))
    (small : q < 2^48) (reserved : Reserved s'.volume (q::(taken ++ blocks))) (space : ext4ExtSpaceBlock s' = room) :
    Owned s' room (q::taken) blocks := by
  refine ⟨space,reserved,List.nodup_cons.mpr ⟨fun member => fresh (List.mem_cons_of_mem _ member),owned.distinct⟩,fun c member => ?_⟩
  rcases List.mem_cons.mp member with rfl | old
  · exact small
  · exact owned.small c old

theorem Owned.fresh {s : State} {room c : Nat} {taken blocks : List Nat} (owned : Owned s room taken blocks) (member : c ∈ taken) :
    c ∉ blocks := fun old => (List.nodup_append.mp owned.distinct).2.2 c member c old rfl

/-- In place of child `k` of the tree in `b` there are the children `ks`, which hold one more extent and
lie in its blocks and those `taken`. -/
structure Regrown (b s' : State) (room d : Nat) (k : Kid (Tree d)) (ks : List (Kid (Tree d))) (x : Slot) (taken : List Nat) (high : Nat) :
    Prop where
  holds : ∀ k' ∈ ks, Holds s'.node room d room (s'.node k'.block) k'.tree
  wf : Tiled (kidAt d) k.key ks high
  extents : Inserted x (flat d k.tree) (ks.flatMap fun k => flat d k.tree)
  blocks : (footOf ks).Perm (taken ++ (k.block::foot d k.tree))
  other : ∀ a, (∀ c ∈ taken ++ (k.block::foot d k.tree), a ≠ some c) → s'.hdr a = b.hdr a

abbrev LoopResult := State × Path × SplitTrans × (Nat → SplitTrans) × Ret

/-- The nodes up to height `e` were full, and the key of the last new node says whether the new entries all went to new nodes. -/
structure Crossed (b : State) (path : Path) (x : Slot) (depth e key : Nat) : Prop where
  full : ∀ j, j ≤ e → extHasFreeIndex b (path.elem (depth - j)) = false
  goes : key ≤ x.eeBlock ↔ ∀ j, j ≤ e → crossesAt b path x depth j = true

/-- The loop has ended: the nodes below height `n` were split, and the path leads to the extent from height `d` on if
all of the new entries went to new nodes. -/
structure Arrived (b s' : State) (path path' : Path) (spt : Nat → SplitTrans) (x : Slot) (depth d n : Nat) : Prop where
  inside : n ≤ d
  full : ∀ j, j < n → extHasFreeIndex b (path.elem (depth - j)) = false
  free : extHasFreeIndex b (path.elem (depth - n)) = true
  rest : ∀ j, n ≤ j → (spt j).switchTo = false
  pHdr : (path'.elem (depth - d)).pHdr = (path.elem (depth - d)).pHdr
  kept : ∀ j, j < depth - d → path'.elem j = path.elem j
  reaches : ∀ path'', Switched depth spt path' path'' →
    (Reaches s' path'' x.eeBlock d (depth - d) ↔ ∀ j, j < n → crossesAt b path x depth j = true)

/-- What has become of child `k`, whose node is at level `level` of the path: it has taken the extent in, or
there is a second child that the loop goes on to link. -/
inductive Outcome (b : State) (room : Nat) (x : Slot) (blocks : List Nat) (depth : Nat) (path : Path) (d level : Nat) (k : Kid (Tree d))
    (high : Nat) : LoopResult → Prop
  | failed {s' : State} {path' : Path} {newblock : SplitTrans} {spt : Nat → SplitTrans} (err : Errno) :
      Outcome b room x blocks depth path d level k high (s',path',newblock,spt,.fail err)
  | done {s' : State} {path' : Path} {newblock : SplitTrans} {spt : Nat → SplitTrans} {taken : List Nat} {k' : Kid (Tree d)} {n : Nat} :
      Owned s' room taken blocks → Regrown b s' room d k [k'] x taken high → k'.key = k.key → k'.block = k.block →
      Arrived b s' path path' spt x depth d n →
      Outcome b room x blocks depth path d level k high (s',path',newblock,spt,.ok)
  | pending {r : LoopResult} {s' : State} {path' : Path} {newblock : SplitTrans} {spt : Nat → SplitTrans} {taken : List Nat}
      {k₁ k₂ : Kid (Tree d)} {above : Nat} : level = above + 1 → insertLoop x depth above s' path' newblock spt = some r →
      Owned s' room taken blocks → Regrown b s' room d k [k₁,k₂] x taken high → k₁.key = k.key → k₁.block = k.block →
      (spt d).index = k₂.key → (spt d).ptr = k₂.block → k₂.key < 2^32 → k₂.block ∈ taken →
      (∀ j, j ≤ above → path'.elem j = path.elem j) → (path'.elem level).pHdr = (path.elem level).pHdr →
      Crossed b path x depth d k₂.key → Trail s' spt newblock.switchTo x.eeBlock d k₂.key taken → (spt d).bh = some k₂.block →
      Outcome b room x blocks depth path d level k high r

/-! The leaf. -/

section Leaf
variable {b s s' : State} {path path' : Path} {x : Slot} {depth room high : Nat} {blocks : List Nat} {k : Kid (Tree 0)}
  (location : (path.elem depth).pHdr = some k.block) (same : b.hdr (path.elem depth).pHdr = s.hdr (path.elem depth).pHdr)
  (holds : Holds b.node room 0 room (b.node k.block) k.tree) (wf : Wf 0 k.key k.tree high) (new : NewExtent x (flat 0 k.tree))
  (start : k.key ≤ x.eeBlock) (stop : extentStop x ≤ high)
include location same holds wf new start stop

theorem LeafFree.regrown (free : LeafFree s path x depth s' path') (other : ∀ a, a ≠ (path.elem depth).pHdr → s'.hdr a = b.hdr a) :
    Regrown b s' room 0 k [⟨k.key,k.block,slots (s'.node k.block)⟩] x [] high := by
  obtain ⟨header,array⟩ := holds_leaf.mp holds
  rw [location] at same other
  have leaf : s.hdr (some k.block) = b.node k.block := same.symm
  obtain ⟨l,r,placed⟩ := free.placed
  have alike := free.alike
  have fits := free.fits
  rw [location,leaf] at placed alike
  rw [location] at fits
  change Placed x (slots (b.node k.block)) l r (slots (s'.node k.block)) at placed
  rw [array] at placed
  refine ⟨fun k' member => ?_,⟨k.key,high,Nat.le_refl _,⟨rfl,?_,wf_placed wf placed new start stop⟩,Nat.le_refl _⟩,?_,?_,fun a outside => ?_⟩
  · rw [List.mem_singleton.mp member]
    exact holds_leaf.mpr ⟨alike.header header fits,rfl⟩
  · change (slots (s'.node k.block)).length ≠ 0
    rw [placed.after,List.length_append,List.length_cons]
    omega
  · rw [List.flatMap_cons,List.flatMap_nil,List.append_nil]
    exact ⟨l,r,placed.before,placed.after⟩
  · exact List.Perm.refl _
  · exact other a (outside k.block (List.mem_append_right _ List.mem_cons_self))

theorem LeafSplit.regrown {sibling : Nat} (split : LeafSplit s path x depth room blocks s' path' sibling)
    (other : ∀ a, a ≠ (path.elem depth).pHdr → a ≠ some sibling → s'.hdr a = b.hdr a) :
    Regrown b s' room 0 k [⟨k.key,k.block,slots (s'.node k.block)⟩,⟨ext4ExtBlockIndex s' sibling,sibling,slots (s'.node sibling)⟩] x [sibling]
      high := by
  obtain ⟨header,array⟩ := holds_leaf.mp holds
  rw [location] at same other
  have leaf : s.hdr (some k.block) = b.node k.block := same.symm
  obtain ⟨l,r,placed⟩ := split.placed
  have alike := split.alike
  have fits := split.fits
  have left := split.left
  rw [location,leaf] at placed alike
  rw [location] at fits left
  change Placed x (slots (b.node k.block)) l r (slots (s'.node k.block) ++ slots (s'.node sibling)) at placed
  rw [array] at placed
  obtain ⟨e,rest,first⟩ := List.exists_cons_of_ne_nil split.right
  have index : ext4ExtBlockIndex s' sibling = e.eeBlock := by
    rw [ext4ExtBlockIndex,if_neg (not_not.mpr split.header.depth),slot_zero first]
  have whole := wf_placed wf placed new start stop
  change Tiled extentAt k.key _ high at whole
  rw [first] at whole
  obtain ⟨one,two⟩ := whole.cut extentAt_key
  rw [index]
  refine ⟨fun k' member => ?_,⟨k.key,e.eeBlock,Nat.le_refl _,⟨rfl,?_,one⟩,e.eeBlock,high,Nat.le_refl _,⟨rfl,?_,?_⟩,Nat.le_refl _⟩,?_,?_,
    fun a outside => ?_⟩
  · rcases List.mem_cons.mp member with rfl | member
    · exact holds_leaf.mpr ⟨alike.header header fits,rfl⟩
    · rw [List.mem_singleton.mp member]
      exact holds_leaf.mpr ⟨split.header,rfl⟩
  · exact fun empty => left (List.length_eq_zero_iff.mp empty)
  · exact fun empty => split.right (List.length_eq_zero_iff.mp empty)
  · change Tiled extentAt e.eeBlock (slots (s'.node sibling)) high
    rw [first]
    exact two
  · rw [List.flatMap_cons,List.flatMap_cons,List.flatMap_nil,List.append_nil]
    exact ⟨l,r,placed.before,placed.after⟩
  · exact List.Perm.swap sibling k.block []
  · exact other a (outside k.block (List.mem_append_right _ List.mem_cons_self)) (outside sibling List.mem_cons_self)

end Leaf

/-! The node above. -/

/-- A node of the tree, with the child that the path leads to. -/
structure Spot (b : State) (room limit d : Nat) (at_ : Option Nat) (l : List (Kid (Tree d))) (k : Kid (Tree d)) (r : List (Kid (Tree d)))
    (blocks : List Nat) : Prop where
  holds : Holds b.node room (d + 1) limit (b.hdr at_) (l ++ k::r : List (Kid (Tree d)))
  distinct : (footOf (l ++ k::r)).Nodup
  clear : ∀ c ∈ footOf (l ++ k::r), at_ ≠ some c
  listed : ∀ c ∈ footOf (l ++ k::r), c ∈ blocks
  own : ∀ c, at_ = some c → c ∈ blocks

/-- The children that a node is to have. -/
structure Children (s' : State) (room d : Nat) (l : List (Kid (Tree d))) (k : Kid (Tree d)) (r ks : List (Kid (Tree d))) (x : Slot)
    (taken : List Nat) (low high : Nat) : Prop where
  holds : ∀ k' ∈ l ++ ks ++ r, Holds s'.node room d room (s'.node k'.block) k'.tree
  wf : Tiled (kidAt d) low (l ++ ks ++ r) high
  extents : Inserted x (flat (d + 1) (l ++ k::r : List (Kid (Tree d)))) ((l ++ ks ++ r).flatMap fun k => flat d k.tree)
  blocks : (footOf (l ++ ks ++ r)).Perm (taken ++ footOf (l ++ k::r))

section Node
variable {b s' : State} {room limit d : Nat} {at_ : Option Nat} {l r ks : List (Kid (Tree d))} {k : Kid (Tree d)} {x : Slot}
  {taken blocks : List Nat} {low middle high : Nat} (spot : Spot b room limit d at_ l k r blocks) (owned : Owned s' room taken blocks)
  (regrown : Regrown b s' room d k ks x taken middle)
include spot owned regrown

/-- The node itself is as it was. -/
theorem Spot.kept : s'.hdr at_ = b.hdr at_ := by
  refine regrown.other at_ fun c member => ?_
  rcases List.mem_append.mp member with new | below
  · exact fun equal => owned.fresh new (spot.own c equal)
  · exact spot.clear c (mem_footOf.mpr ⟨k,List.mem_append_right _ List.mem_cons_self,below⟩)

theorem Spot.children (left : Tiled (kidAt d) low l k.key) (right : Tiled (kidAt d) middle r high) :
    Children s' room d l k r ks x taken low high := by
  obtain ⟨_,_,below⟩ := holds_index.mp spot.holds
  have beside : ∀ k' ∈ l ++ r, Holds s'.node room d room (s'.node k'.block) k'.tree := by
    refine @Holds.beside _ b.node _ _ _ (fun k' member => below k' ?_) fun c here => regrown.other (some c) fun c' member equal => ?_
    · rcases List.mem_append.mp member with front | back
      · exact List.mem_append_left _ front
      · exact List.mem_append_right _ (List.mem_cons_of_mem _ back)
    · obtain rfl := Option.some.inj equal
      obtain ⟨k',inside,here⟩ := mem_footOf.mp here
      rcases List.mem_append.mp member with new | own
      · refine owned.fresh new (spot.listed c (mem_footOf.mpr ⟨k',?_,here⟩))
        rcases List.mem_append.mp inside with front | back
        · exact List.mem_append_left _ front
        · exact List.mem_append_right _ (List.mem_cons_of_mem _ back)
      · exact foot_beside spot.distinct inside here own
  refine ⟨fun k' member => ?_,?_,?_,?_⟩
  · rcases List.mem_append.mp member with rest | back
    · rcases List.mem_append.mp rest with front | new
      · exact beside k' (List.mem_append_left _ front)
      · exact regrown.holds k' new
    · exact beside k' (List.mem_append_right _ back)
  · rw [List.append_assoc]
    exact (tiled_append l (ks ++ r)).mpr ⟨k.key,left,(tiled_append ks r).mpr ⟨middle,regrown.wf,right⟩⟩
  · have flatten : flat (d + 1) (l ++ k::r : List (Kid (Tree d))) =
        l.flatMap (fun k => flat d k.tree) ++ (flat d k.tree ++ r.flatMap fun k => flat d k.tree) := by
      change (l ++ k::r).flatMap _ = _
      rw [List.flatMap_append,List.flatMap_cons]
    rw [flatten,List.flatMap_append,List.flatMap_append,List.append_assoc]
    exact regrown.extents.beside _ _
  · rw [footOf_append,footOf_append,footOf_append,footOf_cons,List.append_assoc]
    refine ((regrown.blocks.append_right (footOf r)).append_left (footOf l)).trans ?_
    rw [List.append_assoc]
    exact List.perm_append_comm_assoc _ _ _

/-- A node whose child has taken the extent in stays as it is. -/
theorem Spot.same_node {k' : Kid (Tree d)} (children : Children s' room d l k r [k'] x taken low high) (key : k'.key = k.key)
    (block : k'.block = k.block) : Holds s'.node room (d + 1) limit (s'.hdr at_) (l ++ [k'] ++ r : List (Kid (Tree d))) := by
  obtain ⟨header,pointers,_⟩ := holds_index.mp spot.holds
  rw [spot.kept owned regrown]
  refine holds_index.mpr ⟨header,pointers.trans ?_,children.holds⟩
  change (l ++ k::r).map _ = (l ++ [k'] ++ r).map _
  simp [key,block]

end Node

theorem withSlot_pointers {d : Nat} {n : Node} {l r : List (Kid (Tree d))} {k k₁ k₂ : Kid (Tree d)} {y : Slot}
    (pointers : (slots n).map pointer = (l ++ k::r).map fun k => (k.key,k.block)) (key : k₁.key = k.key) (block : k₁.block = k.block)
    (new : pointer y = (k₂.key,k₂.block)) :
    (withSlot (slots n) (l.length + 1) y).map pointer = (l ++ [k₁,k₂] ++ r).map fun k => (k.key,k.block) := by
  have cut : l ++ k::r = (l ++ [k]) ++ r := by rw [List.append_assoc,List.singleton_append]
  have length : ((l ++ [k]).map fun k => (k.key,k.block)).length = l.length + 1 := by
    rw [List.length_map,List.length_append,List.length_singleton]
  rw [withSlot,List.map_append,List.map_cons,List.map_take,List.map_drop,pointers,cut,List.map_append,← length,List.take_left,
    List.drop_left,new]
  simp [key,block]

section Linked
variable {b s' s'' : State} {path path' path'' : Path} {room limit d level depth : Nat} {at_ : Option Nat} {l r : List (Kid (Tree d))}
  {k k₁ k₂ : Kid (Tree d)} {x : Slot} {taken blocks : List Nat} {low middle high : Nat} (spot : Spot b room limit d at_ l k r blocks)
  (owned : Owned s' room taken blocks) (regrown : Regrown b s' room d k [k₁,k₂] x taken middle)
  (children : Children s' room d l k r [k₁,k₂] x taken low high) (location : (path'.elem level).pHdr = at_)
  (key : k₁.key = k.key) (block : k₁.block = k.block)
include spot owned regrown children location key block

omit regrown location key block in
/-- The children's nodes are not touched when the index is put into their parent. -/
theorem Spot.apart {c : Nat} (member : c ∈ footOf (l ++ [k₁,k₂] ++ r)) : some c ≠ at_ := by
  intro equal
  rcases List.mem_append.mp (children.blocks.mem_iff.mp member) with new | old
  · exact owned.fresh new (spot.own c equal.symm)
  · exact spot.clear c old equal.symm

/-- A node that has linked the second child. -/
theorem Spot.free_node (free : IndexFree s' path' level l.length k₂.key k₂.block s'' path'') :
    Holds s''.node room (d + 1) limit (s''.hdr at_) (l ++ [k₁,k₂] ++ r : List (Kid (Tree d))) ∧
      ∀ a, a ≠ at_ → s''.hdr a = s'.hdr a := by
  obtain ⟨header,pointers,_⟩ := holds_index.mp spot.holds
  obtain ⟨y,new,array⟩ := free.placed
  have alike := free.alike
  have fits := free.fits
  have other := free.other
  rw [location] at array alike fits other
  rw [spot.kept owned regrown] at array alike
  refine ⟨holds_index.mpr ⟨alike.header header fits,?_,?_⟩,other⟩
  · rw [array]
    exact withSlot_pointers pointers key block new
  · exact Holds.beside children.holds fun c member => other (some c) (spot.apart owned children member)

/-- A node that was split to link the second child. -/
theorem Spot.split_nodes {sibling : Nat} (split : IndexSplit s' path' level l.length k₂.key k₂.block (d + 1) room (taken ++ blocks) s'' path''
    sibling) : ∃ t₁ e rest, l ++ [k₁,k₂] ++ r = t₁ ++ e::rest ∧ t₁ ≠ [] ∧
      (ownHalf (b.hdr at_).ehMax l.length true = true → e::rest = r) ∧ (ownHalf (b.hdr at_).ehMax l.length true = false → e::rest = k₂::r) ∧
      Holds s''.node room (d + 1) limit (s''.hdr at_) (t₁ : List (Kid (Tree d))) ∧
      Holds s''.node room (d + 1) room (s''.node sibling) (e::rest : List (Kid (Tree d))) ∧ ext4ExtBlockIndex s'' sibling = e.key ∧
      ∀ a, a ≠ at_ → a ≠ some sibling → s''.hdr a = s'.hdr a := by
  obtain ⟨header,pointers,_⟩ := holds_index.mp spot.holds
  obtain ⟨y,new,array,goes⟩ := split.placed
  have alike := split.alike
  have fits := split.fits
  have other := split.other
  have left := split.left
  have own := split.own
  rw [location] at array alike fits other left own goes
  rw [spot.kept owned regrown] at array alike own goes
  have whole := congrArg (List.map pointer) array
  rw [withSlot_pointers pointers key block new,List.map_append] at whole
  have kids : ∀ k' ∈ l ++ [k₁,k₂] ++ r, Holds s''.node room d room (s''.node k'.block) k'.tree := by
    refine Holds.beside children.holds fun c member => other (some c) (spot.apart owned children member) fun equal => ?_
    obtain rfl := Option.some.inj equal
    refine split.fresh (List.mem_cons_of_mem _ ?_)
    rcases List.mem_append.mp (children.blocks.mem_iff.mp member) with taken | old
    · exact List.mem_append_left _ taken
    · exact List.mem_append_right _ (spot.listed c old)
  -- the children go with their indexes
  obtain ⟨t₁,t₂,parts,first,second⟩ := List.map_eq_append_iff.mp whole.symm
  have some_₁ : t₁ ≠ [] := by
    rintro rfl
    exact left (List.map_eq_nil_iff.mp first.symm)
  obtain ⟨e,rest,rfl⟩ := List.exists_cons_of_ne_nil (show t₂ ≠ [] by
    rintro rfl
    exact split.right (List.map_eq_nil_iff.mp second.symm))
  rw [parts] at kids
  have count : (slots (b.hdr at_)).length = l.length + 1 + r.length := by
    rw [← List.length_map,pointers,List.length_map]
    change (l ++ k::r).length = _
    rw [List.length_append,List.length_cons]
    omega
  have length := congrArg List.length second
  rw [List.length_map,List.length_map] at length
  refine ⟨t₁,e,rest,parts,some_₁,fun stays => ?_,fun crosses => ?_,
    holds_index.mpr ⟨alike.header header fits,first.symm,fun k' member => kids k' (List.mem_append_left _ member)⟩,
    holds_index.mpr ⟨split.header,second.symm,fun k' member => kids k' (List.mem_append_right _ member)⟩,?_,other⟩
  · rw [own stays,List.length_drop,count] at length
    exact (List.append_inj_right' parts (by omega)).symm
  · rw [goes crosses,List.length_cons,List.length_cons,List.length_drop,count] at length
    have cut : l ++ [k₁,k₂] ++ r = (l ++ [k₁]) ++ k₂::r := by simp
    refine (List.append_inj_right' (cut.symm.trans parts) ?_).symm
    rw [List.length_cons,List.length_cons]
    omega
  obtain ⟨z,zs,cells⟩ := List.exists_cons_of_ne_nil split.right
  rw [cells,List.map_cons,List.map_cons] at second
  rw [ext4ExtBlockIndex,if_pos (by rw [split.header.depth]; exact Nat.succ_ne_zero d),slot_zero cells]
  exact (Prod.mk.inj (List.cons.inj second).1).1.symm

end Linked

theorem footOf_nil (d : Nat) : footOf ([] : List (Kid (Tree d))) = [] := rfl

theorem foot_succ {d : Nat} (ks : List (Kid (Tree d))) : foot (d + 1) (ks : List (Kid (Tree d))) = footOf ks := rfl

section Up
variable {b s' s'' : State} {room d : Nat} {K : Kid (Tree (d + 1))} {l r ks : List (Kid (Tree d))} {k : Kid (Tree d)} {x : Slot}
  {taken : List Nat} {middle high : Nat} (parts : kidsOf K.tree = l ++ k::r) (regrown : Regrown b s' room d k ks x taken middle)
  (children : Children s' room d l k r ks x taken K.key high)
include parts regrown children

theorem Regrown.linked (some_ : ks ≠ []) (other : ∀ a, a ≠ some K.block → s''.hdr a = s'.hdr a)
    (holds : Holds s''.node room (d + 1) room (s''.node K.block) (l ++ ks ++ r : List (Kid (Tree d)))) :
    Regrown b s'' room (d + 1) K [⟨K.key,K.block,(l ++ ks ++ r : List (Kid (Tree d)))⟩] x taken high := by
  have lists : K.tree = (l ++ k::r : List (Kid (Tree d))) := parts
  refine ⟨fun k' member => ?_,⟨K.key,high,Nat.le_refl _,⟨rfl,?_,children.wf⟩,Nat.le_refl _⟩,?_,?_,fun a outside => ?_⟩
  · rw [List.mem_singleton.mp member]
    exact holds
  · change (l ++ ks ++ r).length ≠ 0
    exact fun empty => some_ (by simpa using (List.append_eq_nil_iff.mp (List.append_eq_nil_iff.mp (List.length_eq_zero_iff.mp empty)).1).2)
  · rw [List.flatMap_cons,List.flatMap_nil,List.append_nil,lists]
    exact children.extents
  · rw [lists,footOf_cons,footOf_nil,List.append_nil,foot_succ,foot_succ]
    exact (children.blocks.cons K.block).trans (List.perm_middle.symm)
  · rw [other a (outside K.block (List.mem_append_right _ List.mem_cons_self)),regrown.other a fun c member => outside c ?_]
    rcases List.mem_append.mp member with new | below
    · exact List.mem_append_left _ new
    · refine List.mem_append_right _ (List.mem_cons_of_mem _ ?_)
      rw [lists]
      exact mem_footOf.mpr ⟨k,List.mem_append_right _ List.mem_cons_self,below⟩

theorem Regrown.divided {sibling : Nat} {t₁ rest : List (Kid (Tree d))} {e : Kid (Tree d)} (cut : l ++ ks ++ r = t₁ ++ e::rest) (some_ : t₁ ≠ [])
    (other : ∀ a, a ≠ some K.block → a ≠ some sibling → s''.hdr a = s'.hdr a)
    (holds : Holds s''.node room (d + 1) room (s''.node K.block) (t₁ : List (Kid (Tree d))))
    (holds' : Holds s''.node room (d + 1) room (s''.node sibling) (e::rest : List (Kid (Tree d)))) :
    Regrown b s'' room (d + 1) K [⟨K.key,K.block,(t₁ : List (Kid (Tree d)))⟩,⟨e.key,sibling,(e::rest : List (Kid (Tree d)))⟩] x
      (sibling::taken) high := by
  have lists : K.tree = (l ++ k::r : List (Kid (Tree d))) := parts
  have wf := children.wf
  have extents := children.extents
  have blocks := children.blocks
  rw [cut] at wf extents blocks
  obtain ⟨one,two⟩ := wf.cut kidAt_key
  refine ⟨fun k' member => ?_,⟨K.key,e.key,Nat.le_refl _,⟨rfl,?_,one⟩,e.key,high,Nat.le_refl _,⟨rfl,nofun,two⟩,Nat.le_refl _⟩,?_,?_,
    fun a outside => ?_⟩
  · rcases List.mem_cons.mp member with rfl | member
    · exact holds
    · rw [List.mem_singleton.mp member]
      exact holds'
  · exact fun empty => some_ (List.length_eq_zero_iff.mp empty)
  · rw [List.flatMap_cons,List.flatMap_cons,List.flatMap_nil,List.append_nil,lists]
    rw [List.flatMap_append] at extents
    exact extents
  · rw [lists,footOf_cons,footOf_cons,footOf_nil,List.append_nil,foot_succ,foot_succ,foot_succ]
    rw [footOf_append] at blocks
    refine List.Perm.trans ?_ (@List.perm_middle _ K.block (sibling::taken) _).symm
    refine List.Perm.cons K.block ?_
    exact (@List.perm_middle _ sibling (footOf t₁) _).trans (blocks.cons sibling)
  · rw [other a (outside K.block (List.mem_append_right _ List.mem_cons_self))
      (outside sibling (List.mem_append_left _ List.mem_cons_self)),regrown.other a fun c member => outside c ?_]
    rcases List.mem_append.mp member with new | below
    · exact List.mem_append_left _ (List.mem_cons_of_mem _ new)
    · refine List.mem_append_right _ (List.mem_cons_of_mem _ ?_)
      rw [lists]
      exact mem_footOf.mpr ⟨k,List.mem_append_right _ List.mem_cons_self,below⟩

end Up

end Ext4Fuse.Extents
