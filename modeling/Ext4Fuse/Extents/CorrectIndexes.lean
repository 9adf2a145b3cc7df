import Ext4Fuse.Extents.Slots

/-! What `ext4_ext_correct_indexes` makes of the keys on a path: the tree holds the same extents,
and no key on the way to the new extent is above it. -/
namespace Ext4Fuse.Extents
open Machine Ext4Fuse.Types Super Library.Segments

/-! The loop changes one entry of each node it comes to, by what the node itself holds. -/

theorem setPathKey_hdr (s : State) (elem : PathElem) (border : Nat) (a : Option Nat) : (setPathKey s elem border).hdr a =
    if a = elem.pHdr then (s.hdr a).setSlot (elem.pIdx.getD 0) (((s.hdr a).slot (elem.pIdx.getD 0)).setEiBlock border)
    else s.hdr a := by
  rw [setPathKey,ext4ExtDirty_hdr]
  split
  · rename_i same
    rw [same,setHdr_hdr]
  · rename_i differ
    exact setHdr_other _ _ differ

theorem correctIndexesLoop_congr (path : Path) (border k : Nat) {s s₁ : State} {a : Option Nat} (same : s₁.hdr a = s.hdr a) :
    (correctIndexesLoop path border k s₁).hdr a = (correctIndexesLoop path border k s).hdr a := by
  induction k generalizing s s₁ with
  | zero => exact same
  | succ k ih =>
    rw [correctIndexesLoop,correctIndexesLoop]
    split
    · exact same
    · refine ih ?_
      rw [setPathKey_hdr,setPathKey_hdr,same]

theorem correctIndexesLoop_other {path : Path} {border k : Nat} {s : State} {a : Option Nat}
    (differ : ∀ j, j < k → (path.elem j).pHdr ≠ a) : (correctIndexesLoop path border k s).hdr a = s.hdr a := by
  induction k generalizing s with
  | zero => rfl
  | succ k ih =>
    rw [correctIndexesLoop]
    split
    · rfl
    · rw [ih fun j before => differ j (Nat.lt_succ_of_lt before),setPathKey_hdr,if_neg (differ k (Nat.lt_succ_self k)).symm]

theorem setPathKey_volume (s : State) (elem : PathElem) (border : Nat) : (setPathKey s elem border).volume = s.volume := by
  rw [setPathKey,ext4ExtDirty_volume,setHdr_volume]

theorem correctIndexesLoop_volume (path : Path) (border k : Nat) (s : State) :
    (correctIndexesLoop path border k s).volume = s.volume := by
  induction k generalizing s with
  | zero => rfl
  | succ k ih =>
    rw [correctIndexesLoop]
    split
    · rfl
    · rw [ih,setPathKey_volume]

/-! A child among its siblings. -/

section Kids
variable {d : Nat} {l r : List (Kid (Tree d))} {k : Kid (Tree d)}

/-- The blocks of some children and of what is below them. -/
def footOf (ks : List (Kid (Tree d))) : List Nat := foot (d + 1) ks

theorem footOf_append (ks ks' : List (Kid (Tree d))) : footOf (ks ++ ks') = footOf ks ++ footOf ks' := List.flatMap_append

theorem footOf_cons (k : Kid (Tree d)) (ks : List (Kid (Tree d))) : footOf (k::ks) = (k.block::foot d k.tree) ++ footOf ks :=
  @List.flatMap_cons _ _ k ks fun k => k.block::foot d k.tree

theorem mem_footOf {ks : List (Kid (Tree d))} {b : Nat} :
    b ∈ footOf ks ↔ ∃ k ∈ ks, b ∈ k.block::foot d k.tree := List.mem_flatMap

/-- The blocks of the other children are none of this one's. -/
theorem foot_beside (distinct : (footOf (l ++ k::r)).Nodup) {k' : Kid (Tree d)} (member : k' ∈ l ++ r) {b : Nat}
    (here : b ∈ k'.block::foot d k'.tree) : b ∉ k.block::foot d k.tree := by
  rw [footOf_append,footOf_cons,List.nodup_append] at distinct
  obtain ⟨_,right,apart⟩ := distinct
  obtain ⟨_,_,apart'⟩ := List.nodup_append.mp right
  intro own
  rcases List.mem_append.mp member with front | back
  · exact apart b (mem_footOf.mpr ⟨k',front,here⟩) b (List.mem_append_left _ own) rfl
  · exact apart' b own b (mem_footOf.mpr ⟨k',back,here⟩) rfl

theorem Holds.beside {heap heap' : Nat → Node} {room : Nat} {ks : List (Kid (Tree d))}
    (below : ∀ k ∈ ks, Holds heap room d room (heap k.block) k.tree) (same : ∀ b ∈ footOf ks, heap' b = heap b) :
    ∀ k ∈ ks, Holds heap' room d room (heap' k.block) k.tree := by
  intro k member
  rw [same _ (mem_footOf.mpr ⟨k,member,List.mem_cons_self⟩)]
  exact (below k member).frame fun b here => same b (mem_footOf.mpr ⟨k,member,List.mem_cons_of_mem _ here⟩)

end Kids

/-- From element `level` on the path leads through the nodes of the tree, and no key on the way is above `block`. -/
def Led (block : Nat) (path : Path) : (d : Nat) → Tree d → Option Nat → Nat → Prop
  | 0, t, at_, level => (path.elem level).pHdr = at_ ∧
    (extentsOf t = [] ∧ (path.elem level).pExt = none ∨
      ∃ l x r, Chosen Slot.eeBlock block (extentsOf t) l x r ∧ (path.elem level).pExt = some l.length)
  | d+1, t, at_, level => (path.elem level).pHdr = at_ ∧
    ∃ l k r, Chosen Kid.key block (kidsOf t) l k r ∧ k.key ≤ block ∧ (path.elem level).pIdx = some l.length ∧
      Led block path d k.tree (some k.block) (level + 1)

theorem Led.hdr {block : Nat} {path : Path} {d : Nat} {t : Tree d} {at_ : Option Nat} {level : Nat} (led : Led block path d t at_ level) :
    (path.elem level).pHdr = at_ := by
  cases d with
  | zero => exact led.1
  | succ d => exact led.1

/-- The leaf that the path's index positions lead to. -/
def leafAt (path : Path) : (d : Nat) → Tree d → Nat → List Slot
  | 0, t, _ => extentsOf t
  | d+1, t, level => match (kidsOf t)[(path.elem level).pIdx.getD 0]? with
    | some k => leafAt path d k.tree (level + 1)
    | none => []

theorem leafAt_parts {path : Path} {d level : Nat} {t : Tree (d + 1)} {l r : List (Kid (Tree d))} {k : Kid (Tree d)}
    (parts : kidsOf t = l ++ k::r) (position : (path.elem level).pIdx = some l.length) :
    leafAt path (d + 1) t level = leafAt path d k.tree (level + 1) := by
  have here : (kidsOf t)[(path.elem level).pIdx.getD 0]? = some k := by
    rw [position,Option.getD_some,parts,List.getElem?_append_right (Nat.le_refl _),Nat.sub_self]
    rfl
  rw [leafAt,here]

theorem leafAt_flat {path : Path} {d level : Nat} {t : Tree d} {x : Slot} (member : x ∈ leafAt path d t level) : x ∈ flat d t := by
  induction d generalizing level with
  | zero => exact member
  | succ d ih =>
    rw [leafAt] at member
    split at member
    · rename_i k here
      exact List.mem_flatMap.mpr ⟨k,List.mem_of_getElem? here,ih member⟩
    · nomatch member

/-- A node with other children in the place of one of them. -/
theorem Holds.replace {heap heap' : Nat → Node} {room limit d : Nat} {n' : Node} {l r ks : List (Kid (Tree d))} {k : Kid (Tree d)}
    (header : Header n' (d + 1) limit n'.ehEntries) (pointers : (slots n').map pointer = (l ++ ks ++ r).map fun k => (k.key,k.block))
    (below : ∀ k' ∈ l ++ k::r, Holds heap room d room (heap k'.block) k'.tree)
    (same : ∀ k' ∈ l ++ r, ∀ b ∈ k'.block::foot d k'.tree, heap' b = heap b)
    (kids : ∀ k' ∈ ks, Holds heap' room d room (heap' k'.block) k'.tree) :
    Holds heap' room (d + 1) limit n' (l ++ ks ++ r : List (Kid (Tree d))) := by
  refine holds_index.mpr ⟨header,pointers,fun k' member => ?_⟩
  have elsewhere (member : k' ∈ l ++ r) : Holds heap' room d room (heap' k'.block) k'.tree := by
    have kept := same k' member
    rw [kept _ List.mem_cons_self]
    refine (below k' ?_).frame fun b here => kept b (List.mem_cons_of_mem _ here)
    rcases List.mem_append.mp member with front | back
    · exact List.mem_append_left _ front
    · exact List.mem_append_right _ (List.mem_cons_of_mem _ back)
  rcases List.mem_append.mp member with rest | back
  · rcases List.mem_append.mp rest with front | here
    · exact elsewhere (List.mem_append_left _ front)
    · exact kids k' here
  · exact elsewhere (List.mem_append_right _ back)

/-! The keys on the path. -/

/-- The states hold the same extents in the same blocks, and in the second the path's keys are not above `block`. -/
structure Keyed (block : Nat) (path : Path) (s s' : State) (room limit d : Nat) (t t' : Tree d) (at_ : Option Nat) (level : Nat) : Prop where
  holds : Holds s'.node room d limit (s'.hdr at_) t'
  led : Led block path d t' at_ level
  extents : flat d t' = flat d t
  blocks : foot d t' = foot d t
  count : entries d t' = entries d t
  below : ∀ c ∈ keys d t', c ∈ keys d t ∨ c ≤ block
  other : ∀ a, a ≠ at_ → (∀ b ∈ foot d t, a ≠ some b) → s'.hdr a = s.hdr a

theorem setEiBlock_pointer (x : Slot) {border : Nat} (small : border < 2^32) :
    pointer (x.setEiBlock border) = (border,(pointer x).2) := by
  rw [pointer,Slot.eiBlock,Slot.setEiBlock,UInt32.toNat_ofNat_of_lt' small]
  rfl

theorem pointers_setSlot {d : Nat} {n : Node} {l r : List (Kid (Tree d))} {k : Kid (Tree d)} {border : Nat} (small : border < 2^32)
    (pointers : (slots n).map pointer = (l ++ k::r).map fun k => (k.key,k.block)) (tree : Tree d) :
    (slots (n.setSlot l.length ((n.slot l.length).setEiBlock border))).map pointer =
      (l ++ [(⟨border,k.block,tree⟩ : Kid (Tree d))] ++ r).map fun k => (k.key,k.block) := by
  have both := congrArg (·[l.length]?) pointers
  have inside : l.length < n.ehEntries := by
    have lengths := congrArg List.length pointers
    rw [List.length_map,List.length_map,slots_length,List.length_append,List.length_cons] at lengths
    omega
  have here : ((l ++ k::r).map fun k => (k.key,k.block))[l.length]? = some (k.key,k.block) := by
    rw [List.getElem?_map,List.getElem?_append_right (Nat.le_refl _),Nat.sub_self]
    rfl
  rw [here,List.getElem?_map,slot_mem inside,Option.map_some] at both
  have target := (Prod.mk.inj (Option.some.inj both)).2
  rw [slots_setSlot,List.map_set,pointers,setEiBlock_pointer _ small,pointer,target,List.map_append,List.map_cons,
    List.set_append_right _ _ (by rw [List.length_map])]
  simp

section Up
variable {block : Nat} {path : Path} {d level limit room : Nat} {s s' : State} {t : Tree (d + 1)} {at_ : Option Nat}
  {l r : List (Kid (Tree d))} {k m : Kid (Tree d)} (parts : kidsOf t = l ++ k::r)
include parts

/-- A node whose chosen child has been corrected. -/
theorem Keyed.up (holds : Holds s.node room (d + 1) limit (s.hdr at_) t) (distinct : (foot (d + 1) t).Nodup)
    (clear : ∀ b ∈ foot (d + 1) t, at_ ≠ some b) (pHdr : (path.elem level).pHdr = at_) (position : (path.elem level).pIdx = some l.length)
    (above : ∀ y ∈ r, block < y.key) (low : m.key ≤ block) (same : m.block = k.block)
    (pointers : (slots (s'.hdr at_)).map pointer = (l ++ [m] ++ r).map fun k => (k.key,k.block)) (alike : SameHeader (s.hdr at_) (s'.hdr at_))
    (self : Holds s'.node room d room (s'.node k.block) m.tree) (led : Led block path d m.tree (some k.block) (level + 1))
    (extents : flat d m.tree = flat d k.tree) (blocks : foot d m.tree = foot d k.tree)
    (lowered : ∀ c ∈ keys d m.tree, c ∈ keys d k.tree ∨ c ≤ block)
    (other : ∀ a, a ≠ at_ → (∀ b ∈ k.block::foot d k.tree, a ≠ some b) → s'.hdr a = s.hdr a) :
    Keyed block path s s' room limit (d + 1) t (l ++ [m] ++ r : List (Kid (Tree d))) at_ level := by
  obtain ⟨header,_,below⟩ := holds_index.mp holds
  rw [parts] at below
  have lists : t = (l ++ k::r : List (Kid (Tree d))) := parts
  have count : (s'.hdr at_).ehEntries = (s.hdr at_).ehEntries := by
    have lengths := congrArg List.length pointers
    rw [List.length_map,List.length_map,slots_length] at lengths
    have old : (s.hdr at_).ehEntries = (kidsOf t).length := holds.1.entries
    rw [parts] at old
    simp only [List.length_append,List.length_cons,List.length_nil] at lengths old
    omega
  have header' : Header (s'.hdr at_) (d + 1) limit (s'.hdr at_).ehEntries := by
    refine alike.header header ?_
    rw [count,alike.max]
    exact header.fits
  rw [lists] at distinct clear
  refine ⟨?_,⟨pHdr,l,m,r,⟨?_,fun _ => low,above⟩,low,position,?_⟩,?_,?_,?_,fun c member => ?_,fun a differ outside => other a differ fun b here => outside b ?_⟩
  · refine Holds.replace header' pointers below (fun k₁ member b here => ?_) fun k₁ member => ?_
    · refine other (some b) (fun equal => clear b ?_ equal.symm) fun c own equal => ?_
      · obtain front | back := List.mem_append.mp member
        · exact mem_footOf.mpr ⟨k₁,List.mem_append_left _ front,here⟩
        · exact mem_footOf.mpr ⟨k₁,List.mem_append_right _ (List.mem_cons_of_mem _ back),here⟩
      · exact foot_beside distinct member here (Option.some.inj equal ▸ own)
    · rw [List.mem_singleton.mp member,same]
      exact self
  · change l ++ [m] ++ r = l ++ m::r
    rw [List.append_assoc,List.singleton_append]
  · rw [same]
    exact led
  · rw [lists]
    change (l ++ [m] ++ r).flatMap (fun k => flat d k.tree) = (l ++ k::r).flatMap fun k => flat d k.tree
    simp only [List.flatMap_append,List.flatMap_cons,List.flatMap_nil,List.append_nil,List.append_assoc,extents]
  · rw [lists]
    change footOf (l ++ [m] ++ r) = footOf (l ++ k::r)
    rw [footOf_append,footOf_append,footOf_append,footOf_cons,footOf_cons,same,blocks,List.append_assoc,List.append_assoc]
    rfl
  · rw [lists]
    change (l ++ [m] ++ r).length = (l ++ k::r).length
    simp
  · obtain ⟨k₁,inside,here⟩ := List.mem_flatMap.mp member
    have known (old : k₁ ∈ l ++ k::r) : c ∈ keys (d + 1) t := by
      rw [lists]
      exact List.mem_flatMap.mpr ⟨k₁,old,here⟩
    rcases List.mem_append.mp inside with rest | back
    · rcases List.mem_append.mp rest with front | new
      · exact Or.inl (known (List.mem_append_left _ front))
      · rw [List.mem_singleton.mp new] at here
        rcases List.mem_cons.mp here with rfl | deeper
        · exact Or.inr low
        · rcases lowered c deeper with old | less
          · rw [lists]
            exact Or.inl (List.mem_flatMap.mpr ⟨k,List.mem_append_right _ List.mem_cons_self,List.mem_cons_of_mem _ old⟩)
          · exact Or.inr less
    · exact Or.inl (known (List.mem_append_right _ (List.mem_cons_of_mem _ back)))
  · rw [lists]
    exact mem_footOf.mpr ⟨k,List.mem_append_right _ List.mem_cons_self,here⟩

/-- The lower bound is the new key when the child is the first. -/
theorem wf_rekeyed {low high a b : Nat} (left : Tiled (kidAt d) low l a) (right : Tiled (kidAt d) b r high) (some_ : entries d m.tree ≠ 0)
    (wf : Wf d m.key m.tree b) (ordered : l ≠ [] → a ≤ m.key) :
    Wf (d + 1) (if some l.length = some 0 then m.key else low) (l ++ [m] ++ r : List (Kid (Tree d))) high := by
  change Tiled (kidAt d) _ (l ++ [m] ++ r) high
  rw [List.append_assoc,List.singleton_append]
  refine (tiled_middle l r m).mpr ⟨m.key,b,?_,⟨rfl,some_,wf⟩,right⟩
  cases l with
  | nil => exact Nat.le_refl m.key
  | cons k₁ l =>
    rw [if_neg (by simp)]
    exact left.widen (Nat.le_refl low) (ordered (List.cons_ne_nil _ _))

end Up

theorem setPathKey_alike (s : State) (elem : PathElem) (border : Nat) (a : Option Nat) : SameHeader (s.hdr a) ((setPathKey s elem border).hdr a) := by
  rw [setPathKey_hdr]
  split
  · exact ⟨rfl,rfl,rfl⟩
  · exact ⟨rfl,rfl,rfl⟩

/-- A leaf begins where its first extent does. -/
theorem wf_leaf_raise {t : Tree 0} {low border high : Nat} (wf : Wf 0 low t high) (some_ : entries 0 t ≠ 0)
    (first : ∀ x ∈ extentsOf t, border ≤ x.eeBlock) : Wf 0 border t high := by
  cases t with
  | nil => exact absurd rfl some_
  | cons x xs =>
    obtain ⟨a,b,_,item,rest⟩ := wf
    exact ⟨a,b,item.1 ▸ first x List.mem_cons_self,item,rest⟩

theorem Led.low {block : Nat} {path : Path} {d level low high : Nat} {t : Tree (d + 1)} {at_ : Option Nat}
    (led : Led block path (d + 1) t at_ level) (wf : Wf (d + 1) low t high) : low ≤ block := by
  obtain ⟨_,l,k,r,chosen,key,_⟩ := led
  have parts := (wf_succ d low high t).mp wf
  rw [chosen.parts] at parts
  obtain ⟨a,b,left,⟨rfl,_⟩,_⟩ := (tiled_middle l r k).mp parts
  exact Nat.le_trans (left.le (kidAt_forward d)) key

/-- From the leaf up, as far as the loop has come or would come: in the second case the node's own
first key may have become the border. -/
theorem correctIndexes_keyed {block border : Nat} {path : Path} {s : State} {room : Nat} (small : border < 2^32)
    (least : border ≤ block) {d level : Nat} {t : Tree (d + 1)} {at_ : Option Nat} {limit low high : Nat}
    (onPath : OnPath block path (d + 1) t at_ level) (holds : Holds s.node room (d + 1) limit (s.hdr at_) t)
    (wf : Wf (d + 1) low t high) (distinct : (foot (d + 1) t).Nodup) (clear : ∀ b ∈ foot (d + 1) t, at_ ≠ some b)
    (first : ∀ x ∈ leafAt path (d + 1) t level, border ≤ x.eeBlock)
    (met : border = block ∨ ∃ x ∈ leafAt path (d + 1) t level, x.eeBlock = border) :
    ∃ s' t', Keyed block path s s' room limit (d + 1) t t' at_ level ∧
      (correctIndexesLoop path border (level + d) (setPathKey s (path.elem (level + d)) border) = s' ∧ Wf (d + 1) low t' high ∨
        correctIndexesLoop path border (level + d) (setPathKey s (path.elem (level + d)) border) = correctIndexesLoop path border level s' ∧
          Wf (d + 1) (if (path.elem level).pIdx = some 0 then border else low) t' high) := by
  induction d generalizing level at_ limit low high with
  | zero =>
    obtain ⟨pHdr,_,l,k,r,chosen,position,_,leaf⟩ := onPath
    have parts := (wf_succ 0 low high t).mp wf
    rw [chosen.parts] at parts
    obtain ⟨a,b,left,⟨key,some_,inside⟩,right⟩ := (tiled_middle l r k).mp parts
    obtain ⟨_,pointers,kids⟩ := holds_index.mp holds
    rw [chosen.parts] at pointers
    have kept (a : Option Nat) (differ : a ≠ at_) : (setPathKey s (path.elem level) border).hdr a = s.hdr a := by
      rw [setPathKey_hdr,if_neg (by rw [pHdr]; exact differ)]
    rw [leafAt_parts chosen.parts position,leafAt] at first met
    have bottom : border = block ∨ ∃ x ∈ flat 0 k.tree, x.eeBlock = border := met
    have ordered : l ≠ [] → a ≤ border := fun front => by
      rcases bottom with rfl | ⟨x,member,rfl⟩
      · rw [← key]
        exact chosen.below front
      · exact (wf_bounds inside member).1
    have led : Led block path 0 k.tree (some k.block) (level + 1) := ⟨leaf.1,leaf.2.2.2⟩
    refine ⟨setPathKey s (path.elem level) border,_,Keyed.up (m := ⟨border,k.block,k.tree⟩) chosen.parts holds distinct clear pHdr position
      chosen.above least rfl ?_ (setPathKey_alike s _ border at_) ?_ led rfl rfl (fun c member => Or.inl member) fun a differ _ => kept a differ,Or.inr ⟨rfl,?_⟩⟩
    · rw [setPathKey_hdr,if_pos pHdr.symm,position,Option.getD_some]
      exact pointers_setSlot small pointers k.tree
    · have lists : t = (l ++ k::r : List (Kid (Tree 0))) := chosen.parts
      rw [lists] at clear
      have leafKept : (setPathKey s (path.elem level) border).node k.block = s.node k.block := kept (some k.block) fun equal =>
        clear k.block (mem_footOf.mpr ⟨k,List.mem_append_right _ List.mem_cons_self,List.mem_cons_self⟩) equal.symm
      rw [leafKept]
      exact kids k (chosen.parts ▸ List.mem_append_right _ List.mem_cons_self)
    · rw [position]
      exact wf_rekeyed (m := ⟨border,k.block,k.tree⟩) chosen.parts left right some_ (wf_leaf_raise inside some_ first) ordered
  | succ d ih =>
    obtain ⟨pHdr,_,l,k,r,chosen,position,_,below⟩ := onPath
    have parts := (wf_succ (d + 1) low high t).mp wf
    rw [chosen.parts] at parts
    obtain ⟨a,b,left,⟨key,some_,inside⟩,right⟩ := (tiled_middle l r k).mp parts
    subst key
    obtain ⟨_,pointers,kids⟩ := holds_index.mp holds
    rw [chosen.parts] at pointers kids
    rw [leafAt_parts chosen.parts position] at first met
    have ordered : l ≠ [] → k.key ≤ border := fun front => by
      rcases met with rfl | ⟨x,member,rfl⟩
      · exact chosen.below front
      · exact (wf_bounds inside (leafAt_flat member)).1
    have here (b : Nat) (member : b ∈ k.block::foot (d + 1) k.tree) : b ∈ foot (d + 2) t := by
      have lists : t = (l ++ k::r : List (Kid (Tree (d + 1)))) := chosen.parts
      rw [lists]
      exact mem_footOf.mpr ⟨k,List.mem_append_right _ List.mem_cons_self,member⟩
    have own : (k.block::foot (d + 1) k.tree).Nodup := by
      have lists : t = (l ++ k::r : List (Kid (Tree (d + 1)))) := chosen.parts
      rw [lists] at distinct
      change (footOf (l ++ k::r)).Nodup at distinct
      rw [footOf_append,footOf_cons] at distinct
      exact (List.nodup_append.mp (List.nodup_append.mp distinct).2.1).1
    obtain ⟨s₁,tree₁,keyed,result⟩ := ih below (kids k (List.mem_append_right _ List.mem_cons_self)) inside (List.nodup_cons.mp own).2
      (fun b member equal => (List.nodup_cons.mp own).1 (Option.some.inj equal ▸ member)) first met
    rw [show level + 1 + d = level + (d + 1) by omega] at result
    have untouched : s₁.hdr at_ = s.hdr at_ :=
      keyed.other at_ (clear _ (here _ List.mem_cons_self)) fun b member => clear b (here b (List.mem_cons_of_mem _ member))
    -- the loop ends at this child: the node's own keys stay
    have stopped (final : correctIndexesLoop path border (level + (d + 1)) (setPathKey s (path.elem (level + (d + 1))) border) = s₁)
        (wf₁ : Wf (d + 1) k.key tree₁ b) : ∃ s' t', Keyed block path s s' room limit (d + 2) t t' at_ level ∧
          (correctIndexesLoop path border (level + (d + 1)) (setPathKey s (path.elem (level + (d + 1))) border) = s' ∧ Wf (d + 2) low t' high ∨
            correctIndexesLoop path border (level + (d + 1)) (setPathKey s (path.elem (level + (d + 1))) border) =
                correctIndexesLoop path border level s' ∧
              Wf (d + 2) (if (path.elem level).pIdx = some 0 then border else low) t' high) := by
      refine ⟨s₁,_,Keyed.up (m := ⟨k.key,k.block,tree₁⟩) chosen.parts holds distinct clear pHdr position chosen.above (keyed.led.low wf₁) rfl ?_
        (by rw [untouched]; exact ⟨rfl,rfl,rfl⟩) keyed.holds keyed.led keyed.extents keyed.blocks
        keyed.below fun a _ outside => keyed.other a (outside _ List.mem_cons_self) fun b member => outside b (List.mem_cons_of_mem _ member),Or.inl ⟨final,?_⟩⟩
      · rw [untouched,pointers]
        simp
      · refine wf_widen (wf_rekeyed (m := ⟨k.key,k.block,tree₁⟩) chosen.parts left right (keyed.count ▸ some_) wf₁ fun _ => Nat.le_refl _)
          ?_ (Nat.le_refl high)
        split
        · exact left.le (kidAt_forward (d + 1))
        · exact Nat.le_refl low
    rcases result with ⟨final,wf₁⟩ | ⟨final,wf₁⟩
    · exact stopped final wf₁
    · rcases Decidable.em ((path.elem (level + 1)).pIdx = some 0) with zero | behind
      · rw [if_pos zero] at wf₁
        rw [correctIndexesLoop,if_neg (not_not.mpr zero)] at final
        have kept (a : Option Nat) (differ : a ≠ at_) : (setPathKey s₁ (path.elem level) border).hdr a = s₁.hdr a := by
          rw [setPathKey_hdr,if_neg (by rw [pHdr]; exact differ)]
        have apart (b : Nat) (member : b ∈ k.block::foot (d + 1) k.tree) : (setPathKey s₁ (path.elem level) border).node b = s₁.node b :=
          kept (some b) fun equal => clear b (here b member) equal.symm
        refine ⟨setPathKey s₁ (path.elem level) border,_,Keyed.up (m := ⟨border,k.block,tree₁⟩) chosen.parts holds distinct clear pHdr
          position chosen.above least rfl ?_ (untouched ▸ setPathKey_alike s₁ _ border at_) ?_ keyed.led keyed.extents keyed.blocks keyed.below ?_,
          Or.inr ⟨final,?_⟩⟩
        · rw [setPathKey_hdr,if_pos pHdr.symm,position,Option.getD_some,untouched]
          exact pointers_setSlot small pointers tree₁
        · change Holds _ room (d + 1) room ((setPathKey s₁ (path.elem level) border).node k.block) tree₁
          rw [apart _ List.mem_cons_self]
          exact keyed.holds.frame fun b member => apart b (List.mem_cons_of_mem _ (keyed.blocks ▸ member))
        · intro a differ outside
          rw [kept a differ]
          exact keyed.other a (outside _ List.mem_cons_self) fun b member => outside b (List.mem_cons_of_mem _ member)
        · rw [position]
          exact wf_rekeyed (m := ⟨border,k.block,tree₁⟩) chosen.parts left right (keyed.count ▸ some_) wf₁ ordered
      · rw [if_neg behind] at wf₁
        rw [correctIndexesLoop,if_pos behind] at final
        exact stopped final wf₁

/-! The whole path. -/

theorem OnPath.led {block : Nat} {path : Path} {d level low high : Nat} {t : Tree d} {at_ : Option Nat}
    (onPath : OnPath block path d t at_ level) (wf : Wf d low t high)
    (started : d = 0 ∨ ∃ x ∈ leafAt path d t level, x.eeBlock ≤ block) : Led block path d t at_ level := by
  induction d generalizing level at_ low high with
  | zero => exact ⟨onPath.1,onPath.2.2.2⟩
  | succ d ih =>
    obtain ⟨pHdr,_,l,k,r,chosen,position,_,below⟩ := onPath
    have parts := (wf_succ d low high t).mp wf
    rw [chosen.parts] at parts
    obtain ⟨a,b,_,⟨rfl,_,inside⟩,_⟩ := (tiled_middle l r k).mp parts
    obtain ⟨x,member,start⟩ := started.resolve_left (Nat.succ_ne_zero d)
    rw [leafAt_parts chosen.parts position] at member
    exact ⟨pHdr,l,k,r,chosen,Nat.le_trans (wf_bounds inside (leafAt_flat member)).1 start,position,ih below inside (Or.inr ⟨x,member,start⟩)⟩

theorem onPath_leaf {block : Nat} {path : Path} {s : State} {room d level limit : Nat} {t : Tree d} {at_ : Option Nat}
    (onPath : OnPath block path d t at_ level) (holds : Holds s.node room d limit (s.hdr at_) t) :
    leafAt path d t level = slots (s.hdr (path.elem (level + d)).pHdr) ∧
      ((path.elem (level + d)).pHdr = at_ ∨ ∃ b ∈ foot d t, (path.elem (level + d)).pHdr = some b) := by
  induction d generalizing level at_ limit with
  | zero =>
    rw [Nat.add_zero,onPath.1]
    exact ⟨(holds_leaf.mp holds).2.symm,Or.inl rfl⟩
  | succ d ih =>
    obtain ⟨_,_,l,k,r,chosen,position,_,below⟩ := onPath
    obtain ⟨_,_,kids⟩ := holds_index.mp holds
    have member : k ∈ kidsOf t := by
      rw [chosen.parts]
      exact List.mem_append_right _ List.mem_cons_self
    obtain ⟨leaf,place⟩ := ih below (kids k member)
    rw [leafAt_parts chosen.parts position,show level + (d + 1) = level + 1 + d by omega]
    refine ⟨leaf,Or.inr ?_⟩
    rcases place with top | ⟨b,inside,deep⟩
    · exact ⟨k.block,mem_footOf.mpr ⟨k,member,List.mem_cons_self⟩,top⟩
    · exact ⟨b,mem_footOf.mpr ⟨k,member,List.mem_cons_of_mem _ inside⟩,deep⟩

/-- The leaf is none of the nodes above it. -/
theorem path_apart {block : Nat} {path : Path} {s : State} {room d level limit : Nat} {t : Tree d} {at_ : Option Nat}
    (onPath : OnPath block path d t at_ level) (holds : Holds s.node room d limit (s.hdr at_) t) (distinct : (foot d t).Nodup)
    (clear : ∀ b ∈ foot d t, at_ ≠ some b) {j : Nat} (above : j < d) :
    (path.elem (level + j)).pHdr ≠ (path.elem (level + d)).pHdr := by
  induction d generalizing level at_ limit j with
  | zero => exact absurd above (Nat.not_lt_zero j)
  | succ d ih =>
    have place := (onPath_leaf onPath holds).2
    obtain ⟨pHdr,_,l,k,r,chosen,_,_,below⟩ := onPath
    obtain ⟨_,_,kids⟩ := holds_index.mp holds
    have lists : t = (l ++ k::r : List (Kid (Tree d))) := chosen.parts
    have member : k ∈ kidsOf t := by
      rw [chosen.parts]
      exact List.mem_append_right _ List.mem_cons_self
    have own : (k.block::foot d k.tree).Nodup := by
      rw [lists] at distinct
      change (footOf (l ++ k::r)).Nodup at distinct
      rw [footOf_append,footOf_cons] at distinct
      exact (List.nodup_append.mp (List.nodup_append.mp distinct).2.1).1
    have deeper := (onPath_leaf below (kids k member)).2
    cases j with
    | zero =>
      rw [Nat.add_zero,pHdr,show level + (d + 1) = level + 1 + d by omega]
      rcases deeper with top | ⟨b,inside,deep⟩
      · rw [top]
        exact clear _ (mem_footOf.mpr ⟨k,member,List.mem_cons_self⟩)
      · rw [deep]
        exact clear _ (mem_footOf.mpr ⟨k,member,List.mem_cons_of_mem _ inside⟩)
    | succ j =>
      rw [show level + (j + 1) = level + 1 + j by omega,show level + (d + 1) = level + 1 + d by omega]
      exact ih below (kids k member) (List.nodup_cons.mp own).2
        (fun b inside equal => (List.nodup_cons.mp own).1 (Option.some.inj equal ▸ inside)) (Nat.lt_of_succ_lt_succ above)

/-- The state on which an insertion into the leaf with the extents `xs` builds: the one it began with, or
that one with the path's keys corrected. -/
inductive Based (path : Path) (block depth : Nat) (xs : List Slot) (s : State) : State → Prop
  | kept : (depth = 0 ∨ ∃ x ∈ xs, x.eeBlock ≤ block) → Based path block depth xs s s
  | corrected {border : Nat} : 0 < depth → border < 2^32 → border ≤ block → (∀ x ∈ xs, border ≤ x.eeBlock) →
      (border = block ∨ ∃ x ∈ xs, x.eeBlock = border) →
      Based path block depth xs s (correctIndexesLoop path border (depth - 1) (setPathKey s (path.elem (depth - 1)) border))

theorem Based.keyed {block : Nat} {path : Path} {s b : State} {d : Nat} {t : Tree d} (tree : HasTree s d t)
    (onPath : OnPath block path d t none 0) (based : Based path block d (slots (s.hdr (path.elem d).pHdr)) s b) :
    ∃ t', Keyed block path s b (ext4ExtSpaceBlock s) ext4ExtSpaceRoot d t t' none 0 ∧ Wf d 0 t' (2^32) := by
  have leaf := (onPath_leaf (s := s) onPath tree.holds).1
  rw [Nat.zero_add] at leaf
  rw [← leaf] at based
  cases based with
  | kept started => exact ⟨t,⟨tree.holds,onPath.led tree.wf started,rfl,rfl,rfl,fun c member => Or.inl member,fun a _ _ => rfl⟩,tree.wf⟩
  | @corrected border deep small least first met =>
    cases d with
    | zero => exact absurd deep (Nat.lt_irrefl 0)
    | succ d =>
      obtain ⟨s',t',keyed,result⟩ := correctIndexes_keyed small least onPath tree.holds tree.wf tree.distinct (fun _ _ => nofun) first met
      rw [Nat.zero_add] at result
      rcases result with ⟨rfl,wf⟩ | ⟨final,wf⟩
      · exact ⟨t',keyed,wf⟩
      · obtain rfl : _ = s' := final
        exact ⟨t',keyed,wf_widen wf (Nat.zero_le _) (Nat.le_refl _)⟩

/-- A node keeps its number of entries and its room. -/
def SameCounts (n n' : Node) : Prop := n'.ehEntries = n.ehEntries ∧ n'.ehMax = n.ehMax

theorem setPathKey_counts (s : State) (elem : PathElem) (border : Nat) (a : Option Nat) : SameCounts (s.hdr a) ((setPathKey s elem border).hdr a) := by
  rw [setPathKey_hdr]
  split
  · exact ⟨rfl,rfl⟩
  · exact ⟨rfl,rfl⟩

theorem correctIndexesLoop_counts (path : Path) (border k : Nat) (s : State) (a : Option Nat) :
    SameCounts (s.hdr a) ((correctIndexesLoop path border k s).hdr a) := by
  induction k generalizing s with
  | zero => exact ⟨rfl,rfl⟩
  | succ k ih =>
    rw [correctIndexesLoop]
    split
    · exact ⟨rfl,rfl⟩
    · obtain ⟨entries,max⟩ := setPathKey_counts s (path.elem k) border a
      obtain ⟨entries',max'⟩ := ih (setPathKey s (path.elem k) border)
      exact ⟨entries'.trans entries,max'.trans max⟩

theorem Based.counts {path : Path} {block depth : Nat} {xs : List Slot} {s b : State} (based : Based path block depth xs s b) (a : Option Nat) :
    SameCounts (s.hdr a) (b.hdr a) := by
  cases based with
  | kept _ => exact ⟨rfl,rfl⟩
  | corrected =>
    obtain ⟨entries,max⟩ := correctIndexesLoop_counts path _ (depth - 1) (setPathKey s (path.elem (depth - 1)) _) a
    obtain ⟨entries',max'⟩ := setPathKey_counts s (path.elem (depth - 1)) _ a
    exact ⟨entries.trans entries',max.trans max'⟩

theorem Based.leaf {block : Nat} {path : Path} {s b : State} {d : Nat} {t : Tree d} (tree : HasTree s d t)
    (onPath : OnPath block path d t none 0) {xs : List Slot} (based : Based path block d xs s b) :
    b.hdr (path.elem d).pHdr = s.hdr (path.elem d).pHdr ∧ b.volume = s.volume := by
  cases based with
  | kept _ => exact ⟨rfl,rfl⟩
  | corrected deep =>
    have apart (j : Nat) (above : j < d) : (path.elem j).pHdr ≠ (path.elem d).pHdr := by
      have differ := path_apart (s := s) onPath tree.holds tree.distinct (fun _ _ => nofun) above
      rwa [Nat.zero_add,Nat.zero_add] at differ
    constructor
    · rw [correctIndexesLoop_other fun j before => apart j (by omega),setPathKey_hdr,if_neg (apart _ (by omega)).symm]
    · rw [correctIndexesLoop_volume,setPathKey_volume]

end Ext4Fuse.Extents
