import Ext4Fuse.Extents.InsertRound

/-! `ext4_ext_grow_indepth`: the old root goes into a new block, below a root with one index. -/
namespace Ext4Fuse.Extents
open Machine Ext4Fuse.Types Super Library.Partial Library.Segments

theorem grownNode_slots {s : State} {newblock : Nat} (few : (s.hdr none).ehEntries ≤ ext4ExtSpaceRoot) (space : 84 ≤ ext4ExtSpaceBlock s)
    (small : ext4ExtSpaceBlock s < 2^16) : slots (grownNode s newblock) = slots (s.hdr none) ∧ (grownNode s newblock).ehMax = ext4ExtSpaceBlock s := by
  have max : (grownNode s newblock).ehMax = ext4ExtSpaceBlock s := by
    change u16 ((if extDepth s ≠ 0 then ext4ExtSpaceBlockIdx s else ext4ExtSpaceBlock s : Nat) : Int) = ext4ExtSpaceBlock s
    rw [show ext4ExtSpaceBlockIdx s = ext4ExtSpaceBlock s from rfl,ite_self]
    exact u16_small _ small
  have four : ext4ExtSpaceRoot = 4 := rfl
  refine ⟨slots_eq ((slots_length (s.hdr none)).symm : (grownNode s newblock).ehEntries = _) fun i x here => ?_,max⟩
  have inside : i < (s.hdr none).ehEntries := by
    rw [← slots_length]
    exact (List.getElem?_eq_some_iff.mp here).1
  have tail : i ≠ (grownNode s newblock).ehMax := by omega
  refine Eq.trans (Function.update_of_ne tail _ _) ?_
  change (if i < 4 then s.inode.rawInode.iData.slot i else _) = x
  rw [if_pos (by omega)]
  exact slots_getElem? here

theorem grownRoot_one (root : Node) {newblock : Nat} (bound : newblock < 2^48) :
    (slots (grownRoot root newblock)).map pointer = [((root.slot 0).eiBlock,newblock)] := by
  have entry (x : Slot) : pointer (ext4IdxStorePblock x newblock) = (x.eiBlock,newblock) := by
    have stored := storeIdx_pointer (show x.eiBlock < 2^32 from x.word0.toNat_lt) bound x
    rwa [storeIdx,show x.setEiBlock x.eiBlock = x by simp [Slot.setEiBlock,Slot.eiBlock]] at stored
  have array : slots (grownRoot root newblock) = [ext4IdxStorePblock (root.slot 0) newblock] := by
    refine slots_eq ?_ fun i x here => ?_
    · unfold grownRoot
      simp only
      split <;> rfl
    · obtain ⟨inside,rfl⟩ := List.getElem?_eq_some_iff.mp here
      obtain rfl : i = 0 := Nat.lt_one_iff.mp inside
      unfold grownRoot
      simp only
      split
      · simp [Node.setSlot,Slot.setEiBlock,Slot.eeBlock]
      · simp [Node.setSlot]
  rw [array,List.map_singleton,entry]

theorem grownRoot_header {root : Node} {d newblock : Nat} (header : Header root d ext4ExtSpaceRoot root.ehEntries) (lower : d + 1 < 2^16) :
    Header (grownRoot root newblock) (d + 1) ext4ExtSpaceRoot (grownRoot root newblock).ehEntries := by
  have level : (grownRoot root newblock).ehDepth = d + 1 := by
    rw [← header.depth]
    have bound : root.ehDepth + 1 < 2^16 := by
      rw [header.depth]
      exact lower
    unfold grownRoot
    simp only
    split
    · exact u16_small _ bound
    · exact u16_small _ bound
  have count : (grownRoot root newblock).ehEntries = 1 := by
    unfold grownRoot
    simp only
    split <;> rfl
  have max : 0 < (grownRoot root newblock).ehMax ∧ (grownRoot root newblock).ehMax ≤ ext4ExtSpaceRoot := by
    unfold grownRoot
    simp only
    split
    · exact ⟨Nat.succ_pos 3,Nat.le_refl _⟩
    · exact ⟨header.max,header.limit⟩
  refine ⟨?_,level,rfl,by rw [count]; exact max.1,max.1,max.2⟩
  rw [← header.magic]
  unfold grownRoot
  simp only
  split <;> rfl

/-- What the growing changes; the old root is in block `newblock`. -/
structure Grown (s s' : State) (blocks : List Nat) (room d newblock : Nat) : Prop where
  fresh : newblock ∉ 0::blocks
  small : newblock < 2^48
  reserved : Reserved s'.volume (newblock::blocks)
  space : ext4ExtSpaceBlock s' = room
  slots : slots (s'.node newblock) = slots (s.hdr none)
  header : Header (s'.node newblock) d room (s'.node newblock).ehEntries
  max : (s'.node newblock).ehMax = room
  root : Header (s'.hdr none) (d + 1) ext4ExtSpaceRoot (s'.hdr none).ehEntries
  pointers : (Extents.slots (s'.hdr none)).map pointer = [(((s.hdr none).slot 0).eiBlock,newblock)]
  other : ∀ a, a ≠ none → a ≠ some newblock → s'.hdr a = s.hdr a

theorem ext4ExtGrowIndepth_grown {s : State} {d : Nat} {blocks : List Nat} (header : Header (s.hdr none) d ext4ExtSpaceRoot (s.hdr none).ehEntries)
    (lower : d + 1 < 2^16) (reserved : Reserved s.volume blocks) : Ensures (ext4ExtGrowIndepth s) fun (s',ret) =>
      (∃ err, ret = .fail err) ∨ ret = .ok ∧ ∃ newblock, Grown s s' blocks (ext4ExtSpaceBlock s) d newblock := by
  unfold ext4ExtGrowIndepth
  refine (newMetaBlocks_given reserved _).bind fun (allocated,s₁) ⟨charged,given⟩ => ?_
  simp only
  cases failed : allocated.err with
  | some err =>
    rw [if_pos (Or.inl nofun)]
    exact ensures_some (Or.inl ⟨err,rfl⟩)
  | none =>
    obtain ⟨fresh,small,reserved'⟩ := given.success failed
    rw [if_neg (by
      rintro (nothing | zero)
      · exact nothing rfl
      · exact fresh (by rw [zero]; exact List.mem_cons_self))]
    refine ensures_some (Or.inr ⟨rfl,allocated.block,?_⟩)
    have top : s₁.hdr none = s.hdr none := charged.hdr none
    have space := reserved.space
    have room : ext4ExtSpaceBlock (fsBwrite s₁ allocated.block) = ext4ExtSpaceBlock s := charged.space
    obtain ⟨array,max⟩ := @grownNode_slots (fsBwrite s₁ allocated.block) allocated.block
      (by
        change (s₁.hdr none).ehEntries ≤ _
        rw [top]
        exact Nat.le_trans header.fits header.limit)
      (by rw [room]; exact space.1) (by rw [room]; exact space.2)
    change slots _ = slots (s₁.hdr none) at array
    rw [top] at array
    rw [room] at max
    generalize final : fsBrelse _ allocated.block = s'
    have root : s'.hdr none = grownRoot (s₁.hdr none) allocated.block := by
      rw [← final]
      rfl
    have node : s'.node allocated.block = grownNode (fsBwrite s₁ allocated.block) allocated.block := by
      rw [← final]
      exact Function.update_self ..
    have same : s'.volume = s₁.volume := by
      rw [← final]
      rfl
    rw [top] at root
    refine ⟨fresh,small,same ▸ reserved',?_,by rw [node,array],?_,by rw [node,max],by rw [root]; exact grownRoot_header header lower,
      by rw [root]; exact grownRoot_one _ small,fun a one two => ?_⟩
    · rw [ext4ExtSpaceBlock,same]
      exact charged.space
    · have depth : (grownNode (fsBwrite s₁ allocated.block) allocated.block).ehDepth = d := by
        change (s₁.hdr none).ehDepth = d
        rw [top]
        exact header.depth
      have count : (grownNode (fsBwrite s₁ allocated.block) allocated.block).ehEntries = (s.hdr none).ehEntries := by
        rw [← slots_length,array,slots_length]
      rw [node]
      have four : ext4ExtSpaceRoot = 4 := rfl
      have fits := header.fits
      have limit := header.limit
      have least : 84 ≤ ext4ExtSpaceBlock s := space.1
      refine ⟨rfl,depth,rfl,?_,?_,Nat.le_of_eq max⟩
      · rw [count,max]
        omega
      · rw [max]
        omega
    · rw [← final,← charged.hdr a]
      cases a with
      | none => exact absurd rfl one
      | some c => exact Function.update_of_ne (fun equal => two (congrArg some equal)) _ _

/-! The tree below the new root. -/

theorem Holds.moved {heap : Nat → Node} {room d limit limit' : Nat} {n n' : Node} {t : Tree d} (holds : Holds heap room d limit n t)
    (header : Header n' d limit' n'.ehEntries) (same : slots n' = slots n) : Holds heap room d limit' n' t := by
  cases d with
  | zero => exact holds_leaf.mpr ⟨header,same.trans (holds_leaf.mp holds).2⟩
  | succ d =>
    obtain ⟨_,pointers,below⟩ := holds_index.mp holds
    exact holds_index.mpr ⟨header,by rw [same]; exact pointers,below⟩

/-- A tree begins at its first key. -/
theorem Holds.raise {heap : Nat → Node} {room d limit low high : Nat} {n : Node} {t : Tree d} (holds : Holds heap room d limit n t)
    (wf : Wf d low t high) (some_ : entries d t ≠ 0) : Wf d (n.slot 0).eiBlock t high ∧ low ≤ (n.slot 0).eiBlock := by
  cases d with
  | zero =>
    obtain ⟨_,array⟩ := holds_leaf.mp holds
    obtain ⟨x,xs,rfl⟩ := List.exists_cons_of_ne_nil (show extentsOf t ≠ [] from fun empty => some_ (congrArg List.length empty))
    rw [slot_zero array]
    obtain ⟨start,rest⟩ := @Tiled.cut _ _ _ extentAt _ _ [] _ _ _ extentAt_key wf
    exact ⟨rest,start⟩
  | succ d =>
    obtain ⟨_,pointers,_⟩ := holds_index.mp holds
    obtain ⟨k,ks,rfl⟩ := List.exists_cons_of_ne_nil (show kidsOf t ≠ [] from fun empty => some_ (congrArg List.length empty))
    obtain ⟨start,rest⟩ := @Tiled.cut _ _ _ (kidAt d) _ _ [] _ _ _ kidAt_key wf
    obtain ⟨y,ys,cells⟩ := List.exists_cons_of_ne_nil (show slots n ≠ [] by
      intro empty
      rw [empty] at pointers
      nomatch pointers)
    rw [cells] at pointers
    have key : (n.slot 0).eiBlock = k.key := by
      rw [slot_zero cells]
      exact (Prod.mk.inj (List.cons.inj pointers).1).1
    rw [key]
    exact ⟨rest,start⟩

section Grown
variable {s s' : State} {blocks : List Nat} {room d newblock : Nat} {t : Tree d} (grown : Grown s s' blocks room d newblock)
include grown

theorem Grown.node {c : Nat} (member : c ∈ blocks) : s'.node c = s.node c := by
  refine grown.other (some c) nofun fun equal => ?_
  obtain rfl := Option.some.inj equal
  exact grown.fresh (List.mem_cons_of_mem _ member)

theorem Grown.holds (holds : Holds s.node room d ext4ExtSpaceRoot (s.hdr none) t) (listed : ∀ c ∈ foot d t, c ∈ blocks) :
    Holds s'.node room d room (s'.node newblock) t :=
  (holds.frame fun c member => grown.node (listed c member)).moved grown.header grown.slots

/-- The tree below one index. -/
abbrev underIndex (key newblock : Nat) {d : Nat} (t : Tree d) : Tree (d + 1) := [(⟨key,newblock,t⟩ : Kid (Tree d))]

omit grown in
theorem flat_underIndex (key : Nat) (newblock : Nat) (t : Tree d) : flat (d + 1) (underIndex key newblock t) = flat d t := List.append_nil _

omit grown in
theorem foot_underIndex (key : Nat) (newblock : Nat) (t : Tree d) : foot (d + 1) (underIndex key newblock t) = newblock::foot d t := List.append_nil _

omit grown in
theorem keys_underIndex (key : Nat) (newblock : Nat) (t : Tree d) : keys (d + 1) (underIndex key newblock t) = key::keys d t := List.append_nil _

theorem Grown.tree (holds : Holds s.node room d ext4ExtSpaceRoot (s.hdr none) t) (listed : ∀ c ∈ foot d t, c ∈ blocks)
    (wf : Wf d 0 t (2^32)) (some_ : entries d t ≠ 0) (distinct : (foot d t).Nodup) :
    HasTree s' (d + 1) (underIndex ((s.hdr none).slot 0).eiBlock newblock t) := by
  obtain ⟨raised,_⟩ := holds.raise wf some_
  refine ⟨?_,?_,⟨_,2^32,Nat.zero_le _,⟨rfl,some_,raised⟩,Nat.le_refl _⟩,Or.inr (Nat.succ_ne_zero 0)⟩
  · rw [grown.space]
    refine holds_index.mpr ⟨grown.root,grown.pointers,fun k member => ?_⟩
    rw [List.mem_singleton.mp member]
    exact grown.holds holds listed
  · rw [foot_underIndex]
    exact List.nodup_cons.mpr ⟨fun member => grown.fresh (List.mem_cons_of_mem _ (listed newblock member)),distinct⟩

end Grown

/-! The round after the growing: the child that was not linked comes into the old root, which has room now. -/

theorem Chosen.unique {α : Type} {key : α → Nat} {block : Nat} {xs l l' r r' : List α} {x x' : α} (one : Chosen key block xs l x r)
    (other : Chosen key block xs l' x' r') : l = l' ∧ x = x' := by
  have parts : l ++ x::r = l' ++ x'::r' := one.parts.symm.trans other.parts
  rcases List.append_eq_append_iff.mp parts with ⟨as,left,right⟩ | ⟨as,left,right⟩
  · cases as with
    | nil => exact ⟨by rw [left,List.append_nil],(List.cons.inj right).1⟩
    | cons a as =>
      have behind : x' ∈ r := by
        rw [(List.cons.inj right).2]
        exact List.mem_append_right _ List.mem_cons_self
      exact absurd (other.below (by rw [left]; exact List.append_ne_nil_of_right_ne_nil _ (List.cons_ne_nil a as)))
        (Nat.not_le.mpr (one.above x' behind))
  · cases as with
    | nil => exact ⟨by rw [left,List.append_nil],(List.cons.inj right).1.symm⟩
    | cons a as =>
      have behind : x ∈ r' := by
        rw [(List.cons.inj right).2]
        exact List.mem_append_right _ List.mem_cons_self
      exact absurd (one.below (by rw [left]; exact List.append_ne_nil_of_right_ne_nil _ (List.cons_ne_nil a as)))
        (Nat.not_le.mpr (other.above x behind))

theorem Chosen.single {α : Type} {key : α → Nat} {block : Nat} {l r : List α} {x y : α} (chosen : Chosen key block [y] l x r) :
    l = [] ∧ x = y := by
  have parts := chosen.parts
  cases l with
  | nil => exact ⟨rfl,(List.cons.inj parts).1.symm⟩
  | cons z l => exact absurd (List.cons.inj parts).2.symm (List.append_ne_nil_of_right_ne_nil _ (List.cons_ne_nil x r))

theorem Reserved.mono {v : Volume} {blocks blocks' : List Nat} (reserved : Reserved v blocks) (sub : ∀ c ∈ blocks', c ∈ blocks) :
    Reserved v blocks' := by
  obtain ⟨⟨w,initialised,counted,used⟩,addressed⟩ := reserved
  refine ⟨⟨w,initialised,counted,fun c member => ?_⟩,addressed⟩
  rcases List.mem_cons.mp member with rfl | listed
  · exact used 0 List.mem_cons_self
  · exact used c (List.mem_cons_of_mem _ (sub c listed))

theorem Owned.shift {s : State} {room q : Nat} {taken blocks : List Nat} (owned : Owned s room (q::taken) blocks) :
    Owned s room taken (q::blocks) := by
  refine ⟨owned.space,owned.reserved.mono fun c member => List.perm_middle.mem_iff.mp member,
    List.perm_middle.nodup_iff.mpr owned.distinct,fun c member => owned.small c (List.mem_cons_of_mem _ member)⟩

theorem one_sublist {d : Nat} (l r : List (Kid (Tree d))) (k₁ k₂ : Kid (Tree d)) : (l ++ [k₁] ++ r).Sublist (l ++ [k₁,k₂] ++ r) :=
  ((List.Sublist.refl l).append ((List.nil_sublist [k₂]).cons_cons k₁)).append (List.Sublist.refl r)

theorem footOf_sublist {d : Nat} (l r : List (Kid (Tree d))) (k₁ k₂ : Kid (Tree d)) :
    (footOf (l ++ [k₁] ++ r)).Sublist (footOf (l ++ [k₁,k₂] ++ r)) := by
  rw [footOf_append,footOf_append,footOf_append,footOf_append,footOf_cons,footOf_cons,footOf_nil]
  exact ((List.Sublist.refl _).append ((List.Sublist.refl _).append (List.nil_sublist _))).append (List.Sublist.refl _)

section Stuck
variable {b s' : State} {path : Path} {spt : Nat → SplitTrans} {room d newblock : Nat} {x : Slot} {extents : List Slot}
  {taken blocks : List Nat} {l r : List (Kid (Tree d))} {k k₁ k₂ : Kid (Tree d)} {middle : Nat}
  (stuck : Stuck b s' path spt room x extents taken blocks d l r k k₁ k₂ middle)
include stuck

theorem Stuck.children : Children s' room d l k r [k₁,k₂] x taken 0 (2^32) :=
  stuck.spot.children stuck.owned stuck.regrown stuck.left stuck.right

theorem Stuck.root : s'.hdr none = b.hdr none := stuck.spot.kept stuck.owned stuck.regrown

/-- The root, without the child that is not linked. -/
theorem Stuck.holds : Holds s'.node room (d + 1) ext4ExtSpaceRoot (s'.hdr none) (l ++ [k₁] ++ r : List (Kid (Tree d))) := by
  obtain ⟨header,pointers,_⟩ := holds_index.mp stuck.spot.holds
  rw [stuck.root]
  refine holds_index.mpr ⟨header,pointers.trans ?_,fun k' member => stuck.children.holds k' ?_⟩
  · change (l ++ k::r).map _ = (l ++ [k₁] ++ r).map _
    simp [stuck.key,stuck.block]
  · exact (one_sublist l r k₁ k₂).subset member

/-- The tree after the growing. -/
theorem Stuck.grown_tree {s₁ : State} (grown : Grown s' s₁ (taken ++ blocks) room (d + 1) newblock) :
    HasTree s₁ (d + 2) (underIndex ((s'.hdr none).slot 0).eiBlock newblock (l ++ [k₁] ++ r : List (Kid (Tree d)))) := by
  have children := stuck.children
  have all := children.blocks.nodup_iff.mpr (by rw [stuck.blocks]; exact stuck.owned.distinct)
  refine grown.tree stuck.holds (fun c member => ?_) ?_ ?_ ((footOf_sublist l r k₁ k₂).nodup all)
  · rw [← stuck.blocks]
    exact children.blocks.mem_iff.mp ((footOf_sublist l r k₁ k₂).subset member)
  · exact children.wf.sublist (kidAt_forward d) (one_sublist l r k₁ k₂)
  · change (l ++ [k₁] ++ r).length ≠ 0
    rw [List.length_append,List.length_append,List.length_singleton]
    omega

/-- The state before the round, had the root been in its new block then. -/
def moved (b s₁ : State) (newblock : Nat) : State := (b.setHdr (some newblock) (s₁.node newblock)).setHdr none (s₁.hdr none)

omit stuck in
theorem moved_other {s₁ : State} {a : Option Nat} (one : a ≠ none) (two : a ≠ some newblock) : (moved b s₁ newblock).hdr a = b.hdr a :=
  (setHdr_other _ _ one).trans (setHdr_other _ _ two)

omit stuck in
theorem moved_node {s₁ : State} : (moved b s₁ newblock).hdr (some newblock) = s₁.node newblock :=
  (setHdr_other _ _ (Option.some_ne_none newblock)).trans (setHdr_hdr b (some newblock) _)

section Grown
variable {s₁ : State} (grown : Grown s' s₁ (taken ++ blocks) room (d + 1) newblock)
include grown

theorem Stuck.moved_spot : Spot (moved b s₁ newblock) room room d (some newblock) l k r (newblock::blocks) := by
  have spot := stuck.spot
  have apart {c : Nat} (member : c ∈ footOf (l ++ k::r)) : c ≠ newblock := by
    rintro rfl
    exact grown.fresh (List.mem_cons_of_mem _ (List.mem_append_right _ (spot.listed c member)))
  refine ⟨?_,spot.distinct,fun c member equal => apart member (Option.some.inj equal).symm,
    fun c member => List.mem_cons_of_mem _ (spot.listed c member),fun c equal => ?_⟩
  · rw [moved_node]
    refine Holds.moved (spot.holds.frame fun c member => @moved_other _ _ _ (some c) nofun fun equal => apart member (Option.some.inj equal)) grown.header ?_
    rw [grown.slots,stuck.root]
  · rw [Option.some.inj equal]
    exact List.mem_cons_self

theorem Stuck.moved_owned : Owned s₁ room (newblock::taken) blocks :=
  stuck.owned.take grown.fresh grown.small grown.reserved grown.space

theorem Stuck.moved_regrown : Regrown (moved b s₁ newblock) s₁ room d k [k₁,k₂] x taken middle := by
  have regrown := stuck.regrown
  refine ⟨?_,regrown.wf,regrown.extents,regrown.blocks,fun a outside => ?_⟩
  · refine Holds.beside regrown.holds fun c member => grown.node ?_
    rcases List.mem_append.mp (regrown.blocks.mem_iff.mp member) with new | old
    · exact List.mem_append_left _ new
    · refine List.mem_append_right _ (stuck.spot.listed c ?_)
      exact mem_footOf.mpr ⟨k,List.mem_append_right _ List.mem_cons_self,old⟩
  · rcases eq_or_ne a none with rfl | one
    · exact (setHdr_hdr _ _ _).symm
    · rcases eq_or_ne a (some newblock) with rfl | two
      · exact moved_node.symm
      · rw [moved_other one two,grown.other a one two]
        exact regrown.other a outside

/-- The path found in the tree that has grown leads to the extent once it has moved over. -/
theorem Stuck.reaches {s₂ : State} {path₁ path₂ path₃ : Path} (pHdr₀ : (path₁.elem 0).pHdr = none) (pIdx₀ : (path₁.elem 0).pIdx = some 0)
    (plain : (path₁.elem 0).pIn = (path₁.elem 0).pHdr) (pHdr : (path₁.elem 1).pHdr = some newblock) (below : (path₁.elem 2).pHdr = some k₁.block)
    (free : IndexFree s₁ path₁ 1 l.length k₂.key k₂.block s₂ path₂) (switched : Switched (d + 2) spt path₂ path₃) :
    Reaches s₂ path₃ x.eeBlock (d + 2) 0 ↔ k₂.key ≤ x.eeBlock := by
  obtain ⟨switchTo,trail⟩ := stuck.trail
  obtain ⟨y,new,array⟩ := free.placed
  have others := free.other
  rw [pHdr] at array others
  change slots (s₂.node newblock) = withSlot (slots (s₁.node newblock)) (l.length + 1) y at array
  have root : s₂.hdr none = s₁.hdr none := others none nofun
  have framed : Trail s₂ spt switchTo x.eeBlock d k₂.key taken := by
    refine trail.frame fun c member => ?_
    have kept : s₂.node c = s₁.node c := others (some c) fun equal => by
      obtain rfl := Option.some.inj equal
      exact grown.fresh (List.mem_cons_of_mem _ (List.mem_append_left _ member))
    rw [kept,grown.node (List.mem_append_left _ member)]
  have inside : l.length + 1 ≤ (slots (s₁.node newblock)).length := by
    rw [grown.slots,slots_length,stuck.root]
    exact stuck.spot.entry.1
  have apart : k₁.block ≠ ext4IdxPblock y := by
    rw [show ext4IdxPblock y = k₂.block from (Prod.mk.inj new).2,stuck.block]
    exact fun equal => stuck.owned.fresh stuck.member (equal ▸ stuck.spot.listed _
      (mem_footOf.mpr ⟨k,List.mem_append_right _ List.mem_cons_self,List.mem_cons_self⟩))
  have sum : d + 2 - (d + 1) = 1 := by omega
  have two : d + 2 - d = 2 := by omega
  have linked := framed.reaches (k := k₁.block) (y := y) (Nat.le_succ (d + 1)) switched (i := l.length + 1) (by rw [sum]; exact free.pIdx)
    (by rw [sum]; exact free.pIn.trans free.pHdr.symm)
    (by
      rw [sum,free.pHdr,pHdr]
      change (slots (s₂.node newblock))[l.length + 1]? = some y
      rw [array]
      exact withSlot_getElem inside y)
    (stuck.last.trans (congrArg some (Prod.mk.inj new).2.symm)) (by rw [two,free.kept 2 (by decide)]; exact below) apart
  rw [sum] at linked
  -- the new root leads to the old one
  have top := switched.stay (d + 2) (Nat.le_refl _) (trail.rest (d + 2) (by omega))
  have old := switched.stay (d + 1) (Nat.le_succ _) (trail.rest (d + 1) (Nat.lt_succ_self d))
  rw [Nat.sub_self,free.kept 0 Nat.zero_ne_one] at top
  rw [sum] at old
  obtain ⟨z,zs,cells⟩ := List.exists_cons_of_ne_nil (show slots (s₁.hdr none) ≠ [] by
    intro empty
    have pointers := grown.pointers
    rw [empty] at pointers
    cases pointers)
  have first : ext4IdxPblock z = newblock := by
    have pointers := grown.pointers
    rw [cells] at pointers
    exact (Prod.mk.inj (List.cons.inj pointers).1).2
  rw [Reaches,← linked]
  refine and_iff_right ⟨0,z,top.pIdx.trans pIdx₀,?_,?_,?_⟩
  · rw [top.pIn,top.pHdr,plain]
  · rw [top.pHdr,pHdr₀,root,cells]
    rfl
  · rw [old.pHdr,free.pHdr,pHdr,first]

/-- The old root has room for the index. -/
theorem Stuck.linked {path₁ : Path} {newblock' : SplitTrans} {result : LoopResult} (lower : d + 2 < 2^16) (fits : RoomFits room) (roomy : 84 ≤ room)
    (onPath : OnPath x.eeBlock path₁ (d + 2) (underIndex ((s'.hdr none).slot 0).eiBlock newblock (l ++ [k₁] ++ r : List (Kid (Tree d)))) none 0)
    (plain : (path₁.elem 0).pIn = (path₁.elem 0).pHdr) (run : insertLoop x (d + 2) 1 s₁ path₁ newblock' spt = some result) :
    (∃ err, result.2.2.2.2 = .fail err) ∨ result.2.2.2.2 = .ok ∧
      (∃ t', Enlarged result.1 room x extents (newblock::taken) blocks (d + 2) t') ∧ result.2.2.2.1 = spt ∧
      ∀ path₂, Switched (d + 2) spt result.2.1 path₂ → (Reaches result.1 path₂ x.eeBlock (d + 2) 0 ↔ k₂.key ≤ x.eeBlock) := by
  have spot := stuck.moved_spot grown
  have owned := stuck.moved_owned grown
  have regrown := stuck.moved_regrown grown
  have children := spot.children owned.shift regrown stuck.left stuck.right
  -- the path leads through the old root to the child that was split
  obtain ⟨pHdr₀,_,l₀,k₀,_,top,pIdx₀,_,pHdr,_,l',k',r',chosen,position,_,below⟩ := onPath
  obtain ⟨rfl,rfl⟩ := top.single
  have first : Chosen Kid.key x.eeBlock (l ++ [k₁] ++ r) l k₁ r := by
    refine ⟨by rw [List.append_assoc,List.singleton_append],fun _ => stuck.key ▸ stuck.start,fun y member => ?_⟩
    obtain ⟨a,_,start,⟨rfl,_⟩,_⟩ := stuck.right.bounds (kidAt_forward d) member
    have := stuck.stop
    have := stuck.some_
    omega
  obtain ⟨rfl,rfl⟩ := first.unique chosen
  obtain ⟨s₂,path₂,newblock₂,ret,found,next⟩ := insertLoop_cases run
  have placed := spot.index_result owned.shift regrown (Nat.add_comm 1 (d + 1)) grown.root.depth lower fits (Nat.le_refl room) pHdr position
    stuck.index stuck.ptr stuck.small stuck.member newblock' _ found
  cases placed with
  | failed err =>
    obtain ⟨_,rfl⟩ | ⟨nothing,_⟩ := next
    · exact Or.inl ⟨err,rfl⟩
    · nomatch nothing
  | grow root => exact absurd root Nat.one_ne_zero
  | split _ full =>
    have few := (holds_index.mp stuck.holds).1
    have count := congrArg List.length grown.slots
    rw [slots_length,slots_length] at count
    change (s₁.hdr (path₁.elem (0 + 1)).pHdr).ehEntries = (s₁.hdr (path₁.elem (0 + 1)).pHdr).ehMax at full
    rw [pHdr] at full
    change (s₁.node newblock).ehEntries = (s₁.node newblock).ehMax at full
    have four : ext4ExtSpaceRoot = 4 := rfl
    have := few.fits
    have := few.limit
    have := grown.max
    omega
  | free empty _ free =>
    obtain ⟨_,rfl⟩ | ⟨_,some_,_⟩ := next
    · refine Or.inr ⟨rfl,⟨underIndex ((s'.hdr none).slot 0).eiBlock newblock (l ++ [k₁,k₂] ++ r : List (Kid (Tree d))),?_⟩,rfl,
        fun path₃ switched => stuck.reaches grown pHdr₀ pIdx₀ plain pHdr (onPath_pHdr below) free switched⟩
      obtain ⟨holds,other⟩ := spot.free_node owned.shift regrown children pHdr stuck.key stuck.block free
      change Holds s₂.node room (d + 1) room (s₂.node newblock) _ at holds
      have root : s₂.hdr none = s₁.hdr none := other none nofun
      have owned₂ := owned.same_volume free.volume
      have some_ : entries (d + 1) (l ++ [k₁,k₂] ++ r : List (Kid (Tree d))) ≠ 0 := by
        change (l ++ [k₁,k₂] ++ r).length ≠ 0
        rw [List.length_append,List.length_append,List.length_cons]
        omega
      have blocks_ : (newblock::footOf (l ++ [k₁,k₂] ++ r)).Perm ((newblock::taken) ++ blocks) := by
        rw [← stuck.blocks]
        exact children.blocks.cons newblock
      refine ⟨owned₂,⟨?_,?_,⟨_,2^32,Nat.zero_le _,⟨rfl,some_,?_⟩,Nat.le_refl _⟩,Or.inr (Nat.succ_ne_zero 0)⟩,?_,?_⟩
      · rw [owned₂.space,show s₂.inode.rawInode.iData = s₁.hdr none from root]
        refine holds_index.mpr ⟨grown.root,grown.pointers,fun k' member => ?_⟩
        rw [List.mem_singleton.mp member]
        exact holds
      · exact ((List.Perm.of_eq (foot_underIndex _ _ _)).trans blocks_).nodup_iff.mpr owned.distinct
      · -- the first index is still the first
        obtain ⟨raised,_⟩ := holds.raise children.wf some_
        obtain ⟨y,_,array⟩ := free.placed
        obtain ⟨z,zs,cells⟩ := List.exists_cons_of_ne_nil (show slots (s'.hdr none) ≠ [] by
          intro empty
          have pointers := (holds_index.mp stuck.holds).2.1
          rw [empty] at pointers
          have lengths := congrArg List.length pointers
          simp at lengths)
        rw [pHdr] at array
        change slots (s₂.node newblock) = withSlot (slots (s₁.node newblock)) (l.length + 1) y at array
        rw [grown.slots,cells] at array
        rw [slot_zero array] at raised
        rw [slot_zero cells]
        exact raised
      · rw [← stuck.extents]
        exact (congrArg (Inserted x _) (flat_underIndex _ _ _)).mpr children.extents
      · exact (List.Perm.of_eq (foot_underIndex _ _ _)).trans blocks_
    · exact absurd empty some_

end Grown

end Stuck

end Ext4Fuse.Extents
