import Ext4Fuse.Extents.Lookup

/-! What `ext4_ext_next_allocated_block` answers for a hole: the search leaves an extent on
the path that may lie above the block, and then the answer lies behind that extent. -/
namespace Ext4Fuse.Extents
open Machine Ext4Fuse.Types Super Library.Segments

/-- The extent that `p_ext` of the leaf points to. -/
def pathExtent (s : State) (path : Path) : Option Slot :=
  let leaf := path.elem (extDepth s)
  leaf.pExt.map (s.hdr leaf.pHdr).slot

/-- The leaf's turn of the loop, at element `leaf` of the path, and what follows it. -/
def leafNext (s : State) (path : Path) (leaf : Nat) : Nat :=
  let hdr := s.hdr (path.elem leaf).pHdr
  match (path.elem leaf).pExt with
  | none => nextAllocatedLoop s path leaf
  | some p => if p + 1 ≠ hdr.ehEntries then (hdr.slot (p + 1)).eeBlock else nextAllocatedLoop s path leaf

/-- `path->p_depth` is the depth of the tree. -/
theorem onPath_pDepth {block d level : Nat} {path : Path} {t : Tree d} {at_ : Option Nat}
    (onPath : OnPath block path d t at_ level) : (path.elem level).pDepth = d := by
  cases d with
  | zero => exact onPath.2.1
  | succ d => exact onPath.2.1

theorem ext4ExtNextAllocatedBlock_leaf {block d : Nat} {s : State} {path : Path} {t : Tree d}
    (onPath : OnPath block path d t none 0) : ext4ExtNextAllocatedBlock s path = leafNext s path d := by
  simp only [ext4ExtNextAllocatedBlock,leafNext,onPath_pDepth onPath]
  cases (path.elem d).pExt with
  | none =>
    cases d with
    | zero => rfl
    | succ d => rfl
  | some p => rfl

/-- How the loop leaves a subtree with extent `x` on the path: it has found a block above `x`
and the searched one, or goes on above. -/
inductive Leaves (extents : List Slot) (x : Slot) (block high up next : Nat) : Prop where
  | inside (after : block < next) (behind : x.eeBlock < next) (before : next < high)
      (first : ∀ y ∈ extents, block < y.eeBlock → y ≠ x → next ≤ y.eeBlock)
  | above (on : next = up) (last : ∀ y ∈ extents, block < y.eeBlock → y = x)

theorem leafNext_zero {block level limit low high : Nat} {s : State} {path : Path} {t : Tree 0} {at_ : Option Nat}
    (onPath : OnPath block path 0 t at_ level) (holds : Holds s.node (ext4ExtSpaceBlock s) 0 limit (s.hdr at_) t)
    (wf : Wf 0 low t high) (some_ : entries 0 t ≠ 0) :
    ∃ i, (path.elem level).pExt = some i ∧ (s.hdr at_).slot i ∈ flat 0 t ∧
      Leaves (flat 0 t) ((s.hdr at_).slot i) block high (nextAllocatedLoop s path level) (leafNext s path level) := by
  obtain ⟨pHdr,_,_,⟨empty,_⟩ | ⟨l,x,r,chosen,pExt⟩⟩ := onPath
  · exact absurd (List.length_eq_zero_iff.mpr empty) some_
  have parts : extentsOf t = l ++ x::r := chosen.parts
  have slot (j : Nat) (y : Slot) (here : (x::r)[j]? = some y) : (s.hdr at_).slot (l.length + j) = y := by
    refine holds.2 _ y ?_
    rw [parts,List.getElem?_append_right (Nat.le_add_right _ _),Nat.add_sub_cancel_left]
    exact here
  have apart := wf_apart wf
  rw [show flat 0 t = l ++ x::r from parts] at apart
  obtain ⟨_,rest,across⟩ := List.pairwise_append.mp apart
  have front (y : Slot) (member : y ∈ l) : y.eeBlock ≤ block := by
    have order := across y member x List.mem_cons_self
    have below := chosen.below (List.ne_nil_of_mem member)
    unfold extentStop at order
    omega
  have member : x ∈ flat 0 t := by
    rw [show flat 0 t = l ++ x::r from parts]
    exact List.mem_append_right l List.mem_cons_self
  have here := slot 0 x rfl
  rw [Nat.add_zero] at here
  refine ⟨l.length,pExt,here ▸ member,?_⟩
  rw [here,show flat 0 t = l ++ x::r from parts]
  simp only [leafNext,pExt,pHdr,holds.1.entries,parts,List.length_append,List.length_cons]
  cases r with
  | nil =>
    rw [if_neg (by simp)]
    refine Leaves.above rfl fun y inside above => ?_
    rcases List.mem_append.mp inside with left | right
    · exact absurd (front y left) (by omega)
    · exact List.mem_singleton.mp right
  | cons z r =>
    rw [if_pos (by simp),slot 1 z rfl]
    have end_ : z ∈ flat 0 t := by
      rw [show flat 0 t = l ++ x::z::r from parts]
      exact List.mem_append_right l (List.mem_cons_of_mem x List.mem_cons_self)
    have order := (List.pairwise_cons.mp rest).1 z List.mem_cons_self
    have positive := (wf_bounds wf member).2.1
    obtain ⟨_,some_z,stop⟩ := wf_bounds wf end_
    refine Leaves.inside (chosen.above z List.mem_cons_self) (by omega) (by omega) fun y inside above different => ?_
    rcases List.mem_append.mp inside with left | right
    · exact absurd (front y left) (by omega)
    · rcases List.mem_cons.mp right with rfl | after
      · exact absurd rfl different
      · rcases List.mem_cons.mp after with rfl | later
        · exact Nat.le_refl _
        · have := (List.pairwise_cons.mp (List.pairwise_cons.mp rest).2).1 y later
          omega

theorem leafNext_leaves {block d level limit low high : Nat} {s : State} {path : Path} {t : Tree d} {at_ : Option Nat}
    (onPath : OnPath block path d t at_ level) (holds : Holds s.node (ext4ExtSpaceBlock s) d limit (s.hdr at_) t)
    (wf : Wf d low t high) (some_ : entries d t ≠ 0) :
    ∃ i, (path.elem (level + d)).pExt = some i ∧ (s.hdr (path.elem (level + d)).pHdr).slot i ∈ flat d t ∧
      Leaves (flat d t) ((s.hdr (path.elem (level + d)).pHdr).slot i) block high (nextAllocatedLoop s path level)
        (leafNext s path (level + d)) := by
  induction d generalizing level limit low high at_ with
  | zero =>
    rw [Nat.add_zero,onPath.1]
    exact leafNext_zero onPath holds wf some_
  | succ d ih =>
    obtain ⟨pHdr,_,l,k,r,chosen,pIdx,_,below⟩ := onPath
    have kids : kidsOf t = l ++ k::r := chosen.parts
    have member : k ∈ kidsOf t := by
      rw [kids]
      exact List.mem_append_right l List.mem_cons_self
    have parts := (wf_succ d low high t).mp wf
    rw [kids] at parts
    obtain ⟨a,b,left,⟨rfl,kidSome,inside⟩,right⟩ := (tiled_middle l r k).mp parts
    obtain ⟨i,pExt,found,leaves⟩ := ih below (holds.2.2 k member) inside kidSome
    rw [show level + (d + 1) = level + 1 + d by omega]
    have flatten : flat (d + 1) t = l.flatMap (fun k => flat d k.tree) ++ (flat d k.tree ++ r.flatMap fun k => flat d k.tree) := by
      rw [flat,kids,List.flatMap_append,List.flatMap_cons]
    refine ⟨i,pExt,flatten ▸ List.mem_append_right _ (List.mem_append_left _ found),?_⟩
    generalize (s.hdr (path.elem (level + 1 + d)).pHdr).slot i = x at found leaves
    generalize leafNext s path (level + 1 + d) = next at leaves
    have front (y : Slot) (member : y ∈ l.flatMap fun k => flat d k.tree) : y.eeBlock ≤ block := by
      obtain ⟨k',before,inKid⟩ := List.mem_flatMap.mp member
      obtain ⟨_,_,_,⟨_,_,wf'⟩,stop⟩ := left.bounds (kidAt_forward d) before
      have end_ := wf_bounds wf' inKid
      have below := chosen.below (List.ne_nil_of_mem before)
      omega
    have back (y : Slot) (member : y ∈ r.flatMap fun k => flat d k.tree) : b ≤ y.eeBlock := by
      obtain ⟨k',after,inKid⟩ := List.mem_flatMap.mp member
      obtain ⟨_,_,start,⟨_,_,wf'⟩,_⟩ := right.bounds (kidAt_forward d) after
      exact Nat.le_trans start (wf_bounds wf' inKid).1
    have ahead := right.le (kidAt_forward d)
    have least := (wf_bounds inside found).2.2
    have positive := (wf_bounds inside found).2.1
    have up : nextAllocatedLoop s path (level + 1) = if l.length + 1 ≠ (kidsOf t).length
        then ((s.hdr at_).slot (l.length + 1)).eiBlock else nextAllocatedLoop s path level := by
      simp only [nextAllocatedLoop,pHdr,pIdx,Option.getD_some,holds.1.entries]
    rw [up,kids,List.length_append,List.length_cons] at leaves
    rw [flatten]
    cases leaves with
    | inside after behind before first =>
      refine Leaves.inside after behind (Nat.lt_of_lt_of_le before ahead) fun y member above different => ?_
      rcases List.mem_append.mp member with early | member
      · exact absurd (front y early) (by omega)
      · rcases List.mem_append.mp member with here | late
        · exact first y here above different
        · exact Nat.le_trans (Nat.le_of_lt before) (back y late)
    | above on last =>
      cases r with
      | nil =>
        rw [if_neg (by simp)] at on
        refine Leaves.above on fun y member above => ?_
        rcases List.mem_append.mp member with early | member
        · exact absurd (front y early) (by omega)
        · rcases List.mem_append.mp member with here | late
          · exact last y here above
          · cases late
      | cons k' r =>
        have sibling : (kidsOf t)[l.length + 1]? = some k' := by
          rw [kids,List.getElem?_append_right (Nat.le_add_right _ _),Nat.add_sub_cancel_left]
          rfl
        rw [if_pos (by simp),(holds.2.1 _ k' sibling).1] at on
        obtain ⟨_,b',start,⟨rfl,some',inside'⟩,rest⟩ := right
        obtain ⟨z,inKid⟩ := List.exists_mem_of_ne_nil _ (flat_ne_nil inside' some')
        have bounds := wf_bounds inside' inKid
        have stop := rest.le (kidAt_forward d)
        subst on
        refine Leaves.inside (chosen.above k' List.mem_cons_self) (by omega) (by omega) fun y member above different => ?_
        rcases List.mem_append.mp member with early | member
        · exact absurd (front y early) (by omega)
        · rcases List.mem_append.mp member with here | late
          · exact absurd (last y here above) different
          · rw [List.flatMap_cons] at late
            rcases List.mem_append.mp late with first | later
            · exact (wf_bounds inside' first).1
            · obtain ⟨k'',after,inKid'⟩ := List.mem_flatMap.mp later
              obtain ⟨_,_,start',⟨_,_,wf''⟩,_⟩ := rest.bounds (kidAt_forward d) after
              have := (wf_bounds wf'' inKid').1
              have := wf_le inside'
              omega

/-- What the answer for a hole has to be: behind the block, and not behind the first mapped
block after it. -/
structure NextAllocated (extents : List Slot) (b next : Nat) : Prop where
  after : b < next
  first : ∀ x ∈ extents, ∀ c, covers x c → b < c → next ≤ c
  max : next ≤ extMaxBlocks
  free : ∀ len, b + len ≤ next → ∀ x ∈ extents, ∀ c, b ≤ c → c < b + len → ¬covers x c

/-- In a hole it is enough to look at where the extents start. -/
theorem NextAllocated.of_starts {extents : List Slot} {b next : Nat} (hole : ∀ x ∈ extents, ¬covers x b) (after : b < next)
    (max : next ≤ extMaxBlocks) (first : ∀ x ∈ extents, b < x.eeBlock → next ≤ x.eeBlock) : NextAllocated extents b next := by
  have mapped (x : Slot) (member : x ∈ extents) (c : Nat) (covered : covers x c) (above : b < c) : next ≤ c := by
    have missed := hole x member
    obtain ⟨low,high⟩ := covered
    rcases Nat.lt_or_ge b x.eeBlock with before | behind
    · exact Nat.le_trans (first x member before) low
    · exact absurd ⟨behind,by omega⟩ missed
  refine ⟨after,mapped,max,fun len fits x member c from_b before covered => ?_⟩
  rcases Nat.eq_or_lt_of_le from_b with rfl | above
  · exact hole x member covered
  · have := mapped x member c covered above
    omega

/-- For a hole, the answer is right if and only if there is a block left behind the hole and
the extent the search has left on the path does not lie above it; an extent of the last
logical block alone does no harm. -/
theorem ext4ExtNextAllocatedBlock_iff {s s' : State} {d : Nat} {t : Tree d} (tree : HasTree s d t) {b : Nat}
    (hole : ∀ x ∈ flat d t, ¬covers x b) {origPath : Option Path} {path : Path}
    (found : ext4FindExtent s b origPath = (s',.ok path)) :
    NextAllocated (flat d t) b (ext4ExtNextAllocatedBlock s' path) ↔
      b < extMaxBlocks ∧ ∀ x, pathExtent s' path = some x → x.eeBlock ≤ b ∨ x.eeBlock = extMaxBlocks := by
  obtain ⟨s₁,path₁,result,same,onPath,_⟩ := ext4FindExtent_found tree b origPath
  obtain ⟨rfl,rfl⟩ : s₁ = s' ∧ path₁ = path := by
    rw [found] at result
    injection result with state ok
    injection ok with way
    exact ⟨state.symm,way.symm⟩
  have tree' := same.hasTree tree
  rw [ext4ExtNextAllocatedBlock_leaf onPath,pathExtent,tree'.depth]
  rcases Nat.eq_zero_or_pos (entries d t) with none_ | some_
  · obtain rfl : d = 0 := tree'.nonempty.resolve_right fun some_ => some_ none_
    have empty : extentsOf t = [] := List.length_eq_zero_iff.mp none_
    obtain ⟨_,_,_,⟨_,pExt⟩ | ⟨l,x,r,chosen,_⟩⟩ := onPath
    · simp only [leafNext,pExt]
      rw [show flat 0 t = [] from empty]
      exact ⟨fun right => ⟨right.after,nofun⟩,
        fun left => NextAllocated.of_starts nofun left.1 (Nat.le_refl _) nofun⟩
    · exact absurd (chosen.parts.symm.trans empty) (by simp)
  · obtain ⟨i,pExt,member,leaves⟩ := leafNext_leaves onPath tree'.holds tree.wf (Nat.ne_of_gt some_)
    rw [Nat.zero_add] at pExt member leaves
    rw [pExt,Option.map_some]
    generalize (s₁.hdr (path₁.elem d).pHdr).slot i = x at member leaves
    obtain ⟨_,positive,stop⟩ := wf_bounds tree.wf member
    have last : extMaxBlocks = 2^32 - 1 := rfl
    generalize leafNext s₁ path₁ d = next at leaves
    constructor
    · intro right
      refine ⟨Nat.lt_of_lt_of_le right.after right.max,fun y here => ?_⟩
      obtain rfl := Option.some.inj here
      rcases Nat.lt_or_ge b x.eeBlock with above | behind
      · have early := right.first x member x.eeBlock ⟨Nat.le_refl _,positive⟩ above
        cases leaves with
        | inside _ later _ _ => exact absurd early (by omega)
        | above on _ =>
          have top : next = extMaxBlocks := on
          exact Or.inr (by omega)
      · exact Or.inl behind
    · intro ⟨room,fits⟩
      have fits := fits x rfl
      cases leaves with
      | inside after later before first =>
        refine NextAllocated.of_starts hole after (by omega) fun y inside above => ?_
        rcases Classical.em (y = x) with rfl | different
        · rcases fits with behind | end_
          · exact absurd above (by omega)
          · exact absurd later (by omega)
        · exact first y inside above different
      | above on only =>
        have top : next = extMaxBlocks := on
        rw [top]
        refine NextAllocated.of_starts hole room (Nat.le_refl _) fun y inside above => ?_
        obtain rfl := only y inside above
        rcases fits with behind | end_
        · exact absurd above (by omega)
        · exact Nat.le_of_eq end_.symm

/-- Block 6 of `leafFile`, between its two extents. -/
theorem ext4ExtNextAllocatedBlock_iff_leafFile : ∃ s path, ext4FindExtent leafFile 6 none = (s,.ok path) ∧
    (NextAllocated (flat 1 leafTree) 6 (ext4ExtNextAllocatedBlock s path) ↔
      6 < extMaxBlocks ∧ ∀ x, pathExtent s path = some x → x.eeBlock ≤ 6 ∨ x.eeBlock = extMaxBlocks) := by
  obtain ⟨s,path,found,_⟩ := ext4FindExtent_found leafFile_tree 6 none
  exact ⟨s,path,found,ext4ExtNextAllocatedBlock_iff leafFile_tree (by decide) found⟩

/-- The extents of `leafFile` are [3,5) and [8,9): in front of both, the answer is 8. -/
theorem nextAllocated_front : HasTree leafFile 1 leafTree ∧ (∀ x ∈ flat 1 leafTree, ¬covers x 0) ∧
    ∃ s path, ext4FindExtent leafFile 0 none = (s,.ok path) ∧ ext4ExtNextAllocatedBlock s path = 8 ∧
      ¬NextAllocated (flat 1 leafTree) 0 (ext4ExtNextAllocatedBlock s path) := by
  obtain ⟨s,path,found,_⟩ := ext4FindExtent_found leafFile_tree 0 none
  have answer : (match ext4FindExtent leafFile 0 none with
    | (s,.ok path) => ext4ExtNextAllocatedBlock s path
    | (_,.error _) => 0) = 8 := by decide
  rw [found] at answer
  simp only at answer
  refine ⟨leafFile_tree,by decide,s,path,found,answer,fun right => ?_⟩
  rw [answer] at right
  exact absurd (right.first ⟨3,2,100⟩ (by decide) 3 (by decide) (by decide)) (by decide)

end Ext4Fuse.Extents
