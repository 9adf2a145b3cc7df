import Ext4Fuse.Extents.GetBlocks
import Ext4Fuse.Extents.Tree
import Mathlib.Tactic.IntervalCases

/-! What a lookup of a logical block answers in a well-formed tree. -/
namespace Ext4Fuse.Extents
open Machine Ext4Fuse.Types Super Library.Segments

theorem actualLen_le (x : Slot) : ext4ExtGetActualLen x ≤ 2^15 := by
  have small : x.eeLen < 2^16 := Nat.mod_lt _ (by decide)
  unfold ext4ExtGetActualLen extInitMaxLen
  split <;> omega

theorem ext4ExtPblock_lt (x : Slot) : ext4ExtPblock x < 2^48 := by
  have low := x.word2.toNat_lt
  have high := x.word1.toNat_lt
  unfold ext4ExtPblock Slot.eeStartLo Slot.eeStartHi
  omega

/-- The range test of an extent that ends within 32 bits. -/
theorem inRange_covers {x : Slot} (some_ : x.eeBlock < extentStop x) (bound : extentStop x ≤ 2^32) (b : Nat) :
    inRange b x.eeBlock (ext4ExtGetActualLen x) = true ↔ covers x b := by
  unfold extentStop at some_ bound
  have last : u32 (x.eeBlock + ext4ExtGetActualLen x - 1 : Int) = x.eeBlock + ext4ExtGetActualLen x - 1 := by
    rw [show (x.eeBlock + ext4ExtGetActualLen x - 1 : Int) = ((x.eeBlock + ext4ExtGetActualLen x - 1 : Nat) : Int) by omega]
    exact u32_small _ (by omega)
  rw [inRange,last,decide_eq_true_iff,covers,extentStop]
  constructor <;> intro both <;> omega

/-- The extent that `ext4_ext_get_blocks` finds is the one that covers the block. -/
theorem coveringExtent_eq {s : State} {d : Nat} {t : Tree d} (tree : HasTree s d t) {block : Nat} {path : Path}
    (onPath : OnPath block path d t none 0) :
    (∃ x ∈ flat d t, covers x block ∧ (∀ y ∈ flat d t, covers y block → y = x) ∧ coveringExtent s path block = some x) ∨
      (∀ x ∈ flat d t, ¬covers x block) ∧ coveringExtent s path block = none := by
  have found := onPath_extent onPath tree.holds tree.wf
  rw [Nat.zero_add] at found
  rw [coveringExtent,tree.depth]
  rcases found with ⟨pExt,empty⟩ | ⟨i,pExt,member,only⟩
  · refine Or.inr ⟨fun x inside => ?_,by rw [pExt]; rfl⟩
    rw [empty] at inside
    nomatch inside
  · rw [pExt]
    simp only [Option.map_some,Option.filter_some]
    generalize (s.hdr (path.elem d).pHdr).slot i = x at member only ⊢
    obtain ⟨_,some_,stop⟩ := wf_bounds tree.wf member
    rcases Classical.em (covers x block) with covered | missed
    · exact Or.inl ⟨x,member,covered,only,if_pos ((inRange_covers some_ stop block).mpr covered)⟩
    · refine Or.inr ⟨fun y inside covered => ?_,if_neg fun range => missed ((inRange_covers some_ stop block).mp range)⟩
      obtain rfl := only y inside covered
      exact missed covered

/-- What a lookup stores and returns: the block and the rest of its extent, or nothing for a hole. -/
def lookup (extents : List Slot) (maxBlocks b : Nat) : Nat × Nat :=
  match extents.find? fun x => covers x b with
  | some x => (ext4ExtPblock x + (b - x.eeBlock),min (extentStop x - b) maxBlocks)
  | none => (0,0)

theorem lookup_mapped {extents : List Slot} {b : Nat} {x : Slot} (maxBlocks : Nat) (member : x ∈ extents) (covered : covers x b)
    (only : ∀ y ∈ extents, covers y b → y = x) :
    lookup extents maxBlocks b = (ext4ExtPblock x + (b - x.eeBlock),min (extentStop x - b) maxBlocks) := by
  rw [lookup]
  generalize found : extents.find? (fun x => covers x b) = result
  cases result with
  | none => exact absurd covered (by simpa using List.find?_eq_none.mp found x member)
  | some y => rw [only y (List.mem_of_find?_eq_some found) (by simpa using List.find?_some found)]

theorem lookup_hole {extents : List Slot} (maxBlocks : Nat) {b : Nat} (hole : ∀ x ∈ extents, ¬covers x b) :
    lookup extents maxBlocks b = (0,0) := by
  rw [lookup,List.find?_eq_none.mpr fun x member => by simpa using hole x member]

theorem covers_unique {d low high : Nat} {t : Tree d} (wf : Wf d low t high) {b : Nat} {x y : Slot} (left : x ∈ flat d t)
    (right : y ∈ flat d t) (one : covers x b) (other : covers y b) : y = x := by
  by_contra different
  obtain ⟨i,inside,rfl⟩ := List.getElem_of_mem left
  obtain ⟨j,inside',rfl⟩ := List.getElem_of_mem right
  have apart := List.pairwise_iff_getElem.mp (wf_apart wf)
  obtain ⟨low,high⟩ := one
  obtain ⟨low',high'⟩ := other
  rcases Nat.lt_trichotomy i j with before | rfl | after
  · have := apart i j inside inside' before
    omega
  · exact different rfl
  · have := apart j i inside' inside after
    omega

/-- Behind the last logical block nothing is found. -/
theorem coveringExtent_high {s : State} {d : Nat} {t : Tree d} (tree : HasTree s d t) {block high : Nat} {path : Path}
    (onPath : OnPath block path d t none 0) (above : 2^32 ≤ high) : coveringExtent s path high = none := by
  have found := onPath_extent onPath tree.holds tree.wf
  rw [Nat.zero_add] at found
  rw [coveringExtent,tree.depth]
  rcases found with ⟨pExt,_⟩ | ⟨i,pExt,member,_⟩
  · rw [pExt]
    rfl
  · rw [pExt]
    simp only [Option.map_some,Option.filter_some]
    obtain ⟨_,some_,stop⟩ := wf_bounds tree.wf member
    refine if_neg fun range => ?_
    have covered := (inRange_covers some_ stop high).mp range
    exact absurd covered.2 (by omega)

/-- On a mapped block nothing is created. -/
theorem ext4ExtGetBlocks_covered {s : State} {d : Nat} {t : Tree d} (tree : HasTree s d t) {b : Nat} {x : Slot}
    (member : x ∈ flat d t) (covered : covers x b) (maxBlocks : Nat) (create : Bool) : ∃ s', Same s s' ∧
      ext4ExtGetBlocks s b maxBlocks create =
        some (s',((min (extentStop x - b) maxBlocks : Nat) : Int),ext4ExtPblock x + (b - x.eeBlock)) := by
  have bounds := wf_bounds tree.wf member
  have block := ext4ExtPblock_lt x
  have len := actualLen_le x
  obtain ⟨low,high⟩ := covered
  obtain ⟨s₁,path,found,same,onPath,_⟩ := ext4FindExtent_found tree b none
  refine ⟨_,same.trans (ext4ExtDropRefs_same s₁ path 0 false),?_⟩
  rcases coveringExtent_eq (same.hasTree tree) onPath with ⟨y,inside,here,only,extent⟩ | ⟨hole,_⟩
  · obtain rfl := only x member ⟨low,high⟩
    have newblock : u64 (b - x.eeBlock + ext4ExtPblock x : Int) = ext4ExtPblock x + (b - x.eeBlock) := by
      rw [show (b - x.eeBlock + ext4ExtPblock x : Int) = ((ext4ExtPblock x + (b - x.eeBlock) : Nat) : Int) by omega]
      exact u64_small _ (by omega)
    have rest : ext4ExtGetActualLen x - (b - x.eeBlock) = extentStop x - b := by
      unfold extentStop
      omega
    simp only [ext4ExtGetBlocks,u32_small b (by omega),found,extent,newblock,rest]
    rw [i32_small _ (by omega) (by unfold extentStop; omega)]
  · exact absurd ⟨low,high⟩ (hole x member)

theorem ext4ExtGetBlocks_lookup {s : State} {d : Nat} {t : Tree d} (tree : HasTree s d t) {b : Nat} (bound : b < 2^32)
    (maxBlocks : Nat) : ∃ s', Same s s' ∧ ext4ExtGetBlocks s b maxBlocks false =
      some (s',((lookup (flat d t) maxBlocks b).2 : Int),(lookup (flat d t) maxBlocks b).1) := by
  rcases Classical.em (∃ x ∈ flat d t, covers x b) with ⟨x,member,covered⟩ | mapped
  · rw [lookup_mapped maxBlocks member covered fun y other both => covers_unique tree.wf member other covered both]
    exact ext4ExtGetBlocks_covered tree member covered maxBlocks false
  · have hole : ∀ x ∈ flat d t, ¬covers x b := fun x member covered => mapped ⟨x,member,covered⟩
    obtain ⟨s₁,path,found,same,onPath,_⟩ := ext4FindExtent_found tree b none
    refine ⟨_,same.trans (ext4ExtDropRefs_same s₁ path 0 false),?_⟩
    rcases coveringExtent_eq (same.hasTree tree) onPath with ⟨x,member,covered,_⟩ | ⟨_,extent⟩
    · exact absurd covered (hole x member)
    · simp only [ext4ExtGetBlocks,u32_small b bound,found,extent,Bool.false_eq_true,if_false,lookup_hole maxBlocks hole]
      rfl

/-- Blocks that no 32-bit number reaches lie in a hole. -/
theorem ext4ExtGetBlocks_high {s : State} {d : Nat} {t : Tree d} (tree : HasTree s d t) {b : Nat} (above : 2^32 ≤ b)
    (maxBlocks : Nat) : ∃ s', Same s s' ∧ ext4ExtGetBlocks s b maxBlocks false = some (s',0,0) := by
  obtain ⟨s₁,path,found,same,onPath,_⟩ := ext4FindExtent_found tree (u32 b) none
  refine ⟨_,same.trans (ext4ExtDropRefs_same s₁ path 0 false),?_⟩
  simp only [ext4ExtGetBlocks,found,coveringExtent_high (same.hasTree tree) onPath above,Bool.false_eq_true,if_false]

/-- What a lookup has to answer: the physical block and how many blocks go on from there in
the extent that covers the block, or nothing. -/
structure Looked (extents : List Slot) (b maxBlocks : Nat) (n : Int) (p : Nat) : Prop where
  found : 0 < n ↔ ∃ x ∈ extents, covers x b
  hole : (∀ x ∈ extents, ¬covers x b) → n = 0
  extent : ∀ x ∈ extents, covers x b → p = ext4ExtPblock x + (b - x.eeBlock) ∧ n = (min maxBlocks (extentStop x - b) : Nat) ∧
    ∀ j : Nat, (j : Int) < n → covers x (b + j) ∧ mapping extents (b + j) = some (p + j,ext4ExtIsUnwritten x)

theorem ext4ExtGetBlocks_looked {s : State} {d : Nat} {t : Tree d} (tree : HasTree s d t) (b : Nat) {maxBlocks : Nat}
    (some_ : 1 ≤ maxBlocks) : ∃ s' n p, ext4ExtGetBlocks s b maxBlocks false = some (s',n,p) ∧ Same s s' ∧
      Looked (flat d t) b maxBlocks n p := by
  rcases Classical.em (∃ x ∈ flat d t, covers x b) with ⟨x,member,covered⟩ | hole
  · have bounds := wf_bounds tree.wf member
    obtain ⟨s',same,result⟩ := ext4ExtGetBlocks_lookup tree (show b < 2^32 by have := covered.2; omega) maxBlocks
    have only (c : Nat) (here : covers x c) (y : Slot) (inside : y ∈ flat d t) (other : covers y c) : y = x :=
      covers_unique tree.wf member inside here other
    rw [lookup_mapped maxBlocks member covered (only b covered)] at result
    refine ⟨s',_,_,result,same,?_,fun empty => absurd covered (empty x member),fun y inside other => ?_⟩
    · have := covered.2
      exact ⟨fun _ => ⟨x,member,covered⟩,fun _ => Int.natCast_pos.mpr (Nat.lt_min.mpr ⟨by omega,by omega⟩)⟩
    · obtain rfl := only b covered y inside other
      refine ⟨rfl,congrArg Nat.cast (Nat.min_comm _ _),fun j before => ?_⟩
      have near : j < extentStop y - b := (Nat.lt_min.mp (Int.ofNat_lt.mp before)).1
      have here : covers y (b + j) := ⟨Nat.le_trans covered.1 (Nat.le_add_right b j),by omega⟩
      refine ⟨here,?_⟩
      rw [mapping_some member here (only (b + j) here)]
      have := covered.1
      rw [show ext4ExtPblock y + (b + j - y.eeBlock) = ext4ExtPblock y + (b - y.eeBlock) + j by omega]
  · have empty : ∀ x ∈ flat d t, ¬covers x b := fun x member covered => hole ⟨x,member,covered⟩
    have none_left : Looked (flat d t) b maxBlocks 0 0 :=
      ⟨⟨nofun,fun found => absurd found hole⟩,fun _ => rfl,fun x member covered => absurd covered (empty x member)⟩
    rcases Nat.lt_or_ge b (2^32) with low | high
    · obtain ⟨s',same,result⟩ := ext4ExtGetBlocks_lookup tree low maxBlocks
      rw [lookup_hole maxBlocks empty] at result
      exact ⟨s',0,0,result,same,none_left⟩
    · obtain ⟨s',same,result⟩ := ext4ExtGetBlocks_high tree high maxBlocks
      exact ⟨s',0,0,result,same,none_left⟩

/-- A file of four blocks that has its extents in the inode. -/
def rootFile (v : Volume) (extents : List Slot) : State where
  volume := v
  inode := ⟨12,false,⟨4096,0,8,0,0,⟨0xf30a,extents.length,4,0,fun i => extents.getD i ⟨0,0,0⟩⟩⟩⟩
  node := fun _ => ⟨0,0,0,0,fun _ => ⟨0,0,0⟩⟩
  verified := fun _ => false
  count := fun _ => 0

theorem rootFile_tree (v : Volume) {extents : List Slot} (fits : extents.length ≤ 4) (wf : Wf 0 0 extents (2^32)) :
    HasTree (rootFile v extents) 0 extents := by
  refine ⟨⟨⟨rfl,rfl,rfl,fits,(by decide : 0 < 4),(by decide : 4 ≤ 4)⟩,fun i x here => ?_⟩,List.nodup_nil,wf,Or.inl rfl⟩
  exact (List.getD_eq_getElem?_getD ..).trans (congrArg (Option.getD · _) here)

/-- A file whose root points to one leaf of two extents, in block 50. -/
def leafFile : State where
  volume := Alloc.oneFree
  inode := ⟨12,false,⟨9216,0,4,0,0,⟨0xf30a,1,4,1,fun _ => ⟨0,50,0⟩⟩⟩⟩
  node := fun _ => ⟨0xf30a,2,84,0,fun i => if i = 0 then ⟨3,2,100⟩ else ⟨8,1,200⟩⟩
  verified := fun _ => false
  count := fun _ => 0

def leafTree : Tree 1 := [(⟨0,50,[(⟨3,2,100⟩ : Slot),⟨8,1,200⟩]⟩ : Kid (Tree 0))]

theorem leafFile_tree : HasTree leafFile 1 leafTree := by
  refine ⟨⟨⟨rfl,rfl,rfl,by decide,by decide,by decide⟩,?_,?_⟩,by decide,?_,Or.inr (by decide)⟩
  · intro i k here
    obtain ⟨inside,rfl⟩ := List.getElem?_eq_some_iff.mp here
    obtain rfl := Nat.lt_one_iff.mp inside
    exact ⟨rfl,rfl⟩
  · intro k member
    obtain rfl := List.mem_singleton.mp member
    refine ⟨⟨rfl,rfl,rfl,by decide,by decide,by decide⟩,fun i x here => ?_⟩
    obtain ⟨inside,rfl⟩ := List.getElem?_eq_some_iff.mp here
    have two : i < 2 := inside
    interval_cases i <;> rfl
  · refine ⟨0,9,by decide,⟨rfl,by decide,?_⟩,(by decide : 9 ≤ 2^32)⟩
    exact ⟨3,5,by decide,⟨by decide,by decide,by decide⟩,8,9,by decide,⟨by decide,by decide,by decide⟩,Nat.le_refl 9⟩

theorem ext4ExtGetBlocks_looked_leafFile : ∃ s' n p, ext4ExtGetBlocks leafFile 4 8 false = some (s',n,p) ∧
    Same leafFile s' ∧ Looked (flat 1 leafTree) 4 8 n p := ext4ExtGetBlocks_looked leafFile_tree 4 (by decide)

/-- `inode_get_data_pblock` without `create`. -/
theorem inodeGetDataPblock_lookup {s : State} {d : Nat} {t : Tree d} (tree : HasTree s d t) {b : Nat} (bound : b < 2^32)
    (extentLen : Option Nat) : ∃ s', Same s s' ∧ inodeGetDataPblock s b extentLen false =
      some (s',lookup (flat d t) extInitMaxLen b) := by
  obtain ⟨s',same,result⟩ := ext4ExtGetBlocks_lookup tree bound extInitMaxLen
  refine ⟨s',same,?_⟩
  simp only [inodeGetDataPblock,extentGetPblockNew,Bool.false_eq_true,if_false,result,Option.bind_eq_bind,Option.bind_some]
  rfl

end Ext4Fuse.Extents
