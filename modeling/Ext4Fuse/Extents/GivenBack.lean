import Ext4Fuse.Extents.RemoveLeaf
import Mathlib.Data.List.TakeWhile

/-! What `ext4_ext_remove_space` gives back of a tree, and when all of it lies in the groups' bitmaps. -/
namespace Ext4Fuse.Extents
open Machine Ext4Fuse.Types Super Library.Partial Library.Segments

/-! Ranges in the bitmaps. -/

/-- `ext4_ext_free_blocks` finds a group for the first block, and the range in the group's bitmap if that is initialised. -/
def RangeFits (v : Volume) (range : Nat × Int) : Prop :=
  let sb := v.superBlock
  let blockGroup := u32 (u64 (range.1 - superFirstDataBlock sb : Int) / superBlocksPerGroup sb : Nat)
  let index := i32 (range.1 - superFirstDataBlock sb - blockGroup * superBlocksPerGroup sb)
  blockGroup < superNBlockGroups sb ∧
    (ext4IsBlockBitmapInited (v.gdesc blockGroup) = true → 0 ≤ index ∧ index + range.2 ≤ superBlockSize sb * 8)

instance (v : Volume) (range : Nat × Int) : Decidable (RangeFits v range) := inferInstanceAs (Decidable (_ ∧ (_ → _)))

def AllFit (v : Volume) (ranges : List (Nat × Int)) : Prop := ∀ range ∈ ranges, RangeFits v range

instance (v : Volume) (ranges : List (Nat × Int)) : Decidable (AllFit v ranges) := inferInstanceAs (Decidable (∀ _ ∈ _, _))

variable {v v' : Volume}

theorem allFit_append (one two : List (Nat × Int)) : AllFit v (one ++ two) ↔ AllFit v one ∧ AllFit v two := List.forall_mem_append

/-- Between the volumes no range starts or ceases to fit. -/
def FitsAlike (v v' : Volume) : Prop := ∀ range, RangeFits v' range ↔ RangeFits v range

theorem FitsAlike.refl (v : Volume) : FitsAlike v v := fun _ => Iff.rfl

theorem FitsAlike.trans {v'' : Volume} (one : FitsAlike v v') (two : FitsAlike v' v'') : FitsAlike v v'' :=
  fun range => (two range).trans (one range)

theorem FitsAlike.allFit (alike : FitsAlike v v') (ranges : List (Nat × Int)) : AllFit v' ranges ↔ AllFit v ranges :=
  forall_congr' fun range => imp_congr_right fun _ => alike range

/-- Freeing has a result exactly for a range that fits. -/
theorem ext4ExtFreeBlocks_fits (v : Volume) (inode : Inode) (block : Nat) (count : Int) :
    (∃ r, Alloc.ext4ExtFreeBlocks v inode block count = some r) ↔ RangeFits v (block,count) := by
  unfold Alloc.ext4ExtFreeBlocks RangeFits Volume.desc
  dsimp only
  generalize u32 _ = g
  generalize i32 _ = index
  rcases Classical.em (g < superNBlockGroups v.superBlock) with inside | outside
  · rw [if_pos inside,Option.bind_eq_bind,Option.bind_some]
    cases ext4IsBlockBitmapInited (v.gdesc g) with
    | false => exact iff_of_true ⟨_,rfl⟩ ⟨inside,fun inited => by cases inited⟩
    | true =>
      simp only [Bool.not_true,Bool.false_eq_true,if_false]
      split
      · refine iff_of_false ?_ fun fits => ?_
        · rintro ⟨_,⟨⟩⟩
        · have both := fits.2 trivial
          omega
      · exact iff_of_true ⟨_,rfl⟩ ⟨inside,fun _ => by omega⟩
  · rw [if_neg outside]
    refine iff_of_false ?_ fun fits => outside fits.1
    rintro ⟨_,⟨⟩⟩

theorem countBlocks_alike {inode : Inode} {g : Nat} (len : Int) (mem : Bitmap.Mem) (blk : Nat) :
    FitsAlike v (Alloc.countBlocks (v.setBitmap blk mem) inode g (v.gdesc g) len).1 := by
  intro range
  have inited (g' : Nat) : ext4IsBlockBitmapInited ((Alloc.countBlocks (v.setBitmap blk mem) inode g (v.gdesc g) len).1.gdesc g') =
      ext4IsBlockBitmapInited (v.gdesc g') := by
    rcases eq_or_ne g' g with rfl | other
    · exact (congrArg _ (Function.update_self ..)).trans (ext4IsBlockBitmapInited_freeBlksSet ..)
    · exact congrArg _ (Function.update_of_ne other ..)
  unfold RangeFits
  dsimp only
  rw [inited]
  rfl

theorem ext4ExtFreeBlocks_alike {inode : Inode} {block : Nat} {count : Int} {r : Volume × Inode}
    (freed : Alloc.ext4ExtFreeBlocks v inode block count = some r) : FitsAlike v r.1 := by
  unfold Alloc.ext4ExtFreeBlocks at freed
  dsimp only at freed
  generalize u32 _ = g at freed
  generalize i32 _ = index at freed
  obtain ⟨bg,desc,freed⟩ := Option.bind_eq_some_iff.mp freed
  obtain rfl := Option.some.inj (Option.ite_none_right_eq_some.mp desc).2
  split at freed
  · rw [← Option.some.inj freed]
    exact FitsAlike.refl v
  · split at freed
    · nomatch freed
    · rw [← Option.some.inj freed]
      exact countBlocks_alike _ _ _

theorem freeAll_alike {inode : Inode} {ranges : List (Nat × Int)} (freed : freeAll inode v ranges = some v') : FitsAlike v v' := by
  induction ranges generalizing v with
  | nil => exact Option.some.inj freed ▸ FitsAlike.refl v
  | cons range ranges ih =>
    obtain ⟨r,first,rest⟩ := Option.bind_eq_some_iff.mp freed
    exact (ext4ExtFreeBlocks_alike first).trans (ih rest)

/-- One range after another is given back exactly when each of them fits. -/
theorem freeAll_fits (inode : Inode) (v : Volume) (ranges : List (Nat × Int)) :
    (∃ v', freeAll inode v ranges = some v') ↔ AllFit v ranges := by
  induction ranges generalizing v with
  | nil => exact iff_of_true ⟨v,rfl⟩ fun _ member => absurd member List.not_mem_nil
  | cons range ranges ih =>
    rw [AllFit,List.forall_mem_cons]
    have first := ext4ExtFreeBlocks_fits v inode range.1 range.2
    rw [freeAll]
    cases freed : Alloc.ext4ExtFreeBlocks v inode range.1 range.2 with
    | none =>
      rw [freed] at first
      refine iff_of_false ?_ fun both => ?_
      · rintro ⟨_,⟨⟩⟩
      · obtain ⟨_,⟨⟩⟩ := first.mpr both.1
    | some r =>
      rw [freed] at first
      rw [Option.bind_some,ih,(ext4ExtFreeBlocks_alike freed).allFit]
      exact (and_iff_right (first.mp ⟨r,rfl⟩)).symm

/-- What gives back ranges, and nothing else, works exactly when they all fit. -/
theorem freed_fits {x : Option State} {inode : Inode} {ranges : List (Nat × Int)} (freed : x.map State.volume = freeAll inode v ranges) :
    ((∃ s, x = some s) ↔ AllFit v ranges) ∧ ∀ s, x = some s → FitsAlike v s.volume := by
  constructor
  · rw [← freeAll_fits inode,← freed]
    exact ⟨fun ⟨s,here⟩ => ⟨s.volume,by rw [here]; rfl⟩,fun ⟨_,here⟩ =>
      let ⟨s,found,_⟩ := Option.map_eq_some_iff.mp here
      ⟨s,found⟩⟩
  · rintro s rfl
    exact freeAll_alike freed.symm

/-- An index entry that goes gives back the block it points to. -/
theorem ext4ExtRemoveIdx_volume {s : State} {path : Path} {i depth b : Nat} {l r : List Nat} (position : (path.elem i).pIdx = some l.length)
    (listed : Listed (s.hdr (path.elem i).pHdr) depth (l ++ b::r)) :
    (ext4ExtRemoveIdx s path i).map State.volume = freeAll s.inode s.volume [(b,1)] := by
  have above : State.volume ∘ removeIdxLoop path i = State.volume := funext fun s => (removeIdxLoop_above path i s).volume
  rw [ext4ExtRemoveIdx_eq position listed.inside,listed.pointer,Option.map_map,above,Option.map_eq_bind]
  have passed := ext4ExtFreeBlocks_freeAll (ext4ExtDirty (s.setHdr (path.elem i).pHdr
    (removedEntry (s.hdr (path.elem i).pHdr) l.length)) (path.elem i)) b 1 []
  rw [ext4ExtDirty_volume,setHdr_volume] at passed
  rw [freeAll_inode,passed]
  rfl

/-! The ranges. -/

/-- Where the last extent of a leaf ends. -/
def leafStop (extents : List Slot) : Nat := extents.getLast?.elim 0 extentStop

/-- What a round gives back of an extent: all of it, or when it begins in front of `from_` as many blocks from there on as it has
itself, but none behind the leaf's last extent. -/
def given (from_ stop : Nat) (x : Slot) : Nat × Int :=
  if x.eeBlock < from_ then
    (ext4ExtPblock x + (from_ - x.eeBlock),i32 (min (ext4ExtGetActualLen x : Int) ((stop : Int) - from_)))
  else (ext4ExtPblock x,ext4ExtGetActualLen x)

def givenAll (from_ : Nat) (extents : List Slot) : List (Nat × Int) := extents.map (given from_ (leafStop extents))

def endsBefore (from_ : Nat) (x : Slot) : Bool := extentStop x ≤ from_

/-- The extents in front of the first one that goes on behind `from_`, and the others. -/
def frontExtents (from_ : Nat) (extents : List Slot) : List Slot := extents.takeWhile (endsBefore from_)
def backExtents (from_ : Nat) (extents : List Slot) : List Slot := extents.dropWhile (endsBefore from_)

/-- What is given back for all that is below an index entry: a leaf that keeps extents in front of `from_` is read again for them,
and each node that has been emptied is given back itself. -/
def givenBelow (from_ : Nat) : (d : Nat) → Tree d → List (Nat × Int)
  | 0, t => (backExtents from_ (extentsOf t)).map (given from_ (leafStop (extentsOf t))) ++ givenAll from_ (frontExtents from_ (extentsOf t))
  | d+1, t => (kidsOf t).flatMap fun k => givenBelow from_ d k.tree ++ [(k.block,1)]

/-- All extents below an index entry end in front of `from_`. -/
def kidBefore (from_ d : Nat) (k : Kid (Tree d)) : Bool := (flat d k.tree).all (endsBefore from_)

/-- What a truncation at `from_` gives back: the root keeps its entries in front. -/
def givenBack (from_ : Nat) : (d : Nat) → Tree d → List (Nat × Int)
  | 0, t => (backExtents from_ (extentsOf t)).map (given from_ (leafStop (extentsOf t)))
  | d+1, t => ((kidsOf t).dropWhile (kidBefore from_ d)).flatMap fun k => givenBelow from_ d k.tree ++ [(k.block,1)]

/-- A node that is entered at its first entry. -/
def givenWhole (from_ : Nat) : (d : Nat) → Tree d → List (Nat × Int)
  | 0, t => givenAll from_ (extentsOf t)
  | d+1, t => (kidsOf t).flatMap fun k => givenWhole from_ d k.tree ++ [(k.block,1)]

section Tree
variable {from_ : Nat}

/-- A node with all extents on one side of the block is entered at its first entry. -/
theorem givenBelow_whole {d : Nat} {t : Tree d}
    (apart : (∀ x ∈ flat d t, extentStop x ≤ from_) ∨ ∀ x ∈ flat d t, from_ < extentStop x) : givenBelow from_ d t = givenWhole from_ d t := by
  induction d with
  | zero =>
    rw [givenBelow,givenWhole,backExtents,frontExtents]
    rcases apart with front | behind
    · have all (x : Slot) (member : x ∈ extentsOf t) : endsBefore from_ x = true := decide_eq_true (front x member)
      rw [List.dropWhile_eq_nil_iff.mpr all,List.takeWhile_eq_self_iff.mpr all]
      rfl
    · cases known : extentsOf t with
      | nil => rfl
      | cons x xs =>
        have first : from_ < extentStop x := behind x (show x ∈ extentsOf t from known ▸ List.mem_cons_self)
        have not_ : ¬endsBefore from_ x = true := fun yes => Nat.not_le.mpr first (of_decide_eq_true yes)
        rw [List.dropWhile_cons_of_neg not_,List.takeWhile_cons_of_neg not_]
        exact List.append_nil _
  | succ d ih =>
    rw [givenBelow,givenWhole]
    refine List.flatMap_congr fun k member => ?_
    have inside (x : Slot) (here : x ∈ flat d k.tree) : x ∈ flat (d + 1) t := List.mem_flatMap.mpr ⟨k,member,here⟩
    rw [ih (apart.imp (fun front x here => front x (inside x here)) fun behind x here => behind x (inside x here))]

theorem chosen_extents {low high : Nat} {t : Tree 0} {l r : List Slot} {x : Slot} (wf : Wf 0 low t high)
    (chosen : Chosen Slot.eeBlock from_ (extentsOf t) l x r) : (∀ y ∈ l, extentStop y ≤ from_) ∧ ∀ y ∈ r, from_ < y.eeBlock := by
  refine ⟨fun y left => ?_,chosen.above⟩
  have apart := wf_apart wf
  rw [show flat 0 t = l ++ x::r from chosen.parts] at apart
  exact Nat.le_trans ((List.pairwise_append.mp apart).2.2 y left x List.mem_cons_self) (chosen.below (List.ne_nil_of_mem left))

/-- The extents in front of the chosen entry end in front of the block, and those behind it begin behind the block. -/
theorem chosen_kids {d low high : Nat} {t : Tree (d + 1)} {l r : List (Kid (Tree d))} {k : Kid (Tree d)} (wf : Wf (d + 1) low t high)
    (chosen : Chosen Kid.key from_ (kidsOf t) l k r) : (∀ k' ∈ l, ∀ x ∈ flat d k'.tree, extentStop x ≤ from_) ∧
      (∀ k' ∈ r, ∀ x ∈ flat d k'.tree, from_ < x.eeBlock) ∧ ∃ high', Wf d k.key k.tree high' ∧ high' ≤ high := by
  have parts := (wf_succ d low high t).mp wf
  rw [chosen.parts] at parts
  obtain ⟨a,b,left,⟨rfl,_,inside⟩,right⟩ := (tiled_middle _ _ k).mp parts
  refine ⟨fun k' member x here => ?_,fun k' member x here => ?_,b,inside,right.le (kidAt_forward d)⟩
  · obtain ⟨a',b',_,⟨_,_,wf'⟩,stop⟩ := left.bounds (kidAt_forward d) member
    have bounds := wf_bounds wf' here
    have below := chosen.below (List.ne_nil_of_mem member)
    omega
  · obtain ⟨a',b',_,⟨rfl,_,wf'⟩,_⟩ := right.bounds (kidAt_forward d) member
    exact Nat.lt_of_lt_of_le (chosen.above k' member) (wf_bounds wf' here).1

/-- Of the entries of a node the chosen one has the extent that covers the block. -/
theorem chosen_covers {d low high : Nat} {t : Tree (d + 1)} {l r : List (Kid (Tree d))} {k : Kid (Tree d)} (wf : Wf (d + 1) low t high)
    (chosen : Chosen Kid.key from_ (kidsOf t) l k r) (covered : ∃ x ∈ flat (d + 1) t, covers x from_) :
    ∃ x ∈ flat d k.tree, covers x from_ := by
  obtain ⟨front,behind,_⟩ := chosen_kids wf chosen
  obtain ⟨x,member,low_,high_⟩ := covered
  obtain ⟨k',inside,here⟩ := List.mem_flatMap.mp member
  rw [chosen.parts] at inside
  rcases List.mem_append.mp inside with left | right
  · exact absurd high_ (Nat.not_lt.mpr (front k' left x here))
  · rcases List.mem_cons.mp right with rfl | after
    · exact ⟨x,here,low_,high_⟩
    · exact absurd low_ (Nat.not_le.mpr (behind k' after x here))

/-- What the leaf on the path keeps and what it gives back at first. -/
theorem chosen_leaf {low high : Nat} {t : Tree 0} {l r : List Slot} {x : Slot} (wf : Wf 0 low t high)
    (chosen : Chosen Slot.eeBlock from_ (extentsOf t) l x r) (covered : ∃ x ∈ flat 0 t, covers x from_) :
    frontExtents from_ (extentsOf t) = l ∧ backExtents from_ (extentsOf t) = x::r := by
  obtain ⟨front,behind⟩ := chosen_extents wf chosen
  have here : from_ < extentStop x := by
    obtain ⟨y,member,least,most⟩ := covered
    rw [show flat 0 t = l ++ x::r from chosen.parts] at member
    rcases List.mem_append.mp member with left | right
    · exact absurd most (Nat.not_lt.mpr (front y left))
    · rcases List.mem_cons.mp right with rfl | after
      · exact most
      · exact absurd least (Nat.not_le.mpr (behind y after))
  have not_ : ¬endsBefore from_ x = true := fun yes => Nat.not_le.mpr here (of_decide_eq_true yes)
  have all (y : Slot) (left : y ∈ l) : endsBefore from_ y = true := decide_eq_true (front y left)
  rw [frontExtents,backExtents,chosen.parts]
  constructor
  · rw [List.takeWhile_append_of_pos all,List.takeWhile_cons_of_neg not_,List.append_nil]
  · rw [List.dropWhile_append_of_pos all,List.dropWhile_cons_of_neg not_]

/-- What an index node on the path keeps. -/
theorem chosen_node {d low high : Nat} {t : Tree (d + 1)} {l r : List (Kid (Tree d))} {k : Kid (Tree d)} (wf : Wf (d + 1) low t high)
    (chosen : Chosen Kid.key from_ (kidsOf t) l k r) (covered : ∃ x ∈ flat (d + 1) t, covers x from_) :
    givenBack from_ (d + 1) t = (k::r).flatMap fun k => givenBelow from_ d k.tree ++ [(k.block,1)] := by
  obtain ⟨front,_⟩ := chosen_kids wf chosen
  obtain ⟨x,member,_,most⟩ := chosen_covers wf chosen covered
  have not_ : ¬kidBefore from_ d k = true := fun yes =>
    Nat.not_le.mpr most (of_decide_eq_true (List.all_eq_true.mp yes x member))
  have all (k' : Kid (Tree d)) (left : k' ∈ l) : kidBefore from_ d k' = true :=
    List.all_eq_true.mpr fun x here => decide_eq_true (front k' left x here)
  rw [givenBack,chosen.parts,List.dropWhile_append_of_pos all,List.dropWhile_cons_of_neg not_]

/-- The front of a tree: the entries of its root in front of the one on the path to a block. -/
def Front (block : Nat) : (d : Nat) → Tree d → Tree d → Prop
  | 0, t, l => ∃ x r, Chosen Slot.eeBlock block (extentsOf t) (extentsOf l) x r
  | _+1, t, l => ∃ k r, Chosen Kid.key block (kidsOf t) (kidsOf l) k r

/-- The node on the path as an entry that the walk comes back to, if it keeps anything. -/
def leftOver (b d : Nat) (l : Tree d) : List (Kid (Tree d)) := if entries d l = 0 then [] else [⟨0,b,l⟩]

theorem leftOver_none {b d : Nat} {l : Tree d} (empty : entries d l = 0) : leftOver b d l = [] := if_pos empty

theorem leftOver_some {b d : Nat} {l : Tree d} (some_ : entries d l ≠ 0) : leftOver b d l = [⟨0,b,l⟩] := if_neg some_

theorem givenWhole_nil {d : Nat} {l : Tree d} (empty : entries d l = 0) : givenWhole from_ d l = [] := by
  cases d with
  | zero =>
    rw [givenWhole,show extentsOf l = [] from List.length_eq_zero_iff.mp empty]
    rfl
  | succ d =>
    rw [givenWhole,show kidsOf l = [] from List.length_eq_zero_iff.mp empty]
    rfl

theorem allFit_front {v : Volume} {d low high : Nat} {t l : Tree d} (wf : Wf d low t high) (front : Front from_ d t l)
    (covered : ∃ x ∈ flat d t, covers x from_) :
    AllFit v (givenBelow from_ d t) ↔ AllFit v (givenBack from_ d t) ∧ AllFit v (givenWhole from_ d l) := by
  cases d with
  | zero =>
    obtain ⟨x,r,chosen⟩ := front
    rw [givenBelow,allFit_append,(chosen_leaf wf chosen covered).1]
    exact Iff.rfl
  | succ d =>
    obtain ⟨k,r,chosen⟩ := front
    have before := (chosen_kids wf chosen).1
    have whole : (kidsOf l).flatMap (fun k => givenBelow from_ d k.tree ++ [(k.block,1)]) = givenWhole from_ (d + 1) l :=
      List.flatMap_congr fun k' member => by rw [givenBelow_whole (Or.inl (before k' member))]
    rw [givenBelow,chosen.parts,List.flatMap_append,allFit_append,whole,chosen_node wf chosen covered]
    exact and_comm

/-- A node on the path is given back at once or when the walk comes back for its front. -/
theorem allFit_leftOver {v : Volume} {d low high : Nat} (b : Nat) {t l : Tree d} (wf : Wf d low t high) (front : Front from_ d t l)
    (covered : ∃ x ∈ flat d t, covers x from_) : AllFit v (givenBelow from_ d t ++ [(b,1)]) ↔
      (AllFit v (givenBack from_ d t) ∧ (entries d l = 0 → RangeFits v (b,1))) ∧
        AllFit v ((leftOver b d l).flatMap fun k => givenWhole from_ d k.tree ++ [(k.block,1)]) := by
  have one : AllFit v [(b,1)] ↔ RangeFits v (b,1) := List.forall_mem_singleton
  rw [allFit_append,allFit_front wf front covered,one]
  rcases Nat.eq_zero_or_pos (entries d l) with empty | some_
  · rw [leftOver_none empty,givenWhole_nil empty]
    exact ⟨fun all => ⟨⟨all.1.1,fun _ => all.2⟩,nofun⟩,fun all => ⟨⟨all.1.1,nofun⟩,all.1.2 empty⟩⟩
  · have some_ := Nat.ne_of_gt some_
    rw [leftOver_some some_,List.flatMap_singleton,allFit_append,one]
    exact ⟨fun all => ⟨⟨all.1.1,fun empty => absurd empty some_⟩,all.1.2,all.2⟩,fun all => ⟨⟨all.1.1,all.2.1⟩,all.2.2⟩⟩

/-- What the walk gives back at a node on the path below another one: at once, and when it comes back up. -/
theorem allFit_climb {v : Volume} {d low high : Nat} {t : Tree (d + 1)} {l r : List (Kid (Tree d))} {k : Kid (Tree d)} {front : Tree d}
    (wf : Wf (d + 1) low t high) (chosen : Chosen Kid.key from_ (kidsOf t) l k r) (covered : ∃ x ∈ flat (d + 1) t, covers x from_)
    (kept : Front from_ d k.tree front) : AllFit v (givenBack from_ (d + 1) t) ↔
      (AllFit v (givenBack from_ d k.tree) ∧ (entries d front = 0 → RangeFits v (k.block,1))) ∧
        AllFit v ((leftOver k.block d front ++ r).flatMap fun k => givenWhole from_ d k.tree ++ [(k.block,1)]) := by
  obtain ⟨_,behind,high',inside,_⟩ := chosen_kids wf chosen
  have whole : r.flatMap (fun k => givenBelow from_ d k.tree ++ [(k.block,1)]) =
      r.flatMap fun k => givenWhole from_ d k.tree ++ [(k.block,1)] := by
    refine List.flatMap_congr fun k' member => ?_
    rw [givenBelow_whole (Or.inr fun x here => Nat.lt_of_lt_of_le (behind k' member x here) (Nat.le_add_right _ _))]
  rw [chosen_node wf chosen covered,List.flatMap_cons,allFit_append (givenBelow from_ d k.tree ++ [(k.block,1)]),whole,
    allFit_leftOver k.block inside kept (chosen_covers wf chosen covered),List.flatMap_append,allFit_append (List.flatMap _ _)]
  exact and_assoc

end Tree

/-! The rounds over a leaf. -/

def leafFrom (n : Node) (from_ : Nat) : Nat := max (n.slot 0).eeBlock from_

def leafTo (n : Node) (last : Nat) : Nat :=
  let lastEx := n.slot (n.ehEntries - 1)
  min (u32 (lastEx.eeBlock + ext4ExtGetActualLen lastEx - 1)) last

/-- Where the extent begins in front of `from_` its length is not made shorter by that. -/
theorem cutExtent_moved {x : Slot} {from_ last : Nat} (front : x.eeBlock < from_) (bound : from_ < 2^32) (word : last < 2^32) :
    (cutExtent x from_ last).start = from_ ∧ (cutExtent x from_ last).len =
      i32 (min (ext4ExtGetActualLen x : Int) (((last + 1 : Nat) : Int) - from_)) := by
  have short := actualLen_le x
  have nothing : u64 ((from_ : Int) - from_) = 0 := by rw [Int.sub_self]; exact u64_small 0 (by decide)
  unfold cutExtent
  simp only [if_pos front,nothing]
  generalize ext4ExtGetActualLen x = len at *
  have whole : i32 ((len : Int) - ((0 : Nat) : Int)) = len := by
    rw [Int.ofNat_zero,Int.sub_zero]
    exact i32_small _ (by omega) (by omega)
  have cast : ((from_ : Int) + (len : Int) - 1) = ((from_ + len - 1 : Nat) : Int) := by omega
  have end_ : u64 (((from_ + len - 1 : Nat) : Int)) = from_ + len - 1 := u64_small _ (by omega)
  rw [whole,cast,end_]
  rcases Nat.lt_or_ge last (from_ + len - 1) with beyond | within
  · have excess : ((from_ + len - 1 : Nat) : Int) - (last : Int) = ((from_ + len - 1 - last : Nat) : Int) := by omega
    rw [if_pos beyond]
    refine ⟨rfl,?_⟩
    dsimp only
    rw [excess,u64_small _ (by omega)]
    exact congrArg i32 (by omega)
  · rw [if_neg (Nat.not_lt.mpr within)]
    refine ⟨rfl,?_⟩
    dsimp only
    rw [min_eq_left (by omega),i32_small _ (by omega) (by omega)]

/-- The last block of a range is not changed by what its length loses in an `int`. -/
theorem u32_i32 (a x : Int) : u32 (a + i32 x - 1) = u32 (a + x - 1) := by
  unfold u32 i32
  rw [Int.bmod_def]
  split <;> omega

/-- What a round passes on is what is given back of the extent. -/
theorem removedRange_given {x : Slot} {first from_ last : Nat} (some_ : x.eeBlock < extentStop x) (within : extentStop x ≤ last + 1)
    (word : last < 2^32) (bound : from_ < 2^32) (least : first ≤ x.eeBlock) :
    removedRange x (max first from_) last = given from_ (last + 1) x := by
  unfold given
  rcases Nat.lt_or_ge x.eeBlock from_ with front | after
  · have physical := ext4ExtPblock_lt x
    obtain ⟨start,len⟩ := cutExtent_moved front bound word
    rw [if_pos front,max_eq_right (Nat.le_trans least (Nat.le_of_lt front))]
    unfold removedRange
    dsimp only
    rw [start,len,u32_i32,u32_small from_ bound]
    generalize ext4ExtPblock x = block at *
    have moved : (from_ : Int) - x.eeBlock = ((from_ - x.eeBlock : Nat) : Int) := by omega
    have length : extentStop x = x.eeBlock + ext4ExtGetActualLen x := rfl
    have end_ : (from_ : Int) + min (ext4ExtGetActualLen x : Int) (((last + 1 : Nat) : Int) - from_) - 1 =
        ((min (from_ + ext4ExtGetActualLen x) (last + 1) - 1 : Nat) : Int) := by omega
    rw [moved,u32_small _ (by omega),u64_small _ (by omega),end_,u32_small _ (by omega)]
    exact Prod.ext rfl (congrArg i32 (by omega))
  · rw [if_neg (Nat.not_lt.mpr after)]
    exact removedRange_whole some_ (Nat.max_le.mpr ⟨least,after⟩) within word

theorem extentStop_small {t : Tree 0} (wf : Wf 0 0 t (2^32)) {x : Slot} (member : x ∈ extentsOf t) :
    u32 (x.eeBlock + ext4ExtGetActualLen x - 1) + 1 = extentStop x := by
  have bounds := wf_bounds wf member
  unfold extentStop at bounds ⊢
  have cast : (x.eeBlock + ext4ExtGetActualLen x - 1 : Int) = ((x.eeBlock + ext4ExtGetActualLen x - 1 : Nat) : Int) := by omega
  rw [cast,u32_small _ (by omega)]
  omega

theorem leafStop_last {t : Tree 0} (wf : Wf 0 0 t (2^32)) {x : Slot} (member : x ∈ extentsOf t) : extentStop x ≤ leafStop (extentsOf t) := by
  have some_ := List.ne_nil_of_mem member
  obtain ⟨front,known⟩ : ∃ front, extentsOf t = front ++ [(extentsOf t).getLast some_] := ⟨_,(List.dropLast_append_getLast some_).symm⟩
  rw [leafStop,List.getLast?_eq_some_getLast some_,Option.elim_some]
  generalize (extentsOf t).getLast some_ = last at known
  have apart := wf_apart wf
  rw [show flat 0 t = front ++ [last] from known] at apart
  rw [known] at member
  rcases List.mem_append.mp member with before | same
  · exact Nat.le_trans ((List.pairwise_append.mp apart).2.2 x before last List.mem_cons_self) (Nat.le_add_right _ _)
  · exact Nat.le_of_eq (congrArg extentStop (List.mem_singleton.mp same))

section Leaf
variable {n : Node} {t : Tree 0} {last : Nat}

/-- The end of the leaf, computed in 32 bits, is the last block in it. -/
theorem leafTo_stop (all : ∀ x : Slot, x.eeBlock ≤ last) (count : n.ehEntries = (extentsOf t).length)
    (slots : ∀ (i : Nat) (x : Slot), (extentsOf t)[i]? = some x → n.slot i = x) (wf : Wf 0 0 t (2^32)) (some_ : extentsOf t ≠ []) :
    leafTo n last + 1 = leafStop (extentsOf t) := by
  have back : (extentsOf t)[n.ehEntries - 1]? = some ((extentsOf t).getLast some_) := by
    rw [count,← List.getLast?_eq_getElem?,List.getLast?_eq_some_getLast some_]
  have bounds := wf_bounds wf (List.getLast_mem some_)
  have stop := extentStop_small wf (List.getLast_mem some_)
  have greatest : 2^32 - 1 ≤ last := Nat.le_trans (by decide) (all ⟨0xffffffff,0,0⟩)
  rw [leafStop,List.getLast?_eq_some_getLast some_,Option.elim_some,leafTo,slots _ _ back]
  omega

/-- The end of the leaf is behind all its extents. -/
theorem leafTo_before (all : ∀ x : Slot, x.eeBlock ≤ last) (count : n.ehEntries = (extentsOf t).length)
    (slots : ∀ (i : Nat) (x : Slot), (extentsOf t)[i]? = some x → n.slot i = x) (wf : Wf 0 0 t (2^32)) {j : Nat}
    (inside : j < n.ehEntries) : (n.slot j).eeBlock ≤ leafTo n last := by
  have here : (extentsOf t)[j]? = some (extentsOf t)[j] := List.getElem?_eq_getElem (by omega)
  have member : n.slot j ∈ extentsOf t := by
    rw [slots j _ here]
    exact List.getElem_mem _
  have stop := leafTo_stop all count slots wf (List.ne_nil_of_mem member)
  have behind := leafStop_last wf member
  have some_ := (wf_bounds wf member).2.1
  omega

/-- What the rounds over a leaf from entry `p` on give back. -/
theorem leafRanges_given (all : ∀ x : Slot, x.eeBlock ≤ last) (count : n.ehEntries = (extentsOf t).length)
    (slots : ∀ (i : Nat) (x : Slot), (extentsOf t)[i]? = some x → n.slot i = x) (wf : Wf 0 0 t (2^32)) {from_ : Nat}
    (bound : from_ < 2^32) (p : Nat) : leafRanges n (leafFrom n from_) (leafTo n last) (n.ehEntries - p) p =
      ((extentsOf t).drop p).map (given from_ (leafStop (extentsOf t))) := by
  obtain ⟨k,left⟩ : ∃ k, k = n.ehEntries - p := ⟨_,rfl⟩
  rw [← left]
  induction k generalizing p with
  | zero =>
    rw [List.drop_eq_nil_of_le (by omega)]
    rfl
  | succ k ih =>
    have inside : p < (extentsOf t).length := by omega
    have slot := slots p _ (List.getElem?_eq_getElem inside)
    have member : n.slot p ∈ extentsOf t := by
      rw [slot]
      exact List.getElem_mem _
    have stop := leafTo_stop all count slots wf (List.ne_nil_of_mem member)
    have behind := leafStop_last wf member
    have some_ := (wf_bounds wf member).2.1
    have first : (n.slot 0).eeBlock ≤ (n.slot p).eeBlock := by
      rw [slot,slots 0 _ (List.getElem?_eq_getElem (by omega))]
      rcases Nat.eq_zero_or_pos p with rfl | later
      · exact Nat.le_refl _
      · exact List.pairwise_iff_getElem.mp (extents_sorted wf) 0 p (by omega) inside later
    have word : leafTo n last < 2^32 := Nat.lt_of_le_of_lt (Nat.min_le_left _ _) (u32_lt _)
    rw [List.drop_eq_getElem_cons inside,List.map_cons,← slot,← stop,leafRanges,ih (p + 1) (by omega),leafFrom,stop]
    rw [removedRange_given some_ (by omega) word bound first,stop]

end Leaf

end Ext4Fuse.Extents
