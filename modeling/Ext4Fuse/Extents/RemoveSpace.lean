import Ext4Fuse.Extents.RemoveWalk

/-! The whole of `ext4_ext_remove_space`: the loop ends, and the root has those entries left that
are in front of the one on the path to the first block to go. -/
namespace Ext4Fuse.Extents
open Machine Ext4Fuse.Types Super Library.Partial Library.Segments Library.Walk

/-- The end of the loop. -/
def Finished (block d : Nat) (t : Tree d) (s : State) (a : Nat × State × Path) : Prop :=
  a.1 = 0 ∧ (a.2.2.elem 0).pHdr = none ∧ Steady s a.2.1 ∧
    ∃ l, Front block d t l ∧ Holds a.2.1.node (ext4ExtSpaceBlock s) d ext4ExtSpaceRoot (a.2.1.hdr none) l

/-- The fields `eh_max` are 16 bits wide. -/
def Short (s : State) : Prop := ∀ at_, (s.hdr at_).ehMax ≤ le16Max

theorem ext4ExtDropRefs_elem (s : State) (path : Path) (i j : Nat) (keepOther : Bool) :
    ∃ pBh, (ext4ExtDropRefs s path i keepOther).2.elem j = {path.elem j with pBh := pBh} := by
  unfold ext4ExtDropRefs
  generalize List.range (if keepOther = true then 1 else (path.elem i).pDepth + 1) = levels
  induction levels generalizing s path with
  | nil => exact ⟨(path.elem j).pBh,rfl⟩
  | cons k levels ih =>
    rw [List.foldl_cons]
    dsimp only
    split
    · rename_i b _
      obtain ⟨pBh,rest⟩ := ih (fsBrelse s b) (path.set (i + k) {path.elem (i + k) with pBh := none})
      rcases eq_or_ne j (i + k) with rfl | other
      · rw [Path.set_self] at rest
        exact ⟨pBh,rest⟩
      · rw [Path.set_other _ _ other] at rest
        exact ⟨pBh,rest⟩
    · exact ih s path

section Walk
variable {from_ last : Nat} {s : State} {path : Path}

/-- The front of a leaf is what the cut leaves of it. -/
theorem leafCut_holds {s' : State} {t l r : Tree 0} {x : Slot} {room : Nat} (tree : HasTree s 0 t)
    (parts : extentsOf t = extentsOf l ++ x::extentsOf r) (cut : LeafCut none (extentsOf l).length s s')
    (count : (s'.hdr none).ehEntries = (extentsOf l).length) : Holds s'.node room 0 ext4ExtSpaceRoot (s'.hdr none) l := by
  obtain ⟨header,slots⟩ := tree.holds
  have fits := header.fits
  rw [parts,List.length_append] at fits
  have max : (s'.hdr none).ehMax = s.inode.rawInode.iData.ehMax := cut.max
  refine ⟨⟨cut.magic.trans header.magic,cut.depth.trans header.depth,count,?_,?_,?_⟩,fun i y here => ?_⟩
  · rw [max]
    omega
  · rw [max]
    exact header.max
  · rw [max]
    exact header.limit
  · have inside := (List.getElem?_eq_some_iff.mp here).1
    refine (cut.front i inside).trans (slots i y ?_)
    rw [parts,List.getElem?_append_left inside]
    exact here

/-- A root that is a leaf. -/
theorem walk_leaf (all : ∀ x : Slot, x.eeBlock ≤ last) (bound : from_ < 2^32) {t : Tree 0} (tree : HasTree s 0 t) (short : Short s)
    (covered : ∃ x ∈ flat 0 t, covers x from_) (onPath : OnPath from_ path 0 t none 0) (pBh : (path.elem 0).pBh = none)
    (some_ : entries 0 t ≠ 0) :
    Leads (removeTurn 0 from_ last) (LeafChecked 0) (AllFit s.volume (givenBack from_ 0 t)) (Finished from_ 0 t s) (1,s,path) := by
  obtain ⟨pHdr,_,_,⟨empty,_⟩ | ⟨l,x,r,chosen,start⟩⟩ := onPath
  · refine absurd ?_ some_
    rw [entries,empty]
    rfl
  have removable := tree.holds.removable tree.wf (Nat.le_refl _) (short none) fun b => short (some b)
  have leaf : Removable s.node 0 (s.hdr (path.elem 0).pHdr) t := by
    rw [pHdr]
    exact removable
  have inside : l.length < (extentsOf t).length := by
    rw [chosen.parts,List.length_append,List.length_cons]
    omega
  have count : (s.hdr (path.elem 0).pHdr).ehEntries ≠ 0 := by
    rw [leaf.header.entries]
    exact some_
  obtain ⟨y,turned,volumes,cuts⟩ := @removeAtLeaf_cut s path 0 from_ last l.length t all bound tree.depth start leaf inside
  have gone : (extentsOf t).drop l.length = backExtents from_ (extentsOf t) := by
    rw [(chosen_leaf tree.wf chosen covered).2,chosen.parts,List.drop_left]
  rw [gone] at volumes
  obtain ⟨works,_⟩ := freed_fits volumes
  have went := removeTurn_leaf s path 0 from_ last
  have stays : (fun s₁ => if l.length = 0 ∧ (path.elem 0).pBh ≠ none then ext4ExtRemoveIdx s₁ path (0 - 1) else some s₁) = some :=
    funext fun s₁ => if_neg fun both => both.2 pBh
  rw [turned,stays,Option.bind_fun_some] at went
  have checked : LeafChecked 0 (1,s,path) := fun _ => count
  cases y with
  | none => exact .stuck (fun fits => by obtain ⟨_,⟨⟩⟩ := works.mpr fits) checked went
  | some s₁ =>
    obtain ⟨cut,left⟩ := cuts s₁ rfl
    rw [pHdr] at cut left
    obtain ⟨b,elem⟩ := ext4ExtDropRefs_elem s₁ path 0 0 false
    have same := ext4ExtDropRefs_same s₁ path 0 false
    rw [Option.map_some] at went
    generalize ext4ExtDropRefs s₁ path 0 false = after at went same elem
    obtain ⟨s₂,path₂⟩ := after
    dsimp only at elem same
    refine .on checked went (.here (works.mp ⟨s₁,rfl⟩) ⟨rfl,?_,cut.steady.trans same.steady,l,⟨x,r,chosen⟩,?_⟩)
    · rw [elem]
      exact pHdr
    · rw [same.hdr,same.node]
      exact leafCut_holds tree chosen.parts cut left

/-- A root that points to other nodes. -/
theorem walk_index (all : ∀ x : Slot, x.eeBlock ≤ last) (bound : from_ < 2^32) {d : Nat} {t : Tree (d + 1)} (tree : HasTree s (d + 1) t)
    (short : Short s) (covered : ∃ x ∈ flat (d + 1) t, covers x from_) (onPath : OnPath from_ path (d + 1) t none 0) :
    Leads (removeTurn (d + 1) from_ last) (LeafChecked (d + 1)) (AllFit s.volume (givenBack from_ (d + 1) t))
      (Finished from_ (d + 1) t s) (d + 2,s,path) := by
  have removable := tree.holds.removable tree.wf (Nat.le_refl _) (short none) fun b => short (some b)
  obtain ⟨pHdr,_,l,k,r,chosen,here,pBh,below⟩ := onPath
  have member : k ∈ kidsOf t := by
    rw [chosen.parts]
    exact List.mem_append_right _ List.mem_cons_self
  obtain ⟨nonempty,subtree⟩ := removable.2 k member
  have distinct : ((kidsOf t).flatMap fun k => k.block::foot d k.tree).Nodup := tree.distinct
  have own : (k.block::foot d k.tree).Nodup := (List.nodup_flatMap.mp distinct).1 k member
  have top (j : Nat) (order : j ≤ 0) (x : Nat) : (path.elem j).pHdr ≠ some x := by
    rw [Nat.le_zero.mp order,pHdr]
    rintro ⟨⟩
  have apart : HeadersApart path 0 := fun j i before inside => by omega
  have node : AtNode (d + 1) 0 d k.tree k.block s path := by
    refine ⟨by omega,tree.depth,pHdr,apart.enter (fun j _ => PathElem.Stays.refl _) (onPath_pHdr below) fun j order => top j order _,
      onPath_pHdr below,pBh,subtree,nonempty,(List.nodup_cons.mp own).2,fun j order x inKid => ?_⟩
    rcases Nat.eq_or_lt_of_le order with rfl | less
    · rw [onPath_pHdr below]
      rintro ⟨⟩
      exact (List.nodup_cons.mp own).1 inKid
    · exact top j (Nat.le_of_lt_succ less) x
  have each := removable.2
  have mapped : Listed (s.hdr (path.elem 0).pHdr) (d + 1) (l.map Kid.block ++ k.block::r.map Kid.block) := by
    have listed := removable.1
    rw [chosen.parts,List.map_append,List.map_cons] at listed
    rw [pHdr]
    exact listed
  rw [chosen.parts] at each distinct
  obtain ⟨_,_,_,inside,_⟩ := chosen_kids tree.wf chosen
  obtain ⟨deep,front,child⟩ := @climb (d + 1) from_ last all bound d 0 k.block (d + 1) _ _ k.tree (l.map Kid.block) (r.map Kid.block) s path
    inside (chosen_covers tree.wf chosen covered) node below (by rw [List.length_map]; exact here) mapped
  refine (child.trans fun a climbed => ?_).congr (allFit_climb tree.wf chosen covered front).symm
  obtain ⟨pending,at_,frame,within⟩ := @climbed_pending (d + 1) 0 d l r (leftOver k.block d deep) k s path a (by omega) tree.depth pHdr apart
    each distinct (fun j order x _ => top j order x) here climbed
  obtain ⟨_,s₁,path₁⟩ := a
  dsimp only at pending at_ frame
  subst at_
  refine (((pending_leads (wipes all bound d) all _ pending).congr (frame.fits.allFit _)).trans ?_).congr (and_iff_left trivial)
  rintro ⟨_,s₂,path₂⟩ ⟨rfl,frame',left⟩
  dsimp only at frame' left
  have both : Frame path 0 ((k::r).flatMap fun k => k.block::foot d k.tree) s s₂ path₂ :=
    (frame.widen fun x among => List.mem_append_left _ among).trans (frame'.widen within)
  have stays := both.stays 0 (Nat.le_refl 0)
  rw [(frame.stays 0 (Nat.le_refl 0)).pHdr] at left
  have more : ext4ExtMoreToRm s₂ (path₂.elem 0) last = false := by
    refine @moreToRm_done last s₂ path₂ 0 (d + 1) (l.map Kid.block) ?_ ?_
    · rw [stays.pIdx,here,List.length_map]
    · rw [stays.pHdr]
      exact left
  have went : removeTurn (d + 1) from_ last (1,s₂,path₂) = .on (0,s₂,path₂) := by
    rw [removeTurn,if_neg (by omega),if_neg (by rw [more]; rintro ⟨⟩),removeUp]
  rw [pHdr] at left
  refine .on (fun level => absurd level (by omega)) went (.here trivial ⟨rfl,stays.pHdr.trans pHdr,both.steady,l,⟨k,r,chosen⟩,?_⟩)
  have header := left.header
  rw [List.length_map] at header
  have limit := tree.holds.header.limit
  have max : (s₂.hdr none).ehMax = s.inode.rawInode.iData.ehMax := both.max
  rw [← max] at limit
  rw [List.flatMap_append] at distinct
  obtain ⟨_,_,across⟩ := List.nodup_append'.mp distinct
  have kept (x : Nat) (among : x ∈ l.flatMap fun k => k.block::foot d k.tree) : s₂.node x = s.node x := by
    refine both.other (some x) (fun y gone same => ?_) fun j order => top j order x
    obtain rfl := Option.some.inj same
    exact across among gone
  refine ⟨header.widen limit,fun i k' found => ?_,fun k' front => ?_⟩
  · have inside := (List.getElem?_eq_some_iff.mp found).1
    have slot : (s₂.hdr none).slot i = (s.hdr none).slot i := both.root i (by rw [here]; exact inside)
    rw [points,slot]
    refine tree.holds.2.1 i k' ?_
    rw [chosen.parts,List.getElem?_append_left inside]
    exact found
  · have below' (x : Nat) (inKid : x ∈ k'.block::foot d k'.tree) : x ∈ l.flatMap fun k => k.block::foot d k.tree :=
      List.mem_flatMap.mpr ⟨k',front,inKid⟩
    rw [kept _ (below' _ List.mem_cons_self)]
    refine (tree.holds.2.2 k' ?_).frame fun x inKid => kept x (below' x (List.mem_cons_of_mem _ inKid))
    rw [chosen.parts]
    exact List.mem_append_left _ front

theorem walk_leads (all : ∀ x : Slot, x.eeBlock ≤ last) {d : Nat} {t : Tree d} (tree : HasTree s d t) (short : Short s)
    (covered : ∃ x ∈ flat d t, covers x from_) (onPath : OnPath from_ path d t none 0) (pBh : (path.elem 0).pBh = none) :
    Leads (removeTurn d from_ last) (LeafChecked d) (AllFit s.volume (givenBack from_ d t)) (Finished from_ d t s) (d + 1,s,path) := by
  obtain ⟨x,member,here⟩ := covered
  have bounds := wf_bounds tree.wf member
  have bound : from_ < 2^32 := Nat.lt_of_lt_of_le here.2 bounds.2.2
  cases d with
  | zero =>
    refine walk_leaf all bound tree short ⟨x,member,here⟩ onPath pBh fun zero => ?_
    exact List.ne_nil_of_mem member (List.length_eq_zero_iff.mp zero)
  | succ d => exact walk_index all bound tree short ⟨x,member,here⟩ onPath

theorem finished_halts {d : Nat} {t : Tree d} {depth block : Nat} {a : Nat × State × Path} (finished : Finished block d t s a) :
    removeTurn depth from_ last a = .halt (a.2.1,a.2.2,none) := by
  obtain ⟨i,s',path'⟩ := a
  obtain ⟨rfl,_⟩ := finished
  rfl

end Walk

/-- Whether the extent that the path ends at has the block. -/
def insideExtent (depth : Nat) (s : State) (path : Path) (from_ : Nat) : Bool :=
  (path.elem depth).pExt.any fun p =>
    let ex := (s.hdr (path.elem depth).pHdr).slot p
    inRange from_ ex.eeBlock (ext4ExtGetActualLen ex)

/-- What `ext4_ext_remove_space` comes to behind its loop. -/
def afterLoop : State × Path × Option Errno → State × Option Errno
  | (s,path,some err) => ((ext4ExtDropRefs s path 0 false).1,some err)
  | (s,path,none) => ((ext4ExtDropRefs (resetRoot s path) path 0 false).1,none)

theorem ext4ExtRemoveSpace_eq {rounds from_ last : Nat} {s s₁ : State} {path : Path} (found : ext4FindExtent s from_ none = (s₁,.ok path)) :
    ext4ExtRemoveSpace rounds s from_ last =
      if insideExtent (extDepth s) s₁ path from_ = true then
        (removeSpaceLoop (extDepth s) from_ last rounds (extDepth s + 1) s₁ path).map afterLoop
      else some ((ext4ExtDropRefs s₁ path 0 false).1,none) := by
  unfold ext4ExtRemoveSpace
  simp only [found]
  by_cases inside : insideExtent (extDepth s) s₁ path from_ = true
  · rw [if_pos inside,if_neg (by rw [Bool.not_eq_true']; exact fun outside => nomatch inside.symm.trans outside)]
    refine congrArg (fun f => Option.map f _) (funext ?_)
    rintro ⟨s',path',_ | err⟩ <;> rfl
  · rw [if_neg inside,if_pos (by rw [Bool.not_eq_true']; exact Bool.eq_false_iff.mpr inside)]

/-- The states that the loop comes to when the first block to go is in an extent. -/
def Walked (s : State) (from_ last : Nat) (a : Nat × State × Path) : Prop :=
  ∃ s₁ path, ext4FindExtent s from_ none = (s₁,.ok path) ∧ insideExtent (extDepth s) s₁ path from_ = true ∧
    Comes (removeTurn (extDepth s) from_ last) (extDepth s + 1,s₁,path) a

theorem Same.short {s s' : State} (same : Same s s') (short : Short s) : Short s' := fun at_ => by
  rw [same.hdr]
  exact short at_

theorem eeBlock_le (x : Slot) : x.eeBlock ≤ 2^32 - 1 := Nat.le_pred_of_lt x.word0.toNat_lt

theorem insideExtent_iff {d from_ : Nat} {s : State} {path : Path} {t : Tree d} (tree : HasTree s d t)
    (onPath : OnPath from_ path d t none 0) : insideExtent d s path from_ = true ↔ ∃ x ∈ flat d t, covers x from_ := by
  have small (x : Slot) (member : x ∈ flat d t) :
      inRange from_ x.eeBlock (ext4ExtGetActualLen x) = true ↔ covers x from_ := by
    have bounds := wf_bounds tree.wf member
    unfold extentStop at bounds
    have cast : (x.eeBlock + ext4ExtGetActualLen x - 1 : Int) = ((x.eeBlock + ext4ExtGetActualLen x - 1 : Nat) : Int) := by omega
    unfold inRange covers extentStop
    rw [cast,u32_small _ (by omega),decide_eq_true_eq]
    omega
  have extent := onPath_extent onPath tree.holds tree.wf
  rw [Nat.zero_add] at extent
  unfold insideExtent
  rcases extent with ⟨none_,empty⟩ | ⟨i,some_,here,only⟩
  · rw [none_,empty]
    exact ⟨nofun,fun ⟨x,member,_⟩ => nomatch member⟩
  · rw [some_,Option.any_some]
    dsimp only
    rw [small _ here]
    refine ⟨fun covered => ⟨_,here,covered⟩,?_⟩
    rintro ⟨x,member,covered⟩
    rw [only x member covered] at covered
    exact covered

/-- The search, and the walk behind it when some extent has the block. -/
theorem search_leads {s : State} {d : Nat} {t : Tree d} (tree : HasTree s d t) (short : Short s) (from_ : Nat) :
    ∃ s₁ path, ext4FindExtent s from_ none = (s₁,.ok path) ∧ Same s s₁ ∧
      (insideExtent d s₁ path from_ = true ↔ ∃ x ∈ flat d t, covers x from_) ∧
      ((∃ x ∈ flat d t, covers x from_) → Leads (removeTurn d from_ (2^32 - 1)) (LeafChecked d) (AllFit s.volume (givenBack from_ d t))
        (Finished from_ d t s₁) (d + 1,s₁,path)) := by
  obtain ⟨s₁,path,found,same,onPath,pBh⟩ := ext4FindExtent_found tree from_ none
  refine ⟨s₁,path,found,same,insideExtent_iff (same.hasTree tree) onPath,fun covered => ?_⟩
  rw [← same.volume]
  exact walk_leads eeBlock_le (same.hasTree tree) (same.short short) covered onPath pBh

/-! The end of the loop. -/

/-- From some number of rounds on the call has returned. -/
def Terminates (s : State) (from_ : Nat) : Prop :=
  ∃ bound, ∀ rounds, bound ≤ rounds → ∃ r, ext4ExtRemoveSpace rounds s from_ (2^32 - 1) = some r

section Ends
variable {s : State} {d : Nat} {t : Tree d}

theorem terminates_iff (tree : HasTree s d t) (short : Short s) (from_ : Nat) :
    Terminates s from_ ↔ ((∃ x ∈ flat d t, covers x from_) → AllFit s.volume (givenBack from_ d t)) := by
  obtain ⟨s₁,path,found,_,inside,leads⟩ := search_leads tree short from_
  unfold Terminates
  by_cases covered : ∃ x ∈ flat d t, covers x from_
  · have leads := leads covered
    simp only [ext4ExtRemoveSpace_eq found,tree.depth,if_pos (inside.mpr covered)]
    constructor
    · rintro ⟨bound,returns⟩ _
      obtain ⟨_,ended⟩ := returns bound (Nat.le_refl bound)
      obtain ⟨r,looped,_⟩ := Option.map_eq_some_iff.mp ended
      by_contra misfit
      exact leads.not_ends misfit ⟨bound + 1,r,run_of_removeSpaceLoop looped⟩
    · intro fits
      obtain ⟨_,_,bound,_,_,ran⟩ := leads.ends (fun a finished => ⟨_,finished_halts finished⟩) (fits covered)
      refine ⟨bound,fun rounds order => ?_⟩
      rw [removeSpaceLoop_of_run (ran rounds order)]
      exact ⟨_,rfl⟩
  · refine iff_of_true ⟨0,fun rounds _ => ?_⟩ fun here => absurd here covered
    rw [ext4ExtRemoveSpace_eq found,tree.depth,if_neg fun here => covered (inside.mp here)]
    exact ⟨_,rfl⟩

/-- Every leaf that the loop comes to has entries. -/
theorem walked_checked (tree : HasTree s d t) (short : Short s) {from_ : Nat} {a : Nat × State × Path}
    (walked : Walked s from_ (2^32 - 1) a) : LeafChecked (extDepth s) a := by
  obtain ⟨s₁,path,found,_,inside,leads⟩ := search_leads tree short from_
  obtain ⟨s₂,path₂,found',here,comes⟩ := walked
  rw [tree.depth] at here comes ⊢
  obtain ⟨rfl,same⟩ := Prod.mk.inj (found.symm.trans found')
  obtain rfl := Except.ok.inj same
  refine (leads (inside.mp here)).fine_of_comes (fun a finished => ⟨fun level => ?_,_,finished_halts finished⟩) comes
  exact absurd (finished.1.symm.trans level) (Nat.succ_ne_zero d).symm

/-- The loop ends without a failed assertion exactly when all that it gives back lies in the groups' bitmaps. -/
theorem ext4ExtRemoveSpace_ends_iff (tree : HasTree s d t) (short : Short s) (from_ : Nat) :
    (Terminates s from_ ∧ ∀ a, Walked s from_ (2^32 - 1) a → LeafChecked (extDepth s) a) ↔
      ((∃ x ∈ flat d t, covers x from_) → AllFit s.volume (givenBack from_ d t)) :=
  (and_iff_left fun _ => walked_checked tree short).trans (terminates_iff tree short from_)

end Ends

/-- Two groups of 1 KiB blocks, of which the first has the blocks from 1 to 8192. -/
def wideVolume : Volume where
  superBlock := {Alloc.oneFree.superBlock with sBlocksCountLo := 9000,sFirstDataBlock := 1,sBlocksPerGroup := 8192}
  gdesc := Alloc.oneFree.gdesc
  bitmap := Alloc.oneFree.bitmap

def wideFile : State := {leafFile with volume := wideVolume}

theorem wideFile_tree : HasTree wideFile 1 leafTree :=
  ⟨leafFile_tree.holds,leafFile_tree.distinct,leafFile_tree.wf,leafFile_tree.nonempty⟩

theorem wideFile_short : Short wideFile := by
  intro at_
  cases at_ with
  | none => exact (by decide : 4 ≤ le16Max)
  | some b => exact (by decide : 84 ≤ le16Max)

/-- The second of two extents goes, then the leaf is read again for the first, and is given back. -/
theorem ext4ExtRemoveSpace_ends_wideFile : givenBack 8 1 leafTree = [(200,1),(105,-3),(50,1)] ∧ Terminates wideFile 8 ∧
    ∀ a, Walked wideFile 8 (2^32 - 1) a → LeafChecked (extDepth wideFile) a :=
  ⟨by decide,(ext4ExtRemoveSpace_ends_iff wideFile_tree wideFile_short 8).mpr fun _ => by decide⟩

theorem rootFile_short (v : Volume) (extents : List Slot) : Short (rootFile v extents) := by
  intro at_
  cases at_ with
  | none => exact (by decide : 4 ≤ le16Max)
  | some b => exact Nat.zero_le _

/-- An extent of the last two blocks of the first group and the first two of the second. -/
theorem ext4ExtRemoveSpace_across : HasTree (rootFile wideVolume [⟨0,4,8191⟩]) 0 [(⟨0,4,8191⟩ : Slot)] ∧
    Short (rootFile wideVolume [⟨0,4,8191⟩]) ∧ ¬(Terminates (rootFile wideVolume [⟨0,4,8191⟩]) 0 ∧
      ∀ a, Walked (rootFile wideVolume [⟨0,4,8191⟩]) 0 (2^32 - 1) a → LeafChecked (extDepth (rootFile wideVolume [⟨0,4,8191⟩])) a) := by
  have tree : HasTree (rootFile wideVolume [⟨0,4,8191⟩]) 0 [(⟨0,4,8191⟩ : Slot)] :=
    rootFile_tree wideVolume (by decide) ⟨0,4,by decide,⟨rfl,by decide,by decide⟩,(by decide : 4 ≤ 2^32)⟩
  refine ⟨tree,rootFile_short _ _,fun both => ?_⟩
  exact absurd ((terminates_iff tree (rootFile_short _ _) 0).mp both.1 (by decide)) (by decide)

/-! What is left. -/

theorem front_wf {block d low high : Nat} {t l : Tree d} (wf : Wf d low t high) (front : Front block d t l) : Wf d low l high := by
  cases d with
  | zero =>
    obtain ⟨x,r,chosen⟩ := front
    refine Tiled.sublist extentAt_forward ?_ wf
    rw [chosen.parts]
    exact List.sublist_append_left _ _
  | succ d =>
    obtain ⟨k,r,chosen⟩ := front
    refine Tiled.sublist (kidAt_forward d) ?_ wf
    rw [chosen.parts]
    exact List.sublist_append_left _ _

theorem front_foot {block d : Nat} {t l : Tree d} (front : Front block d t l) : (foot d l).Sublist (foot d t) := by
  cases d with
  | zero => exact List.Sublist.refl _
  | succ d =>
    obtain ⟨k,r,chosen⟩ := front
    rw [foot,foot,chosen.parts,List.flatMap_append]
    exact List.sublist_append_left _ _

theorem resetRoot_kept {s : State} {path : Path} (top : (path.elem 0).pHdr = none) (some_ : (s.hdr none).ehEntries ≠ 0) :
    resetRoot s path = s := by
  unfold resetRoot
  rw [top]
  exact if_neg some_

/-- An emptied root is an empty leaf. -/
theorem resetRoot_emptied {s : State} {path : Path} {depth limit : Nat} (top : (path.elem 0).pHdr = none)
    (header : Header (s.hdr none) depth limit 0) : HasTree (resetRoot s path) 0 ([] : List Slot) := by
  have root : (resetRoot s path).hdr none = {s.hdr none with ehDepth := 0,ehMax := ext4ExtSpaceRoot} := by
    unfold resetRoot
    rw [top]
    simp only [header.entries,if_true]
    rw [ext4ExtDirty_hdr,setHdr_hdr]
  refine ⟨?_,List.nodup_nil,Nat.zero_le _,Or.inl rfl⟩
  change Holds _ _ 0 ext4ExtSpaceRoot ((resetRoot s path).hdr none) ([] : List Slot)
  rw [root]
  exact ⟨⟨header.magic,rfl,header.entries,Nat.zero_le _,(by decide : 0 < ext4ExtSpaceRoot),Nat.le_refl _⟩,nofun⟩

theorem flat_empty {d : Nat} {t : Tree d} (none_ : entries d t = 0) : flat d t = [] := by
  cases d with
  | zero => exact List.length_eq_zero_iff.mp none_
  | succ d =>
    have empty : kidsOf t = [] := List.length_eq_zero_iff.mp none_
    rw [flat,empty]
    rfl

theorem Steady.spaceBlock {s s' : State} (steady : Steady s s') : ext4ExtSpaceBlock s' = ext4ExtSpaceBlock s := by
  unfold ext4ExtSpaceBlock
  rw [steady.block]

/-- The tree at the end of the walk. -/
theorem finished_tree {s : State} {d block : Nat} {t : Tree d} (tree : HasTree s d t) {a : Nat × State × Path}
    (finished : Finished block d t s a) :
    ∃ l, Front block d t l ∧ ∃ (d' : Nat) (t' : Tree d'), HasTree (resetRoot a.2.1 a.2.2) d' t' ∧ flat d' t' = flat d l := by
  obtain ⟨_,top,steady,l,front,holds⟩ := finished
  refine ⟨l,front,?_⟩
  have header := holds.header
  rcases Nat.eq_zero_or_pos (entries d l) with none_ | some_
  · rw [none_] at header
    exact ⟨0,[],resetRoot_emptied top header,(flat_empty none_).symm⟩
  · refine ⟨d,l,?_,rfl⟩
    rw [resetRoot_kept top (by rw [header.entries]; exact Nat.ne_of_gt some_)]
    refine ⟨?_,tree.distinct.sublist (front_foot front),front_wf tree.wf front,Or.inr (Nat.ne_of_gt some_)⟩
    rw [steady.spaceBlock]
    exact holds

/-- When an extent has the first block to go the root keeps its front, else all of the tree is kept. -/
theorem ext4ExtRemoveSpace_effect {s s' : State} {d rounds from_ : Nat} {err : Option Errno} {t : Tree d} (tree : HasTree s d t)
    (short : Short s) (result : ext4ExtRemoveSpace rounds s from_ (2^32 - 1) = some (s',err)) :
    ∃ (d' : Nat) (t' : Tree d'), HasTree s' d' t' ∧
      ((∃ x ∈ flat d t, covers x from_) → ∃ l, Front from_ d t l ∧ flat d' t' = flat d l) ∧
      ((∀ x ∈ flat d t, ¬covers x from_) → flat d' t' = flat d t) := by
  obtain ⟨s₁,path,found,same,iff,leads⟩ := search_leads tree short from_
  rw [ext4ExtRemoveSpace_eq found,tree.depth] at result
  by_cases inside : insideExtent d s₁ path from_ = true
  · rw [if_pos inside] at result
    obtain ⟨r,looped,after⟩ := Option.map_eq_some_iff.mp result
    obtain ⟨a,finished,halts⟩ := (leads (iff.mp inside)).result (fun a finished => ⟨_,finished_halts finished⟩) (run_of_removeSpaceLoop looped)
    obtain rfl := Turn.halt.inj ((finished_halts finished).symm.trans halts)
    obtain ⟨rfl,_⟩ := Prod.mk.inj after
    obtain ⟨l,front,d',t',tree',flat'⟩ := finished_tree (same.hasTree tree) finished
    refine ⟨d',t',(ext4ExtDropRefs_same _ _ _ _).hasTree tree',fun _ => ⟨l,front,flat'⟩,fun hole => ?_⟩
    obtain ⟨x,member,covered⟩ := iff.mp inside
    exact absurd covered (hole x member)
  · rw [if_neg inside] at result
    obtain ⟨rfl,_⟩ := Prod.mk.inj (Option.some.inj result)
    exact ⟨d,t,(ext4ExtDropRefs_same _ _ _ _).hasTree (same.hasTree tree),fun covered => absurd (iff.mpr covered) inside,fun _ => rfl⟩

/-- Some entry of the root begins with an extent that starts at the block. -/
def StartsEntry (block : Nat) : (d : Nat) → Tree d → Prop
  | 0, t => ∃ x ∈ extentsOf t, x.eeBlock = block
  | d+1, t => ∃ k ∈ kidsOf t, (flat d k.tree).head?.map Slot.eeBlock = some block

/-- What goes begins with an extent, and no extent in front of it reaches the block. -/
theorem front_parts {block d low high : Nat} {t l : Tree d} (wf : Wf d low t high) (front : Front block d t l) :
    ∃ y rest, flat d t = flat d l ++ y::rest ∧ (∀ z ∈ flat d l, extentStop z ≤ block) ∧
      (StartsEntry block d t ↔ y.eeBlock = block) := by
  cases d with
  | zero =>
    obtain ⟨x,r,chosen⟩ := front
    obtain ⟨before,behind⟩ := chosen_extents wf chosen
    refine ⟨x,r,chosen.parts,before,?_,fun starts => ⟨x,?_,starts⟩⟩
    · rintro ⟨y,member,starts⟩
      have some_ := (wf_bounds (d := 0) wf member).2.1
      rw [chosen.parts] at member
      rcases List.mem_append.mp member with left | right
      · have stop := before y left
        omega
      · rcases List.mem_cons.mp right with rfl | after
        · exact starts
        · have above := behind y after
          omega
    · rw [chosen.parts]
      exact List.mem_append_right _ List.mem_cons_self
  | succ d =>
    obtain ⟨k,r,chosen⟩ := front
    obtain ⟨before,behind,_,inside,_⟩ := chosen_kids wf chosen
    have here : k ∈ kidsOf t := by
      rw [chosen.parts]
      exact List.mem_append_right _ List.mem_cons_self
    obtain ⟨_,_,_,⟨_,some_,_⟩,_⟩ := Tiled.bounds (kidAt_forward d) wf here
    obtain ⟨y,rest,head⟩ := List.exists_cons_of_ne_nil (flat_ne_nil inside some_)
    refine ⟨y,rest ++ r.flatMap fun k => flat d k.tree,?_,fun z among => ?_,?_,fun starts => ⟨k,here,?_⟩⟩
    · rw [flat,chosen.parts,List.flatMap_append,List.flatMap_cons,head,flat]
      rfl
    · obtain ⟨k',member,among⟩ := List.mem_flatMap.mp among
      exact before k' member z among
    · rintro ⟨k',member,starts⟩
      obtain ⟨z,first,starts⟩ := Option.map_eq_some_iff.mp starts
      have among : z ∈ flat d k'.tree := List.mem_of_head? first
      have bounds := wf_bounds wf (List.mem_flatMap.mpr ⟨k',member,among⟩)
      rw [chosen.parts] at member
      rcases List.mem_append.mp member with front | rest
      · have stop := before k' front z among
        omega
      · rcases List.mem_cons.mp rest with rfl | after
        · rw [head] at first
          rw [Option.some.inj first]
          exact starts
        · have above := behind k' after z among
          omega
    · rw [head,← starts]
      rfl

theorem startsEntry_extent {block d : Nat} {t : Tree d} (starts : StartsEntry block d t) : ∃ x ∈ flat d t, x.eeBlock = block := by
  cases d with
  | zero => exact starts
  | succ d =>
    obtain ⟨k,member,first⟩ := starts
    obtain ⟨x,head,start⟩ := Option.map_eq_some_iff.mp first
    exact ⟨x,List.mem_flatMap.mpr ⟨k,member,List.mem_of_head? head⟩,start⟩

/-- The blocks in front of `from_` are mapped as they were, and no other block is mapped. -/
def Truncated (from_ : Nat) (extents extents' : List Slot) : Prop :=
  (∀ b, b < from_ → mapping extents' b = mapping extents b) ∧ ∀ b, from_ ≤ b → mapping extents' b = none

theorem mapping_append {extents others : List Slot} {b : Nat} (none_ : ∀ x ∈ others, ¬covers x b) :
    mapping (extents ++ others) b = mapping extents b := by
  have missing : others.find? (fun x => covers x b) = none :=
    List.find?_eq_none.mpr fun x member => by simpa using none_ x member
  rw [mapping,mapping,List.find?_append,missing,Option.or_none]

theorem mapping_start {extents : List Slot} {x : Slot} (some_ : ∀ y ∈ extents, y.eeBlock < extentStop y)
    (member : x ∈ extents) : mapping extents x.eeBlock ≠ none := by
  have covered : covers x x.eeBlock := ⟨Nat.le_refl _,some_ x member⟩
  intro none_
  rw [mapping,Option.map_eq_none_iff] at none_
  exact absurd covered (by simpa using List.find?_eq_none.mp none_ x member)

/-- When an extent with the block is among what goes, all of that has to begin at the block. -/
theorem truncated_front_iff {from_ : Nat} {l rest : List Slot} {y : Slot} (some_ : ∀ x ∈ l ++ y::rest, x.eeBlock < extentStop x)
    (apart : (l ++ y::rest).Pairwise fun x y => extentStop x ≤ y.eeBlock) (front : ∀ x ∈ l, extentStop x ≤ from_)
    (covered : ∃ x ∈ l ++ y::rest, covers x from_) : Truncated from_ (l ++ y::rest) l ↔ y.eeBlock = from_ := by
  obtain ⟨_,behind,across⟩ := List.pairwise_append.mp apart
  have later (x : Slot) (member : x ∈ y::rest) : y.eeBlock ≤ x.eeBlock := by
    rcases List.mem_cons.mp member with rfl | after
    · exact Nat.le_refl _
    · have order := (List.pairwise_cons.mp behind).1 x after
      have long := some_ y (List.mem_append_right _ List.mem_cons_self)
      omega
  have start : y.eeBlock ≤ from_ := by
    obtain ⟨x,member,covered⟩ := covered
    rcases List.mem_append.mp member with left | right
    · exact absurd covered.2 (Nat.not_lt.mpr (front x left))
    · exact Nat.le_trans (later x right) covered.1
  constructor
  · rintro ⟨below,_⟩
    by_contra differ
    have mapped := mapping_start some_ (List.mem_append_right l (List.mem_cons_self (a := y) (l := rest)))
    rw [← below y.eeBlock (by omega)] at mapped
    refine mapped (mapping_none fun x member covered => ?_)
    have stop := across x member y List.mem_cons_self
    exact absurd covered.2 (Nat.not_lt.mpr stop)
  · intro starts
    refine ⟨fun b less => (mapping_append fun x member covered => ?_).symm,fun b least => mapping_none fun x member covered => ?_⟩
    · have order := later x member
      exact absurd covered.1 (by omega)
    · exact absurd covered.2 (Nat.not_lt.mpr (Nat.le_trans (front x member) least))

theorem truncated_same_iff {from_ : Nat} {extents : List Slot} (some_ : ∀ x ∈ extents, x.eeBlock < extentStop x)
    (hole : ∀ x ∈ extents, ¬covers x from_) :
    Truncated from_ extents extents ↔ ∀ x ∈ extents, extentStop x ≤ from_ := by
  constructor
  · rintro ⟨_,above⟩ x member
    by_contra past
    have start : from_ ≤ x.eeBlock := by
      by_contra less
      exact hole x member ⟨by omega,by omega⟩
    exact mapping_start some_ member (above x.eeBlock start)
  · exact fun ended => ⟨fun _ _ => rfl,fun b least => mapping_none fun x member covered =>
      absurd covered.2 (Nat.not_lt.mpr (Nat.le_trans (ended x member) least))⟩

/-- A truncation does what it should when no extent reaches past the block, or the block starts
what the root's entry on the path to it points to. -/
theorem ext4ExtRemoveSpace_truncates_iff {s s' : State} {d rounds from_ : Nat} {t : Tree d} (tree : HasTree s d t) (short : Short s)
    (result : ext4ExtRemoveSpace rounds s from_ (2^32 - 1) = some (s',none)) :
    (∃ (d' : Nat) (t' : Tree d'), HasTree s' d' t' ∧ Truncated from_ (flat d t) (flat d' t')) ↔
      (∀ x ∈ flat d t, extentStop x ≤ from_) ∨ StartsEntry from_ d t := by
  obtain ⟨d',t',tree',gone,kept⟩ := ext4ExtRemoveSpace_effect tree short result
  have some_ (x : Slot) (member : x ∈ flat d t) := (wf_bounds tree.wf member).2.1
  have apart := wf_apart tree.wf
  have only : (∃ (d' : Nat) (t' : Tree d'), HasTree s' d' t' ∧ Truncated from_ (flat d t) (flat d' t')) ↔
      Truncated from_ (flat d t) (flat d' t') := by
    constructor
    · rintro ⟨d₁,t₁,tree₁,truncated⟩
      rwa [tree₁.unique tree'] at truncated
    · exact fun truncated => ⟨d',t',tree',truncated⟩
  rw [only]
  by_cases covered : ∃ x ∈ flat d t, covers x from_
  · obtain ⟨l,front,flat'⟩ := gone covered
    obtain ⟨y,rest,parts,before,starts⟩ := front_parts tree.wf front
    rw [flat',starts]
    have whole := covered
    rw [parts] at some_ apart whole ⊢
    rw [truncated_front_iff some_ apart before whole]
    refine ⟨Or.inr,fun either => either.resolve_left fun ended => ?_⟩
    obtain ⟨x,member,covered⟩ := whole
    exact absurd covered.2 (Nat.not_lt.mpr (ended x member))
  · have hole : ∀ x ∈ flat d t, ¬covers x from_ := fun x member here => covered ⟨x,member,here⟩
    rw [kept hole,truncated_same_iff some_ hole]
    refine ⟨Or.inl,fun either => either.resolve_right fun starts => ?_⟩
    obtain ⟨x,member,rfl⟩ := startsEntry_extent starts
    exact hole x member ⟨Nat.le_refl _,some_ x member⟩

/-- A truncation at the second of two extents, which leaves the first one. -/
theorem ext4ExtRemoveSpace_truncates_all : ∃ s', ext4ExtRemoveSpace 1 (rootFile Alloc.oneFree [⟨0,2,3⟩,⟨4,1,6⟩]) 4 (2^32 - 1) = some (s',none) ∧
    ∃ (d' : Nat) (t' : Tree d'), HasTree s' d' t' ∧ Truncated 4 [⟨0,2,3⟩,⟨4,1,6⟩] (flat d' t') := by
  have tree : HasTree (rootFile Alloc.oneFree [⟨0,2,3⟩,⟨4,1,6⟩]) 0 [(⟨0,2,3⟩ : Slot),⟨4,1,6⟩] :=
    rootFile_tree Alloc.oneFree (by decide)
      ⟨0,2,by decide,⟨rfl,by decide,by decide⟩,4,5,by decide,⟨by decide,by decide,by decide⟩,(by decide : 5 ≤ 2^32)⟩
  have ended : (ext4ExtRemoveSpace 1 (rootFile Alloc.oneFree [⟨0,2,3⟩,⟨4,1,6⟩]) 4 (2^32 - 1)).map Prod.snd = some none := by decide
  obtain ⟨⟨s',err⟩,result,rfl⟩ := Option.map_eq_some_iff.mp ended
  refine ⟨s',result,(ext4ExtRemoveSpace_truncates_iff tree (rootFile_short _ _) result).mpr (Or.inr ?_)⟩
  exact ⟨⟨4,1,6⟩,List.mem_cons_of_mem _ List.mem_cons_self,by decide⟩

/-- A file of one extent of two blocks. -/
def pairFile : State := rootFile Alloc.oneFree [⟨0,2,3⟩]

theorem pairFile_tree : HasTree pairFile 0 [(⟨0,2,3⟩ : Slot)] :=
  rootFile_tree Alloc.oneFree (by decide) ⟨0,2,by decide,⟨rfl,by decide,by decide⟩,(by decide : 2 ≤ 2^32)⟩

/-- Of an extent of two blocks the second is to go, and both do. -/
theorem ext4ExtRemoveSpace_takes_first : HasTree pairFile 0 [(⟨0,2,3⟩ : Slot)] ∧
    ∃ s', ext4ExtRemoveSpace 1 pairFile 1 (2^32 - 1) = some (s',none) ∧
      ¬∃ (d' : Nat) (t' : Tree d'), HasTree s' d' t' ∧ Truncated 1 [⟨0,2,3⟩] (flat d' t') := by
  have ended : (ext4ExtRemoveSpace 1 pairFile 1 (2^32 - 1)).map (fun r => (r.2,extDepth r.1,(r.1.hdr none).ehEntries)) = some (none,0,0) := by
    decide
  obtain ⟨⟨s',err⟩,result,values⟩ := Option.map_eq_some_iff.mp ended
  obtain ⟨rfl,rest⟩ := Prod.mk.inj values
  obtain ⟨depth,count⟩ := Prod.mk.inj rest
  refine ⟨pairFile_tree,s',result,?_⟩
  rintro ⟨d',t',tree,below,_⟩
  have empty : entries d' t' = 0 := tree.holds.header.entries.symm.trans count
  have mapped := below 0 Nat.one_pos
  rw [flat_empty empty] at mapped
  exact absurd mapped (by decide)

end Ext4Fuse.Extents
