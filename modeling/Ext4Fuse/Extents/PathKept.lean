import Ext4Fuse.Extents.InsertExtent

/-! When `ext4_ext_insert_extent` leaves a path that is valid for the new extent. -/
namespace Ext4Fuse.Extents
open Machine Ext4Fuse.Types Super Library.Partial Library.Segments

/-- An extent that is appended begins where the old one ends; one that is put into a full leaf goes to the new node
there, and so does each index above it. -/
def KeepsPath (s : State) (path : Path) (newext : Slot) (depth : Nat) : Prop :=
  match (path.elem depth).pExt.map (s.hdr (path.elem depth).pHdr).slot with
  | none => Follows s path newext depth
  | some ex =>
    if ext4ExtCanAppend ex newext then extentStop ex = newext.eeBlock
    else ext4ExtCanPrepend ex newext = true ∨ Follows s path newext depth

instance (s : State) (path : Path) (x : Slot) (depth : Nat) : Decidable (Follows s path x depth) :=
  inferInstanceAs (Decidable (∀ e, e < _ → e < _ → _ = true))

instance (s : State) (path : Path) (newext : Slot) (depth : Nat) : Decidable (KeepsPath s path newext depth) :=
  match found : (path.elem depth).pExt.map (s.hdr (path.elem depth).pHdr).slot with
  | none => decidable_of_iff (Follows s path newext depth) (by rw [KeepsPath,found])
  | some ex => decidable_of_iff (if ext4ExtCanAppend ex newext then extentStop ex = newext.eeBlock
      else ext4ExtCanPrepend ex newext = true ∨ Follows s path newext depth) (by rw [KeepsPath,found])

/-! An extent that is merged. -/

/-- The path that was found leads to the leaf. -/
theorem onPath_points {block : Nat} {path : Path} {s : State} {room d level limit : Nat} {t : Tree d} {at_ : Option Nat}
    (onPath : OnPath block path d t at_ level) (holds : Holds s.node room d limit (s.hdr at_) t)
    (plain : Plain path (level + d)) {k : Nat} (inside : k < d) : PointsBelow s path (level + k) := by
  induction d generalizing level at_ limit k with
  | zero => exact absurd inside (Nat.not_lt_zero k)
  | succ d ih =>
    obtain ⟨pHdr,_,l,kid,r,chosen,pIdx,_,below⟩ := onPath
    have member : kid ∈ kidsOf t := by
      rw [chosen.parts]
      exact List.mem_append_right _ List.mem_cons_self
    cases k with
    | zero =>
      have here : (kidsOf t)[l.length]? = some kid := by
        rw [chosen.parts,List.getElem?_append_right (Nat.le_refl _),Nat.sub_self]
        rfl
      have count : (s.hdr at_).ehEntries = (kidsOf t).length := holds.1.entries
      have bound := (List.getElem?_eq_some_iff.mp here).1
      refine ⟨l.length,(s.hdr at_).slot l.length,pIdx,plain level (Nat.le_add_right _ _),?_,?_⟩
      · rw [Nat.add_zero,pHdr]
        exact slot_mem (by omega)
      · rw [Nat.add_zero,onPath_pHdr below]
        exact congrArg some (holds.2.1 _ kid here).2.symm
    | succ k =>
      rw [show level + (k + 1) = level + 1 + k by omega]
      exact ih below ((holds_index.mp holds).2.2 kid member) (by rw [show level + 1 + d = level + (d + 1) by omega]; exact plain)
        (Nat.lt_of_succ_lt_succ inside)

/-- The extent that is left by a merge covers the first block of the new one, unless the sum wrapped around in an append. -/
theorem merged_covers {ex newext : Slot} (some_ : 0 < ext4ExtGetActualLen ex) (new : 0 < ext4ExtGetActualLen newext)
    (bound : extentStop ex ≤ 2^32) (merges : ext4ExtCanAppend ex newext = true ∨ ext4ExtCanPrepend ex newext = true) :
    covers (if ext4ExtCanAppend ex newext then mergeLen ex newext else mergeLen (ex.setEeBlock newext.eeBlock) newext) newext.eeBlock ↔
      (ext4ExtCanAppend ex newext = true → extentStop ex = newext.eeBlock) := by
  split
  · rename_i appends
    rw [forall_prop_of_true appends]
    simp only [ext4ExtCanAppend,Bool.and_eq_true,decide_eq_true_eq] at appends
    obtain ⟨⟨_,fits⟩,follows⟩ := appends
    obtain ⟨start,len,_⟩ := mergeLen_fields some_ fits
    rw [covers,extentStop,start,len]
    have short := actualLen_le ex
    unfold extentStop at bound ⊢
    rcases Nat.lt_or_ge (ex.eeBlock + ext4ExtGetActualLen ex) (2^32) with less | wraps
    · rw [u32_small _ less] at follows
      omega
    · rw [show ex.eeBlock + ext4ExtGetActualLen ex = 2^32 by omega] at follows
      have zero : newext.eeBlock = 0 := follows.symm.trans (by decide)
      omega
  · rename_i refuses
    have prepends := merges.resolve_left refuses
    simp only [ext4ExtCanPrepend,Bool.and_eq_true,decide_eq_true_eq] at prepends
    obtain ⟨start,len,_⟩ := @mergeLen_fields (ex.setEeBlock newext.eeBlock) _ some_ prepends.1.2
    have low : (ex.setEeBlock newext.eeBlock).eeBlock = newext.eeBlock := by
      show (UInt32.ofNat newext.eeBlock).toNat = _
      rw [UInt32.toNat_ofNat']
      exact Nat.mod_eq_of_lt newext.word0.toNat_lt
    rw [covers,extentStop,start,len,low]
    exact iff_of_true ⟨Nat.le_refl _,by omega⟩ fun appends => absurd appends refuses

/-- The entry of the leaf that the path is at. -/
theorem onPath_entry {d i : Nat} {path : Path} {s : State} {t : Tree d} {newext : Slot} (onPath : OnPath newext.eeBlock path d t none 0)
    (tree : HasTree s d t) (position : (path.elem d).pExt = some i) :
    i < (s.hdr (path.elem d).pHdr).ehEntries ∧ (s.hdr (path.elem d).pHdr).slot i ∈ flat d t := by
  cases d with
  | zero =>
    obtain ⟨pHdr,_,_,⟨_,none_⟩ | ⟨l,x,r,chosen,pExt⟩⟩ := onPath
    · cases position.symm.trans none_
    · obtain rfl := Option.some.inj (position.symm.trans pExt)
      have array : slots (s.hdr (path.elem 0).pHdr) = extentsOf t := by
        rw [pHdr]
        exact (holds_leaf.mp tree.holds).2
      rw [← array] at chosen
      refine ⟨chosen_count chosen,?_⟩
      rw [chosen_slot chosen]
      change x ∈ extentsOf t
      rw [← array,chosen.parts]
      exact List.mem_append_right _ List.mem_cons_self
  | succ d =>
    obtain ⟨k,_,_,l,x,r,pHdr,leaf,_,chosen,pExt,member⟩ := onPath_bottom (s := s) onPath tree.holds tree.wf
    rw [Nat.zero_add] at pHdr pExt
    obtain rfl := Option.some.inj (position.symm.trans pExt)
    have array : slots (s.hdr (path.elem (d + 1)).pHdr) = extentsOf k.tree := by
      rw [pHdr]
      exact (holds_leaf.mp leaf).2
    rw [← array] at chosen
    refine ⟨chosen_count chosen,?_⟩
    rw [chosen_slot chosen]
    exact member

section Merged
variable {s s' : State} {path path' : Path} {d i : Nat} {t : Tree d} {ex newext : Slot} (tree : HasTree s d t)
  (onPath : OnPath newext.eeBlock path d t none 0) (plain : Plain path d) (new : NewExtent newext (flat d t))
  (position : (path.elem d).pExt = some i) (entry : (s.hdr (path.elem d).pHdr).slot i = ex)
include position entry

/-- A merge changes the one entry of the leaf, to which the path stays. -/
theorem insertLeaf_merged (fresh : newext.eeBlock ≠ ex.eeBlock) (merges : ext4ExtCanAppend ex newext = true ∨ ext4ExtCanPrepend ex newext = true)
    (spt : SplitTrans) : ∃ path₁, ext4ExtInsertLeaf s path d newext spt = some (mergedState s path d i
        (if ext4ExtCanAppend ex newext then mergeLen ex newext else mergeLen (ex.setEeBlock newext.eeBlock) newext),
        path₁,{spt with index := 0,ptr := 0},.ok) ∧
      ((path₁.elem d).pHdr = (path.elem d).pHdr ∧ (path₁.elem d).pIn = (path.elem d).pHdr ∧ (path₁.elem d).pExt = some i) ∧
      ∀ j, j ≠ d → path₁.elem j = path.elem j := by
  rcases Classical.em (ext4ExtCanAppend ex newext = true) with appends | refuses
  · obtain ⟨path₁,done,here,kept⟩ := leafDone_free (mergedState s path d i (mergeLen ex newext)) path d newext spt (path.elem d).pHdr i
    rw [if_pos appends]
    exact ⟨path₁,ext4ExtInsertLeaf_append position entry fresh appends done,here,kept⟩
  · obtain ⟨path₁,done,here,kept⟩ := leafDone_free (mergedState s path d i (mergeLen (ex.setEeBlock newext.eeBlock) newext)) path d newext
      spt (path.elem d).pHdr i
    rw [if_neg refuses]
    exact ⟨path₁,ext4ExtInsertLeaf_prepend position entry fresh refuses (merges.resolve_left refuses) done,here,kept⟩

include tree onPath plain new

omit new position entry in
theorem mergedState_pathValid_iff {path₁ : Path} {final : State × Path} {merged : Slot} (inside : i < (s.hdr (path.elem d).pHdr).ehEntries)
    (pHdr : (path₁.elem d).pHdr = (path.elem d).pHdr) (pIn : (path₁.elem d).pIn = (path.elem d).pHdr) (pExt : (path₁.elem d).pExt = some i)
    (kept : ∀ j, j ≠ d → path₁.elem j = path.elem j) (same : Same (mergedState s path d i merged) final.1)
    (switched : Switched d (fun _ => zeroTrans) path₁ final.2) : PathValid final.1 final.2 newext ↔ covers merged newext.eeBlock := by
  have agrees (j : Nat) (above : j ≤ d) : (path₁.elem j).Agrees (final.2.elem j) := by
    have same := switched.stay (d - j) (Nat.sub_le d j) rfl
    rwa [Nat.sub_sub_self above] at same
  have leaf : final.1.hdr (path.elem d).pHdr = (s.hdr (path.elem d).pHdr).setSlot i merged := by
    rw [same.hdr,mergedState_hdr]
  have other (a : Option Nat) (differ : a ≠ (path.elem d).pHdr) : final.1.hdr a = s.hdr a := by
    rw [same.hdr,mergedState,ext4ExtDirty_hdr,setHdr_other _ _ differ]
  have level : extDepth final.1 = d := by
    rw [← tree.depth]
    change (final.1.hdr none).ehDepth = (s.hdr none).ehDepth
    rcases eq_or_ne none (path.elem d).pHdr with root | below
    · rw [root,leaf]
      rfl
    · rw [other none below]
  have entry : (slots ((s.hdr (path.elem d).pHdr).setSlot i merged))[i]? = some merged := by
    rw [show some merged = some (((s.hdr (path.elem d).pHdr).setSlot i merged).slot i) by simp [Node.setSlot]]
    exact slot_mem inside
  have here := agrees d (Nat.le_refl d)
  constructor
  · intro valid
    obtain ⟨j,y,position',entry',covered⟩ := valid.extent
    rw [level] at position' entry'
    rw [here.pExt,pExt] at position'
    obtain rfl := Option.some.inj position'
    rw [here.pIn,pIn,leaf,entry] at entry'
    exact Option.some.inj entry' ▸ covered
  · intro covered
    refine ⟨?_,fun k above => ?_⟩
    · rw [level]
      refine ⟨i,merged,here.pExt.trans pExt,?_,covered⟩
      rw [here.pIn,pIn,leaf]
      exact entry
    · rw [level] at above
      have holds : Holds s.node (ext4ExtSpaceBlock s) d ext4ExtSpaceRoot (s.hdr none) t := tree.holds
      obtain ⟨j,y,pIdx,own,points,below⟩ := onPath_points (s := s) onPath holds (by rw [Nat.zero_add]; exact plain) above
      have apart := path_apart (s := s) onPath holds tree.distinct (by rintro _ _ ⟨⟩) above
      rw [Nat.zero_add] at pIdx own points below apart
      rw [Nat.zero_add] at apart
      have at_ := agrees k (Nat.le_of_lt above)
      rw [kept k (Nat.ne_of_lt above)] at at_
      refine ⟨j,y,at_.pIdx.trans pIdx,by rw [at_.pIn,at_.pHdr,own],?_,?_⟩
      · rw [at_.pHdr,other _ apart]
        exact points
      · rw [(agrees (k + 1) above).pHdr]
        rcases Nat.eq_or_lt_of_le (Nat.succ_le_of_lt above) with bottom | deeper
        · rw [← below,show k + 1 = d from bottom,pHdr]
        · rw [kept (k + 1) (Nat.ne_of_lt deeper),← below]

theorem merged_pathValid_iff (merges : ext4ExtCanAppend ex newext = true ∨ ext4ExtCanPrepend ex newext = true)
    (inserted : ext4ExtInsertExtent s path newext = some (s',path',none)) :
    PathValid s' path' newext ↔ (ext4ExtCanAppend ex newext = true → extentStop ex = newext.eeBlock) := by
  obtain ⟨inside,member⟩ := onPath_entry onPath tree position
  rw [entry] at member
  obtain ⟨_,long,bound⟩ := wf_bounds tree.wf member
  have some_ : 0 < ext4ExtGetActualLen ex := by
    unfold extentStop at long
    omega
  have newSome : 0 < ext4ExtGetActualLen newext := by
    have := new.some_
    unfold extentStop at this
    omega
  obtain ⟨path₁,leaf,⟨pHdr,pIn,pExt⟩,kept⟩ := insertLeaf_merged position entry (new.differ member long) merges zeroTrans
  rw [← merged_covers some_ newSome bound merges]
  generalize (if ext4ExtCanAppend ex newext then mergeLen ex newext else mergeLen (ex.setEeBlock newext.eeBlock) newext) = merged at leaf ⊢
  -- the first round is the last
  obtain ⟨⟨s₁,path₂,depth,spt,err⟩,run,done⟩ := Option.bind_eq_some_iff.mp inserted
  obtain ⟨l,loop,round⟩ := insertAgain_round run
  rw [tree.depth,Nat.sub_zero] at loop
  obtain ⟨_,_,_,_,found,next⟩ := insertLoop_cases loop
  rw [insertLevel,Nat.sub_self,if_pos rfl,leaf] at found
  cases found
  obtain ⟨_,rfl⟩ | ⟨_,more,_⟩ := next
  · cases round with
    | ok =>
      rw [tree.depth] at done
      cases done
      have same := switchSiblings_same d (fun _ => zeroTrans) (fullLevels s path d) (mergedState s path d i merged) path₁
      have switched := @switchSiblings_switched d (fullLevels s path d) (fun _ => zeroTrans) (fun _ _ => rfl) (fullLevels_le s path d)
        (mergedState s path d i merged) path₁
      generalize switchSiblings d (fun _ => zeroTrans) (fullLevels s path d) (mergedState s path d i merged) path₁ = final at same switched ⊢
      exact mergedState_pathValid_iff tree onPath plain inside pHdr pIn pExt kept same switched
  · exact absurd rfl more

end Merged

theorem Same.pathValid_iff {s s' : State} (same : Same s s') (path : Path) (newext : Slot) :
    PathValid s' path newext ↔ PathValid s path newext := by
  have level : extDepth s' = extDepth s := congrArg (fun i : Inode => i.rawInode.iData.ehDepth) same.inode
  rw [Extents.pathValid_iff,Extents.pathValid_iff,level,reaches_iff,reaches_iff]
  simp only [AtExtent,PointsBelow,same.hdr]

/-- An extent that is not merged. -/
theorem unmerged_pathValid_iff {s s' : State} {path path' : Path} {d : Nat} {t : Tree d} {newext : Slot} (tree : HasTree s d t)
    (onPath : OnPath newext.eeBlock path d t none 0) (plain : Plain path d) (new : NewExtent newext (flat d t))
    (gap : ∀ c ∈ keys d t, c ≤ newext.eeBlock ∨ extentStop newext ≤ c) (stop : extentStop newext ≤ 2^32)
    (unmerged : Unmerged s path d newext) (roomy : 2 ≤ (s.hdr (path.elem d).pHdr).ehMax) (reserved : Reserved s.volume (foot d t))
    (shallow : d + 1 < 2^16) (inserted : ext4ExtInsertExtent s path newext = some (s',path',none)) :
    PathValid s' path' newext ↔ Follows s path newext d := by
  obtain ⟨⟨s₁,path₁,depth,spt,err⟩,run,done⟩ := Option.bind_eq_some_iff.mp inserted
  obtain ⟨err',failed⟩ | ⟨fine,_,followed⟩ :=
    insertAgain_inserts tree onPath new gap stop unmerged roomy reserved shallow plain rfl (fun _ => rfl) run
  · obtain rfl : err = some err' := failed
    obtain ⟨s₂,_,equal⟩ := Option.bind_eq_some_iff.mp done
    cases equal
  · obtain rfl : err = none := fine
    rw [tree.depth] at done
    obtain ⟨rfl,rest⟩ := Prod.mk.inj (Option.some.inj done)
    obtain ⟨rfl,_⟩ := Prod.mk.inj rest
    have same := switchSiblings_same depth spt (fullLevels s path d) s₁ path₁
    have switched := switchSiblings_switched followed.rest ((fullLevels_le s path d).trans (Nat.succ_le_succ followed.most)) s₁ path₁
    have level : extDepth s₁ = depth := followed.level
    rw [same.pathValid_iff,pathValid_iff,level]
    exact followed.reaches _ switched

/-- The path that an insertion leaves behind. -/
theorem ext4ExtInsertExtent_pathValid_iff {s₀ s s' : State} {d : Nat} {t : Tree d} {newext : Slot} {origPath : Option Path} {path path' : Path}
    (tree : HasTree s₀ d t) (shallow : d + 1 < 2^16) (reserved : Reserved s₀.volume (foot d t)) (new : NewExtent newext (flat d t))
    (stop : extentStop newext ≤ 2^32) (gap : ∀ c ∈ keys d t, c ≤ newext.eeBlock ∨ extentStop newext ≤ c)
    (found : ext4FindExtent s₀ newext.eeBlock origPath = (s,.ok path)) (roomy : 2 ≤ (s.hdr (path.elem d).pHdr).ehMax)
    (inserted : ext4ExtInsertExtent s path newext = some (s',path',none)) : PathValid s' path' newext ↔ KeepsPath s path newext d := by
  have plain : Plain path d := tree.depth ▸ ext4FindExtent_plain found
  obtain ⟨s₁,path₁,found₁,same,onPath,_⟩ := ext4FindExtent_found tree newext.eeBlock origPath
  rw [found] at found₁
  obtain ⟨rfl,equal⟩ := Prod.mk.inj found₁
  obtain rfl := Except.ok.inj equal
  have tree₁ := same.hasTree tree
  have apart (unmerged : Unmerged s path d newext) : PathValid s' path' newext ↔ Follows s path newext d :=
    unmerged_pathValid_iff tree₁ onPath plain new gap stop unmerged roomy (same.volume ▸ reserved) shallow inserted
  unfold KeepsPath
  cases position : (path.elem d).pExt with
  | none => exact apart fun i at_ => absurd (position.symm.trans at_) (Option.some_ne_none i).symm
  | some i =>
    simp only [Option.map_some]
    generalize entry : (s.hdr (path.elem d).pHdr).slot i = ex
    rcases Classical.em (ext4ExtCanAppend ex newext = true ∨ ext4ExtCanPrepend ex newext = true) with merges | unmerged
    · rw [merged_pathValid_iff tree₁ onPath plain new position entry merges inserted]
      split
      · exact forall_prop_of_true ‹_›
      · exact iff_of_true (fun appends => absurd appends ‹_›) (Or.inl (merges.resolve_left ‹_›))
    · obtain ⟨append,prepend⟩ := not_or.mp unmerged
      rw [apart fun j at_ => ?_,if_neg append]
      · exact (or_iff_right prepend).symm
      · obtain rfl := Option.some.inj (position.symm.trans at_)
        rw [entry]
        exact ⟨Bool.eq_false_iff.mpr append,Bool.eq_false_iff.mpr prepend⟩

/-! Runs on a file of one full leaf. -/

/-- One group of 256 blocks, of which the last is free. -/
def lastFree : Volume where
  superBlock := {Alloc.oneFree.superBlock with sBlocksCountLo := 256,sBlocksPerGroup := 256}
  gdesc := Alloc.oneFree.gdesc
  bitmap := fun _ i => decide (i ≠ 255)

theorem lastFree_reserved {blocks : List Nat} (apart : 255 ∉ blocks) : Reserved lastFree blocks :=
  single_reserved (Alloc.counted_single ⟨by decide,by decide,by decide,by decide,by decide⟩ (by decide) (by decide) (fun _ => rfl) (by decide)
    (by decide) (by decide)) (by decide) (by decide) (fun _ => rfl) (by decide) (by decide) apart

def everyOther (i : Nat) : Slot := ⟨UInt32.ofNat (2 * i),1,UInt32.ofNat (100 + i)⟩

/-- A leaf that is full, with an extent at every other block. -/
def fullLeaf : State where
  volume := lastFree
  inode := ⟨12,false,⟨65536,0,32,0,0,⟨0xf30a,1,4,1,fun _ => ⟨0,6,0⟩⟩⟩⟩
  node := fun _ => ⟨0xf30a,84,84,0,everyOther⟩
  verified := fun _ => false
  count := fun _ => 0

theorem everyOther_at {i : Nat} (few : i < 84) : extentAt (everyOther i) (2 * i) (2 * i + 1) := by
  have start : (everyOther i).eeBlock = 2 * i := by
    change (UInt32.ofNat (2 * i)).toNat = _
    rw [UInt32.toNat_ofNat']
    exact Nat.mod_eq_of_lt (by omega)
  exact ⟨start,congrArg (fun b => b + 1) start,Nat.lt_succ_self _⟩

theorem everyOther_tiled {n k : Nat} (few : k + n ≤ 84) : Tiled extentAt (2 * k) ((List.range' k n).map everyOther) 168 := by
  induction n generalizing k with
  | zero => exact (by omega : 2 * k ≤ 168)
  | succ n ih => exact ⟨2 * k,2 * k + 1,Nat.le_refl _,everyOther_at (by omega),(ih (by omega)).widen (Nat.le_succ _) (Nat.le_refl _)⟩

def fullTree : Tree 1 := [(⟨0,6,((List.range' 0 84).map everyOther : List Slot)⟩ : Kid (Tree 0))]

theorem fullLeaf_tree : HasTree fullLeaf 1 fullTree := by
  refine ⟨holds_index.mpr ⟨⟨rfl,rfl,rfl,by decide,by decide,by decide⟩,?_,fun k member => ?_⟩,List.nodup_singleton 6,?_,Or.inr one_ne_zero⟩
  · decide
  · obtain rfl := List.mem_singleton.mp member
    exact holds_leaf.mpr ⟨⟨rfl,rfl,rfl,by decide,by decide,by decide⟩,congrArg (fun xs => List.map everyOther xs) List.range_eq_range'⟩
  · exact ⟨0,168,Nat.le_refl 0,⟨rfl,by decide,@everyOther_tiled 84 0 (Nat.le_refl 84)⟩,(by decide : 168 ≤ 2^32)⟩

/-- An extent of one block that lies between two of them or behind the last. -/
theorem fullTree_new {x : Slot} (some_ : extentStop x = x.eeBlock + 1) (apart : x.eeBlock % 2 = 1 ∨ 168 ≤ x.eeBlock) :
    NewExtent x (flat 1 fullTree) := by
  refine ⟨by omega,fun y member => ?_⟩
  rw [show flat 1 fullTree = (List.range' 0 84).map everyOther from List.append_nil _] at member
  obtain ⟨i,inside,rfl⟩ := List.mem_map.mp member
  have few := (List.mem_range'_1.mp inside).2
  obtain ⟨start,stop,_⟩ := everyOther_at (by omega : i < 84)
  omega

/-- The search for the new extent's place and the insertion. -/
def insertionPath (s : State) (newext : Slot) : Option ((State × Path) × State × Path × Option Errno) :=
  match ext4FindExtent s newext.eeBlock none with
  | (_,.error _) => none
  | (s,.ok path) => (ext4ExtInsertExtent s path newext).map fun r => ((s,path),r)

theorem insertionPath_runs {α : Type} {s₀ : State} {newext : Slot} {view : (State × Path) × State × Path → α} {value : α}
    (result : (insertionPath s₀ newext).map (fun r => (r.2.2.2,view (r.1,r.2.1,r.2.2.1))) = some (none,value)) :
    ∃ s path s' path', ext4FindExtent s₀ newext.eeBlock none = (s,.ok path) ∧
      ext4ExtInsertExtent s path newext = some (s',path',none) ∧ view ((s,path),s',path') = value := by
  obtain ⟨⟨⟨s,path⟩,s',path',err⟩,run,values⟩ := Option.map_eq_some_iff.mp result
  obtain ⟨rfl,viewed⟩ := Prod.mk.inj values
  refine ⟨s,path,s',path',?_⟩
  unfold insertionPath at run
  split at run
  · cases run
  · rename_i found
    obtain ⟨_,inserted,equal⟩ := Option.map_eq_some_iff.mp run
    cases equal
    exact ⟨found,inserted,viewed⟩

/-- The extent goes to the new leaf. -/
theorem ext4ExtInsertExtent_pathValid_behind : ∃ s path s' path', ext4FindExtent fullLeaf 200 none = (s,.ok path) ∧
    ext4ExtInsertExtent s path ⟨200,1,201⟩ = some (s',path',none) ∧ PathValid s' path' ⟨200,1,201⟩ := by
  obtain ⟨s,path,s',path',found,inserted,values⟩ := @insertionPath_runs _ fullLeaf ⟨200,1,201⟩
    (fun r => (decide (KeepsPath r.1.1 r.1.2 ⟨200,1,201⟩ 1),decide (2 ≤ (r.1.1.hdr (r.1.2.elem 1).pHdr).ehMax))) (true,true) (by decide +kernel)
  obtain ⟨keeps,roomy⟩ := Prod.mk.inj values
  refine ⟨s,path,s',path',found,inserted,?_⟩
  exact (ext4ExtInsertExtent_pathValid_iff fullLeaf_tree (by decide) (lastFree_reserved (by decide)) (fullTree_new (by decide) (by decide))
    (by decide) (by decide) found (of_decide_eq_true roomy) inserted).mpr (of_decide_eq_true keeps)

/-- The extent stays in the leaf that was split, and the path is at the index of the new one. -/
theorem ext4ExtInsertExtent_pathValid_fails : HasTree fullLeaf 1 fullTree ∧ NewExtent ⟨1,1,200⟩ (flat 1 fullTree) ∧
    Reserved fullLeaf.volume (foot 1 fullTree) ∧ ∃ s path s' path', ext4FindExtent fullLeaf 1 none = (s,.ok path) ∧
      ext4ExtInsertExtent s path ⟨1,1,200⟩ = some (s',path',none) ∧ ¬PathValid s' path' ⟨1,1,200⟩ := by
  refine ⟨fullLeaf_tree,fullTree_new (by decide) (by decide),lastFree_reserved (by decide),?_⟩
  obtain ⟨s,path,s',path',found,inserted,values⟩ := @insertionPath_runs _ fullLeaf ⟨1,1,200⟩
    (fun r => ((extDepth r.2.1,(r.2.2.elem 0).pIdx),(r.2.2.elem 1).pHdr,slots (r.2.1.hdr (r.2.2.elem 0).pHdr)))
    ((1,some 1),some 6,[⟨0,6,0⟩,⟨2,255,0⟩]) (by decide +kernel)
  obtain ⟨first,second⟩ := Prod.mk.inj values
  obtain ⟨depth,pIdx⟩ := Prod.mk.inj first
  obtain ⟨pHdr,array⟩ := Prod.mk.inj second
  refine ⟨s,path,s',path',found,inserted,fun valid => ?_⟩
  obtain ⟨i,y,position,_,entry,below⟩ := valid.index 0 (Nat.lt_of_lt_of_eq Nat.one_pos depth.symm)
  obtain rfl := Option.some.inj (pIdx.symm.trans position)
  rw [array] at entry
  obtain rfl := Option.some.inj entry
  rw [pHdr] at below
  exact absurd below (by decide)

end Ext4Fuse.Extents
