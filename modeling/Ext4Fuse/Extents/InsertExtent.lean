import Ext4Fuse.Extents.InsertGrow

/-! `ext4_ext_insert_extent`: whatever is split and grown, the tree holds one more extent. -/
namespace Ext4Fuse.Extents
open Machine Ext4Fuse.Types Super Library.Partial Library.Segments

abbrev RoundResult := State × Path × Nat × (Nat → SplitTrans) × Option Errno

/-- A round, and what comes after it. -/
inductive Round (x : Slot) (rounds : Nat) (depth : Nat) (spt₀ : Nat → SplitTrans) : LoopResult → RoundResult → Prop
  | ok {s : State} {path : Path} {newblock : SplitTrans} {spt : Nat → SplitTrans} :
      Round x rounds depth spt₀ (s,path,newblock,spt,.ok) (s,path,depth,spt,none)
  | fail {s : State} {path : Path} {newblock : SplitTrans} {spt : Nat → SplitTrans} (err : Errno) :
      Round x rounds depth spt₀ (s,path,newblock,spt,.fail err) (s,path,depth,spt,some err)
  | stopped {s s' : State} {path : Path} {newblock : SplitTrans} {spt : Nat → SplitTrans} (err : Errno) :
      Round x rounds depth spt₀ (s,path,newblock,spt,.needGrow) (s',path,depth,spt,some err)
  | grown {s s₁ s₂ : State} {path path' : Path} {newblock : SplitTrans} {spt : Nat → SplitTrans} {ret : Ret} {r : RoundResult} :
      ext4ExtGrowIndepth s = some (s₁,ret) → (∀ err, ret ≠ .fail err) →
      ext4FindExtent s₁ x.eeBlock (some path) = (s₂,.ok path') → insertAgain x rounds depth s₂ path' newblock spt = some r →
      Round x rounds depth spt₀ (s,path,newblock,spt,.needGrow) r

theorem insertAgain_round {x : Slot} {rounds i : Nat} {s : State} {path : Path} {newblock : SplitTrans} {spt : Nat → SplitTrans}
    {r : RoundResult} (run : insertAgain x (rounds + 1) i s path newblock spt = some r) :
    ∃ l, insertLoop x (extDepth s) (extDepth s - i) s path newblock spt = some l ∧ Round x rounds (extDepth s) spt l r := by
  rw [insertAgain] at run
  obtain ⟨⟨s₁,path₁,newblock₁,spt₁,ret⟩,found,run⟩ := Option.bind_eq_some_iff.mp run
  refine ⟨_,found,?_⟩
  cases ret with
  | ok =>
    obtain rfl := Option.some.inj run
    exact .ok
  | fail err =>
    obtain rfl := Option.some.inj run
    exact .fail err
  | needGrow =>
    obtain ⟨⟨s₂,grown⟩,growing,run⟩ := Option.bind_eq_some_iff.mp run
    cases grown with
    | fail err =>
      obtain rfl := Option.some.inj run
      exact .stopped err
    | ok | needGrow =>
      cases searched : ext4FindExtent s₂ x.eeBlock (some path₁) with
      | mk s₃ result =>
        simp only [searched] at run
        cases result with
        | error err => cases run
        | ok path₃ => exact .grown growing (by rintro _ ⟨⟩) searched run

theorem Grown.same {s s' s'' : State} {blocks : List Nat} {room d newblock : Nat} (grown : Grown s s' blocks room d newblock) (same : Same s' s'') :
    Grown s s'' blocks room d newblock := by
  have hdr := same.hdr
  have node : s''.node newblock = s'.node newblock := hdr (some newblock)
  refine ⟨grown.fresh,grown.small,same.volume ▸ grown.reserved,same.spaceBlock.trans grown.space,?_,?_,?_,?_,?_,fun a one two => ?_⟩
  · rw [node]
    exact grown.slots
  · rw [node]
    exact grown.header
  · rw [node]
    exact grown.max
  · rw [hdr]
    exact grown.root
  · rw [hdr]
    exact grown.pointers
  · rw [hdr]
    exact grown.other a one two

/-- Every node that is split, the root apart, has its new entry go to the new node. -/
def Follows (s : State) (path : Path) (x : Slot) (depth : Nat) : Prop :=
  ∀ e, e < fullLevels s path depth → e < depth → crossesAt s path x depth e = true

theorem fullLevels_eq {s : State} {path : Path} {depth n : Nat} (full : ∀ e, e < n → extHasFreeIndex s (path.elem (depth - e)) = false)
    (end_ : n ≤ depth ∧ extHasFreeIndex s (path.elem (depth - n)) = true ∨ n = depth + 1) : fullLevels s path depth = n := by
  induction depth generalizing n with
  | zero =>
    rw [fullLevels]
    rcases end_ with ⟨least,free⟩ | rfl
    · obtain rfl := Nat.le_zero.mp least
      rw [if_pos free]
    · have first := full 0 Nat.one_pos
      rw [Nat.sub_zero] at first
      rw [if_neg (by rw [first]; exact Bool.false_ne_true)]
  | succ depth ih =>
    rw [fullLevels]
    cases n with
    | zero =>
      rcases end_ with ⟨_,free⟩ | none_
      · exact if_pos free
      · cases none_
    | succ n =>
      have first := full 0 (Nat.succ_pos n)
      rw [Nat.sub_zero] at first
      rw [if_neg (by rw [first]; exact Bool.false_ne_true)]
      refine congrArg Nat.succ (ih (fun e less => ?_) (end_.imp (fun both => ⟨Nat.le_of_succ_le_succ both.1,?_⟩) Nat.succ.inj))
      · have above := full (e + 1) (Nat.succ_lt_succ less)
        rwa [Nat.add_sub_add_right] at above
      · have free := both.2
        rwa [Nat.add_sub_add_right] at free

theorem fullLevels_le (s : State) (path : Path) (depth : Nat) : fullLevels s path depth ≤ depth + 1 := by
  induction depth with
  | zero =>
    rw [fullLevels]
    split
    · exact Nat.zero_le 1
    · exact Nat.le_refl 1
  | succ depth ih =>
    rw [fullLevels]
    split
    · exact Nat.zero_le _
    · exact Nat.succ_le_succ ih

/-- Where the path will lead, from what the rounds have recorded. -/
structure Followed (s : State) (path : Path) (x : Slot) (depth : Nat) (r : RoundResult) : Prop where
  level : extDepth r.1 = r.2.2.1
  most : depth ≤ r.2.2.1
  rest : ∀ e, fullLevels s path depth ≤ e → (r.2.2.2.1 e).switchTo = false
  reaches : ∀ path', Switched r.2.2.1 r.2.2.2.1 r.2.1 path' → (Reaches r.1 path' x.eeBlock r.2.2.1 0 ↔ Follows s path x depth)

/-- What the rounds come to. -/
def Inserts (s : State) (path : Path) (depth : Nat) (x : Slot) (extents : List Slot) (blocks : List Nat) (r : RoundResult) : Prop :=
  (∃ err, r.2.2.2.2 = some err) ∨ r.2.2.2.2 = none ∧
    (∃ d' t' taken, Enlarged r.1 (ext4ExtSpaceBlock s) x extents taken blocks d' t') ∧ Followed s path x depth r

theorem Arrived.followed {s b s' : State} {path path' : Path} {spt : Nat → SplitTrans} {x : Slot} {depth n : Nat} {err : Option Errno}
    (arrived : Arrived b s' path path' spt x depth depth n) (likewise : Likewise s b path x depth) (level : extDepth s' = depth) :
    Followed s path x depth (s',path',depth,spt,err) := by
  have levels : fullLevels s path depth = n :=
    fullLevels_eq (fun e less => (likewise.free _).symm.trans (arrived.full e less)) (Or.inl ⟨arrived.inside,(likewise.free _).symm.trans arrived.free⟩)
  refine ⟨level,Nat.le_refl depth,fun e least => arrived.rest e (levels ▸ least),fun path₁ switched => ?_⟩
  have result := arrived.reaches path₁ switched
  rw [Nat.sub_self] at result
  rw [result,Follows,levels]
  refine forall_congr' fun e => ⟨fun crosses less _ => (likewise.crosses e).symm.trans (crosses less),
    fun crosses less => (likewise.crosses e).trans (crosses less (Nat.lt_of_lt_of_le less arrived.inside))⟩

theorem Stuck.followed {s b s' s₁ : State} {path path₁ : Path} {spt spt₁ : Nat → SplitTrans} {room d : Nat} {x : Slot} {extents : List Slot}
    {taken blocks : List Nat} {l r : List (Kid (Tree d))} {k k₁ k₂ : Kid (Tree d)} {middle : Nat} {err : Option Errno}
    (stuck : Stuck b s' path spt room x extents taken blocks d l r k k₁ k₂ middle) (likewise : Likewise s b path x (d + 1))
    (level : extDepth s₁ = d + 2) (recorded : spt₁ = spt)
    (reaches : ∀ path₂, Switched (d + 2) spt path₁ path₂ → (Reaches s₁ path₂ x.eeBlock (d + 2) 0 ↔ k₂.key ≤ x.eeBlock)) :
    Followed s path x (d + 1) (s₁,path₁,d + 2,spt₁,err) := by
  subst recorded
  obtain ⟨_,trail⟩ := stuck.trail
  have levels : fullLevels s path (d + 1) = d + 2 := by
    refine fullLevels_eq (fun e less => ?_) (Or.inr rfl)
    rw [← likewise.free]
    rcases Nat.eq_or_lt_of_le (Nat.le_of_lt_succ less) with rfl | lower
    · rw [Nat.sub_self]
      exact stuck.full
    · exact stuck.crossed.full e (Nat.le_of_lt_succ lower)
  refine ⟨level,Nat.le_succ _,fun e least => trail.rest e (by omega),fun path₂ switched => ?_⟩
  rw [reaches path₂ switched,stuck.crossed.goes,Follows,levels]
  exact forall_congr' fun e => ⟨fun crosses _ less => (likewise.crosses e).symm.trans (crosses (Nat.le_of_lt_succ less)),
    fun crosses less => (likewise.crosses e).trans (crosses (by omega) (by omega))⟩

/-- A tree with indexes: the root is grown once at most. -/
theorem insertAgain_indexed {s : State} {path : Path} {d : Nat} {t : Tree (d + 1)} {x : Slot} {rounds : Nat} {newblock : SplitTrans}
    {spt : Nat → SplitTrans} {r : RoundResult} (tree : HasTree s (d + 1) t) (onPath : OnPath x.eeBlock path (d + 1) t none 0)
    (new : NewExtent x (flat (d + 1) t)) (gap : ∀ c ∈ keys (d + 1) t, c ≤ x.eeBlock ∨ extentStop x ≤ c) (stop : extentStop x ≤ 2^32)
    (unmerged : Unmerged s path (d + 1) x) (roomy : 2 ≤ (s.hdr (path.elem (d + 1)).pHdr).ehMax)
    (reserved : Reserved s.volume (foot (d + 1) t)) (lower : d + 2 < 2^16) (plain : Plain path (d + 1)) (first : newblock.switchTo = false)
    (none_ : ∀ j, (spt j).switchTo = false) (run : insertAgain x rounds 0 s path newblock spt = some r) :
    Inserts s path (d + 1) x (flat (d + 1) t) (foot (d + 1) t) r := by
  cases rounds with
  | zero => nomatch run
  | succ rounds =>
    obtain ⟨l,loop,round⟩ := insertAgain_round run
    rw [tree.depth,Nat.sub_zero] at loop
    obtain ⟨b,likewise,rooted⟩ := insertLoop_rooted tree onPath new gap stop unmerged roomy reserved (Nat.lt_of_succ_lt lower) plain first
      none_ loop
    cases rooted with
    | failed err =>
      cases round with
      | fail => exact Or.inl ⟨err,rfl⟩
    | done enlarged arrived =>
      cases round with
      | ok =>
        rw [tree.depth]
        exact Or.inr ⟨rfl,⟨_,_,_,enlarged⟩,arrived.followed likewise enlarged.tree.depth⟩
    | @grow s₁ _ _ _ _ _ _ _ _ _ _ stuck =>
      cases round with
      | stopped err => exact Or.inl ⟨err,rfl⟩
      | grown growing fine searched again =>
        have room : ext4ExtSpaceBlock s₁ = ext4ExtSpaceBlock s := stuck.owned.space
        rcases ext4ExtGrowIndepth_grown (holds_index.mp stuck.holds).1 lower stuck.owned.reserved _ growing with ⟨err,equal⟩ | ⟨_,nb,grown⟩
        · exact absurd equal (fine err)
        · rw [room] at grown
          obtain ⟨s₃,path₃,found,same,onPath₃,_⟩ := ext4FindExtent_found (stuck.grown_tree grown) x.eeBlock (some _)
          rw [searched] at found
          obtain ⟨rfl,equal⟩ := Prod.mk.inj found.symm
          obtain rfl := Except.ok.inj equal
          have grown' := grown.same same
          cases rounds with
          | zero => nomatch again
          | succ rounds =>
            obtain ⟨l',loop',round'⟩ := insertAgain_round again
            rw [show extDepth s₃ = d + 2 from grown'.root.depth,tree.depth,show d + 2 - (d + 1) = 1 by omega] at loop'
            have plain₃ : Plain path₃ (d + 2) := (stuck.grown_tree grown).depth ▸ ext4FindExtent_plain searched
            rcases stuck.linked grown' lower reserved.fits reserved.space.1 onPath₃ (plain₃ 0 (Nat.zero_le _)) loop' with
              ⟨err,failed⟩ | ⟨fine',⟨t',enlarged⟩,recorded,reaches⟩
            · cases round' with
              | fail => exact Or.inl ⟨_,rfl⟩
              | ok => nomatch failed
              | stopped => nomatch failed
              | grown => nomatch failed
            · cases round' with
              | ok =>
                refine Or.inr ⟨rfl,⟨_,t',_,enlarged⟩,?_⟩
                rw [show extDepth s₃ = d + 2 from grown'.root.depth]
                exact stuck.followed likewise enlarged.tree.depth recorded reaches
              | fail => nomatch fine'
              | stopped => nomatch fine'
              | grown => nomatch fine'

/-! A tree that is one leaf. -/

theorem Owned.unshift {s : State} {room q : Nat} {taken blocks : List Nat} (owned : Owned s room taken (q::blocks)) (small : q < 2^48) :
    Owned s room (q::taken) blocks := by
  refine ⟨owned.space,owned.reserved.mono fun c member => List.perm_middle.mem_iff.mpr member,
    List.perm_middle.nodup_iff.mp owned.distinct,fun c member => ?_⟩
  rcases List.mem_cons.mp member with rfl | old
  · exact small
  · exact owned.small c old

section Root
variable {s : State} {path : Path} {t : Tree 0} {x : Slot} (tree : HasTree s 0 t) (onPath : OnPath x.eeBlock path 0 t none 0)
  (new : NewExtent x (flat 0 t)) (stop : extentStop x ≤ 2^32) (unmerged : Unmerged s path 0 x)
  (roomy : 2 ≤ (s.hdr (path.elem 0).pHdr).ehMax) (reserved : Reserved s.volume [])
include tree onPath new stop unmerged roomy reserved

omit stop in
theorem insertLeaf_root (spt : SplitTrans) :
    Ensures (ext4ExtInsertLeaf s path 0 x spt) (LeafResult s path x spt.switchTo 0 (ext4ExtSpaceBlock s) []) := by
  obtain ⟨header,array⟩ := holds_leaf.mp tree.holds
  change Header (s.hdr none) 0 _ (s.hdr none).ehEntries at header
  change slots (s.hdr none) = _ at array
  have pHdr := onPath.1
  rw [← pHdr] at header array
  have ready : Ready s 0 (ext4ExtSpaceBlock s) [] := ⟨tree.depth,rfl,reserved⟩
  have most : ext4ExtSpaceRoot ≤ ext4ExtSpaceBlock s := Nat.le_trans (by decide) reserved.space.1
  obtain ⟨empty,pExt⟩ | ⟨l,y,r,chosen,pExt⟩ := onPath.2.2.2
  · exact ext4ExtInsertLeaf_empty ready reserved.fits most header roomy spt rfl (array.trans empty) pExt
  · have member : y ∈ extentsOf t := by
      rw [chosen.parts]
      exact List.mem_append_right _ List.mem_cons_self
    have bounds := wf_bounds tree.wf (show y ∈ flat 0 t from member)
    have sorted := extents_sorted tree.wf
    rw [← array] at chosen sorted
    obtain ⟨merged₁,merged₂⟩ := unmerged _ pExt
    rw [chosen_slot chosen] at merged₁ merged₂
    refine ext4ExtInsertLeaf_result ready reserved.fits most header (fun j before => absurd before (Nat.not_lt_zero j)) sorted chosen pExt
      (new.differ member bounds.2.1) roomy (fun j inside c equal => ?_) merged₁ merged₂ spt
    obtain rfl := Nat.le_zero.mp inside
    rw [pHdr] at equal
    nomatch equal

/-- The root is a full leaf: it goes into a new block, and the extent is inserted there. -/
theorem insertAgain_grown {s₁ s₂ : State} {path₁ path₂ : Path} {rounds : Nat} {newblock : SplitTrans} {spt : Nat → SplitTrans}
    {ret : Ret} {r : RoundResult} (full : (s.hdr (path.elem 0).pHdr).ehEntries = (s.hdr (path.elem 0).pHdr).ehMax)
    (growing : ext4ExtGrowIndepth s = some (s₁,ret)) (fine : ∀ err, ret ≠ .fail err)
    (searched : ext4FindExtent s₁ x.eeBlock (some path₁) = (s₂,.ok path₂)) (first : newblock.switchTo = false)
    (none_ : ∀ j, (spt j).switchTo = false) (run : insertAgain x rounds 0 s₂ path₂ newblock spt = some r) :
    Inserts s path 0 x (flat 0 t) [] r := by
  have holds : Holds s.node (ext4ExtSpaceBlock s) 0 ext4ExtSpaceRoot (s.hdr none) t := tree.holds
  obtain ⟨header,array⟩ := holds_leaf.mp holds
  rw [onPath.1] at full roomy
  rcases ext4ExtGrowIndepth_grown header (by decide) reserved _ growing with ⟨err,equal⟩ | ⟨_,nb,grown⟩
  · exact absurd equal (fine err)
  · have some_ : entries 0 t ≠ 0 := by
      rw [← tree.holds.header.entries]
      change (s.hdr none).ehEntries ≠ 0
      omega
    have tree₁ := grown.tree holds (fun c nothing => absurd nothing List.not_mem_nil) tree.wf some_ List.nodup_nil
    obtain ⟨s₃,path₃,found,same,onPath₃,_⟩ := ext4FindExtent_found tree₁ x.eeBlock (some path₁)
    rw [searched] at found
    obtain ⟨rfl,equal⟩ := Prod.mk.inj found.symm
    obtain rfl := Except.ok.inj equal
    have grown' := grown.same same
    obtain ⟨y,ys,cells⟩ := List.exists_cons_of_ne_nil (show slots (s.hdr none) ≠ [] by
      rw [array]
      exact fun empty => some_ (congrArg List.length empty))
    have member : y ∈ flat 0 t := by
      change y ∈ extentsOf t
      rw [← array,cells]
      exact List.mem_cons_self
    have bounds := wf_bounds tree.wf member
    have way := onPath₃
    obtain ⟨_,_,_,k,_,top,_,_,pHdr,_,_,leaf⟩ := way
    obtain rfl := top.single.2
    have same_slots : slots (s₃.hdr (path₃.elem (0 + 1)).pHdr) = extentsOf t := by
      rw [pHdr]
      exact grown'.slots.trans array
    have result := insertAgain_indexed (same.hasTree tree₁) onPath₃ (by rw [flat_underIndex]; exact new) (fun c here => ?_) stop
      (fun i position => ?_) ?_ (by rw [foot_underIndex]; exact grown'.reserved) (by decide)
      (tree₁.depth ▸ ext4FindExtent_plain searched) first none_ run
    · rw [flat_underIndex,foot_underIndex] at result
      rcases result with ⟨err,failed⟩ | ⟨done,⟨d',t',taken,enlarged⟩,followed⟩
      · exact Or.inl ⟨err,failed⟩
      · rw [grown'.space] at enlarged
        refine Or.inr ⟨done,⟨d',t',nb::taken,⟨enlarged.owned.unshift grown.small,enlarged.tree,enlarged.extents,
          enlarged.blocks.trans List.perm_middle⟩⟩,?_⟩
        -- neither leaf is split
        have levels : fullLevels s₃ path₃ 1 = 0 := by
          refine fullLevels_eq (fun e none_ => absurd none_ (Nat.not_lt_zero e)) (Or.inl ⟨Nat.zero_le 1,extHasFreeIndex_free ?_ ?_⟩)
          · rw [Nat.sub_zero,pHdr]
            exact grown'.header.fits
          · have count := congrArg List.length grown'.slots
            rw [slots_length,slots_length] at count
            have := header.fits
            have := header.limit
            have least : 84 ≤ ext4ExtSpaceBlock s := reserved.space.1
            have four : ext4ExtSpaceRoot = 4 := rfl
            rw [Nat.sub_zero,pHdr]
            change (s₃.node nb).ehEntries ≠ (s₃.node nb).ehMax
            rw [grown'.max]
            omega
        refine ⟨followed.level,Nat.zero_le _,fun e _ => followed.rest e (by rw [levels]; exact Nat.zero_le e),fun path' switched => ?_⟩
        refine (followed.reaches path' switched).trans (iff_of_true (fun e less => ?_) fun e _ none_ => absurd none_ (Nat.not_lt_zero e))
        rw [levels] at less
        exact absurd less (Nat.not_lt_zero e)
    · rw [keys_underIndex] at here
      obtain rfl := List.mem_singleton.mp here
      rw [slot_zero cells]
      change y.eeBlock ≤ _ ∨ _ ≤ y.eeBlock
      have := new.apart y member
      omega
    · -- the path is at the same extent as before
      obtain ⟨empty,_⟩ | ⟨l',y',r',chosen',pExt'⟩ := leaf
      · exact absurd (congrArg List.length empty) some_
      · obtain ⟨empty,_⟩ | ⟨l,y,r,chosen,pExt⟩ := onPath.2.2.2
        · exact absurd (congrArg List.length empty) some_
        · obtain ⟨rfl,rfl⟩ := chosen.unique chosen'
          obtain rfl := Option.some.inj (pExt'.symm.trans position)
          have merged := unmerged _ pExt
          rw [onPath.1] at merged
          rw [← array] at chosen
          rw [← same_slots] at chosen'
          rw [chosen_slot chosen] at merged
          rw [chosen_slot chosen']
          exact merged
    · rw [pHdr]
      change 2 ≤ (s₃.node nb).ehMax
      rw [grown'.max]
      exact reserved.fits.1

end Root

section Whole
variable {s : State} {path : Path} {d : Nat} {t : Tree d} {x : Slot} (tree : HasTree s d t) (onPath : OnPath x.eeBlock path d t none 0)
  (new : NewExtent x (flat d t)) (gap : ∀ c ∈ keys d t, c ≤ x.eeBlock ∨ extentStop x ≤ c) (stop : extentStop x ≤ 2^32)
  (unmerged : Unmerged s path d x) (roomy : 2 ≤ (s.hdr (path.elem d).pHdr).ehMax) (reserved : Reserved s.volume (foot d t))
  (lower : d + 1 < 2^16) (plain : Plain path d)
include tree onPath new gap stop unmerged roomy reserved lower plain

theorem insertAgain_inserts {rounds : Nat} {newblock : SplitTrans} {spt : Nat → SplitTrans} {r : RoundResult} (first : newblock.switchTo = false)
    (none_ : ∀ j, (spt j).switchTo = false) (run : insertAgain x rounds 0 s path newblock spt = some r) :
    Inserts s path d x (flat d t) (foot d t) r := by
  cases d with
  | succ d => exact insertAgain_indexed tree onPath new gap stop unmerged roomy reserved lower plain first none_ run
  | zero =>
    change Inserts s path 0 x (flat 0 t) [] r
    cases rounds with
    | zero => cases run
    | succ rounds =>
      obtain ⟨l,loop,round⟩ := insertAgain_round run
      rw [tree.depth,Nat.sub_zero] at loop
      obtain ⟨s₁,path₁,newblock₁,ret,found,next⟩ := insertLoop_cases loop
      rw [insertLevel,Nat.sub_self,if_pos rfl] at found
      have placed := insertLeaf_root tree onPath new unmerged roomy reserved newblock _ found
      cases placed with
      | failed err =>
        obtain ⟨_,rfl⟩ | ⟨nothing,_⟩ := next
        · cases round with
          | fail => exact Or.inl ⟨err,rfl⟩
        · cases nothing
      | grow _ same full =>
        obtain ⟨_,rfl⟩ | ⟨nothing,_⟩ := next
        · cases round with
          | stopped err => exact Or.inl ⟨err,rfl⟩
          | grown growing fine searched again =>
            rw [tree.depth] at again
            exact insertAgain_grown tree onPath new stop unmerged roomy reserved full growing fine searched (same.trans first) none_ again
        · cases nothing
      | split deep => exact absurd deep (Nat.lt_irrefl 0)
      | free empty notFull free =>
        obtain ⟨_,rfl⟩ | ⟨_,some_,_⟩ := next
        · cases round with
          | ok =>
            have arrived := free.arrived (b := s) rfl (by
              rw [onPath.1]
              exact (holds_leaf.mp tree.holds).1.fits) notFull none_ new.some_
            obtain ⟨header,array⟩ := holds_leaf.mp tree.holds
            obtain ⟨l,r,placed⟩ := free.placed
            have alike := free.alike
            have fits := free.fits
            rw [onPath.1] at placed alike fits
            change slots (s.hdr none) = _ at array
            rw [array] at placed
            have tree₁ : HasTree s₁ 0 (slots (s₁.hdr none) : List Slot) := ⟨holds_leaf.mpr ⟨alike.header header fits,rfl⟩,List.nodup_nil,
              wf_placed tree.wf placed new (Nat.zero_le _) stop,Or.inl rfl⟩
            rw [tree.depth]
            refine Or.inr ⟨rfl,⟨0,slots (s₁.hdr none),[],⟨congrArg (fun v : Volume => (superBlockSize v.superBlock - 12) / 12) free.volume,
              by rw [free.volume]; exact reserved,List.nodup_nil,fun _ nothing => absurd nothing List.not_mem_nil⟩,
              tree₁,⟨l,r,placed.before,placed.after⟩,List.Perm.refl _⟩,arrived.followed ⟨fun _ => rfl,fun _ => rfl⟩ tree₁.depth⟩
        · exact absurd empty some_

end Whole

theorem switchSiblings_same (depth : Nat) (spt : Nat → SplitTrans) (level : Nat) (s : State) (path : Path) :
    Same s (switchSiblings depth spt level s path).1 := by
  induction level generalizing s path with
  | zero => exact Same.refl s
  | succ level ih =>
    rw [switchSiblings]
    simp only
    split
    · exact (ext4ExtDropRefs_same _ _ _ _).trans (ih _ _)
    · refine Same.trans ?_ (ih _ _)
      cases (spt level).bh with
      | none => exact Same.refl s
      | some bh => exact fsBrelse_same _ _

/-- What one more extent makes of the mapping. -/
theorem Inserted.mapping {x : Slot} {xs ys : List Slot} (inserted : Inserted x xs ys) (new : NewExtent x xs) (b : Nat) :
    mapping ys b = if covers x b then some (ext4ExtPblock x + (b - x.eeBlock),ext4ExtIsUnwritten x) else mapping xs b := by
  obtain ⟨l,r,rfl,rfl⟩ := inserted
  split
  · rename_i here
    rw [mapping_only,if_pos here]
    intro y member other
    have := new.apart y member
    have := here.1
    have := here.2
    have := other.1
    have := other.2
    omega
  · rename_i missed
    exact mapping_skip missed

/-- The state has a well-formed tree, which maps the blocks of the new extent and those that the old extents map. -/
def InsertsExtent (s' : State) (newext : Slot) (extents : List Slot) : Prop := ∃ (d' : Nat) (t' : Tree d'), HasTree s' d' t' ∧
  ∀ b, mapping (flat d' t') b = if covers newext b then some (ext4ExtPblock newext + (b - newext.eeBlock),ext4ExtIsUnwritten newext)
    else mapping extents b

/-- An extent that no index key lies in. -/
theorem ext4ExtInsertExtent_inserts {s₀ s s' : State} {d : Nat} {t : Tree d} {newext : Slot} {origPath : Option Path} {path path' : Path}
    (tree : HasTree s₀ d t) (shallow : d + 1 < 2^16) (reserved : Reserved s₀.volume (foot d t)) (new : NewExtent newext (flat d t))
    (stop : extentStop newext ≤ 2^32) (gap : ∀ c ∈ keys d t, c ≤ newext.eeBlock ∨ extentStop newext ≤ c)
    (found : ext4FindExtent s₀ newext.eeBlock origPath = (s,.ok path)) (unmerged : Unmerged s path d newext)
    (roomy : 2 ≤ (s.hdr (path.elem d).pHdr).ehMax) (inserted : ext4ExtInsertExtent s path newext = some (s',path',none)) :
    InsertsExtent s' newext (flat d t) := by
  obtain ⟨s₁,path₁,found₁,same,onPath,_⟩ := ext4FindExtent_found tree newext.eeBlock origPath
  rw [found] at found₁
  obtain ⟨rfl,equal⟩ := Prod.mk.inj found₁
  obtain rfl := Except.ok.inj equal
  obtain ⟨⟨s₂,path₂,depth,spt,err⟩,run,done⟩ := Option.bind_eq_some_iff.mp inserted
  have result := insertAgain_inserts (same.hasTree tree) onPath new gap stop unmerged roomy (same.volume ▸ reserved) shallow
    (tree.depth ▸ ext4FindExtent_plain found) rfl (fun _ => rfl) run
  rcases result with ⟨err',failed⟩ | ⟨fine,⟨d',t',taken,enlarged⟩,_⟩
  · obtain rfl : err = some err' := failed
    obtain ⟨s₃,_,equal⟩ := Option.bind_eq_some_iff.mp done
    nomatch equal
  · obtain rfl : err = none := fine
    obtain ⟨rfl,_⟩ := Prod.mk.inj (Option.some.inj done)
    exact ⟨d',t',(switchSiblings_same _ _ _ _ _).hasTree enlarged.tree,enlarged.extents.mapping new⟩

/-! Runs on files of one or two levels. -/

/-- A file on a volume whose only free block is block 7. -/
def smallFile (root : Node) (node : Nat → Node) : State where
  volume := Alloc.oneFree
  inode := ⟨12,false,⟨65536,0,32,0,0,root⟩⟩
  node := node
  verified := fun _ => false
  count := fun _ => 0

theorem oneFree_reserved {blocks : List Nat} (apart : 7 ∉ blocks) : Reserved Alloc.oneFree blocks :=
  single_reserved Alloc.oneFree_counted (by decide) (by decide) (fun _ => rfl) (by decide) (by decide) apart

/-- The search for the new extent's place and the insertion; whether it cannot be merged, and what is returned. -/
def insertion (s : State) (newext : Slot) : Option (State × Bool × Option Errno) :=
  match ext4FindExtent s newext.eeBlock none with
  | (_,.error _) => none
  | (s,.ok path) =>
    let leaf := path.elem (extDepth s)
    (ext4ExtInsertExtent s path newext).map fun r => (r.1,leaf.pExt.all fun i =>
      !ext4ExtCanAppend ((s.hdr leaf.pHdr).slot i) newext && !ext4ExtCanPrepend ((s.hdr leaf.pHdr).slot i) newext,r.2.2)

/-- The insertion returns 0. -/
structure Ran (s₀ s' : State) (d : Nat) (newext : Slot) (s : State) (path path' : Path) : Prop where
  found : ext4FindExtent s₀ newext.eeBlock none = (s,.ok path)
  unmerged : Unmerged s path d newext
  inserted : ext4ExtInsertExtent s path newext = some (s',path',none)

theorem insertion_ran {s₀ s' : State} {d : Nat} {t : Tree d} {newext : Slot} (tree : HasTree s₀ d t)
    (result : insertion s₀ newext = some (s',true,none)) : ∃ s path path', Ran s₀ s' d newext s path path' := by
  obtain ⟨s,path,found,same,_⟩ := ext4FindExtent_found tree newext.eeBlock none
  have depth : extDepth s = d := (same.hasTree tree).depth
  simp only [insertion,found,depth] at result
  obtain ⟨⟨s₁,path',err⟩,inserted,values⟩ := Option.map_eq_some_iff.mp result
  obtain ⟨rfl,rest⟩ := Prod.mk.inj values
  obtain ⟨apart,rfl⟩ := Prod.mk.inj rest
  refine ⟨s,path,path',found,fun i position => ?_,inserted⟩
  rw [position,Option.all_some,Bool.and_eq_true,Bool.not_eq_true',Bool.not_eq_true'] at apart
  exact apart

/-- A full root of four extents. -/
def fourFile : State := smallFile ⟨0xf30a,4,4,0,fun i => [⟨0,1,1⟩,⟨10,1,3⟩,⟨20,1,5⟩,⟨30,1,1⟩].getD i ⟨0,0,0⟩⟩ fun _ => ⟨0,0,0,0,fun _ => ⟨0,0,0⟩⟩

def fourTree : Tree 0 := [(⟨0,1,1⟩ : Slot),⟨10,1,3⟩,⟨20,1,5⟩,⟨30,1,1⟩]

theorem fourFile_tree : HasTree fourFile 0 fourTree := by
  refine ⟨⟨⟨rfl,rfl,rfl,by decide,by decide,by decide⟩,fun i x here => ?_⟩,List.nodup_nil,?_,Or.inl rfl⟩
  · exact congrArg (fun found => Option.getD found ⟨0,0,0⟩) here
  · exact ⟨0,1,by decide,⟨by decide,by decide,by decide⟩,10,11,by decide,⟨by decide,by decide,by decide⟩,20,21,by decide,
      ⟨by decide,by decide,by decide⟩,30,31,by decide,⟨by decide,by decide,by decide⟩,(by decide : 31 ≤ 2^32)⟩

/-- The root grows, and the leaf takes the extent. -/
theorem ext4ExtInsertExtent_inserts_four : ∃ s', InsertsExtent s' ⟨25,1,4⟩ (flat 0 fourTree) ∧ extDepth s' = 1 := by
  have ran : (insertion fourFile ⟨25,1,4⟩).map (fun r => (r.2,extDepth r.1)) = some ((true,none),1) := by decide +kernel
  obtain ⟨⟨s',_⟩,result,values⟩ := Option.map_eq_some_iff.mp ran
  obtain ⟨rfl,depth⟩ := Prod.mk.inj values
  obtain ⟨s,path,path',found,unmerged,inserted⟩ := insertion_ran fourFile_tree result
  have roomy : 2 ≤ (s.hdr (path.elem 0).pHdr).ehMax := by
    obtain ⟨s₁,path₁,found₁,same,onPath,_⟩ := ext4FindExtent_found fourFile_tree 25 none
    obtain ⟨rfl,equal⟩ := Prod.mk.inj (found.symm.trans found₁)
    obtain rfl := Except.ok.inj equal
    rw [onPath.1,same.hdr]
    decide
  exact ⟨s',ext4ExtInsertExtent_inserts fourFile_tree (by decide) (oneFree_reserved List.not_mem_nil) ⟨by decide,by decide⟩ (by decide)
    (fun _ nothing => absurd nothing List.not_mem_nil) found unmerged roomy inserted,depth⟩

/-- The tree of one index level that is read off the nodes. -/
def oneLevel (s : State) : Tree 1 := ((slots (s.hdr none)).map fun y =>
  ⟨y.eiBlock,ext4IdxPblock y,(slots (s.node (ext4IdxPblock y)) : List Slot)⟩ : List (Kid (Tree 0)))

theorem HasTree.oneLevel {s : State} {t : Tree 1} (tree : HasTree s 1 t) : t = oneLevel s := by
  obtain ⟨_,pointers,below⟩ := holds_index.mp tree.holds
  change (slots (s.hdr none)).map pointer = _ at pointers
  have read : (kidsOf t).map (fun k => (⟨k.key,k.block,(slots (s.node k.block) : List Slot)⟩ : Kid (Tree 0))) = kidsOf t := by
    refine (List.map_congr_left fun k member => ?_).trans (List.map_id _)
    rw [(holds_leaf.mp (below k member)).2]
    rfl
  refine read.symm.trans ?_
  change (kidsOf t).map ((fun p : Nat × Nat => (⟨p.1,p.2,(slots (s.node p.2) : List Slot)⟩ : Kid (Tree 0))) ∘ fun k => (k.key,k.block)) =
    (slots (s.hdr none)).map ((fun p : Nat × Nat => (⟨p.1,p.2,(slots (s.node p.2) : List Slot)⟩ : Kid (Tree 0))) ∘ pointer)
  rw [← List.map_map,← List.map_map,pointers]

theorem oneLevel_tree {s : State} (root : Header (s.hdr none) 1 ext4ExtSpaceRoot (s.hdr none).ehEntries)
    (leaves : ∀ y ∈ slots (s.hdr none), Header (s.node (ext4IdxPblock y)) 0 (ext4ExtSpaceBlock s) (s.node (ext4IdxPblock y)).ehEntries)
    (distinct : (foot 1 (oneLevel s)).Nodup) (wf : Wf 1 0 (oneLevel s) (2^32)) (some_ : entries 1 (oneLevel s) ≠ 0) :
    HasTree s 1 (oneLevel s) := by
  refine ⟨holds_index.mpr ⟨root,?_,fun k member => ?_⟩,distinct,wf,Or.inr some_⟩
  · change (slots (s.hdr none)).map pointer = ((slots (s.hdr none)).map _).map _
    rw [List.map_map]
    rfl
  · obtain ⟨y,listed,rfl⟩ := List.mem_map.mp member
    exact holds_leaf.mpr ⟨leaves y listed,rfl⟩

/-- The extent is new and cannot be merged, the insertion returns 0, and the tree is not what it is to be. -/
def Breaks (s₀ : State) (newext : Slot) : Prop := ∃ t : Tree 1, HasTree s₀ 1 t ∧ NewExtent newext (flat 1 t) ∧ extentStop newext ≤ 2^32 ∧
  ∃ s s' path path', Ran s₀ s' 1 newext s path path' ∧ ¬InsertsExtent s' newext (flat 1 t)

theorem breaks {s₀ : State} {newext : Slot} {root : List Slot} {leaf : List Slot} {b : Nat} (tree : HasTree s₀ 1 (oneLevel s₀))
    (new : NewExtent newext (flat 1 (oneLevel s₀))) (stop : extentStop newext ≤ 2^32)
    (ran : (insertion s₀ newext).map (fun r => (r.2,extDepth r.1,slots (r.1.hdr none),slots (r.1.node b))) = some ((true,none),1,root,leaf))
    (wrong : ∀ s', slots (s'.hdr none) = root → slots (s'.node b) = leaf → ¬HasTree s' 1 (oneLevel s')) : Breaks s₀ newext := by
  obtain ⟨⟨s',_⟩,result,values⟩ := Option.map_eq_some_iff.mp ran
  obtain ⟨rfl,rest⟩ := Prod.mk.inj values
  obtain ⟨depth,rest⟩ := Prod.mk.inj rest
  obtain ⟨top,bottom⟩ := Prod.mk.inj rest
  obtain ⟨s,path,path',ran⟩ := insertion_ran tree result
  refine ⟨_,tree,new,stop,s,s',path,path',ran,?_⟩
  rintro ⟨d',t',tree',_⟩
  obtain rfl := depth.symm.trans tree'.depth
  exact wrong s' top bottom (tree'.oneLevel ▸ tree')

/-- Two leaves, of which the second has a key below its extent. -/
def gapFile : State := smallFile ⟨0xf30a,2,4,1,fun i => if i = 0 then ⟨0,2,0⟩ else ⟨20,6,0⟩⟩ fun b =>
  if b = 2 then ⟨0xf30a,1,84,0,fun _ => ⟨0,10,100⟩⟩ else ⟨0xf30a,1,84,0,fun _ => ⟨30,1,200⟩⟩

theorem gapFile_tree : HasTree gapFile 1 (oneLevel gapFile) := by
  refine oneLevel_tree ⟨rfl,rfl,rfl,by decide,by decide,by decide⟩ (fun y member => ?_) (by decide) ?_ (by decide)
  · rcases List.mem_cons.mp member with rfl | member
    · exact ⟨rfl,rfl,rfl,by decide,by decide,by decide⟩
    · rcases List.mem_cons.mp member with rfl | nothing
      · exact ⟨rfl,rfl,rfl,by decide,by decide,by decide⟩
      · nomatch nothing
  · exact ⟨0,10,by decide,⟨rfl,by decide,0,10,by decide,⟨by decide,by decide,by decide⟩,Nat.le_refl 10⟩,20,31,by decide,
      ⟨rfl,by decide,30,31,by decide,⟨by decide,by decide,by decide⟩,Nat.le_refl 31⟩,(by decide : 31 ≤ 2^32)⟩

/-- The extent reaches over the key of the second leaf. -/
theorem gapFile_breaks : Breaks gapFile ⟨15,10,300⟩ := by
  refine @breaks _ _ [⟨0,2,0⟩,⟨20,6,0⟩] [⟨0,10,100⟩,⟨15,10,300⟩] 2 gapFile_tree ⟨by decide,by decide⟩ (by decide) (by decide)
    fun s' root leaf tree => ?_
  have wf := tree.wf
  rw [oneLevel,root] at wf
  obtain ⟨a,b,_,⟨_,_,inside⟩,c,_,next,⟨rfl,_⟩,_⟩ := wf
  change Wf 0 a (slots (s'.node 2) : List Slot) b at inside
  rw [leaf] at inside
  have bounds := wf_bounds inside (List.mem_cons_of_mem _ List.mem_cons_self)
  have reach : extentStop ⟨15,10,300⟩ = 25 := by decide
  change b ≤ 20 at next
  omega

/-- A leaf with room for one extent. -/
def tightFile : State := smallFile ⟨0xf30a,1,4,1,fun _ => ⟨0,2,0⟩⟩ fun _ => ⟨0xf30a,1,1,0,fun _ => ⟨10,1,4⟩⟩

theorem tightFile_tree : HasTree tightFile 1 (oneLevel tightFile) := by
  refine oneLevel_tree ⟨rfl,rfl,rfl,by decide,by decide,by decide⟩ (fun y member => ?_) (by decide) ?_ (by decide)
  · obtain rfl := List.mem_singleton.mp member
    exact ⟨rfl,rfl,rfl,by decide,by decide,by decide⟩
  · exact ⟨0,11,by decide,⟨rfl,by decide,10,11,by decide,⟨by decide,by decide,by decide⟩,Nat.le_refl 11⟩,(by decide : 11 ≤ 2^32)⟩

/-- Both extents stay in the leaf, and its new sibling has none. -/
theorem tightFile_breaks : Breaks tightFile ⟨9,1,1⟩ := by
  refine @breaks _ _ [⟨9,2,0⟩,⟨10,7,0⟩] [] 7 tightFile_tree ⟨by decide,by decide⟩ (by decide) (by decide +kernel)
    fun s' root leaf tree => ?_
  have wf := tree.wf
  rw [oneLevel,root] at wf
  obtain ⟨_,_,_,_,_,_,_,⟨_,some_,_⟩,_⟩ := wf
  exact some_ (congrArg List.length leaf)

/-- A full leaf, in the block that the bitmap has as free. -/
def looseFile : State := smallFile ⟨0xf30a,1,4,1,fun _ => ⟨0,7,0⟩⟩ fun _ => ⟨0xf30a,2,2,0,fun i => if i = 0 then ⟨10,1,4⟩ else ⟨12,1,5⟩⟩

theorem looseFile_tree : HasTree looseFile 1 (oneLevel looseFile) := by
  refine oneLevel_tree ⟨rfl,rfl,rfl,by decide,by decide,by decide⟩ (fun y member => ?_) (by decide) ?_ (by decide)
  · obtain rfl := List.mem_singleton.mp member
    exact ⟨rfl,rfl,rfl,by decide,by decide,by decide⟩
  · exact ⟨0,13,by decide,⟨rfl,by decide,10,11,by decide,⟨by decide,by decide,by decide⟩,12,13,by decide,⟨by decide,by decide,by decide⟩,
      Nat.le_refl 13⟩,(by decide : 13 ≤ 2^32)⟩

/-- The leaf is split into itself. -/
theorem looseFile_breaks : Breaks looseFile ⟨13,1,1⟩ := by
  refine @breaks _ _ [⟨0,7,0⟩,⟨13,7,0⟩] [⟨13,1,1⟩] 7 looseFile_tree ⟨by decide,by decide⟩ (by decide) (by decide +kernel)
    fun s' root leaf tree => ?_
  have distinct := tree.distinct
  rw [oneLevel,root] at distinct
  change ([7,7] : List Nat).Nodup at distinct
  exact absurd distinct (by decide)

theorem ext4ExtInsertExtent_breaks : Breaks gapFile ⟨15,10,300⟩ ∧ Breaks tightFile ⟨9,1,1⟩ ∧ Breaks looseFile ⟨13,1,1⟩ :=
  ⟨gapFile_breaks,tightFile_breaks,looseFile_breaks⟩

end Ext4Fuse.Extents
