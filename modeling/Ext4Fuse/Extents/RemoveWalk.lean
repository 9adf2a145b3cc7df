import Ext4Fuse.Extents.GivenBack
import Ext4Fuse.Library.Walk

/-! Where the walk of `ext4_ext_remove_space` goes: a node that is entered at its first entry is
emptied and its entry in the node above is dropped, which is all that moves that node's cursor on. -/
namespace Ext4Fuse.Extents
open Machine Ext4Fuse.Types Super Library.Partial Library.Segments Library.Walk

/-- A round of the loop of `ext4_ext_remove_space`, at level `i` given as `i + 1`. -/
def removeTurn (depth from_ last : Nat) : Nat × State × Path → Turn (Nat × State × Path) (State × Path × Option Errno)
  | (0,s,path) => .halt (s,path,none)
  | (i+1,s,path) =>
    if i = depth then
      match removeAtLeaf s path depth from_ last with
      | some (s,path) => .on (i,s,path)
      | none => .stuck
    else if ext4ExtMoreToRm s (path.elem i) last then
      match removeDown s path depth i with
      | .error (s,path,err) => .halt (s,path,some err)
      | .ok (s,path) => .on (i + 2,s,path)
    else
      match removeUp s path i with
      | some (s,path) => .on (i,s,path)
      | none => .stuck

/-- The loop goes from turn to turn. -/
theorem removeSpaceLoop_turn (depth from_ last rounds i : Nat) (s : State) (path : Path) :
    removeSpaceLoop depth from_ last (rounds + 1) (i + 1) s path = match removeTurn depth from_ last (i + 1,s,path) with
      | .halt r => some r
      | .stuck => none
      | .on (i,s,path) => removeSpaceLoop depth from_ last rounds i s path := by
  rw [removeSpaceLoop,removeTurn]
  by_cases level : i = depth
  · rw [if_pos level,if_pos level]
    cases removeAtLeaf s path depth from_ last <;> rfl
  rw [if_neg level,if_neg level]
  by_cases more : ext4ExtMoreToRm s (path.elem i) last = true
  · rw [if_pos more,if_pos more]
    cases removeDown s path depth i <;> rfl
  · rw [if_neg more,if_neg more]
    cases removeUp s path i <;> rfl

theorem removeSpaceLoop_of_run {depth from_ last rounds i : Nat} {s : State} {path : Path} {r : State × Path × Option Errno}
    (ran : run (removeTurn depth from_ last) rounds (i,s,path) = some r) : removeSpaceLoop depth from_ last rounds i s path = some r := by
  induction rounds generalizing i s path with
  | zero => cases ran
  | succ rounds ih =>
    cases i with
    | zero => exact ran
    | succ i =>
      rw [removeSpaceLoop_turn]
      rw [run] at ran
      cases turned : removeTurn depth from_ last (i + 1,s,path) with
      | halt result =>
        rw [turned] at ran
        exact ran
      | stuck =>
        rw [turned] at ran
        cases ran
      | on next =>
        rw [turned] at ran
        exact ih ran

theorem run_of_removeSpaceLoop {depth from_ last rounds i : Nat} {s : State} {path : Path} {r : State × Path × Option Errno}
    (ended : removeSpaceLoop depth from_ last rounds i s path = some r) :
    run (removeTurn depth from_ last) (rounds + 1) (i,s,path) = some r := by
  induction rounds generalizing i s path with
  | zero =>
    cases i with
    | zero => exact ended
    | succ i => cases ended
  | succ rounds ih =>
    cases i with
    | zero => exact ended
    | succ i =>
      rw [removeSpaceLoop_turn] at ended
      rw [run]
      cases turned : removeTurn depth from_ last (i + 1,s,path) with
      | halt result =>
        rw [turned] at ended
        exact ended
      | stuck =>
        rw [turned] at ended
        cases ended
      | on next =>
        rw [turned] at ended
        exact ih ended

/-- The block of the node that the path's entry at level `i` points to. -/
def pathBlock (s : State) (path : Path) (i : Nat) : Nat :=
  ext4IdxPblock ((s.hdr (path.elem i).pHdr).slot ((path.elem i).pIdx.getD 0))

/-- `assert(eh_entries > 0)`. -/
def LeafChecked (depth : Nat) (a : Nat × State × Path) : Prop :=
  a.1 = depth + 1 → (a.2.1.hdr (a.2.2.elem depth).pHdr).ehEntries ≠ 0

/-! The nodes that are still to be emptied. -/

/-- The part of a tree that the walk relies on: no keys, and the extents of each leaf in order. -/
def Removable (heap : Nat → Node) : (d : Nat) → Node → Tree d → Prop
  | 0, n, t => Header n 0 le16Max (extentsOf t).length ∧
    (∀ (i : Nat) (x : Slot), (extentsOf t)[i]? = some x → n.slot i = x) ∧ Wf 0 0 t (2^32)
  | d+1, n, t => Listed n (d + 1) ((kidsOf t).map Kid.block) ∧
    ∀ k ∈ kidsOf t, entries d k.tree ≠ 0 ∧ Removable heap d (heap k.block) k.tree

theorem Removable.header {heap : Nat → Node} {d : Nat} {n : Node} {t : Tree d} (removable : Removable heap d n t) :
    Header n d le16Max (entries d t) := by
  cases d with
  | zero => exact removable.1
  | succ d =>
    have header := removable.1.header
    rw [List.length_map] at header
    exact header

theorem Removable.frame {heap heap' : Nat → Node} {d : Nat} {n : Node} {t : Tree d} (removable : Removable heap d n t)
    (same : ∀ b ∈ foot d t, heap' b = heap b) : Removable heap' d n t := by
  induction d generalizing n with
  | zero => exact removable
  | succ d ih =>
    refine ⟨removable.1,fun k member => ⟨(removable.2 k member).1,?_⟩⟩
    have here : k.block ∈ foot (d + 1) t := List.mem_flatMap.mpr ⟨k,member,List.mem_cons_self⟩
    rw [same _ here]
    exact ih (removable.2 k member).2 fun b below => same b (List.mem_flatMap.mpr ⟨k,member,List.mem_cons_of_mem _ below⟩)

theorem Header.widen {n : Node} {depth limit limit' count : Nat} (header : Header n depth limit count) (short : n.ehMax ≤ limit') :
    Header n depth limit' count :=
  ⟨header.magic,header.depth,header.entries,header.fits,header.max,short⟩

theorem Holds.removable {heap : Nat → Node} {room d limit low high : Nat} {n : Node} {t : Tree d}
    (holds : Holds heap room d limit n t) (wf : Wf d low t high) (below : high ≤ 2^32) (short : n.ehMax ≤ le16Max)
    (shorts : ∀ b, (heap b).ehMax ≤ le16Max) : Removable heap d n t := by
  induction d generalizing limit n low high with
  | zero => exact ⟨holds.1.widen short,holds.2,wf_widen wf (Nat.zero_le low) below⟩
  | succ d ih =>
    refine ⟨⟨?_,fun i b here => ?_⟩,fun k member => ?_⟩
    · rw [List.length_map]
      exact holds.1.widen short
    · rw [List.getElem?_map] at here
      obtain ⟨k,found,rfl⟩ := Option.map_eq_some_iff.mp here
      exact (holds.2.1 i k found).2
    · obtain ⟨a,b,_,⟨_,some_,inside⟩,stop⟩ := Tiled.bounds (kidAt_forward d) wf member
      exact ⟨some_,ih (holds.2.2 k member) inside (Nat.le_trans stop below) (shorts _)⟩

/-! What a stretch of the walk leaves alone. -/

structure PathElem.Stays (elem elem' : PathElem) : Prop where
  pHdr : elem'.pHdr = elem.pHdr
  pBh : elem'.pBh = elem.pBh
  pIdx : elem'.pIdx = elem.pIdx

theorem PathElem.Stays.refl (elem : PathElem) : elem.Stays elem := ⟨rfl,rfl,rfl⟩

theorem PathElem.Stays.trans {elem elem' elem'' : PathElem} (one : elem.Stays elem') (two : elem'.Stays elem'') : elem.Stays elem'' :=
  ⟨two.pHdr.trans one.pHdr,two.pBh.trans one.pBh,two.pIdx.trans one.pIdx⟩

theorem stays_of_eq {elem elem' : PathElem} (same : elem' = elem) : elem.Stays elem' := same ▸ PathElem.Stays.refl elem

/-- Work below the entry that the path is at on level `i`: the path stays down to there, and only
the nodes in the blocks `gone`, the one at level `i` and keys above it have changed. -/
structure Frame (path : Path) (i : Nat) (gone : List Nat) (s s' : State) (path' : Path) : Prop where
  steady : Steady s s'
  depth : extDepth s' = extDepth s
  max : (s'.hdr none).ehMax = (s.hdr none).ehMax
  stays : ∀ j, j ≤ i → (path.elem j).Stays (path'.elem j)
  above : ∀ j, j < i → Repointed (s.hdr (path.elem j).pHdr) (s'.hdr (path.elem j).pHdr)
  other : ∀ a, (∀ b ∈ gone, a ≠ some b) → (∀ j, j ≤ i → (path.elem j).pHdr ≠ a) → s'.hdr a = s.hdr a
  root : ∀ k, k < (path.elem 0).pIdx.getD 0 → (s'.hdr none).slot k = (s.hdr none).slot k
  fits : FitsAlike s.volume s'.volume

theorem Frame.trans {path path' path'' : Path} {i : Nat} {gone : List Nat} {s s' s'' : State} (one : Frame path i gone s s' path')
    (two : Frame path' i gone s' s'' path'') : Frame path i gone s s'' path'' := by
  have first := (one.stays 0 (Nat.zero_le i)).pIdx
  refine ⟨one.steady.trans two.steady,two.depth.trans one.depth,two.max.trans one.max,fun j order => (one.stays j order).trans (two.stays j order),
    fun j less => ?_,fun a beside outside => ?_,fun k less => ?_,one.fits.trans two.fits⟩
  · have next := two.above j less
    rw [(one.stays j (Nat.le_of_lt less)).pHdr] at next
    exact (one.above j less).trans next
  · refine (two.other a beside fun j order => ?_).trans (one.other a beside outside)
    rw [(one.stays j order).pHdr]
    exact outside j order
  · rw [two.root k (by rwa [first]),one.root k less]

theorem Frame.widen {path path' : Path} {i : Nat} {gone gone' : List Nat} {s s' : State} (frame : Frame path i gone s s' path')
    (more : ∀ b ∈ gone, b ∈ gone') : Frame path i gone' s s' path' :=
  ⟨frame.steady,frame.depth,frame.max,frame.stays,frame.above,fun a beside outside => frame.other a (fun b member => beside b (more b member)) outside,
    frame.root,frame.fits⟩

/-- The node at the level below is one of those that go. -/
theorem Frame.up {path path' : Path} {i b : Nat} {gone gone' : List Nat} {s s' : State} (frame : Frame path (i + 1) gone s s' path')
    (below : (path.elem (i + 1)).pHdr = some b) (here : b ∈ gone') (more : ∀ x ∈ gone, x ∈ gone') : Frame path i gone' s s' path' := by
  refine ⟨frame.steady,frame.depth,frame.max,fun j order => frame.stays j (Nat.le_succ_of_le order),fun j less => frame.above j (Nat.lt_succ_of_lt less),
    fun a beside outside => frame.other a (fun x member => beside x (more x member)) fun j order => ?_,frame.root,frame.fits⟩
  rcases Nat.eq_or_lt_of_le order with rfl | less
  · rw [below]
    exact fun same => beside b here same.symm
  · exact outside j (Nat.le_of_lt_succ less)

theorem Shrunk.frame {path path' : Path} {i : Nat} {s s' : State} (shrunk : Shrunk path i s s') (fits : FitsAlike s.volume s'.volume)
    (gone : List Nat) (stays : ∀ j, j ≤ i → (path.elem j).Stays (path'.elem j)) : Frame path i gone s s' path' :=
  ⟨shrunk.steady,shrunk.depth,shrunk.max,stays,shrunk.above,fun a _ outside => shrunk.other a outside,shrunk.root,fits⟩

theorem Same.frame {s s' : State} (same : Same s s') {path path' : Path} {i : Nat} (gone : List Nat)
    (stays : ∀ j, j ≤ i → (path.elem j).Stays (path'.elem j)) : Frame path i gone s s' path' :=
  ⟨same.steady,congrArg Node.ehDepth (same.hdr none),congrArg Node.ehMax (same.hdr none),stays,fun _ _ => repointed_of_eq (same.hdr _),fun a _ _ => same.hdr a,
    fun _ _ => by rw [same.hdr],by rw [same.volume]; exact FitsAlike.refl _⟩

theorem LeafCut.frame {path path' : Path} {i p b : Nat} {gone : List Nat} {s s' : State} (cut : LeafCut (some b) p s s')
    (fits : FitsAlike s.volume s'.volume) (here : b ∈ gone) (clear : ∀ j, j < i → (path.elem j).pHdr ≠ some b) (stays : ∀ j, j ≤ i → (path.elem j).Stays (path'.elem j)) :
    Frame path i gone s s' path' := by
  refine ⟨cut.steady,congrArg Node.ehDepth (cut.other none nofun),congrArg Node.ehMax (cut.other none nofun),stays,fun j less => repointed_of_eq (cut.other _ (clear j less)),
    fun a beside _ => cut.other a (beside b here),fun _ _ => ?_,fits⟩
  rw [cut.other none nofun]

/-- Dropping references from level `i` on leaves the elements in front of it. -/
theorem ext4ExtDropRefs_before (s : State) (path : Path) {i j : Nat} (keepOther : Bool) (before : j < i) :
    (ext4ExtDropRefs s path i keepOther).2.elem j = path.elem j := by
  unfold ext4ExtDropRefs
  generalize List.range (if keepOther = true then 1 else (path.elem i).pDepth + 1) = levels
  induction levels generalizing s path with
  | nil => rfl
  | cons k levels ih =>
    rw [List.foldl_cons]
    dsimp only
    split
    · exact (ih _ _).trans (Path.set_other path _ (by omega))
    · exact ih s path

/-! The step down. -/

/-- The step down enters the node at its first entry. -/
theorem removeDown_good {s : State} {path : Path} {depth i b limit count : Nat} (points : pathBlock s path i = b)
    (header : Header (s.node b) (depth - i - 1) limit count) :
    ∃ s' path', removeDown s path depth i = .ok (s',path') ∧ Same s s' ∧ (∀ j, j ≤ i → (path.elem j).Stays (path'.elem j)) ∧
      (path'.elem (i + 1)).pHdr = some b ∧ (path'.elem (i + 1)).pBh = some b ∧
      (if i + 1 = depth then (path'.elem (i + 1)).pExt = some 0 else (path'.elem (i + 1)).pIdx = some 0) := by
  have dropped : ∃ s₁ path₁, (if (path.elem (i + 1)).pBh ≠ none then ext4ExtDropRefs s path (i + 1) false else (s,path)) = (s₁,path₁) ∧
      Same s s₁ ∧ ∀ j, j ≤ i → path₁.elem j = path.elem j := by
    split
    · exact ⟨_,_,rfl,ext4ExtDropRefs_same s path (i + 1) false,
        fun j order => ext4ExtDropRefs_before s path false (Nat.lt_succ_of_le order)⟩
    · exact ⟨s,path,rfl,Same.refl s,fun _ _ => rfl⟩
  obtain ⟨s₁,path₁,first,same,kept⟩ := dropped
  unfold pathBlock at points
  rw [← same.hdr,← kept i (Nat.le_refl i)] at points
  rw [← same.node] at header
  obtain ⟨s₂,read,same'⟩ := readExtentTreeBlock_good s₁ header
  unfold removeDown
  simp only [first,points,read]
  refine ⟨_,_,rfl,same.trans same',fun j order => ?_,?_,?_,?_⟩
  · rw [Path.set_other _ _ (by omega)]
    rcases Nat.eq_or_lt_of_le order with rfl | less
    · rw [Path.set_self,kept j (Nat.le_refl j)]
      exact ⟨rfl,rfl,rfl⟩
    · rw [Path.set_other _ _ (Nat.ne_of_lt less),kept j order]
      exact PathElem.Stays.refl _
  · rw [Path.set_self]
    split <;> rfl
  · rw [Path.set_self]
    split <;> rfl
  · rw [Path.set_self]
    split <;> rfl

/-! The leaf. -/

/-- At the leaf the extents from the path's on go, and then the leaf's index entry if none is left. -/
theorem removeAtLeaf_cut {s : State} {path : Path} {depth from_ last p : Nat} {t : Tree 0} (all : ∀ x : Slot, x.eeBlock ≤ last)
    (bound : from_ < 2^32) (level : extDepth s = depth) (position : (path.elem depth).pExt = some p)
    (leaf : Removable s.node 0 (s.hdr (path.elem depth).pHdr) t) (inside : p < (extentsOf t).length) :
    ∃ x : Option State, removeAtLeaf s path depth from_ last =
        (x.bind fun s₁ => if p = 0 ∧ (path.elem depth).pBh ≠ none then ext4ExtRemoveIdx s₁ path (depth - 1) else some s₁).map
          (fun s' => ext4ExtDropRefs s' path depth false) ∧
      x.map State.volume = freeAll s.inode s.volume (((extentsOf t).drop p).map (given from_ (leafStop (extentsOf t)))) ∧
      Ensures x fun s₁ => LeafCut (path.elem depth).pHdr p s s₁ ∧ (s₁.hdr (path.elem depth).pHdr).ehEntries = p := by
  obtain ⟨header,slots,wf⟩ := leaf
  have count := header.entries
  have fits := header.fits
  have short := header.limit
  unfold le16Max at short
  have before (j : Nat) (_ : p ≤ j) (less : j < (s.hdr (path.elem depth).pHdr).ehEntries) :=
    leafTo_before all count slots wf less
  obtain ⟨x,removed,rest⟩ := @ext4ExtRemoveLeaf_cut s path (leafFrom (s.hdr (path.elem depth).pHdr) from_) _ p depth level position
    (by omega) (by omega) before
  rw [leafRanges_given all count slots wf bound p] at rest
  refine ⟨x,?_,rest⟩
  unfold removeAtLeaf
  rw [if_neg (by omega),Option.bind_eq_bind]
  unfold leafFrom leafTo at removed
  dsimp only at removed ⊢
  rw [removed]
  cases (x.bind fun s₁ => if p = 0 ∧ (path.elem depth).pBh ≠ none then ext4ExtRemoveIdx s₁ path (depth - 1) else some s₁) <;> rfl

theorem HeadersApart.less {path : Path} {i j : Nat} (apart : HeadersApart path i) (order : j ≤ i) : HeadersApart path j :=
  fun k k' before inside => apart k k' before (Nat.le_trans inside order)

theorem HeadersApart.stays {path path' : Path} {i : Nat} (apart : HeadersApart path i)
    (stays : ∀ j, j ≤ i → (path.elem j).Stays (path'.elem j)) : HeadersApart path' i := by
  intro j k before inside
  rw [(stays j (by omega)).pHdr,(stays k inside).pHdr]
  exact apart j k before inside

theorem HeadersApart.enter {path path' : Path} {i b : Nat} (apart : HeadersApart path i)
    (stays : ∀ j, j ≤ i → (path.elem j).Stays (path'.elem j)) (below : (path'.elem (i + 1)).pHdr = some b)
    (clear : ∀ j, j ≤ i → (path.elem j).pHdr ≠ some b) : HeadersApart path' (i + 1) := by
  intro j k before inside
  rcases Nat.eq_or_lt_of_le inside with rfl | less
  · rw [below,(stays j (by omega)).pHdr]
    exact clear j (by omega)
  · exact apart.stays stays j k before (Nat.le_of_lt_succ less)

/-! A node entered at its first entry is emptied. -/

section Walk
variable {depth from_ last : Nat}

/-- The path has the node in block `b` at level `i + 1`. -/
structure AtNode (depth i d : Nat) (t : Tree d) (b : Nat) (s : State) (path : Path) : Prop where
  sum : depth = i + 1 + d
  level : extDepth s = depth
  top : (path.elem 0).pHdr = none
  apart : HeadersApart path (i + 1)
  pHdr : (path.elem (i + 1)).pHdr = some b
  pBh : (path.elem (i + 1)).pBh = some b
  removable : Removable s.node d (s.node b) t
  nonempty : entries d t ≠ 0
  distinct : (foot d t).Nodup
  clear : ∀ j, j ≤ i + 1 → ∀ x ∈ foot d t, (path.elem j).pHdr ≠ some x

/-- The walk is at level `i`, at the entries of `kids`, with those of `l` in front of them. -/
structure Pending (depth i d : Nat) (l : List Nat) (kids : List (Kid (Tree d))) (s : State) (path : Path) : Prop where
  sum : depth = i + 1 + d
  level : extDepth s = depth
  top : (path.elem 0).pHdr = none
  apart : HeadersApart path i
  each : ∀ k ∈ kids, entries d k.tree ≠ 0 ∧ Removable s.node d (s.node k.block) k.tree
  distinct : (kids.flatMap fun k => k.block::foot d k.tree).Nodup
  clear : ∀ j, j ≤ i → ∀ x ∈ kids.flatMap fun k => k.block::foot d k.tree, (path.elem j).pHdr ≠ some x
  position : (path.elem i).pIdx = some l.length
  listed : Listed (s.hdr (path.elem i).pHdr) (d + 1) (l ++ kids.map Kid.block)

/-- Where the walk is back at level `i` and the node there has the entries `blocks`. -/
def Back (i depth : Nat) (blocks gone : List Nat) (s : State) (path : Path) (a : Nat × State × Path) : Prop :=
  a.1 = i + 1 ∧ Frame path i gone s a.2.1 a.2.2 ∧ Listed (a.2.1.hdr (path.elem i).pHdr) depth blocks

/-- From the first entry of a tree of depth `d` the walk comes back without the tree's entry. -/
def Wipes (depth from_ last d : Nat) : Prop :=
  ∀ (i b height : Nat) (t : Tree d) (l r : List Nat) (s : State) (path : Path), AtNode depth i d t b s path →
    (if i + 1 = depth then (path.elem (i + 1)).pExt = some 0 else (path.elem (i + 1)).pIdx = some 0) →
    (path.elem i).pIdx = some l.length → Listed (s.hdr (path.elem i).pHdr) height (l ++ b::r) →
    Leads (removeTurn depth from_ last) (LeafChecked depth) (AllFit s.volume (givenWhole from_ d t ++ [(b,1)]))
      (Back i height (l ++ r) (b::foot d t) s path) (i + 2,s,path)

theorem pathBlock_listed {s : State} {path : Path} {i height b : Nat} {l r : List Nat} (position : (path.elem i).pIdx = some l.length)
    (listed : Listed (s.hdr (path.elem i).pHdr) height (l ++ b::r)) : pathBlock s path i = b := by
  unfold pathBlock
  rw [position]
  exact listed.pointer

theorem removeTurn_leaf (s : State) (path : Path) (i from_ last : Nat) :
    removeTurn i from_ last (i + 1,s,path) = match removeAtLeaf s path i from_ last with
      | some (s,path) => .on (i,s,path)
      | none => .stuck := by
  rw [removeTurn,if_pos rfl]

/-- A leaf loses its extents from the path's on, and its index entry when that is the first. -/
theorem leaf_leads (all : ∀ x : Slot, x.eeBlock ≤ last) (bound : from_ < 2^32) {i b height p : Nat} {t : Tree 0} {l r : List Nat} {s : State}
    {path : Path} (node : AtNode (i + 1) i 0 t b s path) (start : (path.elem (i + 1)).pExt = some p) (inside : p < (extentsOf t).length)
    (position : (path.elem i).pIdx = some l.length) (listed : Listed (s.hdr (path.elem i).pHdr) height (l ++ b::r)) :
    Leads (removeTurn (i + 1) from_ last) (LeafChecked (i + 1))
      (AllFit s.volume (((extentsOf t).drop p).map (given from_ (leafStop (extentsOf t)))) ∧ (p = 0 → RangeFits s.volume (b,1)))
      (fun a => if p = 0 then Back i height (l ++ r) [b] s path a
        else Back i height (l ++ b::r) [b] s path a ∧ LeafCut (some b) p s a.2.1 ∧ (a.2.1.node b).ehEntries = p) (i + 2,s,path) := by
  have leaf : Removable s.node 0 (s.hdr (path.elem (i + 1)).pHdr) t := by
    rw [node.pHdr]
    exact node.removable
  have count : (s.hdr (path.elem (i + 1)).pHdr).ehEntries ≠ 0 := by
    rw [leaf.header.entries]
    exact node.nonempty
  have apart : ∀ j, j ≤ i → (path.elem j).pHdr ≠ some b := fun j order => by
    rw [← node.pHdr]
    exact node.apart j (i + 1) (by omega) (Nat.le_refl _)
  obtain ⟨x,turned,volumes,cuts⟩ := @removeAtLeaf_cut s path (i + 1) from_ last p t all bound node.level start leaf inside
  obtain ⟨works,alike⟩ := freed_fits volumes
  have went := removeTurn_leaf s path (i + 1) from_ last
  have checked : LeafChecked (i + 1) (i + 2,s,path) := fun _ => count
  have emptied : (fun s₁ => if p = 0 ∧ (path.elem (i + 1)).pBh ≠ none then ext4ExtRemoveIdx s₁ path (i + 1 - 1) else some s₁) =
      fun s₁ => if p = 0 then ext4ExtRemoveIdx s₁ path i else some s₁ := by
    funext s₁
    by_cases zero : p = 0
    · rw [if_pos zero,if_pos ⟨zero,by rw [node.pBh]; nofun⟩,Nat.add_sub_cancel]
    · rw [if_neg zero,if_neg fun both => zero both.1]
  rw [turned,emptied] at went
  cases x with
  | none => exact .stuck (fun both => nomatch (works.mpr both.1).choose_spec) checked went
  | some s₁ =>
    have fits := works.mp ⟨s₁,rfl⟩
    have alike := alike s₁ rfl
    obtain ⟨cut,entries⟩ := cuts s₁ rfl
    rw [node.pHdr] at cut entries
    have parent : s₁.hdr (path.elem i).pHdr = s.hdr (path.elem i).pHdr := cut.other _ (apart i (Nat.le_refl i))
    rw [← parent] at listed
    have first : Frame path i [b] s s₁ path :=
      cut.frame alike List.mem_cons_self (fun j less => apart j (Nat.le_of_lt less)) fun j _ => PathElem.Stays.refl _
    have leaves (s₂ : State) : Same s₂ (ext4ExtDropRefs s₂ path (i + 1) false).1 ∧
        ∀ j, j ≤ i → (path.elem j).Stays ((ext4ExtDropRefs s₂ path (i + 1) false).2.elem j) :=
      ⟨ext4ExtDropRefs_same s₂ path (i + 1) false,
        fun j order => stays_of_eq (ext4ExtDropRefs_before s₂ path false (Nat.lt_succ_of_le order))⟩
    rw [Option.bind_some] at went
    by_cases zero : p = 0
    · obtain ⟨given_,alike'⟩ := freed_fits (ext4ExtRemoveIdx_volume position listed)
      have own : AllFit s₁.volume [(b,1)] ↔ RangeFits s.volume (b,1) := List.forall_mem_singleton.trans (alike (b,1))
      simp only [if_pos zero] at went ⊢
      cases removed : ext4ExtRemoveIdx s₁ path i with
      | none =>
        rw [removed] at went given_
        exact .stuck (fun both => nomatch (given_.mpr (own.mpr (both.2 zero))).choose_spec) checked went
      | some s₂ =>
        rw [removed,Option.map_some] at went
        obtain ⟨shrunk,dropped⟩ := ext4ExtRemoveIdx_listed (node.apart.less (Nat.le_succ i)) node.top position listed s₂ removed
        have second : Frame path i [b] s₁ s₂ path := shrunk.frame (alike' s₂ removed) _ fun j _ => PathElem.Stays.refl _
        obtain ⟨same,kept⟩ := leaves s₂
        generalize ext4ExtDropRefs s₂ path (i + 1) false = after at went same kept
        obtain ⟨s₃,path₃⟩ := after
        refine .on checked went (.here ⟨fits,fun _ => own.mp (given_.mp ⟨s₂,removed⟩)⟩ ⟨rfl,(first.trans second).trans (same.frame _ kept),?_⟩)
        rw [same.hdr]
        exact dropped
    · simp only [if_neg zero,Option.map_some] at went ⊢
      obtain ⟨same,kept⟩ := leaves s₁
      generalize ext4ExtDropRefs s₁ path (i + 1) false = after at went same kept
      obtain ⟨s₃,path₃⟩ := after
      refine .on checked went (.here ⟨fits,fun first => absurd first zero⟩ ⟨⟨rfl,first.trans (same.frame _ kept),?_⟩,?_,?_⟩)
      · rw [same.hdr]
        exact listed
      · exact cut.trans (same.charged.leafCut (some b) p) (Nat.le_refl p)
      · rw [same.node]
        exact entries

theorem wipes_zero (all : ∀ x : Slot, x.eeBlock ≤ last) (bound : from_ < 2^32) : Wipes depth from_ last 0 := by
  intro i b height t l r s path node start position listed
  have sum : i + 1 = depth := node.sum.symm
  subst sum
  rw [if_pos rfl] at start
  have both : (AllFit s.volume (givenAll from_ (extentsOf t)) ∧ (0 = 0 → RangeFits s.volume (b,1))) ↔
      AllFit s.volume (givenWhole from_ 0 t ++ [(b,1)]) := by
    rw [allFit_append,imp_iff_right rfl]
    exact and_congr_right fun _ => List.forall_mem_singleton.symm
  refine ((leaf_leads all bound node start (Nat.pos_of_ne_zero node.nonempty) position listed).imp fun a back => ?_).congr both
  rw [if_pos rfl] at back
  exact back

/-- An index node that the walk works on is above the leaves. -/
theorem Pending.index {i d : Nat} {l : List Nat} {kids : List (Kid (Tree d))} {s : State} {path : Path}
    (pending : Pending depth i d l kids s path) : i ≠ depth := by
  have sum := pending.sum
  omega

theorem moreToRm_pending (all : ∀ x : Slot, x.eeBlock ≤ last) {i d : Nat} {l : List Nat} {k : Kid (Tree d)} {kids : List (Kid (Tree d))}
    {s : State} {path : Path} (pending : Pending depth i d l (k::kids) s path) : ext4ExtMoreToRm s (path.elem i) last = true := by
  have inside := pending.listed.inside
  unfold ext4ExtMoreToRm
  simp only [pending.position,Option.getD_some,Bool.and_eq_true,decide_eq_true_eq]
  exact ⟨⟨by omega,inside⟩,all _⟩

theorem moreToRm_done {s : State} {path : Path} {i height : Nat} {l : List Nat} (position : (path.elem i).pIdx = some l.length)
    (listed : Listed (s.hdr (path.elem i).pHdr) height l) : ext4ExtMoreToRm s (path.elem i) last = false := by
  unfold ext4ExtMoreToRm
  simp only [position,Option.getD_some,listed.header.entries,Nat.lt_irrefl,decide_false,Bool.and_false,Bool.false_and]

/-- All the node's entries from the path's on go, one after the other. -/
theorem pending_leads {d : Nat} (wipes : Wipes depth from_ last d) (all : ∀ x : Slot, x.eeBlock ≤ last) (kids : List (Kid (Tree d)))
    {i : Nat} {l : List Nat} {s : State} {path : Path} (pending : Pending depth i d l kids s path) :
    Leads (removeTurn depth from_ last) (LeafChecked depth)
      (AllFit s.volume (kids.flatMap fun k => givenWhole from_ d k.tree ++ [(k.block,1)]))
      (Back i (d + 1) l (kids.flatMap fun k => k.block::foot d k.tree) s path) (i + 1,s,path) := by
  induction kids generalizing s path with
  | nil =>
    have listed := pending.listed
    rw [List.map_nil,List.append_nil] at listed
    exact .here nofun ⟨rfl,(Same.refl s).frame _ fun j _ => PathElem.Stays.refl _,listed⟩
  | cons k kids ih =>
    obtain ⟨nonempty,removable⟩ := pending.each k List.mem_cons_self
    have distinct := pending.distinct
    rw [List.flatMap_cons] at distinct
    obtain ⟨own,others,across⟩ := List.nodup_append'.mp distinct
    obtain ⟨beside,inside⟩ := List.nodup_cons.mp own
    have sum := pending.sum
    have mine (x : Nat) (member : x ∈ k.block::foot d k.tree) (j : Nat) (order : j ≤ i) : (path.elem j).pHdr ≠ some x :=
      pending.clear j order x (List.mem_append_left _ member)
    have theirs (x : Nat) (member : x ∈ kids.flatMap fun k => k.block::foot d k.tree) (j : Nat) (order : j ≤ i) :
        (path.elem j).pHdr ≠ some x := by
      refine pending.clear j order x ?_
      rw [List.flatMap_cons]
      exact List.mem_append_right _ member
    have rest : depth - i - 1 = d := by omega
    have header : Header (s.node k.block) (depth - i - 1) le16Max (entries d k.tree) := by
      rw [rest]
      exact removable.header
    obtain ⟨s₁,path₁,down,same,stays,pHdr,pBh,start⟩ := removeDown_good (pathBlock_listed pending.position pending.listed) header
    have went : removeTurn depth from_ last (i + 1,s,path) = .on (i + 2,s₁,path₁) := by
      rw [removeTurn,if_neg pending.index,if_pos (moreToRm_pending all pending),down]
    have entered : AtNode depth i d k.tree k.block s₁ path₁ := by
      refine ⟨sum,?_,?_,pending.apart.enter stays pHdr (mine k.block List.mem_cons_self),pHdr,pBh,?_,nonempty,inside,?_⟩
      · exact (congrArg Node.ehDepth (same.hdr none)).trans pending.level
      · exact (stays 0 (Nat.zero_le i)).pHdr.trans pending.top
      · rw [same.node]
        exact removable
      · intro j order x member
        rcases Nat.eq_or_lt_of_le order with rfl | less
        · rw [pHdr]
          rintro ⟨⟩
          exact beside member
        · rw [(stays j (Nat.le_of_lt_succ less)).pHdr]
          exact mine x (List.mem_cons_of_mem _ member) j (Nat.le_of_lt_succ less)
    have position : (path₁.elem i).pIdx = some l.length := (stays i (Nat.le_refl i)).pIdx.trans pending.position
    have listed : Listed (s₁.hdr (path₁.elem i).pHdr) (d + 1) (l ++ k.block::kids.map Kid.block) := by
      rw [same.hdr,(stays i (Nat.le_refl i)).pHdr]
      exact pending.listed
    rw [List.flatMap_cons]
    refine .on (fun level => absurd (Nat.succ.inj level) pending.index) went ?_
    rw [← same.volume]
    refine ((wipes i _ _ _ _ _ _ _ entered start position listed).trans ?_).congr (allFit_append _ _).symm
    rintro ⟨_,s₂,path₂⟩ ⟨rfl,frame,left⟩
    dsimp only at frame left
    have whole : Frame path i (k.block::foot d k.tree) s s₂ path₂ := (same.frame _ stays).trans frame
    rw [(stays i (Nat.le_refl i)).pHdr] at left
    have kept (x : Nat) (member : x ∈ kids.flatMap fun k => k.block::foot d k.tree) : s₂.node x = s.node x := by
      refine whole.other (some x) (fun y inKid same => ?_) (theirs x member)
      obtain rfl := Option.some.inj same
      exact across inKid member
    have rest : Pending depth i d l kids s₂ path₂ := by
      refine ⟨sum,whole.depth.trans pending.level,(whole.stays 0 (Nat.zero_le i)).pHdr.trans pending.top,pending.apart.stays whole.stays,
        fun k' member => ?_,others,fun j order x member => ?_,(whole.stays i (Nat.le_refl i)).pIdx.trans pending.position,?_⟩
      · obtain ⟨some_,below⟩ := pending.each k' (List.mem_cons_of_mem _ member)
        have here (x : Nat) (inKid : x ∈ k'.block::foot d k'.tree) : x ∈ kids.flatMap fun k => k.block::foot d k.tree :=
          List.mem_flatMap.mpr ⟨k',member,inKid⟩
        rw [kept _ (here _ List.mem_cons_self)]
        exact ⟨some_,below.frame fun x inKid => kept x (here x (List.mem_cons_of_mem _ inKid))⟩
      · rw [(whole.stays j order).pHdr]
        exact theirs x member j order
      · rw [(whole.stays i (Nat.le_refl i)).pHdr]
        exact left
    refine ((ih rest).congr (frame.fits.allFit _)).imp ?_
    rintro ⟨_,s₃,path₃⟩ ⟨rfl,frame',left'⟩
    rw [(whole.stays i (Nat.le_refl i)).pHdr] at left'
    refine ⟨rfl,(whole.widen fun x member => ?_).trans (frame'.widen fun x member => ?_),left'⟩
    · exact List.mem_append_left _ member
    · exact List.mem_append_right _ member

/-- The step up from an index node that is left empty takes its entry along. -/
theorem up_emptied {i b c height : Nat} {l r : List Nat} {s : State} {path : Path} (index : i + 1 ≠ depth) (apart : HeadersApart path i)
    (top : (path.elem 0).pHdr = none) (pBh : (path.elem (i + 1)).pBh = some c)
    (count : (s.hdr (path.elem (i + 1)).pHdr).ehEntries = 0) (position : (path.elem i).pIdx = some l.length)
    (listed : Listed (s.hdr (path.elem i).pHdr) height (l ++ b::r)) :
    Leads (removeTurn depth from_ last) (LeafChecked depth) (RangeFits s.volume (b,1)) (Back i height (l ++ r) [b] s path)
      (i + 2,s,path) := by
  have more : ext4ExtMoreToRm s (path.elem (i + 1)) last = false := by
    unfold ext4ExtMoreToRm
    simp only [count,ne_eq,not_true_eq_false,decide_false,Bool.false_and]
  have checked : LeafChecked depth (i + 2,s,path) := fun level => absurd (Nat.succ.inj level) index
  have went : removeTurn depth from_ last (i + 2,s,path) = (ext4ExtRemoveIdx s path i).elim .stuck fun s =>
      .on (i + 1,fsBrelse s c,path.set (i + 1) {path.elem (i + 1) with pBh := none}) := by
    rw [removeTurn,if_neg index,if_neg (by rw [more]; rintro ⟨⟩),removeUp,if_pos count]
    simp only [Option.bind_eq_bind,pBh,Option.bind_some]
    cases ext4ExtRemoveIdx s path i <;> rfl
  obtain ⟨works,alike⟩ := freed_fits (ext4ExtRemoveIdx_volume position listed)
  have own : AllFit s.volume [(b,1)] ↔ RangeFits s.volume (b,1) := List.forall_mem_singleton
  rw [own] at works
  cases removed : ext4ExtRemoveIdx s path i with
  | none =>
    rw [removed] at went works
    exact .stuck (fun fits => nomatch (works.mpr fits).choose_spec) checked went
  | some s₁ =>
    rw [removed,Option.elim_some] at went
    obtain ⟨shrunk,dropped⟩ := ext4ExtRemoveIdx_listed apart top position listed s₁ removed
    have kept (j : Nat) (order : j ≤ i) : (path.elem j).Stays ((path.set (i + 1) {path.elem (i + 1) with pBh := none}).elem j) :=
      stays_of_eq (Path.set_other path _ (by omega))
    refine .on checked went (.here (works.mp ⟨s₁,removed⟩) ⟨rfl,?_,?_⟩)
    · exact Frame.trans (shrunk.frame (alike s₁ removed) [b] fun j _ => PathElem.Stays.refl _) ((fsBrelse_same s₁ c).frame [b] kept)
    · rw [(fsBrelse_same s₁ c).hdr]
      exact dropped

theorem AtNode.pending {i d b : Nat} {t : Tree (d + 1)} {s : State} {path : Path} (node : AtNode depth i (d + 1) t b s path)
    (start : (path.elem (i + 1)).pIdx = some 0) : Pending depth (i + 1) d [] (kidsOf t) s path := by
  have sum := node.sum
  refine ⟨by omega,node.level,node.top,node.apart,node.removable.2,node.distinct,node.clear,start,?_⟩
  rw [node.pHdr]
  exact node.removable.1

theorem wipes_succ {d : Nat} (wipes : Wipes depth from_ last d) (all : ∀ x : Slot, x.eeBlock ≤ last) : Wipes depth from_ last (d + 1) := by
  intro i b height t l r s path node start position listed
  have sum := node.sum
  have index : i + 1 ≠ depth := by omega
  rw [if_neg index] at start
  have both : (AllFit s.volume (givenWhole from_ (d + 1) t) ∧ RangeFits s.volume (b,1)) ↔
      AllFit s.volume (givenWhole from_ (d + 1) t ++ [(b,1)]) := by
    rw [allFit_append]
    exact and_congr_right fun _ => List.forall_mem_singleton.symm
  refine ((pending_leads wipes all _ (node.pending start)).trans ?_).congr both
  rintro ⟨_,s₁,path₁⟩ ⟨rfl,frame,left⟩
  dsimp only at frame left
  have whole : Frame path i (b::foot (d + 1) t) s s₁ path₁ :=
    frame.up node.pHdr List.mem_cons_self fun x member => List.mem_cons_of_mem _ member
  have here := whole.stays i (Nat.le_refl i)
  have count : (s₁.hdr (path₁.elem (i + 1)).pHdr).ehEntries = 0 := by
    rw [(frame.stays (i + 1) (Nat.le_refl _)).pHdr]
    exact left.header.entries
  have listed₁ : Listed (s₁.hdr (path₁.elem i).pHdr) height (l ++ b::r) := by
    rw [here.pHdr]
    exact listed.repointed (frame.above i (Nat.lt_succ_self i))
  refine ((up_emptied index ((node.apart.less (Nat.le_succ i)).stays whole.stays)
    ((whole.stays 0 (Nat.zero_le i)).pHdr.trans node.top) ((frame.stays (i + 1) (Nat.le_refl _)).pBh.trans node.pBh) count
    (here.pIdx.trans position) listed₁).congr (frame.fits (b,1))).imp ?_
  rintro ⟨_,s₂,path₂⟩ ⟨rfl,frame',left'⟩
  rw [here.pHdr] at left'
  exact ⟨rfl,whole.trans (frame'.widen fun x member => List.mem_cons.mpr (Or.inl (List.mem_singleton.mp member))),left'⟩

theorem wipes (all : ∀ x : Slot, x.eeBlock ≤ last) (bound : from_ < 2^32) (d : Nat) : Wipes depth from_ last d := by
  induction d with
  | zero => exact wipes_zero all bound
  | succ d ih => exact wipes_succ ih all

/-! The way up from the leaf that the first block to go is in. -/

/-- Nodes that the walk has yet to empty, in some of the `blocks`. -/
structure Remains {d : Nat} (kids : List (Kid (Tree d))) (blocks : List Nat) (heap : Nat → Node) : Prop where
  each : ∀ k ∈ kids, entries d k.tree ≠ 0 ∧ Removable heap d (heap k.block) k.tree
  distinct : (kids.flatMap fun k => k.block::foot d k.tree).Nodup
  within : ∀ x ∈ kids.flatMap fun k => k.block::foot d k.tree, x ∈ blocks

theorem remains_nil {d : Nat} (blocks : List Nat) (heap : Nat → Node) : Remains ([] : List (Kid (Tree d))) blocks heap :=
  ⟨nofun,List.nodup_nil,nofun⟩

theorem remains_one {d b : Nat} {t : Tree d} {blocks : List Nat} {heap : Nat → Node} (nonempty : entries d t ≠ 0)
    (removable : Removable heap d (heap b) t) (distinct : (b::foot d t).Nodup) (within : ∀ x ∈ b::foot d t, x ∈ blocks) :
    Remains [⟨0,b,t⟩] blocks heap := by
  have all : ([⟨0,b,t⟩] : List (Kid (Tree d))).flatMap (fun k => k.block::foot d k.tree) = b::foot d t := List.flatMap_singleton ..
  refine ⟨fun k member => ?_,by rwa [all],by rwa [all]⟩
  rw [List.mem_singleton.mp member]
  exact ⟨nonempty,removable⟩

/-- Back at level `i`: in place of the node that the path had there below are the entries `kids`. -/
def Climbed {d : Nat} (i height : Nat) (kids : List (Kid (Tree d))) (l r gone : List Nat) (s : State) (path : Path)
    (a : Nat × State × Path) : Prop :=
  Remains kids gone a.2.1.node ∧ Back i height (l ++ (kids.map Kid.block ++ r)) gone s path a

theorem leafCut_removable {s s' : State} {b : Nat} {t l r : Tree 0} {x : Slot} (removable : Removable s.node 0 (s.node b) t)
    (parts : extentsOf t = extentsOf l ++ x::extentsOf r) (cut : LeafCut (some b) (extentsOf l).length s s')
    (count : (s'.node b).ehEntries = (extentsOf l).length) : Removable s'.node 0 (s'.node b) l := by
  obtain ⟨header,slots,wf⟩ := removable
  have fits := header.fits
  rw [parts,List.length_append] at fits
  have max : (s'.node b).ehMax = (s.node b).ehMax := cut.max
  refine ⟨⟨cut.magic.trans header.magic,cut.depth.trans header.depth,count,?_,?_,?_⟩,fun i y here => ?_,?_⟩
  · rw [max]
    omega
  · rw [max]
    exact header.max
  · rw [max]
    exact header.limit
  · have inside := (List.getElem?_eq_some_iff.mp here).1
    refine (cut.front i inside).trans (slots i y ?_)
    rw [parts,List.getElem?_append_left inside]
    exact here
  · have whole : Tiled extentAt 0 (extentsOf l ++ x::extentsOf r) (2^32) := parts ▸ wf
    obtain ⟨a,b,left,at_,right⟩ := (tiled_middle _ _ _).mp whole
    have forward := extentAt_forward x a b at_
    have rest := right.le extentAt_forward
    exact Tiled.widen left (Nat.le_refl 0) (Nat.le_trans forward rest)

theorem climb_zero (all : ∀ x : Slot, x.eeBlock ≤ last) (bound : from_ < 2^32) {i b height low high : Nat} {t : Tree 0} {l r : List Nat}
    {s : State} {path : Path} (wf : Wf 0 low t high) (covered : ∃ x ∈ flat 0 t, covers x from_) (node : AtNode (i + 1) i 0 t b s path)
    (onPath : OnPath from_ path 0 t (some b) (i + 1)) (position : (path.elem i).pIdx = some l.length)
    (listed : Listed (s.hdr (path.elem i).pHdr) height (l ++ b::r)) :
    ∃ front, Front from_ 0 t front ∧ Leads (removeTurn (i + 1) from_ last) (LeafChecked (i + 1))
      (AllFit s.volume (givenBack from_ 0 t) ∧ (entries 0 front = 0 → RangeFits s.volume (b,1)))
      (Climbed i height (leftOver b 0 front) l r (b::foot 0 t) s path) (i + 2,s,path) := by
  obtain ⟨_,_,_,⟨empty,_⟩ | ⟨front,x,back,chosen,start⟩⟩ := onPath
  · refine absurd ?_ node.nonempty
    rw [entries,empty]
    rfl
  have inside : front.length < (extentsOf t).length := by
    rw [chosen.parts,List.length_append,List.length_cons]
    omega
  have went := leaf_leads all bound node start inside position listed
  have gone : (extentsOf t).drop front.length = backExtents from_ (extentsOf t) := by
    rw [(chosen_leaf wf chosen covered).2,chosen.parts,List.drop_left]
  rw [gone] at went
  refine ⟨front,⟨x,back,chosen⟩,went.imp fun a left => ?_⟩
  split at left
  · rename_i zero
    rw [leftOver_none (d := 0) zero]
    exact ⟨remains_nil _ _,left⟩
  · rename_i some_
    obtain ⟨whole,cut,count⟩ := left
    have removable := @leafCut_removable s a.2.1 b t front back x node.removable chosen.parts cut count
    rw [leftOver_some (d := 0) some_]
    exact ⟨remains_one some_ removable (List.nodup_singleton b) fun x member => member,whole⟩

theorem up_kept {i c : Nat} {s : State} {path : Path} (index : i + 1 ≠ depth) (pBh : (path.elem (i + 1)).pBh = some c)
    (count : (s.hdr (path.elem (i + 1)).pHdr).ehEntries ≠ 0) (more : ext4ExtMoreToRm s (path.elem (i + 1)) last = false) :
    removeTurn depth from_ last (i + 2,s,path) =
      .on (i + 1,fsBrelse s c,path.set (i + 1) {path.elem (i + 1) with pBh := none}) := by
  rw [removeTurn,if_neg index,if_neg (by rw [more]; rintro ⟨⟩),removeUp,if_neg count]
  simp only [Option.bind_eq_bind,pBh,Option.bind_some]
  rfl

/-- The nodes of the entries that the work below did not go to are as they were. -/
theorem removable_rest {d i : Nat} {kids : List (Kid (Tree d))} {gone : List Nat} {s s' : State} {path path' : Path}
    (each : ∀ k ∈ kids, entries d k.tree ≠ 0 ∧ Removable s.node d (s.node k.block) k.tree) (frame : Frame path i gone s s' path')
    (apart : ∀ x ∈ kids.flatMap fun k => k.block::foot d k.tree, x ∉ gone)
    (clear : ∀ j, j ≤ i → ∀ x ∈ kids.flatMap fun k => k.block::foot d k.tree, (path.elem j).pHdr ≠ some x) :
    ∀ k ∈ kids, entries d k.tree ≠ 0 ∧ Removable s'.node d (s'.node k.block) k.tree := by
  have kept (x : Nat) (member : x ∈ kids.flatMap fun k => k.block::foot d k.tree) : s'.node x = s.node x := by
    refine frame.other (some x) (fun y here same => ?_) fun j order => clear j order x member
    obtain rfl := Option.some.inj same
    exact apart x member here
  intro k member
  obtain ⟨some_,below⟩ := each k member
  have here (x : Nat) (inKid : x ∈ k.block::foot d k.tree) : x ∈ kids.flatMap fun k => k.block::foot d k.tree :=
    List.mem_flatMap.mpr ⟨k,member,inKid⟩
  rw [kept _ (here _ List.mem_cons_self)]
  exact ⟨some_,below.frame fun x inKid => kept x (here x (List.mem_cons_of_mem _ inKid))⟩

/-- What is pending at a level when the walk has come up to it. -/
theorem climbed_pending {i d : Nat} {l r kids : List (Kid (Tree d))} {k : Kid (Tree d)} {s : State} {path : Path} {a : Nat × State × Path}
    (sum : depth = i + 1 + d) (level : extDepth s = depth) (top : (path.elem 0).pHdr = none) (apart : HeadersApart path i)
    (each : ∀ k' ∈ l ++ k::r, entries d k'.tree ≠ 0 ∧ Removable s.node d (s.node k'.block) k'.tree)
    (distinct : ((l ++ k::r).flatMap fun k => k.block::foot d k.tree).Nodup)
    (clear : ∀ j, j ≤ i → ∀ x ∈ (l ++ k::r).flatMap fun k => k.block::foot d k.tree, (path.elem j).pHdr ≠ some x)
    (position : (path.elem i).pIdx = some l.length)
    (climbed : Climbed i (d + 1) kids (l.map Kid.block) (r.map Kid.block) (k.block::foot d k.tree) s path a) :
    Pending depth i d (l.map Kid.block) (kids ++ r) a.2.1 a.2.2 ∧ a.1 = i + 1 ∧ Frame path i (k.block::foot d k.tree) s a.2.1 a.2.2 ∧
      ∀ x ∈ (kids ++ r).flatMap fun k => k.block::foot d k.tree, x ∈ (k::r).flatMap fun k => k.block::foot d k.tree := by
  obtain ⟨remains,back,frame,left⟩ := climbed
  rw [List.flatMap_append,List.flatMap_cons] at distinct
  obtain ⟨_,below,_⟩ := List.nodup_append'.mp distinct
  obtain ⟨own,others,across⟩ := List.nodup_append'.mp below
  have behind (x : Nat) (member : x ∈ r.flatMap fun k => k.block::foot d k.tree) :
      x ∈ (l ++ k::r).flatMap fun k => k.block::foot d k.tree := by
    rw [List.flatMap_append,List.flatMap_cons]
    exact List.mem_append_right _ (List.mem_append_right _ member)
  have mine (x : Nat) (member : x ∈ k.block::foot d k.tree) : x ∈ (l ++ k::r).flatMap fun k => k.block::foot d k.tree := by
    rw [List.flatMap_append,List.flatMap_cons]
    exact List.mem_append_right _ (List.mem_append_left _ member)
  have rest := removable_rest (fun k' member => each k' (List.mem_append_right _ (List.mem_cons_of_mem _ member))) frame
    (fun x member here => across here member) fun j order x member => clear j order x (behind x member)
  have within (x : Nat) (member : x ∈ (kids ++ r).flatMap fun k => k.block::foot d k.tree) :
      x ∈ k.block::foot d k.tree ∨ x ∈ r.flatMap fun k => k.block::foot d k.tree := by
    rw [List.flatMap_append] at member
    exact (List.mem_append.mp member).imp (remains.within x) id
  refine ⟨⟨sum,frame.depth.trans level,(frame.stays 0 (Nat.zero_le i)).pHdr.trans top,apart.stays frame.stays,
    fun k' member => ?_,?_,fun j order x member => ?_,?_,?_⟩,back,frame,fun x member => ?_⟩
  · exact (List.mem_append.mp member).elim (remains.each k') (rest k')
  · rw [List.flatMap_append]
    exact List.nodup_append'.mpr ⟨remains.distinct,others,fun x inKids inRest => across (remains.within x inKids) inRest⟩
  · rw [(frame.stays j order).pHdr]
    exact clear j order x ((within x member).elim (mine x) (behind x))
  · rw [(frame.stays i (Nat.le_refl i)).pIdx,position,List.length_map]
  · rw [(frame.stays i (Nat.le_refl i)).pHdr,List.map_append]
    exact left
  · rw [List.flatMap_cons]
    exact List.mem_append.mpr (within x member)

theorem AtNode.enter {i d b : Nat} {t : Tree (d + 1)} {k : Kid (Tree d)} {s : State} {path : Path} (node : AtNode depth i (d + 1) t b s path)
    (member : k ∈ kidsOf t) (pHdr : (path.elem (i + 2)).pHdr = some k.block) (pBh : (path.elem (i + 2)).pBh = some k.block) :
    AtNode depth (i + 1) d k.tree k.block s path := by
  have sum := node.sum
  obtain ⟨nonempty,removable⟩ := node.removable.2 k member
  have here (x : Nat) (inKid : x ∈ k.block::foot d k.tree) : x ∈ foot (d + 1) t := List.mem_flatMap.mpr ⟨k,member,inKid⟩
  have own : (k.block::foot d k.tree).Nodup := (List.nodup_flatMap.mp node.distinct).1 k member
  refine ⟨by omega,node.level,node.top,?_,pHdr,pBh,removable,nonempty,(List.nodup_cons.mp own).2,fun j order x inKid => ?_⟩
  · exact node.apart.enter (fun j _ => PathElem.Stays.refl _) pHdr fun j order => node.clear j order _ (here _ List.mem_cons_self)
  · rcases Nat.eq_or_lt_of_le order with rfl | less
    · rw [pHdr]
      rintro ⟨⟩
      exact (List.nodup_cons.mp own).1 inKid
    · exact node.clear j (Nat.le_of_lt_succ less) x (here x (List.mem_cons_of_mem _ inKid))

/-- The walk comes up from the leaf of the path to the level above any node of the path. -/
theorem climb (all : ∀ x : Slot, x.eeBlock ≤ last) (bound : from_ < 2^32) {d i b height low high : Nat} {t : Tree d} {l r : List Nat}
    {s : State} {path : Path} (wf : Wf d low t high) (covered : ∃ x ∈ flat d t, covers x from_) (node : AtNode depth i d t b s path)
    (onPath : OnPath from_ path d t (some b) (i + 1)) (position : (path.elem i).pIdx = some l.length)
    (listed : Listed (s.hdr (path.elem i).pHdr) height (l ++ b::r)) :
    ∃ front, Front from_ d t front ∧ Leads (removeTurn depth from_ last) (LeafChecked depth)
      (AllFit s.volume (givenBack from_ d t) ∧ (entries d front = 0 → RangeFits s.volume (b,1)))
      (Climbed i height (leftOver b d front) l r (b::foot d t) s path) (depth + 1,s,path) := by
  induction d generalizing i b height low high l r with
  | zero =>
    have sum : i + 1 = depth := node.sum.symm
    subst sum
    exact climb_zero all bound wf covered node onPath position listed
  | succ d ih =>
    have sum := node.sum
    have index : i + 1 ≠ depth := by omega
    obtain ⟨_,_,front,k,back,chosen,here,pBh,below⟩ := onPath
    have member : k ∈ kidsOf t := by
      rw [chosen.parts]
      exact List.mem_append_right _ List.mem_cons_self
    have each := node.removable.2
    have distinct : ((kidsOf t).flatMap fun k => k.block::foot d k.tree).Nodup := node.distinct
    have clear : ∀ j, j ≤ i + 1 → ∀ x ∈ (kidsOf t).flatMap fun k => k.block::foot d k.tree, (path.elem j).pHdr ≠ some x := node.clear
    have mapped : Listed (s.hdr (path.elem (i + 1)).pHdr) (d + 1) (front.map Kid.block ++ k.block::back.map Kid.block) := by
      have top := node.removable.1
      rw [chosen.parts,List.map_append,List.map_cons] at top
      rw [node.pHdr]
      exact top
    have whole : foot (d + 1) t = (kidsOf t).flatMap fun k => k.block::foot d k.tree := rfl
    rw [chosen.parts] at each distinct clear whole
    obtain ⟨_,_,_,inside,_⟩ := chosen_kids wf chosen
    obtain ⟨deep,kept,child⟩ := ih inside (chosen_covers wf chosen covered) (node.enter member (onPath_pHdr below) pBh) below
      (by rw [List.length_map]; exact here) mapped
    have given_ := @allFit_climb from_ s.volume d low high t front back k deep wf chosen covered kept
    have works : (AllFit s.volume (givenBack from_ (d + 1) t) ∧ (entries (d + 1) front = 0 → RangeFits s.volume (b,1))) ↔ _ :=
      (and_congr_left fun _ => given_).trans and_assoc
    refine ⟨front,⟨k,back,chosen⟩,(child.trans fun a climbed => ?_).congr works.symm⟩
    obtain ⟨pending,at_,frame,within⟩ := @climbed_pending depth (i + 1) d front back (leftOver k.block d deep) k s path a (by omega)
      node.level node.top node.apart each distinct clear here climbed
    obtain ⟨_,s₁,path₁⟩ := a
    dsimp only at pending at_ frame
    subst at_
    refine ((pending_leads (wipes all bound d) all _ pending).congr (frame.fits.allFit _)).trans ?_
    rintro ⟨_,s₂,path₂⟩ ⟨rfl,frame',left⟩
    dsimp only at frame' left
    have gone (x : Nat) (among : x ∈ (k::back).flatMap fun k => k.block::foot d k.tree) : x ∈ foot (d + 1) t := by
      rw [whole,List.flatMap_append]
      exact List.mem_append_right _ among
    have both : Frame path (i + 1) ((k::back).flatMap fun k => k.block::foot d k.tree) s s₂ path₂ :=
      (frame.widen fun x among => List.mem_append_left _ among).trans (frame'.widen within)
    have framed : Frame path i (b::foot (d + 1) t) s s₂ path₂ :=
      both.up node.pHdr List.mem_cons_self fun x among => List.mem_cons_of_mem _ (gone x among)
    have stays := both.stays (i + 1) (Nat.le_refl _)
    have above := framed.stays i (Nat.le_refl i)
    rw [(frame.stays (i + 1) (Nat.le_refl _)).pHdr] at left
    have listed₂ : Listed (s₂.hdr (path₂.elem i).pHdr) height (l ++ b::r) := by
      rw [above.pHdr]
      exact listed.repointed (both.above i (Nat.lt_succ_self i))
    have pBh₂ : (path₂.elem (i + 1)).pBh = some b := stays.pBh.trans node.pBh
    have count : (s₂.hdr (path₂.elem (i + 1)).pHdr).ehEntries = front.length := by
      rw [stays.pHdr,left.header.entries,List.length_map]
    by_cases empty : entries (d + 1) front = 0
    · rw [show front.length = 0 from empty] at count
      have own := (imp_iff_right empty).trans (framed.fits (b,1)).symm
      refine ((up_emptied index ((node.apart.less (Nat.le_succ i)).stays framed.stays)
        ((framed.stays 0 (Nat.zero_le i)).pHdr.trans node.top) pBh₂ count (above.pIdx.trans position) listed₂).congr own.symm).imp ?_
      rintro ⟨_,s₃,path₃⟩ ⟨rfl,frame₃,left₃⟩
      rw [above.pHdr] at left₃
      rw [leftOver_none empty]
      refine ⟨remains_nil _ _,rfl,framed.trans (frame₃.widen fun x among => ?_),left₃⟩
      exact List.mem_cons.mpr (Or.inl (List.mem_singleton.mp among))
    · have some_ : front.length ≠ 0 := empty
      have more : ext4ExtMoreToRm s₂ (path₂.elem (i + 1)) last = false := by
        refine @moreToRm_done last s₂ path₂ (i + 1) (d + 1) (front.map Kid.block) ?_ ?_
        · rw [stays.pIdx,here,List.length_map]
        · rw [stays.pHdr]
          exact left
      have kept (j : Nat) (order : j ≤ i) :
          (path₂.elem j).Stays ((path₂.set (i + 1) {path₂.elem (i + 1) with pBh := none}).elem j) :=
        stays_of_eq (Path.set_other path₂ _ (by omega))
      have same := fsBrelse_same s₂ b
      rw [List.flatMap_append] at distinct
      obtain ⟨_,_,across⟩ := List.nodup_append'.mp distinct
      have early (x : Nat) (among : x ∈ front.flatMap fun k => k.block::foot d k.tree) : x ∈ foot (d + 1) t := by
        rw [whole,List.flatMap_append]
        exact List.mem_append_left _ among
      have rest := removable_rest (fun k' member => each k' (List.mem_append_left _ member)) both
        (fun x among gone => across among gone) fun j order x among => node.clear j order x (early x among)
      have removable : Removable s₂.node (d + 1) (s₂.node b) front := by
        refine ⟨?_,rest⟩
        rw [node.pHdr] at left
        exact left
      have fresh : b ∉ foot (d + 1) t := fun among => node.clear (i + 1) (Nat.le_refl _) b among node.pHdr
      have distinct' : (b::foot (d + 1) (front : Tree (d + 1))).Nodup := by
        refine List.nodup_cons.mpr ⟨fun among => fresh (early b among),?_⟩
        exact (List.nodup_append'.mp distinct).1
      refine .on (fun level => absurd (Nat.succ.inj level) index) (up_kept index pBh₂ (by rw [count]; exact some_) more)
        (.here (fun zero => absurd zero empty) ?_)
      rw [leftOver_some empty]
      refine ⟨remains_one (d := d + 1) some_ (by rw [same.node]; exact removable) distinct' fun x among => ?_,rfl,
        framed.trans (same.frame _ kept),?_⟩
      · exact (List.mem_cons.mp among).elim (fun here => List.mem_cons.mpr (Or.inl here))
          fun below => List.mem_cons_of_mem _ (early x below)
      · rw [same.hdr,← above.pHdr]
        exact listed₂

end Walk

end Ext4Fuse.Extents
