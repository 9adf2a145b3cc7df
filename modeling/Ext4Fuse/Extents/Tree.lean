import Ext4Fuse.Extents.Find
import Ext4Fuse.Library.Segments

/-! What the nodes of an extent tree hold: a tree of a fixed depth, its extents from left
to right, and when it is well formed. -/
namespace Ext4Fuse.Extents
open Machine Ext4Fuse.Types Super Library.Segments

/-- An index entry with the tree below it. -/
structure Kid (T : Type) where
  key : Nat
  block : Nat
  tree : T

def Tree : Nat → Type
  | 0 => List Slot
  | d+1 => List (Kid (Tree d))

abbrev extentsOf (t : Tree 0) : List Slot := t
abbrev kidsOf {d : Nat} (t : Tree (d + 1)) : List (Kid (Tree d)) := t

/-- The extents of a tree, from left to right. -/
def flat : (d : Nat) → Tree d → List Slot
  | 0, t => extentsOf t
  | d+1, t => (kidsOf t).flatMap fun k => flat d k.tree

/-- The blocks that hold the nodes below the root. -/
def foot : (d : Nat) → Tree d → List Nat
  | 0, _ => []
  | d+1, t => (kidsOf t).flatMap fun k => k.block::foot d k.tree

/-- The keys of all index entries. -/
def keys : (d : Nat) → Tree d → List Nat
  | 0, _ => []
  | d+1, t => (kidsOf t).flatMap fun k => k.key::keys d k.tree

def entries : (d : Nat) → Tree d → Nat
  | 0, t => (extentsOf t).length
  | _+1, t => (kidsOf t).length

/-- The logical block behind an extent. -/
def extentStop (x : Slot) : Nat := x.eeBlock + ext4ExtGetActualLen x

def extentAt (x : Slot) (low high : Nat) : Prop := x.eeBlock = low ∧ extentStop x = high ∧ low < high

/-- A tree whose extents lie in order between the bounds; the tree below an index entry has
an entry and lies between the entry's key and the next one. -/
def Wf : (d : Nat) → Nat → Tree d → Nat → Prop
  | 0, low, t, high => Tiled extentAt low (extentsOf t) high
  | d+1, low, t, high => Tiled (fun k a b => k.key = a ∧ entries d k.tree ≠ 0 ∧ Wf d a k.tree b) low (kidsOf t) high

def kidAt (d : Nat) (k : Kid (Tree d)) (low high : Nat) : Prop :=
  k.key = low ∧ entries d k.tree ≠ 0 ∧ Wf d low k.tree high

theorem wf_succ (d low high : Nat) (t : Tree (d + 1)) : Wf (d + 1) low t high ↔ Tiled (kidAt d) low (kidsOf t) high :=
  Iff.rfl

def covers (x : Slot) (b : Nat) : Prop := x.eeBlock ≤ b ∧ b < extentStop x

instance (x : Slot) (b : Nat) : Decidable (covers x b) := inferInstanceAs (Decidable (_ ∧ _))

theorem extentAt_forward (x : Slot) (a b : Nat) (at_ : extentAt x a b) : a ≤ b := Nat.le_of_lt at_.2.2

theorem wf_flat {d : Nat} {t : Tree d} {low high : Nat} (wf : Wf d low t high) : Tiled extentAt low (flat d t) high := by
  induction d generalizing low high with
  | zero => exact wf
  | succ d ih => exact Tiled.flatMap (fun k _ a b at_ => ih at_.2.2) wf

theorem wf_le {d : Nat} {t : Tree d} {low high : Nat} (wf : Wf d low t high) : low ≤ high :=
  (wf_flat wf).le extentAt_forward

theorem kidAt_forward (d : Nat) (k : Kid (Tree d)) (a b : Nat) (at_ : kidAt d k a b) : a ≤ b := wf_le at_.2.2

theorem wf_widen {d : Nat} {t : Tree d} {low high low' high' : Nat} (wf : Wf d low t high) (less : low' ≤ low)
    (more : high ≤ high') : Wf d low' t high' := by
  cases d with
  | zero => exact Tiled.widen wf less more
  | succ d => exact @Tiled.widen _ _ _ (kidAt d) _ _ _ _ _ wf less more

theorem wf_bounds {d : Nat} {t : Tree d} {low high : Nat} (wf : Wf d low t high) {x : Slot} (member : x ∈ flat d t) :
    low ≤ x.eeBlock ∧ x.eeBlock < extentStop x ∧ extentStop x ≤ high := by
  obtain ⟨a,b,start,⟨rfl,rfl,some_⟩,stop⟩ := (wf_flat wf).bounds extentAt_forward member
  exact ⟨start,some_,stop⟩

theorem flat_ne_nil {d : Nat} {t : Tree d} {low high : Nat} (wf : Wf d low t high) (some_ : entries d t ≠ 0) :
    flat d t ≠ [] := by
  induction d generalizing low high with
  | zero => exact fun empty => some_ (List.length_eq_zero_iff.mpr empty)
  | succ d ih =>
    obtain ⟨k,member⟩ := List.exists_mem_of_length_pos (Nat.pos_of_ne_zero some_)
    obtain ⟨a,b,_,⟨_,kids,inside⟩,_⟩ := Tiled.bounds (kidAt_forward d) wf member
    obtain ⟨x,here⟩ := List.exists_mem_of_ne_nil _ (ih inside kids)
    exact List.ne_nil_of_mem (List.mem_flatMap.mpr ⟨k,member,here⟩)

theorem wf_apart {d : Nat} {t : Tree d} {low high : Nat} (wf : Wf d low t high) :
    (flat d t).Pairwise fun x y => extentStop x ≤ y.eeBlock :=
  (wf_flat wf).apart (fun _ _ _ at_ => ⟨at_.1,at_.2.1⟩) extentAt_forward

/-- What a logical block maps to: its physical block and whether it is unwritten. -/
def mapping (extents : List Slot) (b : Nat) : Option (Nat × Bool) :=
  (extents.find? fun x => covers x b).map fun x => (ext4ExtPblock x + (b - x.eeBlock),ext4ExtIsUnwritten x)

theorem mapping_none {extents : List Slot} {b : Nat} (hole : ∀ x ∈ extents, ¬covers x b) : mapping extents b = none := by
  rw [mapping,List.find?_eq_none.mpr fun x member => by simpa using hole x member]
  rfl

theorem mapping_some {extents : List Slot} {b : Nat} {x : Slot} (member : x ∈ extents) (covered : covers x b)
    (only : ∀ y ∈ extents, covers y b → y = x) :
    mapping extents b = some (ext4ExtPblock x + (b - x.eeBlock),ext4ExtIsUnwritten x) := by
  rw [mapping]
  generalize found : extents.find? (fun x => covers x b) = result
  cases result with
  | none => exact absurd covered (by simpa using List.find?_eq_none.mp found x member)
  | some y =>
    rw [only y (List.mem_of_find?_eq_some found) (by simpa using List.find?_some found)]
    rfl

/-! Where the nodes are kept. -/

/-- A node's header: its kind, its number of entries, and room for at most `limit`. -/
structure Header (n : Node) (depth limit count : Nat) : Prop where
  magic : n.ehMagic = ext4ExtMagic
  depth : n.ehDepth = depth
  entries : n.ehEntries = count
  fits : count ≤ n.ehMax
  max : 0 < n.ehMax
  limit : n.ehMax ≤ limit

def points (n : Node) (i : Nat) (key block : Nat) : Prop := (n.slot i).eiBlock = key ∧ ext4IdxPblock (n.slot i) = block

/-- Node `n` holds the top of a tree and the blocks of `heap` hold the rest. -/
def Holds (heap : Nat → Node) (room : Nat) : (d : Nat) → Nat → Node → Tree d → Prop
  | 0, limit, n, t => Header n 0 limit (extentsOf t).length ∧
    ∀ (i : Nat) (x : Slot), (extentsOf t)[i]? = some x → n.slot i = x
  | d+1, limit, n, t => Header n (d + 1) limit (kidsOf t).length ∧
    (∀ (i : Nat) (k : Kid (Tree d)), (kidsOf t)[i]? = some k → points n i k.key k.block) ∧
    ∀ k ∈ kidsOf t, Holds heap room d room (heap k.block) k.tree

theorem Holds.header {heap : Nat → Node} {room d limit : Nat} {n : Node} {t : Tree d}
    (holds : Holds heap room d limit n t) : Header n d limit (entries d t) := by
  cases d with
  | zero => exact holds.1
  | succ d => exact holds.1

theorem Holds.frame {heap heap' : Nat → Node} {room d limit : Nat} {n : Node} {t : Tree d}
    (holds : Holds heap room d limit n t) (same : ∀ b ∈ foot d t, heap' b = heap b) : Holds heap' room d limit n t := by
  induction d generalizing limit n with
  | zero => exact holds
  | succ d ih =>
    refine ⟨holds.1,holds.2.1,fun k member => ?_⟩
    have here : k.block ∈ foot (d + 1) t := List.mem_flatMap.mpr ⟨k,member,List.mem_cons_self⟩
    rw [same _ here]
    exact ih (holds.2.2 k member) fun b below => same b (List.mem_flatMap.mpr ⟨k,member,List.mem_cons_of_mem _ below⟩)

/-- A node holds one tree of a depth. -/
theorem Holds.unique {heap : Nat → Node} {room d limit limit' : Nat} {n : Node} {t t' : Tree d}
    (holds : Holds heap room d limit n t) (other : Holds heap room d limit' n t') : t = t' := by
  induction d generalizing limit limit' n with
  | zero =>
    refine List.ext_getElem (holds.1.entries.symm.trans other.1.entries) fun i inside inside' => ?_
    rw [← holds.2 i _ (List.getElem?_eq_getElem inside),← other.2 i _ (List.getElem?_eq_getElem inside')]
  | succ d ih =>
    refine List.ext_getElem (holds.1.entries.symm.trans other.1.entries) fun i inside inside' => ?_
    obtain ⟨key,block⟩ := holds.2.1 i _ (List.getElem?_eq_getElem inside)
    obtain ⟨key',block'⟩ := other.2.1 i _ (List.getElem?_eq_getElem inside')
    have below := holds.2.2 _ (List.getElem_mem inside)
    have below' := other.2.2 _ (List.getElem_mem inside')
    rw [← block] at below
    rw [← block'] at below'
    have same := ih below below'
    cases one : (kidsOf t)[i]
    cases two : (kidsOf t')[i]
    rw [one] at key block same
    rw [two] at key' block' same
    rw [Kid.mk.injEq]
    exact ⟨key.symm.trans key',block.symm.trans block',same⟩

/-- The state holds a well-formed tree of depth `d` in the inode and in blocks of their own. -/
structure HasTree (s : State) (d : Nat) (t : Tree d) : Prop where
  holds : Holds s.node (ext4ExtSpaceBlock s) d ext4ExtSpaceRoot s.inode.rawInode.iData t
  distinct : (foot d t).Nodup
  wf : Wf d 0 t (2^32)
  nonempty : d = 0 ∨ entries d t ≠ 0

theorem HasTree.depth {s : State} {d : Nat} {t : Tree d} (tree : HasTree s d t) : extDepth s = d := tree.holds.header.depth

theorem HasTree.unique {s : State} {d d' : Nat} {t : Tree d} {t' : Tree d'} (tree : HasTree s d t) (other : HasTree s d' t') :
    flat d t = flat d' t' := by
  obtain rfl := tree.depth.symm.trans other.depth
  rw [tree.holds.unique other.holds]

/-- The states agree in all but buffer bookkeeping. -/
structure Same (s s' : State) : Prop where
  volume : s'.volume = s.volume
  inode : s'.inode = s.inode
  node : s'.node = s.node

theorem Same.refl (s : State) : Same s s := ⟨rfl,rfl,rfl⟩

theorem Same.trans {s s' s'' : State} (one : Same s s') (two : Same s' s'') : Same s s'' :=
  ⟨two.volume.trans one.volume,two.inode.trans one.inode,two.node.trans one.node⟩

theorem Same.hdr {s s' : State} (same : Same s s') (at_ : Option Nat) : s'.hdr at_ = s.hdr at_ := by
  cases at_ with
  | none => exact congrArg (fun i : Inode => i.rawInode.iData) same.inode
  | some b => exact congrFun same.node b

theorem Same.spaceBlock {s s' : State} (same : Same s s') : ext4ExtSpaceBlock s' = ext4ExtSpaceBlock s := by
  unfold ext4ExtSpaceBlock
  rw [same.volume]

theorem Same.hasTree {s s' : State} (same : Same s s') {d : Nat} {t : Tree d} (tree : HasTree s d t) : HasTree s' d t := by
  refine ⟨?_,tree.distinct,tree.wf,tree.nonempty⟩
  rw [same.node,same.inode,same.spaceBlock]
  exact tree.holds

theorem fsBread_same (s : State) (b : Nat) : Same s (fsBread s b) := ⟨rfl,rfl,rfl⟩
theorem fsBrelse_same (s : State) (b : Nat) : Same s (fsBrelse s b) := ⟨rfl,rfl,rfl⟩

theorem foldl_same {α : Type} (step : State × Path → α → State × Path)
    (one : ∀ s path a, Same s (step (s,path) a).1) (xs : List α) (s : State) (path : Path) :
    Same s (xs.foldl step (s,path)).1 := by
  induction xs generalizing s path with
  | nil => exact Same.refl s
  | cons a xs ih => exact (one s path a).trans (ih _ _)

theorem ext4ExtDropRefs_same (s : State) (path : Path) (i : Nat) (keepOther : Bool) :
    Same s (ext4ExtDropRefs s path i keepOther).1 := by
  apply foldl_same
  intro s path j
  simp only
  split
  · exact fsBrelse_same s _
  · exact Same.refl s

/-- A block with a good header is read. -/
theorem readExtentTreeBlock_good (s : State) {pblk depth limit count : Nat} (header : Header (s.node pblk) depth limit count) :
    ∃ s', readExtentTreeBlock s pblk depth = (s',none) ∧ Same s s' := by
  have good : ext4ExtCheck (s.node pblk) depth = none := by
    have max := header.max
    have fits := header.fits
    rw [← header.entries] at fits
    simp only [ext4ExtCheck,header.magic,header.depth,ne_eq,not_true_eq_false,if_false]
    rw [if_neg (by omega),if_neg (by omega)]
  unfold readExtentTreeBlock
  simp only [show (fsBread s pblk).node = s.node from rfl,good]
  split
  · exact ⟨_,rfl,fsBread_same s pblk⟩
  · exact ⟨_,rfl,rfl,rfl,rfl⟩

/-! The way down to a block. -/

/-- `x` is the last item, not counting the first, whose key is not above `block`. -/
structure Chosen {α : Type} (key : α → Nat) (block : Nat) (xs l : List α) (x : α) (r : List α) : Prop where
  parts : xs = l ++ x::r
  below : l ≠ [] → key x ≤ block
  above : ∀ y ∈ r, block < key y

theorem binsearchLoop_chosen {α : Type} {key : α → Nat} {block : Nat} {xs : List α} {at_ : Nat → Nat}
    (reads : ∀ (i : Nat) (x : α), xs[i]? = some x → at_ i = key x)
    (sorted : xs.Pairwise fun x y => key x ≤ key y) (some_ : xs ≠ []) :
    ∃ l x r, Chosen key block xs l x r ∧ binsearchLoop at_ block xs.length 1 xs.length = l.length := by
  have order (i j : Nat) (_ : 1 ≤ i) (before : i < j) (inside : j < xs.length) : at_ i ≤ at_ j := by
    rw [reads i _ (List.getElem?_eq_getElem (Nat.lt_trans before inside)),reads j _ (List.getElem?_eq_getElem inside)]
    exact List.pairwise_iff_getElem.mp sorted i j (Nat.lt_trans before inside) inside before
  have found := @binsearchLoop_start _ block _ order
  generalize binsearchLoop at_ block xs.length 1 xs.length = p at found
  have inside : p < xs.length := by
    have := found.inside
    have := List.length_pos_iff.mpr some_
    omega
  refine ⟨xs.take p,xs[p],xs.drop (p + 1),⟨?_,?_,?_⟩,?_⟩
  · rw [← List.drop_eq_getElem_cons inside,List.take_append_drop]
  · intro front
    have positive : 0 < p := by
      by_contra zero
      exact front (by rw [show p = 0 by omega,List.take_zero])
    rw [← reads p _ (List.getElem?_eq_getElem inside)]
    exact found.below positive
  · intro y member
    obtain ⟨i,bound,rfl⟩ := List.getElem_of_mem member
    rw [List.length_drop] at bound
    rw [List.getElem_drop,← reads _ _ (List.getElem?_eq_getElem (by omega))]
    exact found.above _ (by omega) (by omega)
  · rw [List.length_take]
    omega

/-- From element `level` on the path leads through the nodes of the tree to `block`. -/
def OnPath (block : Nat) (path : Path) : (d : Nat) → Tree d → Option Nat → Nat → Prop
  | 0, t, at_, level => (path.elem level).pHdr = at_ ∧ (path.elem level).pDepth = 0 ∧ (path.elem level).pIdx = none ∧
    (extentsOf t = [] ∧ (path.elem level).pExt = none ∨
      ∃ l x r, Chosen Slot.eeBlock block (extentsOf t) l x r ∧ (path.elem level).pExt = some l.length)
  | d+1, t, at_, level => (path.elem level).pHdr = at_ ∧ (path.elem level).pDepth = d + 1 ∧
    ∃ l k r, Chosen Kid.key block (kidsOf t) l k r ∧ (path.elem level).pIdx = some l.length ∧
      (path.elem (level + 1)).pBh = some k.block ∧ OnPath block path d k.tree (some k.block) (level + 1)

theorem onPath_pHdr {block : Nat} {path : Path} {d : Nat} {t : Tree d} {at_ : Option Nat} {level : Nat}
    (onPath : OnPath block path d t at_ level) : (path.elem level).pHdr = at_ := by
  cases d with
  | zero => exact onPath.1
  | succ d => exact onPath.1

theorem wf_sorted {d low high : Nat} {t : Tree (d + 1)} (wf : Wf (d + 1) low t high) :
    (kidsOf t).Pairwise fun k k' => k.key ≤ k'.key :=
  @Tiled.sorted _ _ _ (kidAt d) _ _ _ _ (fun _ _ _ at_ => at_.1) (kidAt_forward d) wf

theorem extents_sorted {low high : Nat} {t : Tree 0} (wf : Wf 0 low t high) :
    (extentsOf t).Pairwise fun x y => x.eeBlock ≤ y.eeBlock :=
  @Tiled.sorted _ _ _ extentAt _ _ _ _ (fun _ _ _ at_ => at_.1) extentAt_forward wf

/-- The end of the way, in the leaf. -/
theorem findExtentLoop_leaf {block depth ppos : Nat} {s : State} {path : Path} {t : Tree 0} {limit low high : Nat}
    (holds : Holds s.node (ext4ExtSpaceBlock s) 0 limit (s.hdr (path.elem ppos).pHdr) t) (wf : Wf 0 low t high) :
    ∃ path', findExtentLoop block depth 0 ppos s path = (s,.ok path') ∧
      OnPath block path' 0 t (path.elem ppos).pHdr ppos ∧ (path'.elem ppos).pBh = (path.elem ppos).pBh ∧
      (∀ j, j < ppos → path'.elem j = path.elem j) ∧ path'.pMaxdepth = path.pMaxdepth := by
  have rest := leafElem_rest (path.elem ppos) (s.hdr (path.elem ppos).pHdr)
    (ext4ExtBinsearch (s.hdr (path.elem ppos).pHdr) block)
  obtain ⟨pHdr,pBh,pDepth,pIdx⟩ := rest
  refine ⟨_,rfl,?_,?_,fun j before => Path.set_other _ _ (Nat.ne_of_lt before),rfl⟩
  · rw [OnPath,Path.set_self]
    refine ⟨pHdr,pDepth,pIdx,?_⟩
    rw [leafElem_pExt,ext4ExtBinsearch,holds.1.entries]
    rcases Classical.em (extentsOf t = []) with empty | some_
    · rw [if_pos (List.length_eq_zero_iff.mpr empty)]
      exact Or.inl ⟨empty,rfl⟩
    · obtain ⟨l,x,r,chosen,position⟩ := @binsearchLoop_chosen _ Slot.eeBlock block _
        (fun i => ((s.hdr (path.elem ppos).pHdr).slot i).eeBlock)
        (fun i x here => congrArg Slot.eeBlock (holds.2 i x here)) (extents_sorted wf) some_
      rw [if_neg (fun zero => some_ (List.length_eq_zero_iff.mp zero)),position]
      exact Or.inr ⟨l,x,r,chosen,rfl⟩
  · rw [Path.set_self]
    exact pBh

theorem findExtentLoop_step {block depth i ppos pIdx pBlock : Nat} {s s' : State} {path : Path}
    (inside : ppos < depth) (found : ext4ExtBinsearchIdx (s.hdr (path.elem ppos).pHdr) block = pIdx)
    (points : ext4IdxPblock ((s.hdr (path.elem ppos).pHdr).slot pIdx) = pBlock)
    (read : readExtentTreeBlock s pBlock i = (s',none)) :
    findExtentLoop block depth (i + 1) ppos s path =
      findExtentLoop block depth i (ppos + 1) s' ((path.select ppos pIdx pBlock (i + 1)).enter (ppos + 1) pBlock) := by
  simp only [findExtentLoop,found,points,read]
  rw [if_neg (Nat.not_lt.mpr inside)]

/-- In a well-formed tree the way down is found. -/
theorem findExtentLoop_found {block depth d ppos : Nat} (sum : depth = ppos + d) {s : State} {path : Path}
    {t : Tree d} {limit low high : Nat}
    (holds : Holds s.node (ext4ExtSpaceBlock s) d limit (s.hdr (path.elem ppos).pHdr) t) (wf : Wf d low t high)
    (nonempty : d = 0 ∨ entries d t ≠ 0) :
    ∃ s' path', findExtentLoop block depth d ppos s path = (s',.ok path') ∧ Same s s' ∧
      OnPath block path' d t (path.elem ppos).pHdr ppos ∧ (path'.elem ppos).pBh = (path.elem ppos).pBh ∧
      (∀ j, j < ppos → path'.elem j = path.elem j) ∧ path'.pMaxdepth = path.pMaxdepth := by
  induction d generalizing ppos s path limit low high with
  | zero =>
    obtain ⟨path',found,rest⟩ := @findExtentLoop_leaf block depth _ _ _ _ _ _ _ holds wf
    exact ⟨s,path',found,Same.refl s,rest⟩
  | succ d ih =>
    obtain ⟨header,pointers,below⟩ := holds
    have count := header.entries
    have some_ : kidsOf t ≠ [] := fun empty => (nonempty.resolve_left (Nat.succ_ne_zero d)) (by
      rw [entries,empty]
      rfl)
    obtain ⟨l,k,r,chosen,position⟩ := @binsearchLoop_chosen _ Kid.key block _
      (fun i => ((s.hdr (path.elem ppos).pHdr).slot i).eiBlock)
      (fun i x here => (pointers i x here).1) (wf_sorted wf) some_
    have here : (kidsOf t)[l.length]? = some k := by
      rw [chosen.parts,List.getElem?_append_right (Nat.le_refl _),Nat.sub_self]
      rfl
    have member : k ∈ kidsOf t := List.mem_of_getElem? here
    have kid := below k member
    obtain ⟨a,b,_,inside,_⟩ := Tiled.bounds (kidAt_forward d) wf member
    obtain ⟨s₁,read,same⟩ := readExtentTreeBlock_good s kid.header
    have found : ext4ExtBinsearchIdx (s.hdr (path.elem ppos).pHdr) block = l.length := by
      rw [ext4ExtBinsearchIdx,count]
      exact position
    rw [findExtentLoop_step (by omega) found (pointers _ k here).2 read]
    have entered : ((path.select ppos l.length k.block (d + 1)).enter (ppos + 1) k.block).elem (ppos + 1) =
        {path.elem (ppos + 1) with pBh := some k.block,pHdr := some k.block} := by
      rw [Path.enter,Path.set_self,Path.select,Path.set_other _ _ (Nat.succ_ne_self ppos)]
    have before (j : Nat) (least : j < ppos) :
        ((path.select ppos l.length k.block (d + 1)).enter (ppos + 1) k.block).elem j = path.elem j := by
      rw [Path.enter,Path.set_other _ _ (by omega),Path.select,Path.set_other _ _ (by omega)]
    have selected : ((path.select ppos l.length k.block (d + 1)).enter (ppos + 1) k.block).elem ppos =
        {path.elem ppos with pIdx := some l.length,pIn := (path.elem ppos).pHdr,pBlock := k.block,pDepth := d + 1,pExt := none} := by
      rw [Path.enter,Path.set_other _ _ (Nat.ne_of_lt (Nat.lt_succ_self ppos)),Path.select,Path.set_self]
    have maxdepth : ((path.select ppos l.length k.block (d + 1)).enter (ppos + 1) k.block).pMaxdepth = path.pMaxdepth := rfl
    generalize (path.select ppos l.length k.block (d + 1)).enter (ppos + 1) k.block = path₁ at entered before selected maxdepth
    have subtree : Holds s₁.node (ext4ExtSpaceBlock s₁) d (ext4ExtSpaceBlock s) (s₁.hdr (path₁.elem (ppos + 1)).pHdr) k.tree := by
      rw [entered,same.hdr,same.node,same.spaceBlock]
      exact kid
    obtain ⟨s',path',result,same',onPath,pBh,kept,maxdepth'⟩ := ih (by omega) subtree inside.2.2 (Or.inr inside.2.1)
    refine ⟨s',path',result,same.trans same',?_,?_,fun j least => ?_,maxdepth'.trans maxdepth⟩
    · rw [entered] at onPath pBh
      have top := (kept ppos (Nat.lt_succ_self ppos)).trans selected
      exact ⟨by rw [top],by rw [top],l,k,r,chosen,by rw [top],pBh,onPath⟩
    · rw [kept ppos (Nat.lt_succ_self ppos),selected]
    · rw [kept j (Nat.lt_succ_of_lt least),before j least]

theorem ext4FindExtent_found {s : State} {d : Nat} {t : Tree d} (tree : HasTree s d t) (block : Nat) (origPath : Option Path) :
    ∃ s' path, ext4FindExtent s block origPath = (s',.ok path) ∧ Same s s' ∧ OnPath block path d t none 0 ∧
      (path.elem 0).pBh = none := by
  have start (s₁ : State) (same : Same s s₁) (path₁ : Path) :
      ∃ s' path, findExtentLoop block d d 0 s₁ (path₁.set 0 {path₁.elem 0 with pHdr := none,pBh := none}) = (s',.ok path) ∧
        Same s s' ∧ OnPath block path d t none 0 ∧ (path.elem 0).pBh = none := by
    have tree₁ := same.hasTree tree
    have holds : Holds s₁.node (ext4ExtSpaceBlock s₁) d ext4ExtSpaceRoot
        (s₁.hdr ((path₁.set 0 {path₁.elem 0 with pHdr := none,pBh := none}).elem 0).pHdr) t := by
      rw [Path.set_self]
      exact tree₁.holds
    obtain ⟨s',path,found,same',onPath,pBh,_⟩ := @findExtentLoop_found block _ _ _ (Nat.zero_add d).symm _ _ _ _ _ _ holds
      tree₁.wf tree₁.nonempty
    rw [Path.set_self] at onPath pBh
    exact ⟨s',path,found,same.trans same',onPath,pBh⟩
  unfold ext4FindExtent
  rw [tree.depth]
  cases origPath with
  | none => exact start s (Same.refl s) _
  | some path => exact start _ (ext4ExtDropRefs_same s path 0 false) _

/-- The extent on the path is the only one that can cover the block. -/
theorem onPath_extent {block d level limit low high : Nat} {s : State} {path : Path} {t : Tree d} {at_ : Option Nat}
    (onPath : OnPath block path d t at_ level) (holds : Holds s.node (ext4ExtSpaceBlock s) d limit (s.hdr at_) t)
    (wf : Wf d low t high) :
    (path.elem (level + d)).pExt = none ∧ flat d t = [] ∨
      ∃ i, (path.elem (level + d)).pExt = some i ∧ (s.hdr (path.elem (level + d)).pHdr).slot i ∈ flat d t ∧
        ∀ y ∈ flat d t, covers y block → y = (s.hdr (path.elem (level + d)).pHdr).slot i := by
  induction d generalizing level limit low high at_ with
  | zero =>
    obtain ⟨pHdr,_,_,⟨empty,pExt⟩ | ⟨l,x,r,chosen,pExt⟩⟩ := onPath
    · exact Or.inl ⟨pExt,empty⟩
    · refine Or.inr ⟨l.length,pExt,?_⟩
      have here : (extentsOf t)[l.length]? = some x := by
        rw [chosen.parts,List.getElem?_append_right (Nat.le_refl _),Nat.sub_self]
        rfl
      rw [Nat.add_zero,pHdr,holds.2 _ x here]
      refine ⟨List.mem_of_getElem? here,fun y member covered => ?_⟩
      have apart := wf_apart wf
      rw [show flat 0 t = l ++ x::r from chosen.parts] at apart member
      obtain ⟨_,rest,across⟩ := List.pairwise_append.mp apart
      rcases List.mem_append.mp member with left | right
      · have before := across y left x List.mem_cons_self
        have below := chosen.below (List.ne_nil_of_mem left)
        exact absurd covered.2 (by omega)
      · rcases List.mem_cons.mp right with rfl | after
        · rfl
        · exact absurd covered.1 (Nat.not_le.mpr (chosen.above y after))
  | succ d ih =>
    obtain ⟨_,_,l,k,r,chosen,_,_,below⟩ := onPath
    have member : k ∈ kidsOf t := by
      rw [chosen.parts]
      exact List.mem_append_right l List.mem_cons_self
    have parts := (wf_succ d low high t).mp wf
    rw [chosen.parts] at parts
    obtain ⟨a,b,left,⟨rfl,some_,inside⟩,right⟩ := (tiled_middle l r k).mp parts
    have flatten : flat (d + 1) t = l.flatMap (fun k => flat d k.tree) ++ (flat d k.tree ++ r.flatMap fun k => flat d k.tree) := by
      rw [flat,chosen.parts,List.flatMap_append,List.flatMap_cons]
    rw [show level + (d + 1) = level + 1 + d by omega,flatten]
    have only (y : Slot) (inTree : y ∈ l.flatMap (fun k => flat d k.tree) ++ (flat d k.tree ++ r.flatMap fun k => flat d k.tree))
        (covered : covers y block) : y ∈ flat d k.tree := by
      rcases List.mem_append.mp inTree with before | rest
      · obtain ⟨k',front,inKid⟩ := List.mem_flatMap.mp before
        obtain ⟨a',b',_,⟨_,_,wf'⟩,stop⟩ := left.bounds (kidAt_forward d) front
        have end_ := (wf_bounds wf' inKid).2.2
        have least := chosen.below (List.ne_nil_of_mem front)
        exact absurd covered.2 (by omega)
      · rcases List.mem_append.mp rest with here | after
        · exact here
        · obtain ⟨k',back,inKid⟩ := List.mem_flatMap.mp after
          obtain ⟨a',b',_,⟨rfl,_,wf'⟩,_⟩ := right.bounds (kidAt_forward d) back
          have first := (wf_bounds wf' inKid).1
          have above := chosen.above k' back
          exact absurd covered.1 (by omega)
    rcases ih below (holds.2.2 k member) inside with ⟨_,empty⟩ | ⟨i,pExt,found,unique⟩
    · exact absurd empty (flat_ne_nil inside some_)
    · exact Or.inr ⟨i,pExt,List.mem_append_right _ (List.mem_append_left _ found),
        fun y inTree covered => unique y (only y inTree covered) covered⟩

end Ext4Fuse.Extents
