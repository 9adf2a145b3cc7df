import Ext4Fuse.Extents.Node

/-! `ext4_find_extent`: a binary search in each node on the way down. -/
namespace Ext4Fuse.Extents
open Machine Ext4Fuse.Types Super

/-- The loop of both binary searches; `stop` is one past `r`. -/
def binsearchLoop (key : Nat → Nat) (block : Nat) : Nat → Nat → Nat → Nat
  | 0, l, _ => l - 1
  | rounds+1, l, stop =>
    if l < stop then
      let m := l + (stop - 1 - l) / 2
      if block < key m then binsearchLoop key block rounds l m
      else binsearchLoop key block rounds (m + 1) stop
    else l - 1

def ext4ExtBinsearchIdx (eh : Node) (block : Nat) : Nat :=
  binsearchLoop (fun i => (eh.slot i).eiBlock) block eh.ehEntries 1 eh.ehEntries

/-- `ext4_ext_binsearch`: `p_ext` stays NULL in an empty leaf. -/
def ext4ExtBinsearch (eh : Node) (block : Nat) : Option Nat :=
  if eh.ehEntries = 0 then none
  else some (binsearchLoop (fun i => (eh.slot i).eeBlock) block eh.ehEntries 1 eh.ehEntries)

def Path.select (path : Path) (ppos pIdx pBlock depth : Nat) : Path :=
  path.set ppos {path.elem ppos with pIdx := some pIdx,pIn := (path.elem ppos).pHdr,pBlock := pBlock,pDepth := depth,pExt := none}

def Path.enter (path : Path) (ppos bh : Nat) : Path :=
  path.set ppos {path.elem ppos with pBh := some bh,pHdr := some bh}

def leafElem (elem : PathElem) (eh : Node) (pExt : Option Nat) : PathElem :=
  let elem := {elem with pDepth := 0,pExt := pExt,pIdx := none,pIn := elem.pHdr}
  match pExt with
  | some ex => {elem with pBlock := ext4ExtPblock (eh.slot ex)}
  | none => elem

@[simp] theorem leafElem_pExt (elem : PathElem) (eh : Node) (pExt : Option Nat) : (leafElem elem eh pExt).pExt = pExt := by
  cases pExt <;> simp [leafElem]

/-- The rest of a leaf's element does not depend on what was found. -/
theorem leafElem_rest (elem : PathElem) (eh : Node) (pExt : Option Nat) :
    (leafElem elem eh pExt).pHdr = elem.pHdr ∧ (leafElem elem eh pExt).pBh = elem.pBh ∧
      (leafElem elem eh pExt).pDepth = 0 ∧ (leafElem elem eh pExt).pIdx = none := by
  cases elem
  cases pExt <;> simp [leafElem]

/-- The `while (i)` loop of `ext4_find_extent`, and what follows it at the leaf. -/
def findExtentLoop (block depth : Nat) : Nat → Nat → State → Path → State × Except Errno Path
  | 0, ppos, s, path =>
    let eh := s.hdr (path.elem ppos).pHdr
    (s,.ok (path.set ppos (leafElem (path.elem ppos) eh (ext4ExtBinsearch eh block))))
  | i+1, ppos, s, path =>
    let eh := s.hdr (path.elem ppos).pHdr
    let pIdx := ext4ExtBinsearchIdx eh block
    let pBlock := ext4IdxPblock (eh.slot pIdx)
    let path := path.select ppos pIdx pBlock (i + 1)
    match readExtentTreeBlock s pBlock i with
    | (s,some err) => ((ext4ExtDropRefs s path 0 false).1,.error err)
    | (s,none) =>
      if depth < ppos + 1 then ((ext4ExtDropRefs (fsBrelse s pBlock) path 0 false).1,.error .eio)
      else findExtentLoop block depth i (ppos + 1) s (path.enter (ppos + 1) pBlock)

def ext4FindExtent (s : State) (block : Nat) (origPath : Option Path) : State × Except Errno Path :=
  let depth := extDepth s
  let (s,path) := match origPath with
    | some path =>
      let (s,path) := ext4ExtDropRefs s path 0 false
      (s,if path.pMaxdepth < depth then zeroPath (depth + 1) else path)
    | none => (s,zeroPath (depth + 1))
  findExtentLoop block depth depth 0 s (path.set 0 {path.elem 0 with pHdr := none,pBh := none})

/-! The binary search finds the last key that is not above the block. -/

/-- `p` is the last entry, not counting the first, whose key is not above `block`. -/
structure LastBelow (key : Nat → Nat) (block count p : Nat) : Prop where
  inside : p = 0 ∨ p < count
  below : 0 < p → key p ≤ block
  above : ∀ j, p < j → j < count → block < key j

theorem binsearchLoop_lastBelow {key : Nat → Nat} {block count : Nat}
    (sorted : ∀ i j, 1 ≤ i → i < j → j < count → key i ≤ key j) (rounds l stop : Nat)
    (enough : stop ≤ rounds + l) (first : 1 ≤ l) (last : stop ≤ count) (order : l ≤ stop ∨ l = 1)
    (below : 1 < l → key (l - 1) ≤ block) (above : ∀ j, stop ≤ j → l ≤ j → j < count → block < key j) :
    LastBelow key block count (binsearchLoop key block rounds l stop) := by
  induction rounds generalizing l stop with
  | zero =>
    rw [binsearchLoop]
    refine ⟨by omega,fun _ => below (by omega),fun j after inside => above j (by omega) (by omega) inside⟩
  | succ rounds ih =>
    rw [binsearchLoop]
    split
    · rename_i more
      simp only
      generalize middle : l + (stop - 1 - l) / 2 = m
      split
      · rename_i left
        refine ih l m (by omega) first (by omega) (by omega) below fun j from_m _ inside => ?_
        rcases Nat.eq_or_lt_of_le from_m with rfl | after
        · exact left
        · exact Nat.lt_of_lt_of_le left (sorted m j (by omega) after inside)
      · rename_i right
        refine ih (m + 1) stop (by omega) (by omega) last (by omega) (fun _ => ?_) fun j past after inside => ?_
        · exact Nat.not_lt.mp right
        · exact above j past (by omega) inside
    · refine ⟨by omega,fun _ => below (by omega),fun j after inside => above j (by omega) (by omega) inside⟩

/-- The search comes to the same entry when only the key found changes and stays below. -/
theorem LastBelow.unique {key key' : Nat → Nat} {block count p p' : Nat} (one : LastBelow key block count p)
    (other : LastBelow key' block count p') (same : ∀ j, j < count → j ≠ p → key j = key' j)
    (fits : 0 < p → key' p ≤ block) : p = p' := by
  rcases Nat.lt_trichotomy p p' with before | equal | after
  · have inside : p' < count := by
      have := other.inside
      omega
    have above := one.above p' before inside
    have below := other.below (by omega)
    rw [same p' inside (by omega)] at above
    omega
  · exact equal
  · have inside : p < count := by
      have := one.inside
      omega
    have above := other.above p after inside
    have below := fits (by omega)
    omega

theorem binsearchLoop_start {key : Nat → Nat} {block count : Nat}
    (sorted : ∀ i j, 1 ≤ i → i < j → j < count → key i ≤ key j) :
    LastBelow key block count (binsearchLoop key block count 1 count) := by
  refine binsearchLoop_lastBelow sorted count 1 count (by omega) (by omega) (by omega) (by omega) ?_ ?_
  · omega
  · omega

end Ext4Fuse.Extents
