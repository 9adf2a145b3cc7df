import Ext4Fuse.Extents.GetBlocks
import Ext4Fuse.Extents.Tree

/-! `ext4_find_extent` on an image of any content: what the checks on the way down leave
unchecked. -/
namespace Ext4Fuse.Extents
open Machine Ext4Fuse.Types Super

/-- A node whose header fits its level and its storage. -/
structure Formed (n : Node) (depth room : Nat) : Prop where
  magic : n.ehMagic = ext4ExtMagic
  depth : n.ehDepth = depth
  entries : n.ehEntries ≤ n.ehMax
  max : n.ehMax ≤ room

def roomAt (s : State) (level : Nat) : Nat := if level = 0 then ext4ExtSpaceRoot else ext4ExtSpaceBlock s

/-- What the path selects in the node at a level. -/
def selected (depth : Nat) (path : Path) (level : Nat) : Option Nat :=
  if level = depth then (path.elem level).pExt else (path.elem level).pIdx

def Valid (s : State) (depth : Nat) (path : Path) (level : Nat) : Prop :=
  ∀ p, selected depth path level = some p → p < (s.hdr (path.elem level).pHdr).ehEntries

/-- A path is returned only when it is safe to use, and errors are negative. -/
def FoundSafely (s : State) (block : Nat) (origPath : Option Path) : Prop :=
  match ext4FindExtent s block origPath with
  | (s',.ok path) => ∀ level, level ≤ extDepth s →
    Formed (s'.hdr (path.elem level).pHdr) (extDepth s - level) (roomAt s level) ∧ Valid s' (extDepth s) path level
  | (_,.error err) => Errno.code err < 0

section Way
variable (heap : Nat → Node) (room block : Nat)

/-- The block that the binary search in an index node leads to. -/
def wayBlock (n : Node) : Nat := ext4IdxPblock (n.slot (ext4ExtBinsearchIdx n block))

/-- On the way down from `n` a block that is not marked verified fails its check. -/
def stopped : Nat → Node → (Nat → Bool) → Bool
  | 0, _, _ => false
  | i+1, n, verified =>
    let b := wayBlock block n
    (!verified b && ext4ExtCheck (heap b) i ≠ none) || stopped i (heap b) (Function.update verified b true)

/-- What no check looks at on the way down from `n`: that an index node has entries, that a
block holds its `eh_max` entries, and the header of a block already marked verified. -/
def trusted : Nat → Node → (Nat → Bool) → Prop
  | 0, _, _ => True
  | i+1, n, verified =>
    let b := wayBlock block n
    n.ehEntries ≠ 0 ∧ (heap b).ehMax ≤ room ∧ (verified b = true → Formed (heap b) i room) ∧
      trusted i (heap b) (Function.update verified b true)

end Way

theorem binsearchLoop_lt (key : Nat → Nat) (block : Nat) {count : Nat} (rounds l stop : Nat) (first : 1 ≤ l)
    (inside : l ≤ count) (last : stop ≤ count) : binsearchLoop key block rounds l stop < count := by
  induction rounds generalizing l stop with
  | zero =>
    rw [binsearchLoop]
    omega
  | succ rounds ih =>
    rw [binsearchLoop]
    split
    · simp only
      split
      · exact ih l _ first inside (by omega)
      · exact ih _ stop (by omega) (by omega) last
    · omega

theorem ext4ExtBinsearchIdx_valid (n : Node) (block : Nat) : ext4ExtBinsearchIdx n block < n.ehEntries ↔ n.ehEntries ≠ 0 := by
  constructor
  · exact fun inside => Nat.ne_of_gt (Nat.lt_of_le_of_lt (Nat.zero_le _) inside)
  · exact fun some_ => binsearchLoop_lt _ block _ 1 _ (Nat.le_refl 1) (Nat.pos_of_ne_zero some_) (Nat.le_refl _)

theorem ext4ExtBinsearch_valid {n : Node} {block p : Nat} (found : ext4ExtBinsearch n block = some p) : p < n.ehEntries := by
  rw [ext4ExtBinsearch] at found
  split at found
  · cases found
  · rename_i some_
    obtain rfl := Option.some.inj found
    exact binsearchLoop_lt _ block _ 1 _ (Nat.le_refl 1) (Nat.pos_of_ne_zero some_) (Nat.le_refl _)

/-- A header that passes its check. -/
theorem ext4ExtCheck_formed {n : Node} {depth : Nat} (room : Nat) (passed : ext4ExtCheck n depth = none) :
    Formed n depth room ↔ n.ehMax ≤ room := by
  unfold ext4ExtCheck at passed
  split_ifs at passed with magic level max fits
  exact ⟨fun formed => formed.max,fun small => ⟨not_not.mp magic,not_not.mp level,Nat.not_lt.mp fits,small⟩⟩

theorem ext4ExtCheck_eio {n : Node} {depth : Nat} {err : Errno} (failed : ext4ExtCheck n depth = some err) : err = .eio := by
  unfold ext4ExtCheck at failed
  split_ifs at failed
  all_goals exact (Option.some.inj failed).symm

theorem readExtentTreeBlock_stops {s : State} {b depth : Nat} (fresh : s.verified b = false)
    (failed : ext4ExtCheck (s.node b) depth ≠ none) : ∃ s', readExtentTreeBlock s b depth = (s',some .eio) := by
  obtain ⟨err,failed⟩ := Option.ne_none_iff_exists'.mp failed
  obtain rfl := ext4ExtCheck_eio failed
  refine ⟨fsBrelse (fsBread s b) b,?_⟩
  simp only [readExtentTreeBlock,show (fsBread s b).verified = s.verified from rfl,fresh,
    show (fsBread s b).node = s.node from rfl,failed]
  rfl

/-- A block that is verified or passes its check is read and then verified. -/
theorem readExtentTreeBlock_reads {s : State} {b depth : Nat}
    (passes : ¬(s.verified b = false ∧ ext4ExtCheck (s.node b) depth ≠ none)) :
    ∃ s', readExtentTreeBlock s b depth = (s',none) ∧ Same s s' ∧ s'.verified = Function.update s.verified b true := by
  simp only [readExtentTreeBlock,show (fsBread s b).verified = s.verified from rfl,show (fsBread s b).node = s.node from rfl]
  cases known : s.verified b with
  | true =>
    refine ⟨_,rfl,fsBread_same s b,?_⟩
    rw [← known]
    exact (Function.update_eq_self b s.verified).symm
  | false =>
    have passed : ext4ExtCheck (s.node b) depth = none := not_not.mp fun failed => passes ⟨known,failed⟩
    simp only [passed]
    exact ⟨_,rfl,⟨rfl,rfl,rfl⟩,rfl⟩

/-- The first step down, when it is not stopped. -/
theorem findExtentLoop_enter {block depth i ppos : Nat} {s s' : State} {path : Path} (inside : ppos < depth)
    (read : readExtentTreeBlock s (wayBlock block (s.hdr (path.elem ppos).pHdr)) i = (s',none)) :
    findExtentLoop block depth (i + 1) ppos s path = findExtentLoop block depth i (ppos + 1) s'
      ((path.select ppos (ext4ExtBinsearchIdx (s.hdr (path.elem ppos).pHdr) block)
        (wayBlock block (s.hdr (path.elem ppos).pHdr)) (i + 1)).enter (ppos + 1) (wayBlock block (s.hdr (path.elem ppos).pHdr))) :=
  findExtentLoop_step inside rfl rfl read

theorem findExtentLoop_stop {block depth i ppos : Nat} {s s' : State} {path : Path} {err : Errno}
    (read : readExtentTreeBlock s (wayBlock block (s.hdr (path.elem ppos).pHdr)) i = (s',some err)) :
    ∃ s'', findExtentLoop block depth (i + 1) ppos s path = (s'',.error err) := by
  unfold wayBlock at read
  simp only [findExtentLoop,read]
  exact ⟨_,rfl⟩

theorem findExtentLoop_stopped {block depth i ppos : Nat} (sum : depth = ppos + i) {s : State} {path : Path}
    (stops : stopped s.node block i (s.hdr (path.elem ppos).pHdr) s.verified = true) :
    ∃ s', findExtentLoop block depth i ppos s path = (s',.error .eio) := by
  induction i generalizing ppos s path with
  | zero => nomatch stops
  | succ i ih =>
    rw [stopped] at stops
    generalize way : wayBlock block (s.hdr (path.elem ppos).pHdr) = b at stops
    by_cases here : s.verified b = false ∧ ext4ExtCheck (s.node b) i ≠ none
    · obtain ⟨s',read⟩ := readExtentTreeBlock_stops here.1 here.2
      exact findExtentLoop_stop (way.symm ▸ read)
    · obtain ⟨s',read,same,known⟩ := readExtentTreeBlock_reads here
      rw [findExtentLoop_enter (by omega) (way.symm ▸ read),way]
      refine ih (by omega) ?_
      have later : stopped s.node block i (s.node b) (Function.update s.verified b true) = true := by
        rcases Bool.or_eq_true_iff.mp stops with now | later
        · simp only [Bool.and_eq_true,Bool.not_eq_true',decide_eq_true_eq] at now
          exact absurd now here
        · exact later
      rw [Path.enter,Path.set_self,same.node,known]
      show stopped s.node block i (s'.node b) _ = true
      rwa [same.node]

/-- The levels below `ppos` are formed, and from `ppos` on the selections are valid, just
when what the code trusts holds. -/
theorem findExtentLoop_trusted {block depth i ppos : Nat} (sum : depth = ppos + i) {s : State} {path : Path}
    (runs : stopped s.node block i (s.hdr (path.elem ppos).pHdr) s.verified = false) :
    ∃ s' path', findExtentLoop block depth i ppos s path = (s',.ok path') ∧ Same s s' ∧
      (∀ j, j < ppos → path'.elem j = path.elem j) ∧ (path'.elem ppos).pHdr = (path.elem ppos).pHdr ∧
      (((∀ level, ppos < level → level ≤ depth →
            Formed (s'.hdr (path'.elem level).pHdr) (depth - level) (ext4ExtSpaceBlock s)) ∧
          ∀ level, ppos ≤ level → level ≤ depth → Valid s' depth path' level) ↔
        trusted s.node (ext4ExtSpaceBlock s) block i (s.hdr (path.elem ppos).pHdr) s.verified) := by
  induction i generalizing ppos s path with
  | zero =>
    obtain ⟨pHdr,_⟩ := leafElem_rest (path.elem ppos) (s.hdr (path.elem ppos).pHdr)
      (ext4ExtBinsearch (s.hdr (path.elem ppos).pHdr) block)
    refine ⟨s,_,rfl,Same.refl s,fun j before => Path.set_other _ _ (Nat.ne_of_lt before),?_,fun _ => trivial,fun _ => ⟨?_,?_⟩⟩
    · rw [Path.set_self]
      exact pHdr
    · exact fun level after inside => absurd inside (by omega)
    · intro level least inside p found
      obtain rfl : level = ppos := by omega
      rw [selected,if_pos (by omega),Path.set_self,leafElem_pExt] at found
      rw [Path.set_self,pHdr]
      exact ext4ExtBinsearch_valid found
  | succ i ih =>
    rw [stopped] at runs
    rw [trusted]
    generalize way : wayBlock block (s.hdr (path.elem ppos).pHdr) = b at runs ⊢
    obtain ⟨now,later⟩ := Bool.or_eq_false_iff.mp runs
    have passes : ¬(s.verified b = false ∧ ext4ExtCheck (s.node b) i ≠ none) := by
      rintro ⟨fresh,failed⟩
      simp [fresh,failed] at now
    obtain ⟨s₁,read,same,known⟩ := readExtentTreeBlock_reads passes
    rw [findExtentLoop_enter (by omega) (way.symm ▸ read),way]
    have entered : ((path.select ppos (ext4ExtBinsearchIdx (s.hdr (path.elem ppos).pHdr) block) b (i + 1)).enter
        (ppos + 1) b).elem (ppos + 1) = {path.elem (ppos + 1) with pBh := some b,pHdr := some b} := by
      rw [Path.enter,Path.set_self,Path.select,Path.set_other _ _ (Nat.succ_ne_self ppos)]
    have before (j : Nat) (least : j < ppos) : ((path.select ppos (ext4ExtBinsearchIdx (s.hdr (path.elem ppos).pHdr) block) b
        (i + 1)).enter (ppos + 1) b).elem j = path.elem j := by
      rw [Path.enter,Path.set_other _ _ (by omega),Path.select,Path.set_other _ _ (by omega)]
    have here : ((path.select ppos (ext4ExtBinsearchIdx (s.hdr (path.elem ppos).pHdr) block) b (i + 1)).enter
        (ppos + 1) b).elem ppos = {path.elem ppos with
          pIdx := some (ext4ExtBinsearchIdx (s.hdr (path.elem ppos).pHdr) block),pIn := (path.elem ppos).pHdr,pBlock := b,pDepth := i + 1,
          pExt := none} := by
      rw [Path.enter,Path.set_other _ _ (Nat.ne_of_lt (Nat.lt_succ_self ppos)),Path.select,Path.set_self]
    generalize (path.select ppos (ext4ExtBinsearchIdx (s.hdr (path.elem ppos).pHdr) block) b (i + 1)).enter (ppos + 1) b = path₁
      at entered before here
    have child : s₁.hdr (path₁.elem (ppos + 1)).pHdr = s.node b := by
      rw [entered]
      exact congrFun same.node b
    obtain ⟨s',path',result,same',kept,pHdr,levels⟩ := @ih (ppos + 1) (by omega) s₁ path₁
      (by rw [child,same.node,known]; exact later)
    rw [child,same.node,same.spaceBlock,known] at levels
    have top : path'.elem ppos = path₁.elem ppos := kept ppos (Nat.lt_succ_self ppos)
    have node : s'.hdr (path'.elem (ppos + 1)).pHdr = s.node b := by rw [pHdr,same'.hdr,child]
    have first : Valid s' depth path' ppos ↔ (s.hdr (path.elem ppos).pHdr).ehEntries ≠ 0 := by
      rw [Valid,selected,if_neg (by omega),top,here,same'.hdr,same.hdr,← ext4ExtBinsearchIdx_valid _ block]
      exact ⟨fun valid => valid _ rfl,fun valid p found => Option.some.inj found ▸ valid⟩
    have formed : Formed (s.node b) i (ext4ExtSpaceBlock s) ↔ (s.node b).ehMax ≤ ext4ExtSpaceBlock s ∧
        (s.verified b = true → Formed (s.node b) i (ext4ExtSpaceBlock s)) := by
      refine ⟨fun formed => ⟨formed.max,fun _ => formed⟩,fun both => ?_⟩
      obtain ⟨small,marked⟩ := both
      cases fresh : s.verified b with
      | true => exact marked fresh
      | false => exact (ext4ExtCheck_formed _ (not_not.mp fun failed => passes ⟨fresh,failed⟩)).mpr small
    refine ⟨s',path',result,same.trans same',fun j least => ?_,?_,?_⟩
    · rw [kept j (Nat.lt_succ_of_lt least),before j least]
    · rw [top,here]
    · rw [← and_assoc (a := _ ≤ _),← formed,← levels,← first]
      constructor
      · rintro ⟨all,valid⟩
        have next := all (ppos + 1) (Nat.lt_succ_self ppos) (by omega)
        rw [node,show depth - (ppos + 1) = i by omega] at next
        exact ⟨valid ppos (Nat.le_refl _) (by omega),next,fun level after => all level (by omega),fun level after => valid level (by omega)⟩
      · rintro ⟨valid,next,all,rest⟩
        refine ⟨fun level after inside => ?_,fun level after inside => ?_⟩
        · rcases Nat.eq_or_lt_of_le (Nat.succ_le_of_lt after) with rfl | beyond
          · rwa [node,show depth - (ppos + 1) = i by omega]
          · exact all level beyond inside
        · rcases Nat.eq_or_lt_of_le after with rfl | beyond
          · exact valid
          · exact rest level beyond inside

theorem foldl_verified {α : Type} (step : State × Path → α → State × Path)
    (one : ∀ s path a, (step (s,path) a).1.verified = s.verified) (xs : List α) (s : State) (path : Path) :
    (xs.foldl step (s,path)).1.verified = s.verified := by
  induction xs generalizing s path with
  | nil => rfl
  | cons a xs ih => exact (ih _ _).trans (one s path a)

theorem ext4ExtDropRefs_verified (s : State) (path : Path) (i : Nat) (keepOther : Bool) :
    (ext4ExtDropRefs s path i keepOther).1.verified = s.verified := by
  apply foldl_verified
  intro s path j
  simp only
  split <;> rfl

/-- The search starts at the root, with the nodes and marks of the state it is called in. -/
theorem ext4FindExtent_start (s : State) (block : Nat) (origPath : Option Path) : ∃ s₁ path₁, Same s s₁ ∧
    s₁.verified = s.verified ∧ (path₁.elem 0).pHdr = none ∧
      ext4FindExtent s block origPath = findExtentLoop block (extDepth s) (extDepth s) 0 s₁ path₁ := by
  cases origPath with
  | none => exact ⟨s,_,Same.refl s,rfl,by rw [Path.set_self],rfl⟩
  | some path => exact ⟨_,_,ext4ExtDropRefs_same s path 0 false,ext4ExtDropRefs_verified s path 0 false,by rw [Path.set_self],rfl⟩

/-- What `ext4_find_extent` takes for granted: a root with the magic and with entries that
fit, and the rest on the way down. -/
def Trusted (s : State) (block : Nat) : Prop :=
  Formed s.inode.rawInode.iData (extDepth s) ext4ExtSpaceRoot ∧
    trusted s.node (ext4ExtSpaceBlock s) block (extDepth s) s.inode.rawInode.iData s.verified

theorem ext4FindExtent_safely_iff (s : State) (block : Nat) (origPath : Option Path) : FoundSafely s block origPath ↔
    stopped s.node block (extDepth s) s.inode.rawInode.iData s.verified = true ∨ Trusted s block := by
  obtain ⟨s₁,path₁,same,known,root,start⟩ := ext4FindExtent_start s block origPath
  have top : s₁.hdr (path₁.elem 0).pHdr = s.inode.rawInode.iData := by
    rw [root,same.hdr]
    rfl
  cases stops : stopped s.node block (extDepth s) s.inode.rawInode.iData s.verified with
  | true =>
    obtain ⟨s',result⟩ := @findExtentLoop_stopped block _ _ _ (Nat.zero_add (extDepth s)).symm s₁ path₁
      (by rw [top,same.node,known]; exact stops)
    refine ⟨fun _ => Or.inl rfl,fun _ => ?_⟩
    rw [FoundSafely,start,result]
    exact (by decide : Errno.code .eio < 0)
  | false =>
    obtain ⟨s',path',result,same',_,pHdr,levels⟩ := @findExtentLoop_trusted block _ _ _
      (Nat.zero_add (extDepth s)).symm s₁ path₁ (by rw [top,same.node,known]; exact stops)
    rw [top,same.node,same.spaceBlock,known] at levels
    have root' : s'.hdr (path'.elem 0).pHdr = s.inode.rawInode.iData := by rw [pHdr,same'.hdr,top]
    rw [FoundSafely,start,result]
    simp only [Bool.false_eq_true,false_or,Trusted,← levels]
    constructor
    · intro safe
      have first := (safe 0 (Nat.zero_le _)).1
      rw [root'] at first
      refine ⟨first,fun level after inside => ?_,fun level _ inside => (safe level inside).2⟩
      have formed := (safe level inside).1
      rwa [roomAt,if_neg (Nat.ne_of_gt after)] at formed
    · rintro ⟨first,all,valid⟩ level inside
      refine ⟨?_,valid level (Nat.zero_le _) inside⟩
      rcases Nat.eq_zero_or_pos level with rfl | positive
      · rw [root']
        exact first
      · rw [roomAt,if_neg (Nat.ne_of_gt positive)]
        exact all level positive inside

/-- An inode whose `i_block` is all zeros. -/
def blankFile : State where
  volume := Alloc.oneFree
  inode := ⟨12,false,⟨0,0,0,0,0,⟨0,0,0,0,fun _ => ⟨0,0,0⟩⟩⟩⟩
  node := fun _ => ⟨0,0,0,0,fun _ => ⟨0,0,0⟩⟩
  verified := fun _ => false
  count := fun _ => 0

/-- The root is never checked. -/
theorem ext4FindExtent_blank : ¬FoundSafely blankFile 0 none := by
  intro safe
  have found : ∃ s' path, ext4FindExtent blankFile 0 none = (s',.ok path) ∧ (s'.hdr (path.elem 0).pHdr).ehMagic = 0 :=
    ⟨_,_,rfl,rfl⟩
  obtain ⟨s',path,result,magic⟩ := found
  rw [FoundSafely,result] at safe
  have right := (safe 0 (Nat.zero_le _)).1.magic
  rw [magic] at right
  exact absurd right (by decide)

end Ext4Fuse.Extents
