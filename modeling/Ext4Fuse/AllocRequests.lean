import Ext4Fuse.Alloc
import Ext4Fuse.Library.Threads

/-! Any number of requests inside `ext4_new_meta_blocks` at once, as the worker threads of
FUSE make them. A request takes one step at a time: the scan of a group, the setting of the
bits it found, the group's counter and the superblock's counter. No lock orders the steps
of different requests. -/
namespace Ext4Fuse.AllocRequests
open Machine Ext4Fuse.Types Bitmap Super Alloc Library.Steps Library.Threads
open scoped BigOperators

/-- The step a request takes next. -/
inductive Pc
  | again (blockGroup : Nat)
  | found (blockGroup index : Nat) (len : Int)
  | marked (blockGroup index : Nat) (len : Int)
  | counted (blockGroup index : Nat) (len : Int)
  | returned (allocated : Allocated)
  deriving DecidableEq

structure Request where
  inode : Inode
  groupGoal : Nat
  wanted : Int
  pc : Pc

/-- The shared volume and all requests. -/
structure Requests where
  volume : Volume
  requests : List Request

/-- What a caller passes to `ext4_new_meta_blocks`. -/
structure Parameters where
  inode : Inode
  goal : Nat
  count : Option Nat

def Request.start (sb : SuperBlock) (parameters : Parameters) : Request :=
  let goal := parameters.goal
  let groupGoal := if goal ≠ 0 then u64 (goal - superFirstDataBlock sb : Int) / superBlocksPerGroup sb else 0
  ⟨parameters.inode,groupGoal,wantedBlocks parameters.count,.again (u32 groupGoal)⟩

def Requests.start (v : Volume) (calls : List Parameters) : Requests := ⟨v,calls.map (Request.start v.superBlock)⟩

/-- `no_space`. -/
def noSpace (sb : SuperBlock) (groupGoal blockGroup : Nat) : Pc :=
  let blockGroup := u32 ((blockGroup + 1) % superNBlockGroups sb : Nat)
  if blockGroup ≠ groupGoal then .again blockGroup else .returned ⟨0,0,some .enospc⟩

/-- The search for a clear bit, up to `len = wanted`. -/
def searchGroup (v : Volume) (groupGoal : Nat) (wanted : Int) (blockGroup : Nat) : Option (Volume × Pc) := do
  let bg ← v.desc blockGroup
  let sb := v.superBlock
  if ext4FreeBlksCount sb bg = 0 then return (v,noSpace sb groupGoal blockGroup)
  let mem := v.bitmap (ext4BlockBitmap sb bg)
  let bitmapLen := bitmapLen sb blockGroup
  if superBlockSize sb * 8 < bitmapLen then none
  let index := mbFindNextZeroBit mem 0 bitmapLen 0
  let len := mbFindZeroRunLen mem 0 bitmapLen index
  if len = 0 then return (v.setDesc blockGroup (ext4FreeBlksSet sb bg 0),noSpace sb groupGoal blockGroup)
  return (v,.found blockGroup index (if wanted < len then wanted else len))

/-- From `again` on. -/
def scan (v : Volume) (groupGoal : Nat) (wanted : Int) (blockGroup : Nat) : Option (Volume × Pc) :=
  (ext4TryToInitBlockBitmap v blockGroup).bind (searchGroup · groupGoal wanted blockGroup)

/-- `mb_set_bits` on what the bitmap's buffer holds by now. -/
def setBits (v : Volume) (blockGroup index : Nat) (len : Int) : Option Volume := do
  let bg ← v.desc blockGroup
  let bitmapBlk := ext4BlockBitmap v.superBlock bg
  if superBlockSize v.superBlock * 8 < index + len then none
  return v.setBitmap bitmapBlk (mbSetBits (v.bitmap bitmapBlk) 0 index len)

def countGroup (v : Volume) (blockGroup : Nat) (len : Int) : Option Volume := do
  let bg ← v.desc blockGroup
  return v.setDesc blockGroup (ext4FreeBlksSet v.superBlock bg (u32 (ext4FreeBlksCount v.superBlock bg - len)))

def countSuper (v : Volume) (len : Int) : Volume :=
  {v with superBlock := ext4FreeBlocksCountSet v.superBlock (u64 (ext4FreeBlocksCount v.superBlock - len))}

def Request.next (v : Volume) (r : Request) : Option (Volume × Request) :=
  match r.pc with
  | .again blockGroup => (scan v r.groupGoal r.wanted blockGroup).map fun (v,pc) => (v,{r with pc := pc})
  | .found blockGroup index len => (setBits v blockGroup index len).map fun v => (v,{r with pc := .marked blockGroup index len})
  | .marked blockGroup index len => (countGroup v blockGroup len).map fun v => (v,{r with pc := .counted blockGroup index len})
  | .counted blockGroup index len =>
    let sb := v.superBlock
    let ret := u64 (superFirstDataBlock sb + blockGroup * superBlocksPerGroup sb + index : Nat)
    let inode := ext4SetInodeBlocks sb r.inode (u64 (ext4InodeBlocks sb r.inode.rawInode + len))
    some (countSuper v len,{r with inode := inode,pc := .returned ⟨ret,len,none⟩})
  | .returned _ => none

/-- Request number `k` takes its next step. -/
def step (s : Requests) (k : Nat) : Option Requests := do
  let r ← s.requests[k]?
  let (v,r) ← r.next s.volume
  return ⟨v,s.requests.set k r⟩


/-! A call whose steps no other request comes between is `ext4NewMetaBlocks`. -/

theorem step_here {s : Requests} {k : Nat} {r r' : Request} {v : Volume} (here : s.requests[k]? = some r)
    (next : r.next s.volume = some (v,r')) : step s k = some ⟨v,s.requests.set k r'⟩ := by
  simp [step,here,next]

/-- What a look into a group is in steps: a scan, and the three steps after it if it finds a bit. -/
def Looked (v : Volume) (inode : Inode) (groupGoal : Nat) (wanted : Int) (blockGroup : Nat) (v' : Volume) :
    Option (Allocated × Inode) → Prop
  | none => scan v groupGoal wanted blockGroup = some (v',noSpace v'.superBlock groupGoal blockGroup)
  | some (allocated,inode') => ∃ index len v₁ v₂ v₃, scan v groupGoal wanted blockGroup = some (v₁,.found blockGroup index len) ∧
    setBits v₁ blockGroup index len = some v₂ ∧ countGroup v₂ blockGroup len = some v₃ ∧
    Request.next v₃ ⟨inode,groupGoal,wanted,.counted blockGroup index len⟩ =
      some (v',⟨inode',groupGoal,wanted,.returned allocated⟩)

section Next
variable (v : Volume) (inode : Inode) (groupGoal : Nat) (wanted : Int) (blockGroup index : Nat) (len : Int)

theorem next_again : Request.next v ⟨inode,groupGoal,wanted,.again blockGroup⟩ =
    (scan v groupGoal wanted blockGroup).map fun (v,pc) => (v,⟨inode,groupGoal,wanted,pc⟩) := rfl

theorem next_found : Request.next v ⟨inode,groupGoal,wanted,.found blockGroup index len⟩ =
    (setBits v blockGroup index len).map fun v => (v,⟨inode,groupGoal,wanted,.marked blockGroup index len⟩) := rfl

theorem next_marked : Request.next v ⟨inode,groupGoal,wanted,.marked blockGroup index len⟩ =
    (countGroup v blockGroup len).map fun v => (v,⟨inode,groupGoal,wanted,.counted blockGroup index len⟩) := rfl

theorem next_counted : Request.next v ⟨inode,groupGoal,wanted,.counted blockGroup index len⟩ =
    some (countSuper v len,⟨ext4SetInodeBlocks v.superBlock inode (u64 (ext4InodeBlocks v.superBlock inode.rawInode + len)),
      groupGoal,wanted,.returned ⟨u64 (superFirstDataBlock v.superBlock + blockGroup * superBlocksPerGroup v.superBlock +
        index : Nat),len,none⟩⟩) := rfl

end Next

theorem setBits_desc {v : Volume} {blockGroup index : Nat} {bg : GroupDesc} {len : Int}
    (desc : v.desc blockGroup = some bg) (fits : ¬superBlockSize v.superBlock * 8 < index + len) :
    setBits v blockGroup index len = some (v.setBitmap (ext4BlockBitmap v.superBlock bg)
      (mbSetBits (v.bitmap (ext4BlockBitmap v.superBlock bg)) 0 index len)) := by
  refine Option.bind_eq_some_iff.mpr ⟨bg,desc,(if_neg fits).trans rfl⟩

theorem countGroup_desc {v : Volume} {blockGroup : Nat} {bg : GroupDesc} (desc : v.desc blockGroup = some bg) (len : Int) :
    countGroup v blockGroup len =
      some (v.setDesc blockGroup (ext4FreeBlksSet v.superBlock bg (u32 (ext4FreeBlksCount v.superBlock bg - len)))) := by
  simp only [countGroup,desc,Option.bind_eq_bind,Option.bind_some,Option.pure_def]

/-- The two counters one after the other are `countBlocks`. -/
theorem countBlocks_eq (v : Volume) (inode : Inode) (blockGroup : Nat) (bg : GroupDesc) (len : Int) :
    countBlocks v inode blockGroup bg len =
      (countSuper (v.setDesc blockGroup (ext4FreeBlksSet v.superBlock bg (u32 (ext4FreeBlksCount v.superBlock bg - len)))) len,
        ext4SetInodeBlocks v.superBlock inode (u64 (ext4InodeBlocks v.superBlock inode.rawInode + len))) := rfl

section Search
variable {v : Volume} {blockGroup index : Nat} {bg : GroupDesc} {len : Int} (groupGoal : Nat) (wanted : Int)
  (desc : v.desc blockGroup = some bg)
include desc

theorem searchGroup_empty (empty : ext4FreeBlksCount v.superBlock bg = 0) :
    searchGroup v groupGoal wanted blockGroup = some (v,noSpace v.superBlock groupGoal blockGroup) :=
  Option.bind_eq_some_iff.mpr ⟨bg,desc,if_pos empty⟩

variable (present : ext4FreeBlksCount v.superBlock bg ≠ 0)
  (inside : ¬superBlockSize v.superBlock * 8 < bitmapLen v.superBlock blockGroup)
  (found : mbFindNextZeroBit (v.bitmap (ext4BlockBitmap v.superBlock bg)) 0 (bitmapLen v.superBlock blockGroup) 0 = index)
  (run : mbFindZeroRunLen (v.bitmap (ext4BlockBitmap v.superBlock bg)) 0 (bitmapLen v.superBlock blockGroup) index = len)
include present inside found run

theorem searchGroup_nothing (nothing : len = 0) : searchGroup v groupGoal wanted blockGroup =
    some (v.setDesc blockGroup (ext4FreeBlksSet v.superBlock bg 0),noSpace v.superBlock groupGoal blockGroup) := by
  refine Option.bind_eq_some_iff.mpr ⟨bg,desc,(if_neg present).trans ((if_neg inside).trans ?_)⟩
  simp only [found,run,if_pos nothing]
  rfl

theorem searchGroup_found (bits : len ≠ 0) : searchGroup v groupGoal wanted blockGroup =
    some (v,.found blockGroup index (if wanted < len then wanted else len)) := by
  refine Option.bind_eq_some_iff.mpr ⟨bg,desc,(if_neg present).trans ((if_neg inside).trans ?_)⟩
  simp only [found,run,if_neg bits]
  rfl

end Search

theorem takeFromGroup_looked {v v₁ v' : Volume} {inode : Inode} {wanted : Int} {blockGroup : Nat} (groupGoal : Nat)
    {taken : Option (Allocated × Inode)} (init : ext4TryToInitBlockBitmap v blockGroup = some v₁)
    (result : takeFromGroup v₁ inode wanted blockGroup = some (taken,v')) :
    Looked v inode groupGoal wanted blockGroup v' taken := by
  obtain ⟨bg,desc,_⟩ := Option.bind_eq_some_iff.mp result
  have scanned : scan v groupGoal wanted blockGroup = searchGroup v₁ groupGoal wanted blockGroup := by
    rw [scan,init,Option.bind_some]
  by_cases empty : ext4FreeBlksCount v₁.superBlock bg = 0
  · simp only [takeFromGroup,desc,Option.bind_eq_bind,Option.bind_some,if_pos empty] at result
    cases result
    exact scanned.trans (searchGroup_empty groupGoal wanted desc empty)
  by_cases outside : superBlockSize v₁.superBlock * 8 < bitmapLen v₁.superBlock blockGroup
  · simp [takeFromGroup,desc,empty,outside] at result
  generalize found : mbFindNextZeroBit (v₁.bitmap (ext4BlockBitmap v₁.superBlock bg)) 0
    (bitmapLen v₁.superBlock blockGroup) 0 = index
  generalize run : mbFindZeroRunLen (v₁.bitmap (ext4BlockBitmap v₁.superBlock bg)) 0
    (bitmapLen v₁.superBlock blockGroup) index = len
  by_cases nothing : len = 0
  · simp only [takeFromGroup,desc,Option.bind_eq_bind,Option.bind_some,if_neg empty,if_neg outside,found,run,
      if_pos nothing] at result
    cases result
    exact scanned.trans (searchGroup_nothing groupGoal wanted desc empty outside found run nothing)
  · have searched := scanned.trans (searchGroup_found groupGoal wanted desc empty outside found run nothing)
    generalize size : (if wanted < len then wanted else len) = short at searched
    simp only [takeFromGroup,desc,Option.bind_eq_bind,Option.bind_some,if_neg empty,if_neg outside,found,run,
      if_neg nothing,size] at result
    split at result
    · cases result
    · rename_i fits
      cases result
      refine ⟨index,short,v₁,_,_,searched,setBits_desc desc fits,
        countGroup_desc (v := v₁.setBitmap _ _) desc short,?_⟩
      rw [next_counted,countBlocks_eq]
      rfl

/-- A lone request goes step by step to where the loop ends. -/
theorem loop_steps {inode inode' : Inode} {groupGoal : Nat} {wanted : Int} {allocated : Allocated} {v' : Volume}
    {start : Requests} (rounds : Nat) {v : Volume} {blockGroup : Nat}
    (reached : Reaches step (fun _ _ => true) start ⟨v,[⟨inode,groupGoal,wanted,.again blockGroup⟩]⟩)
    (result : newMetaBlocksLoop inode groupGoal wanted rounds v blockGroup = some (allocated,v',inode')) :
    Reaches step (fun _ _ => true) start ⟨v',[⟨inode',groupGoal,wanted,.returned allocated⟩]⟩ := by
  induction rounds generalizing v blockGroup with
  | zero => nomatch result
  | succ rounds ih =>
    have one {v v' : Volume} (r r' : Request) (next : r.next v = some (v',r')) :
        step ⟨v,[r]⟩ 0 = some ⟨v',[r']⟩ := step_here rfl next
    obtain ⟨v₁,init,result⟩ := Option.bind_eq_some_iff.mp result
    obtain ⟨⟨taken,v₂⟩,look,result⟩ := Option.bind_eq_some_iff.mp result
    have looked := takeFromGroup_looked groupGoal init look
    cases taken with
    | none =>
      have scanned := one ⟨inode,groupGoal,wanted,.again blockGroup⟩
        ⟨inode,groupGoal,wanted,noSpace v₂.superBlock groupGoal blockGroup⟩ (by rw [next_again,looked]; rfl)
      have next := reached.step rfl scanned
      simp only at result
      unfold noSpace at next
      split at result
      · rename_i more
        simp only [if_pos more] at next
        exact ih next result
      · rename_i back
        simp only [if_neg back] at next
        cases result
        exact next
    | some taken =>
      obtain ⟨index,len,v₃,v₄,v₅,scanned,set,count,last⟩ := looked
      obtain ⟨rfl,rfl,rfl⟩ : taken.1 = allocated ∧ v₂ = v' ∧ taken.2 = inode' := by
        cases result
        exact ⟨rfl,rfl,rfl⟩
      have first := one ⟨inode,groupGoal,wanted,.again blockGroup⟩
        ⟨inode,groupGoal,wanted,.found blockGroup index len⟩ (by rw [next_again,scanned]; rfl)
      have second := one ⟨inode,groupGoal,wanted,.found blockGroup index len⟩
        ⟨inode,groupGoal,wanted,.marked blockGroup index len⟩ (by rw [next_found,set]; rfl)
      have third := one ⟨inode,groupGoal,wanted,.marked blockGroup index len⟩
        ⟨inode,groupGoal,wanted,.counted blockGroup index len⟩ (by rw [next_marked,count]; rfl)
      exact (((reached.step rfl first).step rfl second).step rfl third).step rfl (one _ _ last)

theorem ext4NewMetaBlocks_steps {v v' : Volume} {parameters : Parameters} {allocated : Allocated} {inode' : Inode}
    (result : ext4NewMetaBlocks v parameters.inode parameters.goal parameters.count = some (allocated,v',inode')) :
    ∃ s, Reaches step (fun _ _ => true) (Requests.start v [parameters]) s ∧ s.volume = v' ∧
      s.requests.map (·.inode) = [inode'] ∧ s.requests.map (·.pc) = [.returned allocated] :=
  ⟨_,loop_steps _ Reaches.start result,rfl,rfl,rfl⟩


/-! What the requests have set, counted and returned. -/

def Request.finding (g : Nat) (r : Request) : Bool :=
  match r.pc with
  | .found blockGroup _ _ => blockGroup == g
  | _ => false

def Request.marking (g : Nat) (r : Request) : Bool :=
  match r.pc with
  | .marked blockGroup _ _ => blockGroup == g
  | _ => false

/-- The blocks set in group `g` that its counter does not know of. -/
def Request.uncounted (g : Nat) (r : Request) : Int :=
  match r.pc with
  | .marked blockGroup _ len => if blockGroup = g then len else 0
  | _ => 0

/-- The blocks set that the superblock's counter does not know of. -/
def Request.pending (r : Request) : Int :=
  match r.pc with
  | .marked _ _ len => len
  | .counted _ _ len => len
  | _ => 0

/-- What `ext4_new_meta_blocks` has returned to the caller. -/
def Request.handed (r : Request) : Option Range :=
  match r.pc with
  | .returned allocated => if allocated.err = none then some (allocated.block,allocated.len) else none
  | _ => none

def Request.blocks (r : Request) : Int :=
  match r.handed with
  | some range => range.2
  | none => 0

/-- The blocks handed out of group `g`. -/
def Request.blocksIn (sb : SuperBlock) (g : Nat) (r : Request) : Int :=
  match r.handed with
  | some range => if (range.1 - superFirstDataBlock sb) / superBlocksPerGroup sb = g then range.2 else 0
  | none => 0

def Request.finished (r : Request) : Bool :=
  match r.pc with
  | .returned _ => true
  | _ => false

/-- No block is returned twice, and once all requests have finished the counters of the
groups and of the superblock have dropped by the blocks handed out. -/
structure Exact (v : Volume) (s : Requests) : Prop where
  apart : (s.requests.filterMap Request.handed).Pairwise fun r r' => ∀ b, covers r b = true → covers r' b = false
  group : s.requests.all Request.finished = true → ∀ g, g < superNBlockGroups v.superBlock →
    (ext4FreeBlksCount s.volume.superBlock (s.volume.gdesc g) : Int) =
      ext4FreeBlksCount v.superBlock (v.gdesc g) - total (Request.blocksIn v.superBlock g) s.requests
  total : s.requests.all Request.finished = true → (ext4FreeBlocksCount s.volume.superBlock : Int) =
    ext4FreeBlocksCount v.superBlock - total Request.blocks s.requests

def hasClearBit (v : Volume) (g : Nat) : Bool := (List.range (groupLength v.superBlock g)).any fun i => !bitmapOf v g i

/-- A scan does not come between another request's scan of the group and its setting of the
bits, nor, where the group has no clear bit, between the setting of bits and the group's
counter; and what the request wants has kept its sign. -/
def mayStep (s : Requests) (k : Nat) : Bool :=
  match s.requests[k]? with
  | some ⟨_,_,wanted,.again g⟩ => decide (0 ≤ wanted) && s.requests.all (fun r => !r.finding g) &&
      (hasClearBit s.volume g || s.requests.all fun r => !r.marking g)
  | _ => true

/-! The invariant, on a volume whose bitmaps are initialised. -/

/-- A place for `len` blocks inside a group. -/
structure Spot (sb : SuperBlock) (g index : Nat) (len : Int) : Prop where
  group : g < superNBlockGroups sb
  first : index < groupLength sb g
  length : 0 ≤ len
  stop : index + len ≤ groupLength sb g

def Placed (w : Volume) (r : Request) : Prop :=
  match r.pc with
  | .again _ => True
  | .found g index len => ClearRange w g index len
  | .marked g index len => Spot w.superBlock g index len
  | .counted g index len => Spot w.superBlock g index len
  | .returned _ => True

/-- The range of blocks a request has set. -/
def Request.taken (sb : SuperBlock) (r : Request) : Option Range :=
  match r.pc with
  | .marked g index len => some (groupStart sb g + index,len)
  | .counted g index len => some (groupStart sb g + index,len)
  | _ => r.handed

/-- The blocks of group `g` that its counter knows of. -/
def Request.countedIn (sb : SuperBlock) (g : Nat) (r : Request) : Int :=
  match r.pc with
  | .counted blockGroup _ len => if blockGroup = g then len else 0
  | _ => r.blocksIn sb g

/-- The volume `w` differs from `v` in its counters and bits only. -/
structure Shaped (v w : Volume) : Prop where
  superBlock : ∃ blk, w.superBlock = ext4FreeBlocksCountSet v.superBlock blk
  geometry : Geometry w.superBlock
  inited : ∀ g, g < superNBlockGroups w.superBlock → ext4IsBlockBitmapInited (w.gdesc g) = true
  apart : Apart w

/-- What holds of the volume `w` between any two steps of requests that began on `v`. -/
structure Sound (v w : Volume) (requests : List Request) : Prop where
  shaped : Shaped v w
  past : ∀ g i, g < superNBlockGroups w.superBlock → groupLength w.superBlock g ≤ i →
    i < superBlockSize w.superBlock * 8 → bitmapOf w g i = true
  held : Held w (requests.filterMap (Request.taken w.superBlock))
  placed : ∀ r ∈ requests, Placed w r
  alone : ∀ g, count (Request.finding g) requests ≤ 1
  clear : ∀ g, g < superNBlockGroups w.superBlock →
    (ext4FreeBlksCount w.superBlock (w.gdesc g) : Int) = (clearOf w g).card + total (Request.uncounted g) requests
  clearAll : (ext4FreeBlocksCount w.superBlock : Int) =
    (∑ g ∈ Finset.range (superNBlockGroups w.superBlock), (clearOf w g).card : Nat) + total Request.pending requests
  dropped : ∀ g, g < superNBlockGroups v.superBlock → (ext4FreeBlksCount w.superBlock (w.gdesc g) : Int) =
    ext4FreeBlksCount v.superBlock (v.gdesc g) - total (Request.countedIn v.superBlock g) requests
  droppedAll : (ext4FreeBlocksCount w.superBlock : Int) =
    ext4FreeBlocksCount v.superBlock - total Request.blocks requests

theorem noSpace_cases (sb : SuperBlock) (groupGoal blockGroup : Nat) :
    (∃ next, noSpace sb groupGoal blockGroup = .again next) ∨
      noSpace sb groupGoal blockGroup = .returned ⟨0,0,some .enospc⟩ := by
  unfold noSpace
  simp only
  split
  · exact Or.inl ⟨_,rfl⟩
  · exact Or.inr rfl

theorem uncounted_zero {g : Nat} {r : Request} (unmarked : r.marking g = false) : r.uncounted g = 0 := by
  obtain ⟨_,_,_,pc⟩ := r
  cases pc with
  | marked blockGroup index len =>
    have other : blockGroup ≠ g := by simpa [Request.marking] using unmarked
    exact if_neg other
  | _ => rfl

theorem Shaped.frame {v w w' : Volume} {blk : Nat} (shaped : Shaped v w)
    (superBlock : w'.superBlock = ext4FreeBlocksCountSet w.superBlock blk)
    (inited : ∀ g, ext4IsBlockBitmapInited (w'.gdesc g) = ext4IsBlockBitmapInited (w.gdesc g))
    (blockBitmap : ∀ g, ext4BlockBitmap w.superBlock (w'.gdesc g) = ext4BlockBitmap w.superBlock (w.gdesc g)) :
    Shaped v w' := by
  refine ⟨?_,?_,?_,?_⟩
  · obtain ⟨_,same⟩ := shaped.superBlock
    exact ⟨blk,by rw [superBlock,same]; rfl⟩
  · rw [superBlock]
    exact ⟨shaped.geometry.small,shaped.geometry.positive,shaped.geometry.fits,shaped.geometry.groups,shaped.geometry.last⟩
  · intro g group
    rw [superBlock] at group
    rw [inited]
    exact shaped.inited g group
  · intro g g' group group' same
    rw [superBlock] at group group' same
    refine shaped.apart g g' group group' ?_
    rw [← blockBitmap g,← blockBitmap g']
    exact same

theorem Spot.kept {sb sb' : SuperBlock} {blk g index : Nat} {len : Int} (spot : Spot sb g index len)
    (superBlock : sb' = ext4FreeBlocksCountSet sb blk) : Spot sb' g index len :=
  superBlock ▸ ⟨spot.group,spot.first,spot.length,spot.stop⟩

theorem Placed.kept {w w' : Volume} {blk : Nat} {r : Request} (placed : Placed w r)
    (superBlock : w'.superBlock = ext4FreeBlocksCountSet w.superBlock blk)
    (bits : ∀ g, r.finding g = true ∧ g < superNBlockGroups w.superBlock → bitmapOf w' g = bitmapOf w g) : Placed w' r := by
  obtain ⟨inode,groupGoal,wanted,pc⟩ := r
  cases pc with
  | found g index len =>
    have range : ClearRange w g index len := placed
    have same := bits g ⟨beq_self_eq_true g,range.group⟩
    refine ⟨?_,?_,range.length,?_,fun i low high => ?_⟩
    · exact superBlock ▸ range.group
    · exact superBlock ▸ range.first
    · exact superBlock ▸ range.stop
    · rw [same]
      exact range.clear i low high
  | marked g index len =>
    have spot : Spot w.superBlock g index len := placed
    exact spot.kept superBlock
  | counted g index len =>
    have spot : Spot w.superBlock g index len := placed
    exact spot.kept superBlock
  | again _ => trivial
  | returned _ => trivial

theorem uncounted_nonneg {w : Volume} {r : Request} (g : Nat) (placed : Placed w r) : 0 ≤ r.uncounted g := by
  obtain ⟨inode,groupGoal,wanted,pc⟩ := r
  cases pc with
  | marked g' index len =>
    have spot : Spot w.superBlock g' index len := placed
    have length := spot.length
    simp only [Request.uncounted]
    split <;> omega
  | _ => exact Int.le_refl 0

theorem pending_nonneg {w : Volume} {r : Request} (placed : Placed w r) : 0 ≤ r.pending := by
  obtain ⟨inode,groupGoal,wanted,pc⟩ := r
  cases pc with
  | marked g index len => exact Spot.length placed
  | counted g index len => exact Spot.length placed
  | _ => exact Int.le_refl 0

section Sections
variable {v w : Volume} {requests : List Request} {k : Nat} {inode : Inode} {groupGoal : Nat} {wanted : Int}

/-- A request that moves on without having set or counted anything. -/
theorem Sound.settle {g : Nat} {pc : Pc} (sound : Sound v w requests)
    (here : requests[k]? = some ⟨inode,groupGoal,wanted,.again g⟩)
    (where_to : (∃ g, pc = .again g) ∨ pc = .returned ⟨0,0,some .enospc⟩ ∨ ∃ g index len, pc = .found g index len)
    (placed : Placed w ⟨inode,groupGoal,wanted,pc⟩)
    (alone : ∀ g, count (Request.finding g) (requests.set k ⟨inode,groupGoal,wanted,pc⟩) ≤ 1) :
    Sound v w (requests.set k ⟨inode,groupGoal,wanted,pc⟩) := by
  have amounts : (∀ sb, Request.taken sb ⟨inode,groupGoal,wanted,pc⟩ = none) ∧
      (∀ g, Request.uncounted g ⟨inode,groupGoal,wanted,pc⟩ = 0) ∧ Request.pending ⟨inode,groupGoal,wanted,pc⟩ = 0 ∧
      (∀ sb g, Request.countedIn sb g ⟨inode,groupGoal,wanted,pc⟩ = 0) ∧
      Request.blocks ⟨inode,groupGoal,wanted,pc⟩ = 0 := by
    rcases where_to with ⟨g,rfl⟩ | rfl | ⟨g,index,len,rfl⟩ <;>
      exact ⟨fun _ => rfl,fun _ => rfl,rfl,fun _ _ => rfl,rfl⟩
  obtain ⟨taken,uncounted,pending,countedIn,blocks⟩ := amounts
  refine ⟨sound.shaped,sound.past,?_,?_,alone,?_,?_,?_,?_⟩
  · have same := filterMap_same (Request.taken w.superBlock) here _ (taken w.superBlock)
    rw [same]
    exact sound.held
  · intro r member
    rcases mem_move member with rfl | other
    · exact placed
    · exact sound.placed r other
  · intro g group
    rw [total_same here _ _ (uncounted g)]
    exact sound.clear g group
  · rw [total_same here _ _ pending]
    exact sound.clearAll
  · intro g group
    rw [total_same here _ _ (countedIn v.superBlock g)]
    exact sound.dropped g group
  · rw [total_same here _ _ blocks]
    exact sound.droppedAll

theorem hasClearBit_iff (sound : Sound v w requests) {g : Nat} (group : g < superNBlockGroups w.superBlock) :
    hasClearBit w g = true ↔ clearOf w g ≠ ∅ := by
  have geometry := sound.shaped.geometry
  have short := geometry.groupLength_le g
  have fits := geometry.fits
  rw [Finset.nonempty_iff_ne_empty.symm,hasClearBit,List.any_eq_true]
  constructor
  · rintro ⟨i,member,clear⟩
    have inside := List.mem_range.mp member
    exact ⟨i,(mem_clearBits _ _ _).mpr ⟨by omega,by simpa using clear⟩⟩
  · rintro ⟨i,member⟩
    obtain ⟨inside,clear⟩ := (mem_clearBits _ _ _).mp member
    have below : i < groupLength w.superBlock g := by
      by_contra beyond
      have past := sound.past g i group (Nat.not_lt.mp beyond) inside
      rw [past] at clear
      nomatch clear
    exact ⟨i,List.mem_range.mpr below,by simp [clear]⟩

theorem Sound.scan {g : Nat} {w' : Volume} {pc : Pc} (sound : Sound v w requests)
    (here : requests[k]? = some ⟨inode,groupGoal,wanted,.again g⟩) (may : mayStep ⟨w,requests⟩ k = true)
    (result : AllocRequests.scan w groupGoal wanted g = some (w',pc)) :
    Sound v w' (requests.set k ⟨inode,groupGoal,wanted,pc⟩) := by
  simp only [mayStep,here,Bool.and_eq_true,Bool.or_eq_true,decide_eq_true_eq,List.all_eq_true,Bool.not_eq_true'] at may
  obtain ⟨⟨wants,nobody⟩,clear⟩ := may
  have geometry := sound.shaped.geometry
  have group : g < superNBlockGroups w.superBlock := by
    by_contra outside
    simp [AllocRequests.scan,ext4TryToInitBlockBitmap,Volume.desc,outside] at result
  have desc : w.desc g = some (w.gdesc g) := if_pos group
  have init : ext4TryToInitBlockBitmap w g = some w := by
    simp [ext4TryToInitBlockBitmap,desc,sound.shaped.inited g group]
  rw [AllocRequests.scan,init,Option.bind_some] at result
  by_cases empty : ext4FreeBlksCount w.superBlock (w.gdesc g) = 0
  · rw [searchGroup_empty groupGoal wanted desc empty] at result
    cases result
    rcases noSpace_cases w.superBlock groupGoal g with ⟨next,again⟩ | full
    · rw [again]
      exact sound.settle here (Or.inl ⟨next,rfl⟩) trivial fun g' => Nat.le_trans (Nat.le_of_eq (count_same here rfl)) (sound.alone g')
    · rw [full]
      exact sound.settle here (Or.inr (Or.inl rfl)) trivial fun g' => Nat.le_trans (Nat.le_of_eq (count_same here rfl)) (sound.alone g')
  · have free : clearOf w g ≠ ∅ := by
      rcases clear with bit | unmarked
      · exact (hasClearBit_iff sound group).mp bit
      · intro full
        have count := sound.clear g group
        rw [full,Finset.card_empty,total_zero fun r member => uncounted_zero (unmarked r member)] at count
        exact empty (by exact_mod_cast count)
    obtain ⟨enough,short⟩ := bitmapLen_fits geometry g
    obtain ⟨index,found,run,first,bit⟩ := search_free geometry (fun i => sound.past g i group) free
    have inside : ¬superBlockSize w.superBlock * 8 < bitmapLen w.superBlock g := by
      have fits := geometry.fits
      omega
    rw [searchGroup_found groupGoal wanted desc empty inside found run one_ne_zero] at result
    cases result
    refine sound.settle here (Or.inr (Or.inr ⟨g,index,_,rfl⟩)) ?_ fun g' => ?_
    · refine ⟨group,first,?_,?_,fun i low high => ?_⟩
      · split <;> omega
      · split <;> omega
      · obtain rfl : i = index := by split at high <;> omega
        exact bit
    · have moved := count_move here (Request.finding g') ⟨inode,groupGoal,wanted,.found g index (if wanted < 1 then wanted else 1)⟩
      have before := sound.alone g'
      rcases eq_or_ne g g' with rfl | other
      · have none := count_zero_iff.mpr nobody
        have one := Bool.toNat_le (Request.finding g ⟨inode,groupGoal,wanted,.found g index (if wanted < 1 then wanted else 1)⟩)
        omega
      · have away : Request.finding g' ⟨inode,groupGoal,wanted,.found g index (if wanted < 1 then wanted else 1)⟩ = false := by
          simp [Request.finding,other]
        rw [away] at moved
        rw [Bool.toNat_false] at moved
        omega

/-- Setting the bits: the blocks are the request's from here on. -/
theorem Sound.setBits {g index : Nat} {len : Int} {w' : Volume} (sound : Sound v w requests)
    (here : requests[k]? = some ⟨inode,groupGoal,wanted,.found g index len⟩)
    (result : AllocRequests.setBits w g index len = some w') :
    Sound v w' (requests.set k ⟨inode,groupGoal,wanted,.marked g index len⟩) := by
  have range : ClearRange w g index len := sound.placed _ (List.mem_of_getElem? here)
  have geometry := sound.shaped.geometry
  have apart := sound.shaped.apart
  have group := range.group
  have first := range.first
  have stop := range.stop
  have short := geometry.groupLength_le g
  have fits := geometry.fits
  obtain ⟨size,rfl⟩ := Int.eq_ofNat_of_zero_le range.length
  have clear (i : Nat) (low : index ≤ i) (high : i < index + size) := range.clear i low (by omega)
  rw [setBits_desc (if_pos group) (by omega)] at result
  have held := sound.held.take geometry apart group first (show index + size ≤ groupLength w.superBlock g by omega) clear
  have card := clearBits_set (bitmapOf w g) (superBlockSize w.superBlock * 8) index (index + size) (by omega) clear
  have self : bitmapOf w' g = filled (bitmapOf w g) 0 index (index + size) true := by
    rw [← Option.some.inj result,bitmapOf_setBitmap_self,← mbSetBits_filled]
    rfl
  have other {g' : Nat} (group' : g' < superNBlockGroups w.superBlock) (other : g' ≠ g) : bitmapOf w' g' = bitmapOf w g' := by
    rw [← Option.some.inj result,bitmapOf_setBitmap_other apart group group' other]
  have superBlock : w'.superBlock = w.superBlock := by rw [← Option.some.inj result]; rfl
  have gdesc : w'.gdesc = w.gdesc := by rw [← Option.some.inj result]; rfl
  rw [← mbSetBits_filled] at held
  have taken : Held w' ((groupStart w.superBlock g + index,(size : Int))::requests.filterMap (Request.taken w.superBlock)) := by
    rw [← Option.some.inj result]
    exact held
  have none_left : count (Request.finding g) (requests.set k ⟨inode,groupGoal,wanted,.marked g index size⟩) = 0 := by
    have moved := count_move here (Request.finding g) ⟨inode,groupGoal,wanted,.marked g index size⟩
    have before := sound.alone g
    simp only [Request.finding,beq_self_eq_true,Bool.toNat_true,Bool.toNat_false] at moved
    omega
  have less : ((clearOf w' g).card : Int) + size = (clearOf w g).card := by
    rw [clearOf,self,superBlock,clearOf]
    omega
  have rest {g' : Nat} (group' : g' < superNBlockGroups w.superBlock) (away : g' ≠ g) : clearOf w' g' = clearOf w g' := by
    rw [clearOf,other group' away,superBlock,clearOf]
  have counts : w'.superBlock = ext4FreeBlocksCountSet w.superBlock (ext4FreeBlocksCount w.superBlock) := by
    rw [superBlock,ext4FreeBlocksCountSet_self]
  refine ⟨sound.shaped.frame counts (fun g => by rw [gdesc]) (fun g => by rw [gdesc]),
    ?_,?_,?_,?_,?_,?_,?_,?_⟩
  · intro g' i group' beyond inside
    rw [superBlock] at group' beyond inside
    rcases eq_or_ne g' g with rfl | away
    · rw [self,filled]
      split
      · rfl
      · exact sound.past g' i group' beyond inside
    · rw [other group' away]
      exact sound.past g' i group' beyond inside
  · rw [superBlock]
    exact taken.perm (filterMap_new here rfl rfl)
  · intro r member
    rcases mem_move member with rfl | old
    · exact ⟨by rwa [superBlock],by rwa [superBlock],range.length,by rwa [superBlock]⟩
    · refine (sound.placed r old).kept counts fun g' found => other found.2 fun same => ?_
      have missed := count_zero_iff.mp none_left r member
      rw [← same,found.1] at missed
      cases missed
  · intro g'
    have moved := count_move here (Request.finding g') ⟨inode,groupGoal,wanted,.marked g index size⟩
    have before := sound.alone g'
    have off : Request.finding g' ⟨inode,groupGoal,wanted,.marked g index size⟩ = false := rfl
    rw [off,Bool.toNat_false] at moved
    omega
  · intro g' group'
    rw [superBlock] at group'
    have before := sound.clear g' group'
    rw [total_move here,superBlock,gdesc]
    rcases eq_or_ne g' g with rfl | away
    · simp only [Request.uncounted,if_true]
      omega
    · have zero : Request.uncounted g' ⟨inode,groupGoal,wanted,.marked g index size⟩ = 0 := if_neg away.symm
      have zero' : Request.uncounted g' ⟨inode,groupGoal,wanted,.found g index size⟩ = 0 := rfl
      rw [rest group' away,zero,zero']
      omega
  · have sum := sum_moved group (fun g' group' away => congrArg Finset.card (rest group' away)) less
    have before := sound.clearAll
    rw [total_move here,superBlock]
    simp only [Request.pending]
    omega
  · intro g' group'
    rw [total_same here (Request.countedIn v.superBlock g') ⟨inode,groupGoal,wanted,.marked g index size⟩ rfl,superBlock,gdesc]
    exact sound.dropped g' group'
  · rw [total_same here Request.blocks ⟨inode,groupGoal,wanted,.marked g index size⟩ rfl,superBlock]
    exact sound.droppedAll

/-- The group's counter catches up with the bits that the request has set. -/
theorem Sound.countGroup {g index : Nat} {len : Int} {w' : Volume} (sound : Sound v w requests)
    (here : requests[k]? = some ⟨inode,groupGoal,wanted,.marked g index len⟩)
    (result : AllocRequests.countGroup w g len = some w') :
    Sound v w' (requests.set k ⟨inode,groupGoal,wanted,.counted g index len⟩) := by
  have spot : Spot w.superBlock g index len := sound.placed _ (List.mem_of_getElem? here)
  have group := spot.group
  have least := total_le (f := Request.uncounted g) here fun r member => uncounted_nonneg g (sound.placed r member)
  have own : Request.uncounted g ⟨inode,groupGoal,wanted,.marked g index len⟩ = len := if_pos rfl
  have before := sound.clear g group
  have limit := ext4FreeBlksCount_lt w.superBlock (w.gdesc g)
  have length := spot.length
  obtain ⟨left,value⟩ := Int.eq_ofNat_of_zero_le (show 0 ≤ (ext4FreeBlksCount w.superBlock (w.gdesc g) : Int) - len by omega)
  have small : left < freeBlksLimit w.superBlock := by omega
  have word : left < 2^32 := Nat.lt_of_lt_of_le small (freeBlksLimit_le w.superBlock)
  rw [countGroup_desc (if_pos group),value,u32_small left word] at result
  have superBlock : w'.superBlock = w.superBlock := by rw [← Option.some.inj result]; rfl
  have bitmap : w'.bitmap = w.bitmap := by rw [← Option.some.inj result]; rfl
  have self : w'.gdesc g = ext4FreeBlksSet w.superBlock (w.gdesc g) left := by
    rw [← Option.some.inj result]
    exact Function.update_self ..
  have other {g' : Nat} (away : g' ≠ g) : w'.gdesc g' = w.gdesc g' := by
    rw [← Option.some.inj result]
    exact Function.update_of_ne away ..
  have counts : w'.superBlock = ext4FreeBlocksCountSet w.superBlock (ext4FreeBlocksCount w.superBlock) := by
    rw [superBlock,ext4FreeBlocksCountSet_self]
  have inited (g' : Nat) : ext4IsBlockBitmapInited (w'.gdesc g') = ext4IsBlockBitmapInited (w.gdesc g') := by
    rcases eq_or_ne g' g with rfl | away
    · rw [self,ext4IsBlockBitmapInited_freeBlksSet]
    · rw [other away]
  have blockBitmap (g' : Nat) : ext4BlockBitmap w.superBlock (w'.gdesc g') = ext4BlockBitmap w.superBlock (w.gdesc g') := by
    rcases eq_or_ne g' g with rfl | away
    · rw [self,ext4BlockBitmap_freeBlksSet]
    · rw [other away]
  have bits (g' : Nat) : bitmapOf w' g' = bitmapOf w g' := by rw [bitmapOf,superBlock,bitmap,blockBitmap,bitmapOf]
  have clear (g' : Nat) : clearOf w' g' = clearOf w g' := by rw [clearOf,bits,superBlock,clearOf]
  have counted : (ext4FreeBlksCount w.superBlock (w'.gdesc g) : Int) = ext4FreeBlksCount w.superBlock (w.gdesc g) - len := by
    rw [self,ext4FreeBlksCount_stored _ _ _ small]
    omega
  refine ⟨sound.shaped.frame counts inited blockBitmap,?_,?_,?_,?_,?_,?_,?_,?_⟩
  · intro g' i group' beyond inside
    rw [superBlock] at group' beyond inside
    rw [bits]
    exact sound.past g' i group' beyond inside
  · have same := filterMap_same (Request.taken w.superBlock) here ⟨inode,groupGoal,wanted,.counted g index len⟩ rfl
    rw [superBlock,same]
    exact sound.held.counts counts bits
  · intro r member
    rcases mem_move member with rfl | old
    · exact spot.kept counts
    · exact (sound.placed r old).kept counts fun g' _ => bits g'
  · intro g'
    exact Nat.le_trans (Nat.le_of_eq (count_same here rfl)) (sound.alone g')
  · intro g' group'
    rw [superBlock] at group'
    have before := sound.clear g' group'
    rw [total_move here,superBlock,clear]
    rcases eq_or_ne g' g with rfl | away
    · rw [own,counted]
      have none : Request.uncounted g' ⟨inode,groupGoal,wanted,.counted g' index len⟩ = 0 := rfl
      omega
    · have zero : Request.uncounted g' ⟨inode,groupGoal,wanted,.marked g index len⟩ = 0 := if_neg away.symm
      have zero' : Request.uncounted g' ⟨inode,groupGoal,wanted,.counted g index len⟩ = 0 := rfl
      rw [other away,zero,zero']
      omega
  · rw [total_same here Request.pending ⟨inode,groupGoal,wanted,.counted g index len⟩ rfl,superBlock]
    simp only [clear]
    exact sound.clearAll
  · intro g' group'
    have before := sound.dropped g' group'
    have unknown : Request.countedIn v.superBlock g' ⟨inode,groupGoal,wanted,.marked g index len⟩ = 0 := rfl
    rw [total_move here,unknown,superBlock]
    rcases eq_or_ne g' g with rfl | away
    · have known : Request.countedIn v.superBlock g' ⟨inode,groupGoal,wanted,.counted g' index len⟩ = len := if_pos rfl
      rw [counted,known]
      omega
    · have known : Request.countedIn v.superBlock g' ⟨inode,groupGoal,wanted,.counted g index len⟩ = 0 := if_neg away.symm
      rw [other away,known]
      omega
  · rw [total_same here Request.blocks ⟨inode,groupGoal,wanted,.counted g index len⟩ rfl,superBlock]
    exact sound.droppedAll

/-- The superblock's counter catches up, and the call returns. -/
theorem Sound.countSuper {g index : Nat} {len : Int} {inode' : Inode} (sound : Sound v w requests)
    (here : requests[k]? = some ⟨inode,groupGoal,wanted,.counted g index len⟩) :
    Sound v (AllocRequests.countSuper w len) (requests.set k ⟨inode',groupGoal,wanted,.returned
      ⟨u64 (superFirstDataBlock w.superBlock + g * superBlocksPerGroup w.superBlock + index : Nat),len,none⟩⟩) := by
  have geometry := sound.shaped.geometry
  have spot : Spot w.superBlock g index len := sound.placed _ (List.mem_of_getElem? here)
  have inside := Nat.lt_of_lt_of_le spot.first (geometry.groupLength_le g)
  have address := ret_address geometry spot.group spot.first
  rw [address]
  have least := total_le (f := Request.pending) here fun r member => pending_nonneg (sound.placed r member)
  have own : Request.pending ⟨inode,groupGoal,wanted,.counted g index len⟩ = len := rfl
  have before := sound.clearAll
  have limit := ext4FreeBlocksCount_lt w.superBlock
  have length := spot.length
  obtain ⟨left,value⟩ := Int.eq_ofNat_of_zero_le (show 0 ≤ (ext4FreeBlocksCount w.superBlock : Int) - len by omega)
  have small : left < 2^64 := by omega
  generalize made : AllocRequests.countSuper w len = w'
  have superBlock : w'.superBlock = ext4FreeBlocksCountSet w.superBlock left := by
    rw [← made,AllocRequests.countSuper,value,u64_small left small]
  have gdesc : w'.gdesc = w.gdesc := by rw [← made]; rfl
  have bitmap : w'.bitmap = w.bitmap := by rw [← made]; rfl
  have bits (g' : Nat) : bitmapOf w' g' = bitmapOf w g' := by
    rw [bitmapOf,superBlock,bitmap,gdesc,ext4BlockBitmap_set,bitmapOf]
  have clear (g' : Nat) : clearOf w' g' = clearOf w g' := by rw [clearOf,bits,superBlock,superBlockSize_set,clearOf]
  have stored : ext4FreeBlocksCount w'.superBlock = left := by rw [superBlock,ext4FreeBlocksCount_stored _ _ small]
  have taken : Request.taken w'.superBlock = Request.taken w.superBlock := by rw [superBlock]; rfl
  have handed : Request.countedIn v.superBlock =
      Request.countedIn w.superBlock := by
    obtain ⟨blk,shape⟩ := sound.shaped.superBlock
    rw [shape]
    rfl
  refine ⟨sound.shaped.frame superBlock (fun g' => by rw [gdesc]) (fun g' => by rw [gdesc]),?_,?_,?_,?_,?_,?_,?_,?_⟩
  · intro g' i group' beyond inside
    rw [superBlock] at group' beyond inside
    rw [bits]
    exact sound.past g' i group' beyond inside
  · have same := filterMap_same (Request.taken w.superBlock) here
      ⟨inode',groupGoal,wanted,.returned ⟨groupStart w.superBlock g + index,len,none⟩⟩ rfl
    rw [taken,same]
    exact sound.held.counts superBlock bits
  · intro r member
    rcases mem_move member with rfl | old
    · trivial
    · exact (sound.placed r old).kept superBlock fun g' _ => bits g'
  · intro g'
    exact Nat.le_trans (Nat.le_of_eq (count_same here rfl)) (sound.alone g')
  · intro g' group'
    rw [superBlock] at group'
    rw [total_same here (Request.uncounted g')
      ⟨inode',groupGoal,wanted,.returned ⟨groupStart w.superBlock g + index,len,none⟩⟩ rfl,superBlock,gdesc,clear]
    exact sound.clear g' group'
  · have none_left : Request.pending ⟨inode',groupGoal,wanted,.returned ⟨groupStart w.superBlock g + index,len,none⟩⟩ = 0 := rfl
    rw [total_move here,none_left,own,stored,superBlock]
    simp only [clear,superNBlockGroups_set]
    omega
  · intro g' group'
    have before := sound.dropped g' group'
    rw [handed] at before ⊢
    have known : Request.countedIn w.superBlock g' ⟨inode',groupGoal,wanted,
        .returned ⟨groupStart w.superBlock g + index,len,none⟩⟩ =
        Request.countedIn w.superBlock g' ⟨inode,groupGoal,wanted,.counted g index len⟩ := by
      have number := groupStart_group geometry.positive g index inside
      simp only [Request.countedIn,Request.blocksIn,Request.handed,if_true,number]
    rw [total_same here _ _ known,superBlock,gdesc]
    exact before
  · have before := sound.droppedAll
    have blocks : Request.blocks ⟨inode',groupGoal,wanted,.returned ⟨groupStart w.superBlock g + index,len,none⟩⟩ = len := rfl
    have blocks' : Request.blocks ⟨inode,groupGoal,wanted,.counted g index len⟩ = 0 := rfl
    rw [total_move here,blocks,blocks',stored]
    omega

end Sections

theorem Sound.step {v : Volume} {s s' : Requests} {k : Nat} (sound : Sound v s.volume s.requests)
    (may : mayStep s k = true) (step : AllocRequests.step s k = some s') : Sound v s'.volume s'.requests := by
  obtain ⟨w,requests⟩ := s
  obtain ⟨⟨inode,groupGoal,wanted,pc⟩,here,step⟩ := Option.bind_eq_some_iff.mp step
  obtain ⟨⟨w',r'⟩,next,step⟩ := Option.bind_eq_some_iff.mp step
  cases step
  cases pc with
  | again g =>
    rw [next_again] at next
    obtain ⟨⟨w₁,pc⟩,result,same⟩ := Option.map_eq_some_iff.mp next
    cases same
    exact sound.scan here may result
  | found g index len =>
    rw [next_found] at next
    obtain ⟨w₁,result,same⟩ := Option.map_eq_some_iff.mp next
    cases same
    exact sound.setBits here result
  | marked g index len =>
    rw [next_marked] at next
    obtain ⟨w₁,result,same⟩ := Option.map_eq_some_iff.mp next
    cases same
    exact sound.countGroup here result
  | counted g index len =>
    rw [next_counted] at next
    cases next
    exact sound.countSuper here
  | returned allocated => nomatch next

theorem Sound.exact {v w : Volume} {requests : List Request} (sound : Sound v w requests) : Exact v ⟨w,requests⟩ := by
  refine ⟨?_,fun finished g group => ?_,fun _ => sound.droppedAll⟩
  · refine sound.held.disjoint.sublist (filterMap_sublist fun r range handed => ?_)
    obtain ⟨inode,groupGoal,wanted,pc⟩ := r
    cases pc with
    | returned allocated => exact handed
    | _ => nomatch handed
  · rw [sound.dropped g group]
    congr 1
    refine total_congr fun r member => ?_
    have last := List.all_eq_true.mp finished r member
    obtain ⟨inode,groupGoal,wanted,pc⟩ := r
    cases pc with
    | returned allocated => rfl
    | _ => nomatch last

theorem Sound.start {w : Volume} (counted : Counted w) {requests : List Request}
    (begun : ∀ r ∈ requests, ∃ blockGroup, r.pc = .again blockGroup) : Sound w w requests := by
  have nothing {r : Request} (member : r ∈ requests) : (∀ sb, r.taken sb = none) ∧ (∀ g, r.uncounted g = 0) ∧
      r.pending = 0 ∧ (∀ sb g, r.countedIn sb g = 0) ∧ r.blocks = 0 ∧ Placed w r ∧ ∀ g, r.finding g = false := by
    obtain ⟨blockGroup,again⟩ := begun r member
    obtain ⟨inode,groupGoal,wanted,pc⟩ := r
    obtain rfl : pc = .again blockGroup := again
    exact ⟨fun _ => rfl,fun _ => rfl,rfl,fun _ _ => rfl,rfl,trivial,fun _ => rfl⟩
  have untaken : requests.filterMap (Request.taken w.superBlock) = [] :=
    List.filterMap_eq_nil_iff.mpr fun r member => (nothing member).1 w.superBlock
  refine ⟨⟨⟨_,(ext4FreeBlocksCountSet_self w.superBlock).symm⟩,counted.geometry,counted.inited,counted.apart⟩,counted.past,
    ?_,fun r member => (nothing member).2.2.2.2.2.1,fun g => ?_,fun g group => ?_,?_,fun g _ => ?_,?_⟩
  · rw [untaken]
    exact counted.start.held
  · rw [count_zero_iff.mpr fun r member => (nothing member).2.2.2.2.2.2 g]
    exact Nat.zero_le 1
  · rw [total_zero fun r member => (nothing member).2.1 g,counted.counted g group,Int.add_zero]
  · rw [total_zero fun r member => (nothing member).2.2.1,counted.total,Int.add_zero]
  · rw [total_zero fun r member => (nothing member).2.2.2.1 w.superBlock g,Int.sub_zero]
  · rw [total_zero fun r member => (nothing member).2.2.2.2.1,Int.sub_zero]

/-! Bitmaps that the first look into a group initialises. -/

/-- `w` is `v` with the bitmaps that are not yet initialised initialised. -/
structure Initialised (v w : Volume) : Prop where
  superBlock : w.superBlock = v.superBlock
  group : ∀ g, g < superNBlockGroups v.superBlock →
    (w.gdesc g = v.gdesc g ∧ bitmapOf w g = bitmapOf v g) ∨
    (ext4IsBlockBitmapInited (v.gdesc g) = false ∧
      ∃ free, ext4InitBlockBitmap v.superBlock (v.gdesc g) g = some (bitmapOf w g,w.gdesc g,free))

/-- The free counts are exact, where need be once the bitmap is initialised. -/
def Consistent (v : Volume) : Prop := ∃ w, Initialised v w ∧ Counted w

theorem ext4InitBlockBitmap_desc {sb : SuperBlock} {bg bg' : GroupDesc} {g free : Nat} {mem : Mem}
    (result : ext4InitBlockBitmap sb bg g = some (mem,bg',free)) : bg' = {bg with bgFlags := bg.bgFlags &&& ~~~bgBlockUninit} := by
  obtain ⟨_,_,result⟩ := Option.bind_eq_some_iff.mp result
  obtain ⟨_,_,result⟩ := Option.bind_eq_some_iff.mp result
  obtain ⟨_,_,result⟩ := Option.bind_eq_some_iff.mp result
  obtain ⟨_,_,result⟩ := Option.bind_eq_some_iff.mp result
  obtain ⟨_,_,result⟩ := Option.bind_eq_some_iff.mp result
  obtain ⟨_,_,result⟩ := Option.bind_eq_some_iff.mp result
  cases result
  rfl

theorem ext4InitBlockBitmap_set (sb : SuperBlock) (blk : Nat) (bg : GroupDesc) (g : Nat) :
    ext4InitBlockBitmap (ext4FreeBlocksCountSet sb blk) bg g = ext4InitBlockBitmap sb bg g := rfl

section Uninitialised
variable {v v' w w' : Volume}

theorem Initialised.desc (initialised : Initialised v w) {g : Nat} (group : g < superNBlockGroups v.superBlock) :
    ext4BlockBitmap w.superBlock (w.gdesc g) = ext4BlockBitmap v.superBlock (v.gdesc g) ∧
    ext4FreeBlksCount w.superBlock (w.gdesc g) = ext4FreeBlksCount v.superBlock (v.gdesc g) := by
  rw [initialised.superBlock]
  rcases initialised.group g group with ⟨same,_⟩ | ⟨_,free,result⟩
  · rw [same]
    exact ⟨rfl,rfl⟩
  · rw [ext4InitBlockBitmap_desc result]
    exact ⟨rfl,rfl⟩

theorem Initialised.apart (initialised : Initialised v w) (apart : Apart w) : Apart v := by
  intro g g' group group' same
  refine apart g g' (initialised.superBlock ▸ group) (initialised.superBlock ▸ group') ?_
  rw [(initialised.desc group).1,(initialised.desc group').1]
  exact same

theorem Initialised.agree (initialised : Initialised v w) {g : Nat} (group : g < superNBlockGroups v.superBlock)
    (inited : ext4IsBlockBitmapInited (v.gdesc g) = true) : w.gdesc g = v.gdesc g ∧ bitmapOf w g = bitmapOf v g := by
  rcases initialised.group g group with same | ⟨uninit,_⟩
  · exact same
  · rw [inited] at uninit
    nomatch uninit

/-- A step that leaves each group alone, or the same in both volumes. -/
theorem Initialised.step (initialised : Initialised v w) (blk : Nat)
    (superBlock : v'.superBlock = ext4FreeBlocksCountSet v.superBlock blk)
    (superBlock' : w'.superBlock = ext4FreeBlocksCountSet w.superBlock blk)
    (each : ∀ g, g < superNBlockGroups v.superBlock → (w'.gdesc g = v'.gdesc g ∧ bitmapOf w' g = bitmapOf v' g) ∨
      ((v'.gdesc g = v.gdesc g ∧ bitmapOf v' g = bitmapOf v g) ∧ w'.gdesc g = w.gdesc g ∧ bitmapOf w' g = bitmapOf w g)) :
    Initialised v' w' := by
  refine ⟨by rw [superBlock,superBlock',initialised.superBlock],fun g group => ?_⟩
  rw [superBlock] at group ⊢
  rcases each g group with same | ⟨⟨desc,bits⟩,desc',bits'⟩
  · exact Or.inl same
  · rw [desc,bits,desc',bits',ext4InitBlockBitmap_set]
    exact initialised.group g group

theorem inited_setDesc (v : Volume) (g count g' : Nat) :
    ext4IsBlockBitmapInited ((v.setDesc g (ext4FreeBlksSet v.superBlock (v.gdesc g) count)).gdesc g') =
      ext4IsBlockBitmapInited (v.gdesc g') := by
  rcases eq_or_ne g' g with rfl | other
  · simp [Volume.setDesc]
  · simp [Volume.setDesc,other]

theorem Initialised.setDesc (initialised : Initialised v w) {g : Nat}
    (inited : ext4IsBlockBitmapInited (v.gdesc g) = true) (count : Nat) :
    Initialised (v.setDesc g (ext4FreeBlksSet v.superBlock (v.gdesc g) count))
      (w.setDesc g (ext4FreeBlksSet v.superBlock (v.gdesc g) count)) := by
  refine initialised.step (ext4FreeBlocksCount v.superBlock) ?_ ?_ fun g' group' => ?_
  · rw [ext4FreeBlocksCountSet_self]
    rfl
  · rw [← initialised.superBlock,ext4FreeBlocksCountSet_self]
    rfl
  · rcases eq_or_ne g' g with rfl | other
    · obtain ⟨desc,bits⟩ := initialised.agree group' inited
      rw [bitmapOf,bitmapOf,desc,initialised.superBlock] at bits
      refine Or.inl ⟨by simp [Volume.setDesc],?_⟩
      simp only [bitmapOf,Volume.setDesc,Function.update_self,initialised.superBlock,ext4BlockBitmap_freeBlksSet]
      exact bits
    · refine Or.inr ⟨⟨?_,?_⟩,?_,?_⟩
      all_goals simp [bitmapOf,Volume.setDesc,other]

/-- The first look into a group initialises its bitmap. -/
theorem Initialised.init (initialised : Initialised v w) (apart : Apart w) {g : Nat}
    (group : g < superNBlockGroups v.superBlock)
    (ready : ext4IsBlockBitmapInited (w.gdesc g) = true) :
    ∃ v₁, ext4TryToInitBlockBitmap v g = some v₁ ∧ Initialised v₁ w ∧ ext4IsBlockBitmapInited (v₁.gdesc g) = true ∧
      v₁.superBlock = v.superBlock ∧ ∀ g', g' ≠ g → v₁.gdesc g' = v.gdesc g' := by
  rcases initialised.group g group with ⟨same,_⟩ | ⟨uninit,free,result⟩
  · rw [same] at ready
    refine ⟨v,?_,initialised,ready,rfl,fun g' _ => rfl⟩
    simp [ext4TryToInitBlockBitmap,Volume.desc,group,ready]
  · have desc := (initialised.desc group).1
    rw [initialised.superBlock] at desc
    refine ⟨(v.setDesc g (w.gdesc g)).setBitmap (ext4BlockBitmap v.superBlock (v.gdesc g)) (bitmapOf w g),?_,?_,?_,rfl,?_⟩
    · simp [ext4TryToInitBlockBitmap,Volume.desc,group,uninit,result]
    · refine initialised.step (ext4FreeBlocksCount v.superBlock) ?_ ?_ fun g' group' => ?_
      · rw [ext4FreeBlocksCountSet_self]
        rfl
      · rw [← initialised.superBlock,ext4FreeBlocksCountSet_self]
      · rcases eq_or_ne g' g with rfl | other
        · refine Or.inl ⟨?_,?_⟩
          · simp [Volume.setDesc,Volume.setBitmap]
          · simp [bitmapOf,Volume.setDesc,Volume.setBitmap,desc]
        · have away := fun same => other (initialised.apart apart g' g group' group same)
          refine Or.inr ⟨⟨?_,?_⟩,rfl,rfl⟩
          · simp [Volume.setDesc,Volume.setBitmap,other]
          · simp only [bitmapOf,Volume.setDesc,Volume.setBitmap,Function.update_of_ne other]
            exact Function.update_of_ne away _ _
    · simpa [Volume.setDesc,Volume.setBitmap] using ready
    · intro g' other
      simp [Volume.setDesc,Volume.setBitmap,other]

/-- The groups that requests have found blocks in have their bitmaps. -/
def Begun (v : Volume) (requests : List Request) : Prop :=
  ∀ r ∈ requests, ∀ g, (r.finding g || r.marking g) = true → ext4IsBlockBitmapInited (v.gdesc g) = true

theorem Begun.move {requests : List Request} {k : Nat} {r : Request} (begun : Begun v requests)
    (kept : ∀ g, ext4IsBlockBitmapInited (v.gdesc g) = true → ext4IsBlockBitmapInited (v'.gdesc g) = true)
    (own : ∀ g, (r.finding g || r.marking g) = true → ext4IsBlockBitmapInited (v'.gdesc g) = true) :
    Begun v' (requests.set k r) := by
  intro r' member g there
  rcases mem_move member with rfl | old
  · exact own g there
  · exact kept g (begun r' old g there)

theorem searchGroup_same {groupGoal g : Nat} {wanted : Int} {pc : Pc} (initialised : Initialised v w)
    (inited : ext4IsBlockBitmapInited (v.gdesc g) = true) (result : searchGroup v groupGoal wanted g = some (v',pc)) :
    (∃ w', searchGroup w groupGoal wanted g = some (w',pc) ∧ Initialised v' w') ∧
    (∀ g', ext4IsBlockBitmapInited (v'.gdesc g') = ext4IsBlockBitmapInited (v.gdesc g')) ∧
    ((∃ index len, pc = .found g index len) ∨ (∃ next, pc = .again next) ∨ pc = .returned ⟨0,0,some .enospc⟩) := by
  obtain ⟨bg,desc,_⟩ := Option.bind_eq_some_iff.mp result
  obtain ⟨group,rfl⟩ : g < superNBlockGroups v.superBlock ∧ v.gdesc g = bg := by simpa [Volume.desc] using desc
  obtain ⟨same,bits⟩ := initialised.agree group inited
  have superBlock := initialised.superBlock
  have desc' : w.desc g = some (v.gdesc g) := by rw [Volume.desc,superBlock,if_pos group,same]
  have mem : w.bitmap (ext4BlockBitmap v.superBlock (v.gdesc g)) = v.bitmap (ext4BlockBitmap v.superBlock (v.gdesc g)) := by
    rw [bitmapOf,bitmapOf,superBlock,same] at bits
    exact bits
  by_cases empty : ext4FreeBlksCount v.superBlock (v.gdesc g) = 0
  · rw [searchGroup_empty groupGoal wanted desc empty] at result
    cases result
    refine ⟨⟨w,?_,initialised⟩,fun _ => rfl,Or.inr (noSpace_cases v.superBlock groupGoal g)⟩
    rw [searchGroup_empty groupGoal wanted desc' (by rwa [superBlock]),superBlock]
  by_cases outside : superBlockSize v.superBlock * 8 < bitmapLen v.superBlock g
  · simp [searchGroup,desc,empty,outside] at result
  generalize found : mbFindNextZeroBit (v.bitmap (ext4BlockBitmap v.superBlock (v.gdesc g))) 0
    (bitmapLen v.superBlock g) 0 = index
  generalize run : mbFindZeroRunLen (v.bitmap (ext4BlockBitmap v.superBlock (v.gdesc g))) 0
    (bitmapLen v.superBlock g) index = len
  have empty' : ext4FreeBlksCount w.superBlock (v.gdesc g) ≠ 0 := by rwa [superBlock]
  have outside' : ¬superBlockSize w.superBlock * 8 < bitmapLen w.superBlock g := by rwa [superBlock]
  have found' : mbFindNextZeroBit (w.bitmap (ext4BlockBitmap w.superBlock (v.gdesc g))) 0 (bitmapLen w.superBlock g) 0 =
      index := by rw [superBlock,mem,found]
  have run' : mbFindZeroRunLen (w.bitmap (ext4BlockBitmap w.superBlock (v.gdesc g))) 0 (bitmapLen w.superBlock g) index =
      len := by rw [superBlock,mem,run]
  by_cases nothing : len = 0
  · rw [searchGroup_nothing groupGoal wanted desc empty outside found run nothing] at result
    cases result
    refine ⟨⟨_,(searchGroup_nothing groupGoal wanted desc' empty' outside' found' run' nothing).trans (by rw [superBlock]),?_⟩,
      fun g' => ?_,Or.inr (noSpace_cases v.superBlock groupGoal g)⟩
    · exact initialised.setDesc inited 0
    · exact inited_setDesc v g 0 g'
  · rw [searchGroup_found groupGoal wanted desc empty outside found run nothing] at result
    cases result
    exact ⟨⟨w,searchGroup_found groupGoal wanted desc' empty' outside' found' run' nothing,initialised⟩,fun _ => rfl,
      Or.inl ⟨_,_,rfl⟩⟩

theorem Initialised.setBits {g index : Nat} {len : Int} (initialised : Initialised v w) (apart : Apart w)
    (inited : ext4IsBlockBitmapInited (v.gdesc g) = true) (result : AllocRequests.setBits v g index len = some v') :
    (∃ w', AllocRequests.setBits w g index len = some w' ∧ Initialised v' w') ∧ v'.gdesc = v.gdesc := by
  obtain ⟨bg,desc,_⟩ := Option.bind_eq_some_iff.mp result
  obtain ⟨group,rfl⟩ : g < superNBlockGroups v.superBlock ∧ v.gdesc g = bg := by simpa [Volume.desc] using desc
  obtain ⟨same,bits⟩ := initialised.agree group inited
  have superBlock := initialised.superBlock
  have desc' : w.desc g = some (w.gdesc g) := if_pos (superBlock ▸ group)
  by_cases outside : superBlockSize v.superBlock * 8 < index + len
  · simp [AllocRequests.setBits,desc,outside] at result
  rw [setBits_desc desc outside] at result
  cases result
  refine ⟨⟨_,setBits_desc desc' (by rwa [superBlock]),?_⟩,rfl⟩
  refine initialised.step (ext4FreeBlocksCount v.superBlock) ?_ ?_ fun g' group' => ?_
  · rw [ext4FreeBlocksCountSet_self]
    rfl
  · rw [← superBlock,ext4FreeBlocksCountSet_self]
    rfl
  · rcases eq_or_ne g' g with rfl | other
    · refine Or.inl ⟨same,?_⟩
      rw [bitmapOf_setBitmap_self,bitmapOf_setBitmap_self]
      exact congrArg (mbSetBits · 0 index len) bits
    · exact Or.inr ⟨⟨rfl,bitmapOf_setBitmap_other (initialised.apart apart) group group' other⟩,rfl,
        bitmapOf_setBitmap_other apart (superBlock ▸ group) (superBlock ▸ group') other⟩

theorem Initialised.countGroup {g : Nat} {len : Int} (initialised : Initialised v w)
    (inited : ext4IsBlockBitmapInited (v.gdesc g) = true) (result : AllocRequests.countGroup v g len = some v') :
    (∃ w', AllocRequests.countGroup w g len = some w' ∧ Initialised v' w') ∧
    ∀ g', ext4IsBlockBitmapInited (v'.gdesc g') = ext4IsBlockBitmapInited (v.gdesc g') := by
  obtain ⟨bg,desc,_⟩ := Option.bind_eq_some_iff.mp result
  obtain ⟨group,rfl⟩ : g < superNBlockGroups v.superBlock ∧ v.gdesc g = bg := by simpa [Volume.desc] using desc
  obtain ⟨same,_⟩ := initialised.agree group inited
  have superBlock := initialised.superBlock
  have desc' : w.desc g = some (v.gdesc g) := by rw [Volume.desc,superBlock,if_pos group,same]
  rw [countGroup_desc desc] at result
  cases result
  refine ⟨⟨_,countGroup_desc desc' len,?_⟩,fun g' => inited_setDesc v g _ g'⟩
  rw [superBlock]
  exact initialised.setDesc inited _

theorem Initialised.countSuper (initialised : Initialised v w) (len : Int) :
    Initialised (AllocRequests.countSuper v len) (AllocRequests.countSuper w len) :=
  initialised.step _ rfl (by rw [AllocRequests.countSuper,initialised.superBlock]) fun _ _ => Or.inr ⟨⟨rfl,rfl⟩,rfl,rfl⟩

theorem Initialised.mayStep {requests : List Request} {k : Nat} (initialised : Initialised v w) (begun : Begun v requests)
    {r : Request} {g : Nat} (here : requests[k]? = some r) (again : r.pc = .again g)
    (group : g < superNBlockGroups v.superBlock) (may : AllocRequests.mayStep ⟨v,requests⟩ k = true) :
    AllocRequests.mayStep ⟨w,requests⟩ k = true := by
  obtain ⟨inode,groupGoal,wanted,pc⟩ := r
  obtain rfl : pc = .again g := again
  simp only [AllocRequests.mayStep,here,Bool.and_eq_true,Bool.or_eq_true,List.all_eq_true,Bool.not_eq_true'] at may ⊢
  refine ⟨may.1,?_⟩
  rcases Bool.eq_false_or_eq_true (ext4IsBlockBitmapInited (v.gdesc g)) with inited | uninit
  · obtain ⟨_,bits⟩ := initialised.agree group inited
    have same : hasClearBit w g = hasClearBit v g := by rw [hasClearBit,bits,initialised.superBlock,hasClearBit]
    rw [same]
    exact may.2
  · refine Or.inr fun r member => ?_
    by_contra marking
    rw [Bool.not_eq_false] at marking
    rw [begun r member g (by rw [marking,Bool.or_true])] at uninit
    nomatch uninit

/-- A step on the volume is the same step on the one with all bitmaps initialised. -/
theorem simulated {v₀ : Volume} {requests : List Request} {s' : Requests} {k : Nat} (sound : Sound v₀ w requests)
    (initialised : Initialised v w) (begun : Begun v requests) (may : AllocRequests.mayStep ⟨v,requests⟩ k = true)
    (step : AllocRequests.step ⟨v,requests⟩ k = some s') :
    AllocRequests.mayStep ⟨w,requests⟩ k = true ∧
    (∃ w', AllocRequests.step ⟨w,requests⟩ k = some ⟨w',s'.requests⟩ ∧ Initialised s'.volume w') ∧
    Begun s'.volume s'.requests := by
  have apart := sound.shaped.apart
  obtain ⟨⟨inode,groupGoal,wanted,pc⟩,here,step⟩ := Option.bind_eq_some_iff.mp step
  obtain ⟨⟨v',r'⟩,next,step⟩ := Option.bind_eq_some_iff.mp step
  cases step
  have ready {g : Nat} (there : (Request.finding g ⟨inode,groupGoal,wanted,pc⟩ ||
      Request.marking g ⟨inode,groupGoal,wanted,pc⟩) = true) : ext4IsBlockBitmapInited (v.gdesc g) = true :=
    begun _ (List.mem_of_getElem? here) g there
  cases pc with
  | again g =>
    rw [next_again] at next
    obtain ⟨⟨v₂,pc⟩,result,same⟩ := Option.map_eq_some_iff.mp next
    cases same
    have group : g < superNBlockGroups v.superBlock := by
      by_contra outside
      simp [scan,ext4TryToInitBlockBitmap,Volume.desc,outside] at result
    have group' : g < superNBlockGroups w.superBlock := initialised.superBlock ▸ group
    have full := sound.shaped.inited g group'
    have init : ext4TryToInitBlockBitmap w g = some w := by
      simp [ext4TryToInitBlockBitmap,Volume.desc,group',full]
    obtain ⟨v₁,init',initialised₁,inited,_,others⟩ := initialised.init apart group full
    rw [scan,init',Option.bind_some] at result
    obtain ⟨⟨w',found,after⟩,kept,own⟩ := searchGroup_same initialised₁ inited result
    refine ⟨initialised.mayStep begun here rfl group may,⟨w',?_,after⟩,begun.move ?_ ?_⟩
    · exact step_here here (by rw [next_again,scan,init,Option.bind_some,found]; rfl)
    · intro g' before
      rw [kept]
      rcases eq_or_ne g' g with rfl | other
      · exact inited
      · rw [others g' other]
        exact before
    · intro g' there
      rw [kept]
      rcases own with ⟨index,len,rfl⟩ | ⟨next,rfl⟩ | rfl
      · obtain rfl : g = g' := by simpa [Request.finding,Request.marking] using there
        exact inited
      · cases there
      · cases there
  | found g index len =>
    rw [next_found] at next
    obtain ⟨v₁,result,same⟩ := Option.map_eq_some_iff.mp next
    cases same
    have inited := ready (g := g) (by simp [Request.finding])
    obtain ⟨⟨w',set,after⟩,gdesc⟩ := initialised.setBits apart inited result
    refine ⟨by simp [AllocRequests.mayStep,here],⟨w',?_,after⟩,begun.move (fun g' before => by rwa [gdesc]) fun g' there => ?_⟩
    · exact step_here here (by rw [next_found,set]; rfl)
    · obtain rfl : g = g' := by simpa [Request.finding,Request.marking] using there
      rwa [gdesc]
  | marked g index len =>
    rw [next_marked] at next
    obtain ⟨v₁,result,same⟩ := Option.map_eq_some_iff.mp next
    cases same
    have inited := ready (g := g) (by simp [Request.marking])
    obtain ⟨⟨w',counted,after⟩,kept⟩ := initialised.countGroup inited result
    refine ⟨by simp [AllocRequests.mayStep,here],⟨w',?_,after⟩,begun.move (fun g' before => by rwa [kept]) fun g' there => ?_⟩
    · exact step_here here (by rw [next_marked,counted]; rfl)
    · cases there
  | counted g index len =>
    rw [next_counted] at next
    cases next
    refine ⟨by simp [AllocRequests.mayStep,here],⟨_,?_,initialised.countSuper len⟩,
      begun.move (fun g' before => before) fun g' there => ?_⟩
    · exact step_here here (by rw [next_counted,initialised.superBlock])
    · cases there
  | returned allocated => cases next

end Uninitialised

/-- In every run in which no scan comes between another request's scan and its update the
requests are answered as if they came one after the other. -/
theorem requests_exact {v : Volume} (consistent : Consistent v) (calls : List Parameters) {s : Requests}
    (reached : Reaches step mayStep (Requests.start v calls) s) : Exact v s := by
  obtain ⟨w₀,initialised₀,counted⟩ := consistent
  have kept : ∃ w, Initialised s.volume w ∧ Begun s.volume s.requests ∧ Sound w₀ w s.requests := by
    refine reached.invariant (P := fun s => ∃ w, Initialised s.volume w ∧ Begun s.volume s.requests ∧ Sound w₀ w s.requests)
      ⟨w₀,initialised₀,?_,Sound.start counted ?_⟩ ?_
    · intro r member g there
      obtain ⟨parameters,_,rfl⟩ := List.mem_map.mp member
      nomatch there
    · intro r member
      obtain ⟨parameters,_,rfl⟩ := List.mem_map.mp member
      exact ⟨_,rfl⟩
    · rintro ⟨v₁,requests⟩ k s' ⟨w,initialised,begun,sound⟩ may step
      obtain ⟨may',⟨w',step',initialised'⟩,begun'⟩ := simulated sound initialised begun may step
      exact ⟨w',initialised',begun',sound.step may' step'⟩
  obtain ⟨w,initialised,_,sound⟩ := kept
  have exact := sound.exact
  obtain ⟨blk,shape⟩ := sound.shaped.superBlock
  have blocksIn (g : Nat) : Request.blocksIn w₀.superBlock g = Request.blocksIn v.superBlock g := by rw [initialised₀.superBlock]
  refine ⟨exact.apart,fun finished g group => ?_,fun finished => ?_⟩
  · have group₀ : g < superNBlockGroups w₀.superBlock := initialised₀.superBlock ▸ group
    have group' : g < superNBlockGroups s.volume.superBlock := by
      rw [← initialised.superBlock,shape]
      exact group₀
    rw [← (initialised.desc group').2,← (initialised₀.desc group).2,← blocksIn]
    exact exact.group finished g group₀
  · rw [← initialised.superBlock,← initialised₀.superBlock]
    exact exact.total finished

theorem counted_consistent {v : Volume} (counted : Counted v) : Consistent v :=
  ⟨v,⟨rfl,fun _ _ => Or.inl ⟨rfl,rfl⟩⟩,counted⟩

/-- A second request scans the group once the first has updated its counter, before the first returns. -/
theorem requests_exact_oneFree : ∃ s, run step mayStep (Requests.start oneFree [⟨anyInode,7,some 5⟩,⟨anyInode,0,none⟩])
    [0,0,0,1,0] = some s ∧ s.requests.map Request.handed = [some (7,1),none] ∧ Exact oneFree s := by
  have result : (run step mayStep (Requests.start oneFree [⟨anyInode,7,some 5⟩,⟨anyInode,0,none⟩]) [0,0,0,1,0]).map
      (fun s => s.requests.map Request.handed) = some [some (7,1),none] := by decide +kernel
  obtain ⟨s,runs,handed⟩ := Option.map_eq_some_iff.mp result
  exact ⟨s,runs,handed,requests_exact (counted_consistent oneFree_counted) _ (Reaches.start.run runs)⟩

/-- Two requests scan before either sets the bit: both return block 7. -/
theorem requests_same_block : Consistent oneFree ∧ ∃ s,
    Reaches step (fun _ _ => true) (Requests.start oneFree [⟨anyInode,0,none⟩,⟨anyInode,0,none⟩]) s ∧ ¬Exact oneFree s := by
  have result : (run step (fun _ _ => true) (Requests.start oneFree [⟨anyInode,0,none⟩,⟨anyInode,0,none⟩])
      [0,1,0,1,0,1,0,1]).map (fun s => s.requests.map Request.handed) = some [some (7,1),some (7,1)] := by decide +kernel
  obtain ⟨s,runs,handed⟩ := Option.map_eq_some_iff.mp result
  refine ⟨counted_consistent oneFree_counted,s,Reaches.start.run runs,fun exact => ?_⟩
  have ranges : s.requests.filterMap Request.handed = [(7,1),(7,1)] := by
    have listed := congrArg (List.filterMap id) handed
    rwa [List.filterMap_map] at listed
  have apart := exact.apart
  rw [ranges] at apart
  exact absurd (List.rel_of_pairwise_cons apart (List.mem_singleton.mpr rfl) 7 (by decide)) (by decide)

end Ext4Fuse.AllocRequests
