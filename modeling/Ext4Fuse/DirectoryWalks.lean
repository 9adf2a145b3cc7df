import Ext4Fuse.PathLookup
import Ext4Fuse.Readdir
import Ext4Fuse.Library.Walk

/-! The walks over a directory's entries, whatever its blocks hold: when the search of a path
lookup and the loop of `op_readdir` come to an end inside their buffers. -/
namespace Ext4Fuse.DirectoryWalks
open Machine Dcache Directory PathLookup Readdir Library Library.Bytes Library.Steps Library.Walk

section Entry
variable (block : BlockSize) (dir : DirInode) (offset : Nat)

/-- The block in which `inode_dentry_get` looks for an entry. -/
def entryBuf : Nat → UInt8 := dir.data (u32 (offset / block.bytes : Nat))

def entryInode : Nat := leValue (slice (entryBuf block dir offset) (offset % block.bytes) 4)
def entryRecLen : Nat := leValue (slice (entryBuf block dir offset) (offset % block.bytes + 4) 2)
def entryNameLen : Nat := leValue (slice (entryBuf block dir offset) (offset % block.bytes + 6) 1)
def entryName : List UInt8 := slice (entryBuf block dir offset) (offset % block.bytes + 8) (entryNameLen block dir offset)

/-- The string that `get_printable_name` makes of the name. -/
def entryPrinted : List UInt8 := (entryName block dir offset).takeWhile (· ≠ 0)

/-- The first bytes of an entry, so many of them, lie in its block. -/
def inBlock (count : Nat) : Prop := offset % block.bytes + count ≤ block.bytes

instance (count : Nat) : Decidable (inBlock block offset count) := inferInstanceAs (Decidable (_ ≤ _))

/-- The entry itself. -/
def entryAt : Dentry := ⟨entryBuf block dir offset,offset % block.bytes⟩

theorem inodeDentryGet_inside (inside : offset < dir.size) :
    inodeDentryGet block dir offset = some (some (entryAt block dir offset)) := by
  rw [inodeDentryGet,if_neg (by omega),if_neg (by omega)]
  rfl

theorem entryAt_field (at_ count : Nat) : (entryAt block dir offset).field block at_ count =
    if inBlock block offset (at_ + count) then some (slice (entryBuf block dir offset) (offset % block.bytes + at_) count)
    else none :=
  if_congr (by rw [entryAt,inBlock,Nat.add_assoc]) rfl rfl

variable {block offset}

theorem entryAt_recLen (fits : inBlock block offset 6) :
    (entryAt block dir offset).recLen block = some (entryRecLen block dir offset) := by
  rw [Dentry.recLen,entryAt_field,if_pos fits]
  rfl

theorem entryAt_inode (fits : inBlock block offset 4) :
    (entryAt block dir offset).inode block = some (entryInode block dir offset) := by
  rw [Dentry.inode,entryAt_field,if_pos fits]
  rfl

theorem entryAt_nameLen (fits : inBlock block offset 7) :
    (entryAt block dir offset).nameLen block = some (entryNameLen block dir offset) := by
  rw [Dentry.nameLen,entryAt_field,if_pos fits]
  rfl

theorem inBlock_less {count more : Nat} (fits : inBlock block offset more) (less : count ≤ more) : inBlock block offset count := by
  unfold inBlock at *
  omega

end Entry

/-! The search for a name. -/

section Search
variable (block : BlockSize) (dir : DirInode) (name : List UInt8)

/-- A round of the search. -/
def searchTurn (offset : Nat) : Turn Nat (Option Nat) :=
  let next := u32 (offset + entryRecLen block dir offset : Nat)
  if dir.size < offset then .stuck
  else if dir.size = offset then .halt none
  else if inBlock block offset 6 then
    if entryInode block dir offset = 0 then .on next
    else if inBlock block offset 7 then
      if entryNameLen block dir offset = name.length then
        if inBlock block offset (8 + entryNameLen block dir offset) then
          if entryName block dir offset = name then .halt (some (entryInode block dir offset)) else .on next
        else .stuck
      else .on next
    else .stuck
  else .stuck

theorem dirSearchLoop_run (fuel offset : Nat) :
    dirSearchLoop block dir name fuel offset = Walk.run (searchTurn block dir name) fuel offset := by
  induction fuel generalizing offset with
  | zero => rfl
  | succ fuel ih =>
    rw [Walk.run,searchTurn,dirSearchLoop]
    rcases Nat.lt_trichotomy offset dir.size with inside | rfl | above
    · simp only [inodeDentryGet_inside block dir offset inside,Option.bind_eq_bind,Option.bind_some,
        if_neg (Nat.not_lt.mpr (Nat.le_of_lt inside)),if_neg (Nat.ne_of_gt inside)]
      rcases Classical.em (inBlock block offset 6) with header | out
      · simp only [entryAt_recLen dir header,entryAt_inode dir (inBlock_less header (by omega)),Option.bind_some,if_pos header]
        rcases Classical.em (entryInode block dir offset = 0) with unused | used
        · simp only [if_pos unused,ih]
        simp only [if_neg used]
        rcases Classical.em (inBlock block offset 7) with more | out
        · simp only [entryAt_nameLen dir more,Option.bind_some,if_pos more]
          rcases Classical.em (entryNameLen block dir offset = name.length) with length | differs
          · simp only [if_neg (not_not.mpr length),if_pos length]
            simp only [Dentry.name,entryAt_field]
            rcases Classical.em (inBlock block offset (8 + entryNameLen block dir offset)) with whole | out
            · simp only [if_pos whole,Option.bind_some]
              rcases Classical.em (entryName block dir offset = name) with found | other
              · rw [if_pos found]
                exact if_neg (not_not.mpr found)
              · rw [if_neg other]
                exact (if_pos other).trans (ih _)
            · simp only [if_neg out,Option.bind_none]
          · simp only [if_pos differs,if_neg differs,ih]
        · simp only [Dentry.nameLen,entryAt_field,if_neg out,Option.map_none,Option.bind_none]
      · simp only [Dentry.recLen,entryAt_field,if_neg out,Option.map_none,Option.bind_none]
    · rw [inodeDentryGet,if_neg (Nat.lt_irrefl _),if_pos rfl,if_neg (Nat.lt_irrefl _),if_pos rfl]
      rfl
    · rw [inodeDentryGet,if_pos above,if_pos above]
      rfl

/-- Where the search reads an entry, it reads inside the block, and its offset is no further than the end. -/
def searchInside (offset : Nat) : Prop := offset ≤ dir.size ∧ (offset < dir.size → inBlock block offset 6 ∧
  (entryInode block dir offset ≠ 0 → inBlock block offset 7 ∧
    (entryNameLen block dir offset = name.length → inBlock block offset (8 + entryNameLen block dir offset))))

theorem searchTurn_stuck (offset : Nat) : searchTurn block dir name offset = .stuck ↔ ¬searchInside block dir name offset := by
  unfold searchInside
  simp only [searchTurn]
  split_ifs with above end_ header unused more length whole found
  · exact iff_of_true rfl fun inside => absurd inside.1 (Nat.not_le.mpr above)
  · exact iff_of_false nofun (not_not.mpr ⟨Nat.le_of_eq end_.symm,fun less => absurd end_ (Nat.ne_of_gt less)⟩)
  · exact iff_of_false nofun (not_not.mpr ⟨Nat.not_lt.mp above,fun _ => ⟨header,fun used => absurd unused used⟩⟩)
  · exact iff_of_false nofun (not_not.mpr ⟨Nat.not_lt.mp above,fun _ => ⟨header,fun _ => ⟨more,fun _ => whole⟩⟩⟩)
  · exact iff_of_false nofun (not_not.mpr ⟨Nat.not_lt.mp above,fun _ => ⟨header,fun _ => ⟨more,fun _ => whole⟩⟩⟩)
  · exact iff_of_true rfl fun inside => whole (((inside.2 (by omega)).2 unused).2 length)
  · exact iff_of_false nofun (not_not.mpr ⟨Nat.not_lt.mp above,fun _ => ⟨header,fun _ => ⟨more,fun same => absurd same length⟩⟩⟩)
  · exact iff_of_true rfl fun inside => more ((inside.2 (by omega)).2 unused).1
  · exact iff_of_true rfl fun inside => header (inside.2 (by omega)).1

/-- Every entry that the search comes to is read inside its block, and no offset comes twice. -/
def SearchFits : Prop := ∀ offset, Comes (searchTurn block dir name) 0 offset → searchInside block dir name offset ∧
  ∀ next, searchTurn block dir name offset = .on next → ¬Comes (searchTurn block dir name) next offset

theorem searchTurn_next {offset next : Nat} (goes : searchTurn block dir name offset = .on next) :
    next = u32 (offset + entryRecLen block dir offset : Nat) := by
  simp only [searchTurn] at goes
  split_ifs at goes
  all_goals exact (Turn.on.inj goes).symm

theorem searchTurn_bounded {offset : Nat} (comes : Comes (searchTurn block dir name) 0 offset) : offset < 2^32 := by
  cases comes with
  | here => decide
  | on _ goes =>
    rw [searchTurn_next block dir name goes]
    exact u32_lt _

theorem searchTurn_ends_iff {fuel : Nat} (enough : 2^32 < fuel) :
    (∃ found, Walk.run (searchTurn block dir name) fuel 0 = some found) ↔ SearchFits block dir name := by
  constructor
  · rintro ⟨found,ended⟩ offset comes
    have ends := comes.ends.mp ⟨fuel,found,ended⟩
    refine ⟨?_,fun next goes back => not_ends_of_return goes back ends⟩
    by_contra out
    exact not_ends_stuck ((searchTurn_stuck block dir name offset).mpr out) ends
  · intro fits
    refine run_of_bounded (n := 2^32) (fun b comes => searchTurn_bounded block dir name comes) (fun b comes stuck => ?_)
      (fun b c comes goes => (fits b comes).2 c goes) enough
    exact (searchTurn_stuck block dir name b).mp stuck (fits b comes).1

theorem dirSearch_run : dirSearch block dir name = Walk.run (searchTurn block dir name) (2^32 + 1) 0 :=
  dirSearchLoop_run block dir name _ 0

theorem dirSearch_returns_iff : (∃ found, dirSearch block dir name = some found) ↔ SearchFits block dir name := by
  rw [dirSearch_run]
  exact searchTurn_ends_iff block dir name (Nat.lt_succ_self _)

/-- In a directory that leaves room for one more entry below 2^32 an offset comes twice only by
an entry of length 0. -/
theorem searchFits_iff (room : dir.size + 2^16 ≤ 2^32) : SearchFits block dir name ↔
    ∀ offset, Comes (searchTurn block dir name) 0 offset → searchInside block dir name offset ∧
      ∀ next, searchTurn block dir name offset = .on next → entryRecLen block dir offset ≠ 0 := by
  have small (offset : Nat) : entryRecLen block dir offset < 2^16 := by
    have bound := leValue_lt (slice (entryBuf block dir offset) (offset % block.bytes + 4) 2)
    rwa [slice_length] at bound
  have grows (offset : Nat) (comes : Comes (searchTurn block dir name) 0 offset) (inside : searchInside block dir name offset)
      (next : Nat) (goes : searchTurn block dir name offset = .on next) : next = offset + entryRecLen block dir offset := by
    have bound := searchTurn_bounded block dir name comes
    have length := small offset
    have last := inside.1
    rw [searchTurn_next block dir name goes]
    exact u32_small _ (by omega)
  constructor
  · intro fits offset comes
    obtain ⟨inside,once⟩ := fits offset comes
    refine ⟨inside,fun next goes zero => ?_⟩
    have same := grows offset comes inside next goes
    rw [zero,Nat.add_zero] at same
    subst same
    exact once next goes .here
  · intro fits offset comes
    refine ⟨(fits offset comes).1,fun next goes back => ?_⟩
    have up (b : Nat) (from_next : Comes (searchTurn block dir name) next b) : next ≤ b := by
      induction from_next with
      | here => exact Nat.le_refl _
      | on from_next goes' ih =>
        have comes' := (comes.on goes).trans from_next
        rw [grows _ comes' (fits _ comes').1 _ goes']
        exact Nat.le_trans ih (Nat.le_add_right _ _)
    have further := grows offset comes (fits offset comes).1 next goes
    have positive := (fits offset comes).2 next goes
    have least := up offset back
    omega

end Search

/-! Path lookups. -/

section Lookup
variable (block : BlockSize) (v : PathLookup.Volume)

/-- A walk through directories fits: no component has 256 bytes, every number that is searched lies in a group, and every
directory that is searched fits. -/
def searchesFit : Nat → List Name → Prop
  | _, [] => True
  | inodeIdx, name::rest => name.length < 256 ∧ v.has inodeIdx ∧ SearchFits block (v.inode inodeIdx) name ∧
    ∀ offset n, Comes (searchTurn block (v.inode inodeIdx) name) 0 offset →
      searchTurn block (v.inode inodeIdx) name offset = .halt (some n) → searchesFit n rest

theorem resolve_returns_iff (inodeIdx : Nat) (names : List Name) :
    (∃ n, resolve block v inodeIdx names = some n) ↔ searchesFit block v inodeIdx names := by
  induction names generalizing inodeIdx with
  | nil => exact iff_of_true ⟨inodeIdx,rfl⟩ trivial
  | cons name rest ih =>
    rw [resolve,searchesFit]
    rcases lt_or_ge name.length 256 with short | long
    · rw [if_neg (Nat.not_le.mpr short),v.inodeGetByNumber_eq]
      rcases Classical.em (v.has inodeIdx) with has | lost
      · rw [if_pos has,Option.bind_eq_bind,Option.bind_some]
        have fits := dirSearch_returns_iff block (v.inode inodeIdx) name
        have ran := dirSearch_run block (v.inode inodeIdx) name
        cases found : dirSearch block (v.inode inodeIdx) name with
        | none =>
          rw [found] at fits
          exact iff_of_false (by rintro ⟨_,⟨⟩⟩) fun all => by obtain ⟨_,⟨⟩⟩ := fits.mpr all.2.2.1
        | some result =>
          rw [found] at fits ran
          have works := fits.mp ⟨result,rfl⟩
          cases result with
          | none =>
            refine iff_of_true ⟨0,rfl⟩ ⟨short,has,works,fun offset n comes halts => ?_⟩
            exact absurd (run_of_comes ran.symm comes halts) (by rintro ⟨⟩)
          | some n =>
            refine (ih n).trans ⟨fun rest_fits => ⟨short,has,works,fun offset m comes halts => ?_⟩,fun all => ?_⟩
            · obtain rfl := Option.some.inj (run_of_comes ran.symm comes halts)
              exact rest_fits
            · obtain ⟨offset,comes,halts⟩ := run_comes ran.symm
              exact all.2.2.2 offset n comes halts
      · rw [if_neg lost]
        exact iff_of_false (by rintro ⟨_,⟨⟩⟩) fun all => lost all.2.1
    · rw [if_pos long]
      exact iff_of_false (by rintro ⟨_,⟨⟩⟩) fun all => absurd all.1 (Nat.not_lt.mpr long)

/-- The cached tree is built of rings below an initialised root. -/
def Built (d : DcacheTree) : Prop := (∃ kids, Rings d kids) ∧ (d.entry root).inode ≠ 0

/-- A lookup in a cached tree: what it finds is in the tree. -/
theorem dcacheLookup_built {d : DcacheTree} (built : Built d) (parent : Option Nat) (name : Name) (namelen : Nat) :
    ∃ found d', dcacheLookup d parent name namelen = some (found,d') ∧ Built d' ∧ d'.next = d.next ∧
      ∀ e, found = some e → e < d'.next := by
  obtain ⟨⟨kids,rings⟩,init⟩ := built
  obtain ⟨d',result,⟨k,rings'⟩,next,same⟩ := dcacheLookup_spec rings parent name namelen
  refine ⟨_,d',result,⟨⟨_,rings'⟩,by rwa [(same root).1]⟩,next,fun e found => ?_⟩
  rw [next]
  exact (rings.bound _ e (List.mem_of_find?_eq_some found)).2.2

/-- From where the cached tree leads to, the rest of the path fits. -/
def lookupFits (d : DcacheTree) (path : List UInt8) : Prop := path.head? = some slash ∧
  ∃ entry rest d', getCachedInodeNum d path = some (entry,rest,d') ∧ searchesFit block v (dcacheGetInode d' entry) (components rest)

end Lookup

/-! The listing of a directory. -/

section Listing
variable (block : BlockSize) (dir : DirInode) (filler : Filler)

/-- A round of the loop of `op_readdir`, with what the filler has taken. -/
def listTurn : Nat × Filled → Turn (Nat × Filled) (Filled × Bool)
  | (offset,filled) =>
    let next := offset + entryRecLen block dir offset
    let printed := entryPrinted block dir offset
    if dir.size < offset then .stuck
    else if dir.size = offset then .halt (filled,true)
    else if inBlock block offset 6 then
      if entryInode block dir offset = 0 then .on (next,filled)
      else if inBlock block offset (8 + entryNameLen block dir offset) ∧ entryNameLen block dir offset < ext4NameLen then
        if printed = [] then .on (next,filled)
        else if filler filled (printed,next) then .on (next,filled ++ [(printed,next)])
        else .halt (filled,false)
      else .stuck
    else .stuck

/-- Where the loop handles an entry, it reads inside the block and writes inside `name_buf`. -/
def listInside (offset : Nat) : Prop := offset ≤ dir.size ∧ (offset < dir.size → inBlock block offset 6 ∧
  (entryInode block dir offset ≠ 0 → inBlock block offset (8 + entryNameLen block dir offset) ∧
    entryNameLen block dir offset < ext4NameLen))

/-- An entry that is given to the filler, and refused in the end when it is given again and again. -/
def refusedAgain (offset : Nat) (filled : Filled) : Prop := entryInode block dir offset ≠ 0 ∧ entryPrinted block dir offset ≠ [] ∧
  ∃ m, filler (filled ++ List.replicate m (entryPrinted block dir offset,offset)) (entryPrinted block dir offset,offset) = false

/-- Every entry that the loop comes to is handled inside the buffers, and one of length 0 is refused in the end. -/
def ListFits (start : Nat) : Prop := ∀ offset filled, Comes (listTurn block dir filler) (start,[]) (offset,filled) →
  listInside block dir offset ∧
    (offset < dir.size → entryRecLen block dir offset = 0 → refusedAgain block dir filler offset filled)

variable {block dir filler}

end Listing

/-! Both requests. -/

section Requests
variable (block : BlockSize) (v : PathLookup.Volume) (d : DcacheTree)

inductive Request
  | lookup (path : List UInt8)
  | readdir (path : List UInt8) (offset : Nat) (filler : Filler)

/-- What the directories have to hold for it. -/
def Fits : Request → Prop
  | .lookup path => lookupFits block v d path
  | .readdir path offset filler => lookupFits block v d path ∧
    ∀ n d', inodeGetIdxByPath block v d path = some (n,d') → n ≠ 0 → v.has n ∧ ListFits block (v.inode n) filler offset

variable {block v d}

end Requests

end Ext4Fuse.DirectoryWalks
