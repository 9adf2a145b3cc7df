import Ext4Fuse.Dcache
import Ext4Fuse.Directory
import Ext4Fuse.InodeTable
import Ext4Fuse.Library.Steps
import Mathlib.Data.List.TakeWhile

/-! `inode_get_idx_by_path`: the walk through the cached tree, then through the
directories. A path is the bytes of its C string. -/
namespace Ext4Fuse.PathLookup
open Machine Ext4Fuse.Types Dcache Directory Library.Steps
open Super (superInodesPerGroup superNBlockGroups)

def slash : UInt8 := 47
def rootInodeN : Nat := 2

/-- A volume whose directories do not change. -/
structure Volume where
  superBlock : SuperBlock
  gdesc : Nat → GroupDesc
  inode : Nat → DirInode

/-- The number lies in one of the groups. -/
def Volume.has (v : Volume) (n : Nat) : Prop :=
  n ≠ 0 ∧ (n - 1) / superInodesPerGroup v.superBlock < superNBlockGroups v.superBlock

instance (v : Volume) (n : Nat) : Decidable (v.has n) := inferInstanceAs (Decidable (_ ∧ _))

/-- The inode that `inode_get_by_number` reads. It reads none for 0, to which no walk comes, and
asserts that there is a group for any other number. -/
def Volume.inodeGetByNumber (v : Volume) (n : Nat) : Option DirInode :=
  if n = 0 then none
  else (InodeTable.superGroupInodeTableOffset v.superBlock v.gdesc (n - 1)).map fun _ => v.inode n

theorem Volume.inodeGetByNumber_eq (v : Volume) (n : Nat) :
    v.inodeGetByNumber n = if v.has n then some (v.inode n) else none := by
  rw [Volume.inodeGetByNumber,InodeTable.superGroupInodeTableOffset_map]
  rcases Nat.eq_zero_or_pos n with rfl | positive
  · rw [if_pos rfl,if_neg fun has : v.has 0 => has.1 rfl]
  · rw [if_neg (Nat.ne_of_gt positive)]
    exact if_congr (and_iff_right (Nat.ne_of_gt positive)).symm rfl rfl

variable (block : BlockSize) (v : Volume)

/-- The `uint8_t` counter of `get_path_token_len` wraps in a component of 256 bytes
or more, and the loop never ends. -/
def getPathTokenLen (path : List UInt8) : Option Nat :=
  let len := (path.takeWhile (· ≠ slash)).length
  if len < 256 then some len else none

/-- The `do … while(next != NULL)` loop of `get_cached_inode_num`. -/
def getCachedLoop : Nat → DcacheTree → Option Nat → List UInt8 → Option (Option Nat × List UInt8 × DcacheTree)
  | 0, _, _, _ => none
  | fuel+1, d, next, path => do
    let path := if path.head? = some slash then path.tail else path
    let pathLen ← getPathTokenLen path
    if pathLen = 0 then return (next,path,d)
    let (found,d) ← dcacheLookup d next path pathLen
    match found with
    | none => return (next,path,d)
    | some entry => getCachedLoop fuel d (some entry) (path.drop pathLen)

/-- Every round but the last consumes a component, so the fuel is not spent. -/
def getCachedInodeNum (d : DcacheTree) (path : List UInt8) : Option (Option Nat × List UInt8 × DcacheTree) :=
  getCachedLoop (path.length + 1) d none path

def skipTrailingBackslash (path : List UInt8) : List UInt8 := path.dropWhile (· = slash)

/-- The `do … while((path = strchr(path, '/')))` loop of `inode_get_idx_by_path`. -/
def walkLoop : Nat → DcacheTree → Option Nat → Nat → List UInt8 → Option (Nat × DcacheTree)
  | 0, _, _, _, _ => none
  | fuel+1, d, dcEntry, inodeIdx, path => do
    let path := skipTrailingBackslash path
    let pathLen ← getPathTokenLen path
    if pathLen = 0 then return (inodeIdx,d)
    let inode ← v.inodeGetByNumber inodeIdx
    match ← dirSearch block inode (path.take pathLen) with
    | none => return (0,d)
    | some n =>
      let (dcEntry,d) ← if inode.isDir then dcacheInsert d dcEntry path pathLen n else some (dcEntry,d)
      match path.dropWhile (· ≠ slash) with
      | [] => return (n,d)
      | rest => walkLoop fuel d dcEntry n rest

def inodeGetIdxByPath (d : DcacheTree) (path : List UInt8) : Option (Nat × DcacheTree) := do
  if path.head? ≠ some slash then none
  let (dcEntry,rest,d) ← getCachedInodeNum d path
  walkLoop block v (rest.length + 1) d dcEntry (dcacheGetInode d dcEntry) rest

/-! The lookup by components. -/

/-- The nonempty components of a path. -/
def components (path : List UInt8) : List Name := (path.splitOn slash).filter (· ≠ [])

/-- The inode the directories alone give for a list of components. -/
def resolve : Nat → List Name → Option Nat
  | inodeIdx, [] => some inodeIdx
  | inodeIdx, name::rest =>
    if 256 ≤ name.length then none
    else do
      let inode ← v.inodeGetByNumber inodeIdx
      match ← dirSearch block inode name with
      | none => return 0
      | some n => resolve n rest

/-- The walk of `walkLoop` over a path already cut into components. -/
def walkNames : DcacheTree → Option Nat → Nat → List Name → Option (Nat × DcacheTree)
  | d, _, inodeIdx, [] => some (inodeIdx,d)
  | d, dcEntry, inodeIdx, name::rest =>
    if 256 ≤ name.length then none
    else do
      let inode ← v.inodeGetByNumber inodeIdx
      match ← dirSearch block inode name with
      | none => return (0,d)
      | some n =>
        let (dcEntry,d) ← if inode.isDir then dcacheInsert d dcEntry name name.length n else some (dcEntry,d)
        walkNames d dcEntry n rest

theorem components_nil : components [] = [] := by decide

theorem components_slash (path : List UInt8) : components (slash::path) = components path := by
  simp [components,List.splitOn_cons_eq_if_modifyHead]

theorem components_skip (path : List UInt8) : components (skipTrailingBackslash path) = components path := by
  induction path with
  | nil => rfl
  | cons byte path ih =>
    by_cases separator : byte = slash
    · subst separator
      rw [components_slash,← ih]
      simp [skipTrailingBackslash]
    · simp [skipTrailingBackslash,separator]

theorem components_strip (path : List UInt8) :
    components (if path.head? = some slash then path.tail else path) = components path := by
  cases path with
  | nil => rfl
  | cons byte path =>
    split
    · rename_i separator
      rw [Option.some.inj separator]
      exact (components_slash path).symm
    · rfl

/-- A path splits into its first component and a rest that is empty or starts with a slash. -/
theorem split_token (path : List UInt8) : ∃ name rest, path = name ++ rest ∧
    path.takeWhile (· ≠ slash) = name ∧ path.dropWhile (· ≠ slash) = rest ∧
    (∀ byte ∈ name, (byte == slash) = false) ∧ (rest = [] ∨ ∃ tail, rest = slash::tail) := by
  refine ⟨_,_,List.takeWhile_append_dropWhile.symm,rfl,rfl,?_,?_⟩
  · intro byte member
    simpa using List.mem_takeWhile_imp member
  · have first := List.head?_dropWhile_not (fun byte => decide (byte ≠ slash)) path
    cases rest : path.dropWhile (· ≠ slash) with
    | nil => exact Or.inl rfl
    | cons byte tail =>
      rw [rest] at first
      exact Or.inr ⟨tail,by simpa using first⟩

theorem components_name (name rest : List UInt8) (named : name ≠ [])
    (plain : ∀ byte ∈ name, (byte == slash) = false) (cut : rest = [] ∨ ∃ tail, rest = slash::tail) :
    components (name ++ rest) = name::components rest := by
  rcases cut with rfl | ⟨tail,rfl⟩
  · rw [List.append_nil,components,List.splitOn_eq_singleton_of_beq_eq_false plain,components_nil]
    simp [named]
  · rw [components_slash,components,List.splitOn_eq_splitOnP,
      List.splitOnP_append_cons_of_forall_mem plain _ (by simp) tail]
    simp [components,List.splitOn_eq_splitOnP,named]

theorem getPathTokenLen_name (path name : List UInt8) (token : path.takeWhile (· ≠ slash) = name) :
    getPathTokenLen path = if name.length < 256 then some name.length else none := by
  rw [getPathTokenLen,token]

theorem dcacheInsert_take (d : DcacheTree) (parent : Option Nat) (name rest : Name) (n : Nat) :
    dcacheInsert d parent (name ++ rest) name.length n = dcacheInsert d parent name name.length n := by
  simp [dcacheInsert]

theorem walkLoop_names (fuel : Nat) (d : DcacheTree) (dcEntry : Option Nat) (inodeIdx : Nat)
    (path : List UInt8) (enough : path.length < fuel) :
    walkLoop block v fuel d dcEntry inodeIdx path = walkNames block v d dcEntry inodeIdx (components path) := by
  induction fuel generalizing d dcEntry inodeIdx path with
  | zero => exact absurd enough (Nat.not_lt_zero _)
  | succ fuel ih =>
    have shorter : (skipTrailingBackslash path).length ≤ path.length := (List.dropWhile_sublist _).length_le
    have started : (skipTrailingBackslash path).head? ≠ some slash := by
      have first := List.head?_dropWhile_not (fun byte => decide (byte = slash)) path
      intro separator
      rw [skipTrailingBackslash] at separator
      simp [separator] at first
    rw [walkLoop,← components_skip path]
    generalize skipTrailingBackslash path = path at shorter started
    obtain ⟨name,rest,rfl,token,after,plain,cut⟩ := split_token path
    simp only [getPathTokenLen_name _ name token,after]
    rcases eq_or_ne name [] with rfl | named
    · rcases cut with rfl | ⟨tail,rfl⟩
      · simp [components_nil,walkNames]
      · simp at started
    · rw [components_name name rest named plain cut,walkNames]
      have positive : name.length ≠ 0 := by simpa using named
      rcases lt_or_ge name.length 256 with fits | long
      · simp only [if_pos fits,if_neg (Nat.not_le.mpr fits),if_neg positive,
          Option.bind_eq_bind,Option.bind_some,Option.pure_def,List.take_left]
        cases v.inodeGetByNumber inodeIdx with
        | none => rfl
        | some inode =>
        simp only [Option.bind_some]
        cases dirSearch block inode name with
        | none => rfl
        | some found =>
          cases found with
          | none => rfl
          | some n =>
            simp only [Option.bind_some,dcacheInsert_take]
            rcases cut with rfl | ⟨tail,rfl⟩
            · rfl
            · have next (d : DcacheTree) (dcEntry : Option Nat) := ih d dcEntry n (slash::tail) (by
                simp only [List.length_append] at shorter
                omega)
              simp only [next]
      · simp [if_pos long,Nat.not_lt.mpr long]

/-! What the cached entries promise. -/

/-- Every cached entry is what a search of its parent's directory finds. -/
structure Agrees (d : DcacheTree) (kids : Nat → List Nat) : Prop where
  rings : Rings d kids
  rooted : (d.entry root).inode = rootInodeN
  cached : ∀ p c, c ∈ kids p → ∃ dir, v.inodeGetByNumber (d.entry p).inode = some dir ∧ dir.isDir = true ∧
    (d.entry c).name.length < dcacheEntryNameLen ∧
    dirSearch block dir (d.entry c).name = some (some (d.entry c).inode)

/-- No component that `dcache_insert` accepts is found in a directory after one that
it does not accept, or after one found in an inode that is not a directory: such a
component would be inserted below an entry that is not its directory's. `sync` says
whether the parent entry still stands for the inode being searched. -/
def inSyncWalk (sync : Bool) : Nat → List Name → Bool
  | _, [] => true
  | inodeIdx, name::rest =>
    match v.inodeGetByNumber inodeIdx with
    | none => true
    | some inode =>
      match dirSearch block inode name with
      | some (some n) =>
        if inode.isDir = true ∧ name.length < dcacheEntryNameLen then sync && inSyncWalk true n rest
        else inSyncWalk false n rest
      | _ => true

theorem init_agrees : Agrees block v (dcacheInitRoot rootInodeN) (fun _ => []) :=
  ⟨dcacheInitRoot_rings _,rfl,by simp⟩

theorem Agrees.lookup {d : DcacheTree} {kids : Nat → List Nat} (agrees : Agrees block v d kids)
    (parent : Option Nat) (path : List UInt8) (namelen : Nat) :
    ∃ found d' kids', dcacheLookup d parent path namelen = some (found,d') ∧ Agrees block v d' kids' ∧
      (∀ i, (d'.entry i).inode = (d.entry i).inode) ∧ d'.next = d.next ∧
      ∀ e, found = some e → e < d.next ∧ ∃ dir, v.inodeGetByNumber (dcacheGetInode d parent) = some dir ∧ dir.isDir = true ∧
        (path.take namelen).length < dcacheEntryNameLen ∧
        dirSearch block dir (path.take namelen) = some (some (d.entry e).inode) := by
  obtain ⟨d',result,⟨k,rings⟩,next,same⟩ := dcacheLookup_spec agrees.rings parent path namelen
  refine ⟨_,d',_,result,⟨rings,?_,?_⟩,fun i => (same i).1,next,?_⟩
  · rw [(same root).1,agrees.rooted]
  · intro p c member
    rw [(same p).1,(same c).1,(same c).2]
    exact agrees.cached p c ((mem_entered kids _ k p c).mp member)
  · intro e found
    have member := List.mem_of_find?_eq_some found
    have hit := List.find?_some found
    rw [← (named_iff (d.entry e) path namelen).mp hit]
    exact ⟨(agrees.rings.bound _ e member).2.2,agrees.cached _ e member⟩

theorem Agrees.insert {d : DcacheTree} {kids : Nat → List Nat} (agrees : Agrees block v d kids)
    (parent : Option Nat) (name : Name) (n : Nat) (known : parent.getD root < d.next)
    (short : name.length < dcacheEntryNameLen) {inode : DirInode} (read : v.inodeGetByNumber (dcacheGetInode d parent) = some inode)
    (dir : inode.isDir = true) (found : dirSearch block inode name = some (some n)) :
    ∃ entry d' kids', dcacheInsert d parent name name.length n = some (some entry,d') ∧
      Agrees block v d' kids' ∧ entry < d'.next ∧ (d'.entry entry).inode = n := by
  have init : (d.entry root).inode ≠ 0 := by rw [agrees.rooted]; decide
  obtain ⟨d',result,rings,next,entered,named,same⟩ :=
    dcacheInsert_spec agrees.rings parent name name.length n known short init
  refine ⟨d.next,d',_,result,⟨rings,?_,?_⟩,by omega,entered⟩
  · rw [(same root agrees.rings.rooted).1,agrees.rooted]
  · intro p c member
    rcases (mem_inserted kids _ d.next p c).mp member with old | ⟨rfl,rfl⟩
    · obtain ⟨inside,_,live⟩ := agrees.rings.bound p c old
      rw [(same p inside).1,(same c live).1,(same c live).2]
      exact agrees.cached p c old
    · rw [(same _ known).1,entered,named,List.take_length]
      exact ⟨inode,read,dir,short,found⟩

/-- What the cached part of a lookup leaves to the directories has the same answer. -/
theorem getCachedLoop_resolve (fuel : Nat) (d : DcacheTree) (kids : Nat → List Nat) (next : Option Nat)
    (path : List UInt8) (agrees : Agrees block v d kids) (known : next.getD root < d.next)
    (enough : path.length < fuel) :
    match getCachedLoop fuel d next path with
    | none => resolve block v (dcacheGetInode d next) (components path) = none
    | some (entry,rest,d') => (∃ kids', Agrees block v d' kids') ∧ entry.getD root < d'.next ∧
      resolve block v (dcacheGetInode d' entry) (components rest) =
        resolve block v (dcacheGetInode d next) (components path) ∧
      (inSyncWalk block v true (dcacheGetInode d next) (components path) = true →
        inSyncWalk block v true (dcacheGetInode d' entry) (components rest) = true) := by
  induction fuel generalizing d kids next path with
  | zero => exact absurd enough (Nat.not_lt_zero _)
  | succ fuel ih =>
    have shorter : (if path.head? = some slash then path.tail else path).length ≤ path.length := by
      split
      · simp
      · exact Nat.le_refl _
    rw [getCachedLoop,← components_strip path]
    generalize (if path.head? = some slash then path.tail else path) = path at shorter
    obtain ⟨name,rest,rfl,token,_,plain,cut⟩ := split_token path
    simp only [getPathTokenLen_name _ name token]
    rcases lt_or_ge name.length 256 with fits | long
    · simp only [if_pos fits,Option.bind_eq_bind,Option.bind_some,Option.pure_def]
      rcases eq_or_ne name [] with rfl | named
      · exact ⟨⟨kids,agrees⟩,known,rfl,id⟩
      · have positive : name.length ≠ 0 := by simpa using named
        obtain ⟨found,d',kids',result,kept,inodes,next_eq,hit⟩ := agrees.lookup block v next (name ++ rest) name.length
        have inode (entry : Option Nat) : dcacheGetInode d' entry = dcacheGetInode d entry := inodes _
        simp only [if_neg positive,result,Option.bind_some]
        cases found with
        | none => exact ⟨⟨kids',kept⟩,by rwa [next_eq],by rw [inode],by rw [inode]; exact id⟩
        | some e =>
          obtain ⟨live,at_,read,dir,short,search⟩ := hit e rfl
          simp only [List.take_left,List.drop_left] at search short ⊢
          have step := ih d' kids' (some e) rest kept (by rwa [next_eq]) (by
            simp only [List.length_append] at shorter
            omega)
          have at_e : dcacheGetInode d (some e) = (d.entry e).inode := rfl
          rw [inode,at_e] at step
          have same : resolve block v (dcacheGetInode d next) (components (name ++ rest)) =
              resolve block v (d.entry e).inode (components rest) := by
            rw [components_name name rest named plain cut,resolve,if_neg (Nat.not_le.mpr fits),read,Option.bind_eq_bind,Option.bind_some,search]
            rfl
          have safe : inSyncWalk block v true (dcacheGetInode d next) (components (name ++ rest)) =
              inSyncWalk block v true (d.entry e).inode (components rest) := by
            rw [components_name name rest named plain cut,inSyncWalk,read]
            simp [search,dir,short]
          rw [same,safe]
          exact step
    · simp only [if_neg (Nat.not_lt.mpr long),Option.bind_eq_bind,Option.bind_none]
      have named : name ≠ [] := by rintro rfl; simp at long
      rw [components_name name rest named plain cut,resolve,if_pos long]

theorem getCachedInodeNum_resolve {d : DcacheTree} {kids : Nat → List Nat} (path : List UInt8)
    (agrees : Agrees block v d kids) :
    match getCachedInodeNum d path with
    | none => resolve block v rootInodeN (components path) = none
    | some (entry,rest,d') => (∃ kids', Agrees block v d' kids') ∧ entry.getD root < d'.next ∧
      resolve block v (dcacheGetInode d' entry) (components rest) =
        resolve block v rootInodeN (components path) ∧
      (inSyncWalk block v true rootInodeN (components path) = true →
        inSyncWalk block v true (dcacheGetInode d' entry) (components rest) = true) := by
  have start : dcacheGetInode d none = rootInodeN := agrees.rooted
  have loop := getCachedLoop_resolve block v (path.length + 1) d kids none path agrees
    agrees.rings.rooted (Nat.lt_succ_self _)
  rwa [start] at loop

/-- The walk through the directories never looks into the cached tree. -/
theorem walkNames_resolve (d : DcacheTree) (kids : Nat → List Nat) (dcEntry : Option Nat) (inodeIdx : Nat)
    (names : List Name) (rings : Rings d kids) (init : (d.entry root).inode ≠ 0)
    (known : dcEntry.getD root < d.next) :
    (walkNames block v d dcEntry inodeIdx names).map Prod.fst = resolve block v inodeIdx names := by
  induction names generalizing d kids dcEntry inodeIdx with
  | nil => rfl
  | cons name rest ih =>
    rw [walkNames,resolve]
    rcases lt_or_ge name.length 256 with fits | long
    · rw [if_neg (Nat.not_le.mpr fits),if_neg (Nat.not_le.mpr fits)]
      cases v.inodeGetByNumber inodeIdx with
      | none => rfl
      | some inode =>
      simp only [Option.bind_eq_bind,Option.bind_some]
      cases dirSearch block inode name with
      | none => rfl
      | some found =>
        cases found with
        | none => rfl
        | some n =>
          simp only [Option.bind_some]
          split_ifs with dir
          · rcases lt_or_ge name.length dcacheEntryNameLen with short | too_long
            · obtain ⟨d',result,rings',next,_,_,same⟩ :=
                dcacheInsert_spec rings dcEntry name name.length n known short init
              rw [result]
              refine ih d' _ (some d.next) n rings' ?_ (by rw [next]; exact Nat.lt_succ_self _)
              rwa [(same root rings.rooted).1]
            · rw [dcacheInsert_long d dcEntry name _ n too_long]
              exact ih d kids none n rings init rings.rooted
          · exact ih d kids dcEntry n rings init known
    · rw [if_pos long,if_pos long]
      rfl

theorem walkNames_agrees (d : DcacheTree) (kids : Nat → List Nat) (dcEntry : Option Nat) (inodeIdx : Nat)
    (names : List Name) (sync : Bool) (agrees : Agrees block v d kids) (known : dcEntry.getD root < d.next)
    (stands : sync = true → dcacheGetInode d dcEntry = inodeIdx)
    (safe : inSyncWalk block v sync inodeIdx names = true) {n : Nat} {d' : DcacheTree}
    (walked : walkNames block v d dcEntry inodeIdx names = some (n,d')) :
    ∃ kids', Agrees block v d' kids' := by
  induction names generalizing d kids dcEntry inodeIdx sync with
  | nil =>
    obtain ⟨rfl,rfl⟩ := by simpa [walkNames] using walked
    exact ⟨kids,agrees⟩
  | cons name rest ih =>
    rw [walkNames] at walked
    rcases le_or_gt 256 name.length with long | fits
    · simp [long] at walked
    rw [if_neg (Nat.not_le.mpr fits)] at walked
    rw [inSyncWalk] at safe
    cases read : v.inodeGetByNumber inodeIdx with
    | none => simp [read] at walked
    | some inode =>
    simp only [read,Option.bind_eq_bind,Option.bind_some] at walked safe
    cases search : dirSearch block inode name with
    | none => simp [search] at walked
    | some found =>
      cases found with
      | none =>
        obtain ⟨rfl,rfl⟩ := by simpa [search] using walked
        exact ⟨kids,agrees⟩
      | some m =>
        simp only [search,Option.bind_some] at walked safe
        by_cases dir : inode.isDir = true
        · rw [if_pos dir] at walked
          rcases lt_or_ge name.length dcacheEntryNameLen with short | too_long
          · rw [if_pos ⟨dir,short⟩,Bool.and_eq_true] at safe
            have at_dir := stands safe.1
            obtain ⟨entry,d₁,kids₁,result,kept,live,entered⟩ := agrees.insert block v dcEntry name m known short
              (by rwa [at_dir]) dir search
            rw [result] at walked
            exact ih d₁ kids₁ (some entry) m true kept live (fun _ => entered) safe.2 walked
          · rw [if_neg (fun both => Nat.not_lt.mpr too_long both.2)] at safe
            rw [dcacheInsert_long d dcEntry name _ m too_long] at walked
            exact ih d kids none m false agrees agrees.rings.rooted (by rintro ⟨⟩) safe walked
        · rw [if_neg dir] at walked
          rw [if_neg (fun both => dir both.1)] at safe
          exact ih d kids dcEntry m false agrees known (by rintro ⟨⟩) safe walked

theorem inodeGetIdxByPath_resolve {d : DcacheTree} {kids : Nat → List Nat} (path : List UInt8)
    (agrees : Agrees block v d kids) (absolute : path.head? = some slash) :
    (inodeGetIdxByPath block v d path).map Prod.fst = resolve block v rootInodeN (components path) := by
  have cached := getCachedInodeNum_resolve block v path agrees
  rw [inodeGetIdxByPath,if_neg (not_not.mpr absolute)]
  cases reached : getCachedInodeNum d path with
  | none =>
    rw [reached] at cached
    exact cached.symm
  | some result =>
    obtain ⟨entry,rest,d'⟩ := result
    rw [reached] at cached
    obtain ⟨⟨kids',kept⟩,known,same,_⟩ := cached
    rw [← same]
    have walk := walkLoop_names block v (rest.length + 1) d' entry (dcacheGetInode d' entry) rest (Nat.lt_succ_self _)
    have init : (d'.entry root).inode ≠ 0 := by rw [kept.rooted]; decide
    rw [← walkNames_resolve block v d' kids' entry _ (components rest) kept.rings init known,← walk]
    rfl

theorem inodeGetIdxByPath_agrees {d : DcacheTree} {kids : Nat → List Nat} (path : List UInt8)
    (agrees : Agrees block v d kids) (safe : inSyncWalk block v true rootInodeN (components path) = true)
    {n : Nat} {d' : DcacheTree} (looked : inodeGetIdxByPath block v d path = some (n,d')) :
    ∃ kids', Agrees block v d' kids' := by
  have cached := getCachedInodeNum_resolve block v path agrees
  rw [inodeGetIdxByPath] at looked
  split_ifs at looked with absolute
  · simp at looked
  · cases reached : getCachedInodeNum d path with
    | none => simp [reached] at looked
    | some result =>
      obtain ⟨entry,rest,d₁⟩ := result
      rw [reached] at cached looked
      obtain ⟨⟨kids₁,kept⟩,known,_,still⟩ := cached
      simp only [Option.bind_eq_bind,Option.bind_some] at looked
      rw [walkLoop_names block v _ _ _ _ _ (Nat.lt_succ_self _)] at looked
      exact walkNames_agrees block v d₁ kids₁ entry _ _ true kept known (fun _ => rfl) (still safe) looked

/-! Sequences of lookups. -/

/-- A lookup as a step from one cached tree to the next. -/
def lookupStep (d : DcacheTree) (path : List UInt8) : Option DcacheTree :=
  (inodeGetIdxByPath block v d path).map Prod.snd

/-- The path never inserts out of step. -/
def insertsInSync (_ : DcacheTree) (path : List UInt8) : Bool :=
  inSyncWalk block v true rootInodeN (components path)

theorem looked_agrees {d : DcacheTree}
    (looked : Reaches (lookupStep block v) (insertsInSync block v) (dcacheInitRoot rootInodeN) d) :
    ∃ kids, Agrees block v d kids := by
  refine looked.invariant (P := fun d => ∃ kids, Agrees block v d kids) ⟨_,init_agrees block v⟩ ?_
  rintro d path d' ⟨kids,agrees⟩ safe result
  obtain ⟨⟨n,_⟩,found,rfl⟩ := Option.map_eq_some_iff.mp result
  exact inodeGetIdxByPath_agrees block v path agrees safe found

/-- After lookups that never insert out of step, every path is answered as with an
empty cache, whatever the path. -/
theorem lookup_cached_eq {d : DcacheTree}
    (looked : Reaches (lookupStep block v) (insertsInSync block v) (dcacheInitRoot rootInodeN) d)
    (path : List UInt8) :
    (inodeGetIdxByPath block v d path).map Prod.fst =
      (inodeGetIdxByPath block v (dcacheInitRoot rootInodeN) path).map Prod.fst := by
  by_cases absolute : path.head? = some slash
  · obtain ⟨kids,agrees⟩ := looked_agrees block v looked
    rw [inodeGetIdxByPath_resolve block v path agrees absolute,
      inodeGetIdxByPath_resolve block v path (init_agrees block v) absolute]
  · simp [inodeGetIdxByPath,absolute]

/-! A volume that holds `/name/a` and nothing else. -/

def dentryBytes (inode recLen : Nat) (name : Name) : List UInt8 :=
  [UInt8.ofNat inode,0,0,0,UInt8.ofNat recLen,UInt8.ofNat (recLen / 256),UInt8.ofNat name.length,2] ++ name ++
    List.replicate (recLen - 8 - name.length) 0

/-- One group of 16 inodes. -/
def oneGroup (inode : Nat → DirInode) : Volume := ⟨InodeTable.oneTable 0 16 128,InodeTable.tableAt16,inode⟩

def nested (name : Name) : Volume := oneGroup fun n =>
  let entries := if n = 2 then dentryBytes 3 1012 name else dentryBytes 4 1012 [97]
  {isDir := n = 2 ∨ n = 3,size := 1024,data := fun _ i => (dentryBytes n 12 [46] ++ entries).getD i 0}

def slashed (names : List Name) : List UInt8 := names.flatMap (slash :: ·)

theorem lookup_cached_eq_nested :
    ((inodeGetIdxByPath smallBlock (nested [100]) (dcacheInitRoot rootInodeN) (slashed [[100],[97]])).bind
        fun r => inodeGetIdxByPath smallBlock (nested [100]) r.2 (slashed [[100],[97]])).map Prod.fst =
      (inodeGetIdxByPath smallBlock (nested [100]) (dcacheInitRoot rootInodeN) (slashed [[100],[97]])).map Prod.fst ∧
    (inodeGetIdxByPath smallBlock (nested [100]) (dcacheInitRoot rootInodeN) (slashed [[100],[97]])).map Prod.fst = some 4 := by
  refine ⟨?_,by decide⟩
  cases first : inodeGetIdxByPath smallBlock (nested [100]) (dcacheInitRoot rootInodeN) (slashed [[100],[97]]) with
  | none =>
    have ends : (inodeGetIdxByPath smallBlock (nested [100]) (dcacheInitRoot rootInodeN)
      (slashed [[100],[97]])).isSome = true := by decide
    simp [first] at ends
  | some r =>
    rw [Option.bind_some,← first]
    exact lookup_cached_eq smallBlock (nested [100]) (Reaches.start.step (by decide) (congrArg _ first)) _

def longName : Name := List.replicate 40 120

/-- After a lookup of `/x…x/a`, with 40 bytes of `x`, the file `a` is cached below the
root: `/a` is found, though an empty cache answers that it does not exist. -/
theorem lookup_long_component :
    ¬∀ (block : BlockSize) (v : Volume) (d : DcacheTree),
      Reaches (lookupStep block v) (fun _ _ => true) (dcacheInitRoot rootInodeN) d → ∀ path, (inodeGetIdxByPath block v d path).map Prod.fst =
        (inodeGetIdxByPath block v (dcacheInitRoot rootInodeN) path).map Prod.fst := by
  intro always
  have long_first : (inodeGetIdxByPath smallBlock (nested longName) (dcacheInitRoot rootInodeN)
      (slashed [longName,[97]])).bind (fun r => (inodeGetIdxByPath smallBlock (nested longName) r.2
        (slashed [[97]])).map Prod.fst) = some 4 := by decide
  have fresh : (inodeGetIdxByPath smallBlock (nested longName) (dcacheInitRoot rootInodeN)
      (slashed [[97]])).map Prod.fst = some 0 := by decide
  cases first : inodeGetIdxByPath smallBlock (nested longName) (dcacheInitRoot rootInodeN)
      (slashed [longName,[97]]) with
  | none => simp [first] at long_first
  | some r =>
    rw [first,Option.bind_some,always smallBlock (nested longName) r.2 (Reaches.start.step rfl (congrArg _ first)),fresh] at long_first
    exact absurd long_first (by decide)

end Ext4Fuse.PathLookup
