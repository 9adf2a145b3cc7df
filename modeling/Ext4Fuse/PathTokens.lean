import Ext4Fuse.DirectoryWalks

/-! The `uint8_t` counter of `get_path_token_len`, and the two loops of a lookup that go on
by its answer. -/
namespace Ext4Fuse.PathTokens
open Machine Dcache Directory PathLookup DirectoryWalks Library.Walk

/-- `while (path[len] != '/' && path[len]) len++`; the byte behind the last one is the NUL. -/
def tokenTurn (path : List UInt8) (len : UInt8) : Turn UInt8 UInt8 :=
  match path[len.toNat]? with
  | none => .halt len
  | some byte => if byte = slash then .halt len else .on (len + 1)

/-- The bytes before the first slash or the NUL. -/
def tokenBytes (path : List UInt8) : Nat := (path.takeWhile (· ≠ slash)).length

def TokenFound (path : List UInt8) : Prop := ∃ fuel len, run (tokenTurn path) fuel 0 = some len ∧ len.toNat = tokenBytes path

variable {path : List UInt8}

theorem tokenTurn_inside {len : UInt8} (inside : len.toNat < tokenBytes path) : tokenTurn path len = .on (len + 1) := by
  obtain ⟨name,rest,rfl,token,_,plain,_⟩ := split_token path
  rw [tokenBytes,token] at inside
  have other := plain _ (List.getElem_mem inside)
  rw [tokenTurn,List.getElem?_append_left inside,List.getElem?_eq_getElem inside]
  exact if_neg (beq_eq_false_iff_ne.mp other)

theorem tokenTurn_end {len : UInt8} (end_ : len.toNat = tokenBytes path) : tokenTurn path len = .halt len := by
  obtain ⟨name,rest,rfl,token,_,_,cut⟩ := split_token path
  rw [tokenBytes,token] at end_
  rw [tokenTurn,end_,List.getElem?_append_right (Nat.le_refl _),Nat.sub_self]
  rcases cut with rfl | ⟨tail,rfl⟩
  · rfl
  · rfl

theorem token_run (left : Nat) {len : UInt8} (reached : len.toNat + left = tokenBytes path) (fits : tokenBytes path < 256) :
    ∃ found, run (tokenTurn path) (left + 1) len = some found ∧ found.toNat = tokenBytes path := by
  induction left generalizing len with
  | zero => exact ⟨len,by rw [run,tokenTurn_end reached],reached⟩
  | succ left ih =>
    have next : (len + 1).toNat = len.toNat + 1 := by
      rw [UInt8.toNat_add]
      exact Nat.mod_eq_of_lt (show len.toNat + 1 < 256 by omega)
    obtain ⟨found,result,same⟩ := @ih (len + 1) (by omega)
    exact ⟨found,by rw [run,tokenTurn_inside (by omega)]; exact result,same⟩

/-- In a token of 256 bytes the counter goes round for ever. -/
theorem token_forever (long : 256 ≤ tokenBytes path) (len : UInt8) : ¬Ends (tokenTurn path) len :=
  not_ends_of_forever (P := fun _ => True)
    (fun x _ => ⟨x + 1,tokenTurn_inside (Nat.lt_of_lt_of_le x.toNat_lt long),trivial⟩) trivial

theorem tokenFound_iff (path : List UInt8) : TokenFound path ↔ tokenBytes path < 256 := by
  constructor
  · rintro ⟨fuel,len,ended,_⟩
    by_contra long
    exact token_forever (Nat.not_lt.mp long) 0 ⟨fuel,len,ended⟩
  · intro fits
    obtain ⟨found,result,same⟩ := @token_run path (tokenBytes path) 0 (Nat.zero_add _) fits
    exact ⟨_,found,result,same⟩

/-- The length the lookups go on with is the loop's. -/
theorem getPathTokenLen_run (path : List UInt8) (n : Nat) :
    getPathTokenLen path = some n ↔ ∃ fuel len, run (tokenTurn path) fuel 0 = some len ∧ len.toNat = n := by
  have found := tokenFound_iff path
  rw [getPathTokenLen]
  change (if tokenBytes path < 256 then some (tokenBytes path) else none) = some n ↔ _
  rcases lt_or_ge (tokenBytes path) 256 with fits | long
  · obtain ⟨fuel,len,ended,bytes⟩ := found.mpr fits
    rw [if_pos fits]
    constructor
    · intro same
      exact ⟨fuel,len,ended,bytes.trans (Option.some.inj same)⟩
    · rintro ⟨fuel',len',ended',rfl⟩
      obtain ⟨b,comes,halts⟩ := run_comes ended
      obtain rfl := run_of_comes ended' comes halts
      rw [bytes]
  · rw [if_neg (Nat.not_lt.mpr long)]
    refine iff_of_false (by rintro ⟨⟩) ?_
    rintro ⟨fuel,len,ended,_⟩
    exact token_forever long 0 ⟨fuel,len,ended⟩

/-! The loops of a lookup. -/

/-- The loop ends, and every round that another follows consumes one component. -/
structure OneByOne {α β : Type} (turn : α → Turn α β) (path : α → List UInt8) (a : α) : Prop where
  ends : Ends turn a
  one : ∀ s s', Comes turn a s → turn s = .on s' → ∃ name, components (path s) = name::components (path s')

structure CachedState where
  d : DcacheTree
  next : Option Nat
  path : List UInt8

/-- A round of `getCachedLoop`. -/
def cachedTurn (s : CachedState) : Turn CachedState (Option Nat × List UInt8 × DcacheTree) :=
  let path := if s.path.head? = some slash then s.path.tail else s.path
  match getPathTokenLen path with
  | none => .stuck
  | some pathLen =>
    if pathLen = 0 then .halt (s.next,path,s.d)
    else match dcacheLookup s.d s.next path pathLen with
      | none => .stuck
      | some (none,d) => .halt (s.next,path,d)
      | some (some entry,d) => .on ⟨d,some entry,path.drop pathLen⟩

theorem getCachedLoop_run (fuel : Nat) (d : DcacheTree) (next : Option Nat) (path : List UInt8) :
    getCachedLoop fuel d next path = run cachedTurn fuel ⟨d,next,path⟩ := by
  induction fuel generalizing d next path with
  | zero => rfl
  | succ fuel ih =>
    rw [getCachedLoop,run,cachedTurn]
    simp only
    generalize (if path.head? = some slash then path.tail else path) = path
    cases getPathTokenLen path with
    | none => rfl
    | some pathLen =>
      simp only [Option.bind_eq_bind,Option.bind_some,Option.pure_def]
      rcases eq_or_ne pathLen 0 with zero | positive
      · rw [if_pos zero,if_pos zero]
      · rw [if_neg positive,if_neg positive]
        cases dcacheLookup d next path pathLen with
        | none => rfl
        | some answer =>
          obtain ⟨found,d'⟩ := answer
          cases found with
          | none => rfl
          | some entry => exact ih d' (some entry) (path.drop pathLen)

structure WalkState where
  d : DcacheTree
  dcEntry : Option Nat
  inodeIdx : Nat
  path : List UInt8

variable (block : BlockSize) (v : PathLookup.Volume)

/-- A round of `walkLoop`. -/
def walkTurn (s : WalkState) : Turn WalkState (Nat × DcacheTree) :=
  let path := skipTrailingBackslash s.path
  match getPathTokenLen path with
  | none => .stuck
  | some pathLen =>
    if pathLen = 0 then .halt (s.inodeIdx,s.d)
    else match v.inodeGetByNumber s.inodeIdx with
      | none => .stuck
      | some inode =>
        match dirSearch block inode (path.take pathLen) with
        | none => .stuck
        | some none => .halt (0,s.d)
        | some (some n) =>
          match if inode.isDir then dcacheInsert s.d s.dcEntry path pathLen n else some (s.dcEntry,s.d) with
          | none => .stuck
          | some (dcEntry,d) =>
            match path.dropWhile (· ≠ slash) with
            | [] => .halt (n,d)
            | rest => .on ⟨d,dcEntry,n,rest⟩

theorem walkLoop_run (fuel : Nat) (d : DcacheTree) (dcEntry : Option Nat) (inodeIdx : Nat) (path : List UInt8) :
    walkLoop block v fuel d dcEntry inodeIdx path = run (walkTurn block v) fuel ⟨d,dcEntry,inodeIdx,path⟩ := by
  induction fuel generalizing d dcEntry inodeIdx path with
  | zero => rfl
  | succ fuel ih =>
    rw [walkLoop,run,walkTurn]
    simp only
    generalize skipTrailingBackslash path = path
    cases getPathTokenLen path with
    | none => rfl
    | some pathLen =>
      simp only [Option.bind_eq_bind,Option.bind_some,Option.pure_def]
      rcases eq_or_ne pathLen 0 with zero | positive
      · rw [if_pos zero,if_pos zero]
      rw [if_neg positive,if_neg positive]
      cases v.inodeGetByNumber inodeIdx with
      | none => rfl
      | some inode =>
      simp only [Option.bind_some]
      cases dirSearch block inode (path.take pathLen) with
      | none => rfl
      | some found =>
        cases found with
        | none => rfl
        | some n =>
          simp only [Option.bind_some]
          cases inode.isDir with
          | false =>
            simp only [Bool.false_eq_true,if_false]
            cases path.dropWhile (· ≠ slash) with
            | nil => rfl
            | cons byte rest => exact ih _ _ _ _
          | true =>
            simp only [if_true]
            cases dcacheInsert d dcEntry path pathLen n with
            | none => rfl
            | some entered =>
              simp only [Option.bind_some]
              cases path.dropWhile (· ≠ slash) with
              | nil => rfl
              | cons byte rest => exact ih _ _ _ _

/-! One component a round. -/

theorem cachedTurn_on {s s' : CachedState} (goes : cachedTurn s = .on s') :
    ∃ name, components s.path = name::components s'.path := by
  rw [← components_strip s.path]
  rw [cachedTurn] at goes
  generalize (if s.path.head? = some slash then s.path.tail else s.path) = path at goes ⊢
  obtain ⟨name,rest,rfl,token,_,plain,cut⟩ := split_token path
  rw [getPathTokenLen_name _ name token] at goes
  rcases lt_or_ge name.length 256 with fits | long
  · simp only [if_pos fits] at goes
    split at goes
    · nomatch goes
    rename_i positive
    have named : name ≠ [] := fun empty => positive (by rw [empty]; rfl)
    split at goes
    · nomatch goes
    · nomatch goes
    · obtain rfl := Turn.on.inj goes
      exact ⟨name,by rw [List.drop_left,components_name name rest named plain cut]⟩
  · rw [if_neg (Nat.not_lt.mpr long)] at goes
    nomatch goes

theorem walkTurn_on {s s' : WalkState} (goes : walkTurn block v s = .on s') :
    ∃ name, components s.path = name::components s'.path := by
  rw [← components_skip s.path]
  rw [walkTurn] at goes
  generalize skipTrailingBackslash s.path = path at goes ⊢
  obtain ⟨name,rest,rfl,token,after,plain,cut⟩ := split_token path
  rw [getPathTokenLen_name _ name token,after] at goes
  rcases lt_or_ge name.length 256 with fits | long
  · simp only [if_pos fits] at goes
    split at goes
    · nomatch goes
    rename_i positive
    have named : name ≠ [] := fun empty => positive (by rw [empty]; rfl)
    refine ⟨name,?_⟩
    rw [components_name name rest named plain cut]
    split at goes
    · nomatch goes
    split at goes
    · nomatch goes
    · nomatch goes
    split at goes
    · nomatch goes
    split at goes
    · nomatch goes
    rw [← Turn.on.inj goes]
  · rw [if_neg (Nat.not_lt.mpr long)] at goes
    nomatch goes

/-! Where the loops end. -/

/-- The tokens between the slashes, one slash in front left out. -/
def tokens (path : List UInt8) : List Name := (if path.head? = some slash then path.tail else path).splitOn slash

/-- Up to the first empty token, and as far as the tokens are cached, none has 256 bytes. -/
def cachedFits : DcacheTree → Option Nat → List Name → Prop
  | _, _, [] => True
  | d, next, name::rest => name = [] ∨ name.length < 256 ∧
    ∀ e d', dcacheLookup d next name name.length = some (some e,d') → cachedFits d' (some e) rest

/-- The tokens of a stripped path are its first one and those behind it. -/
theorem splitOn_name (name rest : List UInt8) (plain : ∀ byte ∈ name, (byte == slash) = false)
    (cut : rest = [] ∨ ∃ tail, rest = slash::tail) :
    ∃ others, (name ++ rest).splitOn slash = name::others ∧ ∀ d next, cachedFits d next others ↔ cachedFits d next (tokens rest) := by
  rcases cut with rfl | ⟨tail,rfl⟩
  · refine ⟨[],by rw [List.append_nil,List.splitOn_eq_singleton_of_beq_eq_false plain],fun d next => ?_⟩
    exact iff_of_true trivial (Or.inl rfl)
  · refine ⟨tail.splitOn slash,?_,fun _ _ => Iff.rfl⟩
    rw [List.splitOn_eq_splitOnP,List.splitOnP_append_cons_of_forall_mem plain _ (by simp) tail,List.splitOn_eq_splitOnP]

theorem dcacheLookup_take (d : DcacheTree) (parent : Option Nat) (name rest : Name) :
    dcacheLookup d parent (name ++ rest) name.length = dcacheLookup d parent name name.length := by
  have same (e : DcacheEntry) : named e (name ++ rest) name.length = named e name name.length := by
    simp [named]
  have loop (fuel head iter : Nat) :
      dcacheLookupLoop d head (name ++ rest) name.length fuel iter = dcacheLookupLoop d head name name.length fuel iter := by
    induction fuel generalizing iter with
    | zero => rfl
    | succ fuel ih => simp only [dcacheLookupLoop,same,ih]
  simp only [dcacheLookup,loop]

theorem cached_ends_iff (n : Nat) {d : DcacheTree} {next : Option Nat} {path : List UInt8} (shorter : path.length < n)
    (built : Built d) (known : next.getD root < d.next) :
    Ends cachedTurn ⟨d,next,path⟩ ↔ cachedFits d next (tokens path) := by
  induction n generalizing d next path with
  | zero => exact absurd shorter (Nat.not_lt_zero _)
  | succ n ih =>
    have stripped : (if path.head? = some slash then path.tail else path).length ≤ path.length := by
      split
      · rw [List.length_tail]
        omega
      · exact Nat.le_refl _
    have round : cachedTurn ⟨d,next,path⟩ = cachedTurn ⟨d,next,path⟩ := rfl
    conv at round => rhs; rw [cachedTurn]
    rw [tokens]
    simp only at round
    generalize (if path.head? = some slash then path.tail else path) = path' at stripped round ⊢
    obtain ⟨name,rest,rfl,token,_,plain,cut⟩ := split_token path'
    obtain ⟨others,split_,same⟩ := splitOn_name name rest plain cut
    rw [getPathTokenLen_name _ name token] at round
    rw [split_,cachedFits]
    rcases eq_or_ne name [] with rfl | named
    · exact iff_of_true (ends_halt _ round) (Or.inl rfl)
    have positive : name.length ≠ 0 := fun zero => named (List.length_eq_zero_iff.mp zero)
    rcases lt_or_ge name.length 256 with fits | long
    · obtain ⟨found,d',result,built',next_eq,live⟩ := dcacheLookup_built built next name name.length
      simp only [if_pos fits,if_neg positive,dcacheLookup_take,result,List.drop_left] at round
      rw [result]
      cases found with
      | none => exact iff_of_true (ends_halt _ round) (Or.inr ⟨fits,nofun⟩)
      | some e =>
        rw [List.length_append] at stripped
        have step := @ih d' (some e) rest (by omega) built' (live e rfl)
        rw [ends_on round,step,← same]
        constructor
        · intro later
          refine Or.inr ⟨fits,fun e' d'' equal => ?_⟩
          obtain ⟨same_e,rfl⟩ := Prod.mk.inj (Option.some.inj equal)
          exact same_e ▸ later
        · intro all
          exact (all.resolve_left named).2 e d' rfl
    · rw [if_neg (Nat.not_lt.mpr long)] at round
      exact iff_of_false (not_ends_stuck round) fun all => absurd (all.resolve_left named).1 (Nat.not_lt.mpr long)

theorem walk_ends_iff {d : DcacheTree} (dcEntry : Option Nat) (inodeIdx : Nat) (path : List UInt8) (built : Built d)
    (known : dcEntry.getD root < d.next) :
    Ends (walkTurn block v) ⟨d,dcEntry,inodeIdx,path⟩ ↔ searchesFit block v inodeIdx (components path) := by
  obtain ⟨⟨kids,rings⟩,init⟩ := built
  rw [← resolve_returns_iff,← walkNames_resolve block v d kids dcEntry inodeIdx (components path) rings init known]
  constructor
  · rintro ⟨fuel,result,ended⟩
    have more := run_mono ended (Nat.le_max_left fuel (path.length + 1))
    rw [← walkLoop_run,walkLoop_names block v _ d dcEntry inodeIdx path (by omega)] at more
    exact ⟨result.1,by rw [more]; rfl⟩
  · rintro ⟨n,found⟩
    obtain ⟨result,walked,_⟩ := Option.map_eq_some_iff.mp found
    rw [← walkLoop_names block v _ d dcEntry inodeIdx path (Nat.lt_succ_self _),walkLoop_run] at walked
    exact ⟨_,result,walked⟩

/-- The token's length is found, and the lookups go on by one component at a time to their end,
exactly when no component they come to has 256 bytes; the walk needs directories that fit, and numbers with a group, too. -/
theorem lookups_iff (path : List UInt8) : (TokenFound path ↔ tokenBytes path < 256) ∧
    (∀ (d : DcacheTree) (next : Option Nat), Built d → next.getD root < d.next →
      (OneByOne cachedTurn CachedState.path ⟨d,next,path⟩ ↔ cachedFits d next (tokens path))) ∧
    ∀ (block : BlockSize) (v : PathLookup.Volume) (d : DcacheTree) (dcEntry : Option Nat) (inodeIdx : Nat),
      Built d → dcEntry.getD root < d.next →
      (OneByOne (walkTurn block v) WalkState.path ⟨d,dcEntry,inodeIdx,path⟩ ↔ searchesFit block v inodeIdx (components path)) := by
  refine ⟨tokenFound_iff path,fun d next built known => ?_,fun block v d dcEntry inodeIdx built known => ?_⟩
  · rw [← cached_ends_iff (path.length + 1) (Nat.lt_succ_self _) built known]
    exact ⟨OneByOne.ends,fun ends => ⟨ends,fun _ _ _ goes => cachedTurn_on goes⟩⟩
  · rw [← walk_ends_iff block v dcEntry inodeIdx path built known]
    exact ⟨OneByOne.ends,fun ends => ⟨ends,fun _ _ _ goes => walkTurn_on block v goes⟩⟩

theorem init_built : Built (dcacheInitRoot rootInodeN) := ⟨⟨_,dcacheInitRoot_rings rootInodeN⟩,(by decide : rootInodeN ≠ 0)⟩

theorem lookups_iff_short : TokenFound [97,47] ∧
    OneByOne cachedTurn CachedState.path ⟨dcacheInitRoot rootInodeN,none,[47,97,47]⟩ ∧
    OneByOne (walkTurn smallBlock (nested [100])) WalkState.path ⟨dcacheInitRoot rootInodeN,none,rootInodeN,[47,100,47,47,97]⟩ :=
  ⟨(lookups_iff _).1.mpr (by decide),((lookups_iff _).2.1 _ none init_built (by decide)).mpr (Or.inr ⟨by decide,nofun⟩),
    ((lookups_iff _).2.2 smallBlock _ _ none _ init_built (by decide)).mpr ((resolve_returns_iff _ _ _ _).mp ⟨4,by decide⟩)⟩

/-- A component of 256 bytes is measured without an end. -/
theorem lookups_long : ¬TokenFound (List.replicate 256 120) ∧
    ¬OneByOne cachedTurn CachedState.path ⟨dcacheInitRoot rootInodeN,none,slash::List.replicate 256 120⟩ := by
  have whole : (List.replicate 256 (120 : UInt8)).takeWhile (· ≠ slash) = List.replicate 256 120 :=
    List.takeWhile_eq_self_iff.mpr fun byte member => by rw [(List.mem_replicate.mp member).2]; decide
  have long : 256 ≤ tokenBytes (List.replicate 256 120) := by rw [tokenBytes,whole,List.length_replicate]
  refine ⟨fun found => absurd ((tokenFound_iff _).mp found) (Nat.not_lt.mpr long),fun one => ?_⟩
  refine not_ends_stuck ?_ one.ends
  have unmeasured : getPathTokenLen (List.replicate 256 120) = none := by
    rw [getPathTokenLen_name _ _ whole,List.length_replicate]
    rfl
  rw [cachedTurn]
  simp only [List.head?_cons,List.tail_cons,if_true,unmeasured]

end Ext4Fuse.PathTokens
