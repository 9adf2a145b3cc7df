import Ext4Fuse.Directory
import Mathlib.Data.List.TakeWhile
import Mathlib.Tactic.Ring

/-! `op_readdir`, from the directory that its path leads to, with a filler that may refuse
any entry, and calls that go on behind the last entry that was taken. -/
namespace Ext4Fuse.Readdir
open Machine Directory Library.Bytes

def ext4NameLen : Nat := 255

/-- What the filler has taken: names, each with the offset that was given with it. -/
abbrev Filled := List (List UInt8 × Nat)

/-- Whether the filler takes a name and an offset, given what it has taken so far in the call. -/
abbrev Filler := Filled → List UInt8 × Nat → Bool

section Code
variable (block : BlockSize) (nameBuf : Nat) (dir : DirInode) (filler : Filler)

/-- `get_printable_name`: the string it leaves in a buffer of `nameBuf` bytes. -/
def getPrintableName (dentry : Dentry) : Option (List UInt8) := do
  let nameLen ← dentry.nameLen block
  let name ← dentry.name block nameLen
  if nameLen < nameBuf then some (name.takeWhile (· ≠ 0)) else none

/-- The loop of `op_readdir`: what has been taken, and whether the directory has come to its end. -/
def readdirLoop : Nat → Nat → Filled → Option (Filled × Bool)
  | 0, _, _ => none
  | fuel+1, offset, filled => do
    let some dentry ← inodeDentryGet block dir offset | return (filled,true)
    let offset := offset + (← dentry.recLen block)
    if (← dentry.inode block) = 0 then readdirLoop fuel offset filled
    else
      let name ← getPrintableName block nameBuf dentry
      if name = [] then readdirLoop fuel offset filled
      else if filler filled (name,offset) then readdirLoop fuel offset (filled ++ [(name,offset)])
      else return (filled,false)

/-- The offset of the last entry taken, or the call's own. -/
def resume (filled : Filled) (offset : Nat) : Nat := (filled.getLast?.map Prod.snd).getD offset

/-- Calls one after another: what each has taken, and where the next one goes on. -/
def readdirCalls (fuel : Nat) : List Filler → Nat → Option (List Filled × Nat)
  | [], offset => some ([],offset)
  | filler::fillers, offset => do
    let (filled,_) ← readdirLoop block nameBuf dir filler fuel offset []
    let (rest,offset) ← readdirCalls fuel fillers (resume filled offset)
    return (filled::rest,offset)

/-- The filler has taken each of the entries, given those before it. -/
def Accepted (filler : Filler) (filled : Filled) : Prop :=
  ∀ before e behind, filled = before ++ e::behind → filler before e = true

end Code

/-! Well-formed directories. -/

structure DirEntry where
  inode : Nat
  recLen : Nat
  name : List UInt8

variable (block : BlockSize) (nameBuf : Nat)

/-- An entry of a directory; of an unused one nothing but its length matters. -/
structure EntryAt (dentry : Dentry) (e : DirEntry) : Prop where
  inode : dentry.inode block = some e.inode
  recLen : dentry.recLen block = some e.recLen
  forward : 0 < e.recLen
  name : e.inode ≠ 0 → dentry.nameLen block = some e.name.length ∧ dentry.name block e.name.length = some e.name ∧
    e.name.length < nameBuf ∧ 0 ∉ e.name

/-- The entries of a block follow one another up to its end. -/
def BlockHolds (buf : Nat → UInt8) : Nat → List DirEntry → Prop
  | blkOffset, [] => blkOffset = block.bytes
  | blkOffset, e::es => EntryAt block nameBuf ⟨buf,blkOffset⟩ e ∧ BlockHolds buf (blkOffset + e.recLen) es

/-- A directory of blocks of entries. -/
structure WellFormed (dir : DirInode) (blocks : List (List DirEntry)) : Prop where
  size : dir.size = blocks.length * block.bytes
  count : blocks.length ≤ 2^32
  holds : ∀ i es, blocks[i]? = some es → BlockHolds block nameBuf (dir.data i) 0 es

/-- The names of the used entries, without the empty ones. -/
def usedNames (es : List DirEntry) : List (List UInt8) :=
  (es.filter fun e => e.inode ≠ 0 ∧ e.name ≠ []).map DirEntry.name

/-- The entries that calls of `inode_dentry_get` find from an offset on, up to the end of the directory. -/
def Chain (dir : DirInode) : Nat → List DirEntry → Prop
  | offset, [] => offset = dir.size
  | offset, e::es => (∃ dentry, inodeDentryGet block dir offset = some (some dentry) ∧ EntryAt block nameBuf dentry e) ∧
    Chain dir (offset + e.recLen) es

section Listing
variable {block nameBuf} {dir : DirInode} {filler : Filler}

theorem usedNames_unused {e : DirEntry} (es : List DirEntry) (unused : e.inode = 0 ∨ e.name = []) :
    usedNames (e::es) = usedNames es := by
  have skip : (decide (e.inode ≠ 0 ∧ e.name ≠ [])) = false := by
    rcases unused with zero | empty
    · simp [zero]
    · simp [empty]
  rw [usedNames,List.filter_cons,skip]
  rfl

theorem usedNames_used {e : DirEntry} (es : List DirEntry) (used : e.inode ≠ 0) (named : e.name ≠ []) :
    usedNames (e::es) = e.name::usedNames es := by
  have keep : (decide (e.inode ≠ 0 ∧ e.name ≠ [])) = true := by simp [used,named]
  rw [usedNames,List.filter_cons,keep]
  rfl

theorem usedNames_append (one other : List DirEntry) : usedNames (one ++ other) = usedNames one ++ usedNames other := by
  rw [usedNames,List.filter_append,List.map_append]
  rfl

/-- The offset of an entry lies inside its block. -/
theorem EntryAt.inside {dentry : Dentry} {e : DirEntry} (entry : EntryAt block nameBuf dentry e) :
    dentry.blkOffset < block.bytes := by
  have read := entry.inode
  unfold Dentry.inode Dentry.field at read
  split at read
  · omega
  · nomatch read

theorem getPrintableName_entry {dentry : Dentry} {e : DirEntry} (entry : EntryAt block nameBuf dentry e) (used : e.inode ≠ 0) :
    getPrintableName block nameBuf dentry = some e.name := by
  obtain ⟨length,name,fits,plain⟩ := entry.name used
  simp only [getPrintableName,length,name,Option.bind_eq_bind,Option.bind_some,if_pos fits]
  refine congrArg some (List.takeWhile_eq_self_iff.mpr fun byte member => ?_)
  exact decide_eq_true fun zero => plain (zero ▸ member)

/-- The blocks of a directory make one chain. -/
theorem block_chain {i blkOffset : Nat} {es rest : List DirEntry} (block_count : i < 2^32) (size : (i + 1) * block.bytes ≤ dir.size)
    (holds : BlockHolds block nameBuf (dir.data i) blkOffset es) (after : Chain block nameBuf dir ((i + 1) * block.bytes) rest) :
    Chain block nameBuf dir (i * block.bytes + blkOffset) (es ++ rest) := by
  induction es generalizing blkOffset with
  | nil =>
    rw [show blkOffset = block.bytes from holds,← Nat.succ_mul]
    exact after
  | cons e es ih =>
    obtain ⟨entry,others⟩ := holds
    have inside : blkOffset < block.bytes := entry.inside
    refine ⟨⟨⟨dir.data i,blkOffset⟩,?_,entry⟩,?_⟩
    · have quotient : (i * block.bytes + blkOffset) / block.bytes = i := by
        rw [Nat.mul_comm,Nat.mul_add_div block.pos,Nat.div_eq_of_lt inside,Nat.add_zero]
      have remainder : (i * block.bytes + blkOffset) % block.bytes = blkOffset := by
        rw [Nat.mul_comm,Nat.mul_add_mod,Nat.mod_eq_of_lt inside]
      rw [Nat.succ_mul] at size
      rw [inodeDentryGet,if_neg (by omega),if_neg (by omega),quotient,remainder,u32_small i block_count]
    · rw [Nat.add_assoc]
      exact ih others

theorem blocks_chain {blocks : List (List DirEntry)} {first : Nat} (count : first + blocks.length ≤ 2^32)
    (size : dir.size = (first + blocks.length) * block.bytes)
    (holds : ∀ i es, blocks[i]? = some es → BlockHolds block nameBuf (dir.data (first + i)) 0 es) :
    Chain block nameBuf dir (first * block.bytes) blocks.flatten := by
  induction blocks generalizing first with
  | nil => exact size.symm
  | cons es blocks ih =>
    rw [List.length_cons] at count size
    have rest := @ih (first + 1) (by omega) (by rw [size]; ring) fun i es' here => by
      rw [Nat.add_assoc,Nat.add_comm 1 i]
      exact holds (i + 1) es' here
    have most : (first + 1) * block.bytes ≤ dir.size := by
      rw [size]
      exact Nat.mul_le_mul_right _ (by omega)
    have joined := block_chain (by omega) most (holds 0 es rfl) rest
    rwa [Nat.add_zero] at joined

/-- A call takes the names of the entries up to its last one, and leaves the ones behind it for
the next call. -/
theorem readdirLoop_chain {offset fuel : Nat} {es : List DirEntry} (chain : Chain block nameBuf dir offset es)
    (enough : es.length < fuel) (filled : Filled) : ∃ taken rest more ended, es = taken ++ rest ∧
      readdirLoop block nameBuf dir filler fuel offset filled = some (filled ++ more,ended) ∧
      more.map Prod.fst = usedNames taken ∧ Chain block nameBuf dir (resume more offset) rest ∧ (more = [] → taken = []) ∧
      (ended = true → usedNames rest = []) ∧ ((∀ filled e, filler filled e = true) → ended = true) := by
  induction es generalizing offset fuel filled with
  | nil =>
    obtain ⟨fuel,rfl⟩ := Nat.exists_eq_succ_of_ne_zero (Nat.ne_zero_of_lt enough)
    have end_ : offset = dir.size := chain
    refine ⟨[],[],[],true,rfl,?_,rfl,chain,fun _ => rfl,fun _ => rfl,fun _ => rfl⟩
    rw [readdirLoop,inodeDentryGet,if_neg (by omega),if_pos end_.symm,List.append_nil]
    rfl
  | cons e es ih =>
    obtain ⟨fuel,rfl⟩ := Nat.exists_eq_succ_of_ne_zero (Nat.ne_zero_of_lt enough)
    obtain ⟨⟨dentry,found,entry⟩,others⟩ := id chain
    have fuel_left : es.length < fuel := Nat.lt_of_succ_lt_succ enough
    -- An entry without a name to give is passed over, and stays for the next call if nothing behind it is taken.
    have passed (skip : e.inode = 0 ∨ e.name = []) (goes_on : readdirLoop block nameBuf dir filler (fuel + 1) offset filled =
        readdirLoop block nameBuf dir filler fuel (offset + e.recLen) filled) : ∃ taken rest more ended, e::es = taken ++ rest ∧
        readdirLoop block nameBuf dir filler (fuel + 1) offset filled = some (filled ++ more,ended) ∧
        more.map Prod.fst = usedNames taken ∧ Chain block nameBuf dir (resume more offset) rest ∧ (more = [] → taken = []) ∧
        (ended = true → usedNames rest = []) ∧ ((∀ filled e, filler filled e = true) → ended = true) := by
      obtain ⟨taken,rest,more,ended,rfl,result,names,after,none_,done,all⟩ := ih others fuel_left filled
      cases more with
      | nil =>
        obtain rfl := none_ rfl
        exact ⟨[],e::rest,[],ended,rfl,goes_on.trans result,rfl,chain,fun _ => rfl,
          fun end_ => (usedNames_unused rest skip).trans (done end_),all⟩
      | cons one more =>
        refine ⟨e::taken,rest,one::more,ended,rfl,goes_on.trans result,?_,after,(by rintro ⟨⟩),done,all⟩
        rw [usedNames_unused taken skip]
        exact names
    rcases Nat.eq_zero_or_pos e.inode with unused | used
    · refine passed (Or.inl unused) ?_
      simp only [readdirLoop,found,entry.recLen,entry.inode,Option.bind_eq_bind,Option.bind_some,if_pos unused]
    · have used := Nat.ne_of_gt used
      have named := getPrintableName_entry entry used
      rcases Classical.em (e.name = []) with empty | name
      · refine passed (Or.inr empty) ?_
        simp only [readdirLoop,found,entry.recLen,entry.inode,named,Option.bind_eq_bind,Option.bind_some,if_neg used,if_pos empty]
      · cases takes : filler filled (e.name,offset + e.recLen) with
        | true =>
          obtain ⟨taken,rest,more,ended,rfl,result,names,after,none_,done,all⟩ :=
            ih others fuel_left (filled ++ [(e.name,offset + e.recLen)])
          refine ⟨e::taken,rest,(e.name,offset + e.recLen)::more,ended,rfl,?_,?_,?_,(by rintro ⟨⟩),done,all⟩
          · rw [List.append_assoc] at result
            simp only [readdirLoop,found,entry.recLen,entry.inode,named,Option.bind_eq_bind,Option.bind_some,if_neg used,
              if_neg name,takes,if_true]
            exact result
          · rw [usedNames_used taken used name,List.map_cons,names]
          · cases more with
            | nil => exact after
            | cons one more => exact after
        | false =>
          refine ⟨[],e::es,[],false,rfl,?_,rfl,chain,fun _ => rfl,(by rintro ⟨⟩),fun all => ?_⟩
          · simp only [readdirLoop,found,entry.recLen,entry.inode,named,Option.bind_eq_bind,Option.bind_some,if_neg used,
              if_neg name,takes,Bool.false_eq_true,if_false,List.append_nil]
            rfl
          · rw [all] at takes
            cases takes

theorem accepted_nil (filler : Filler) : Accepted filler [] :=
  fun _ _ _ same => nomatch (List.append_eq_nil_iff.mp same.symm).2

/-- What a call adds its filler has taken, and it stops before the end of the directory only where the filler refuses. -/
theorem readdirLoop_accepted {offset fuel : Nat} {filled filled' : Filled} {ended : Bool}
    (result : readdirLoop block nameBuf dir filler fuel offset filled = some (filled',ended)) :
    ∃ more, filled' = filled ++ more ∧ Accepted (fun before => filler (filled ++ before)) more ∧
      (ended = false → ∃ e, filler filled' e = false) := by
  induction fuel generalizing offset filled with
  | zero => nomatch result
  | succ fuel ih =>
    rw [readdirLoop] at result
    obtain ⟨found,_,result⟩ := Option.bind_eq_some_iff.mp result
    cases found with
    | none =>
      obtain ⟨rfl,rfl⟩ := Prod.mk.inj (Option.some.inj result)
      exact ⟨[],(List.append_nil _).symm,accepted_nil _,nofun⟩
    | some dentry =>
      obtain ⟨recLen,_,result⟩ := Option.bind_eq_some_iff.mp result
      obtain ⟨inode,_,result⟩ := Option.bind_eq_some_iff.mp result
      split at result
      · exact ih result
      obtain ⟨name,_,result⟩ := Option.bind_eq_some_iff.mp result
      split at result
      · exact ih result
      split at result
      · rename_i takes
        obtain ⟨more,rfl,taken,stops⟩ := ih result
        refine ⟨(name,offset + recLen)::more,by rw [List.append_assoc]; rfl,fun before e behind same => ?_,stops⟩
        rcases List.cons_eq_append_iff.mp same with ⟨rfl,first⟩ | ⟨before,rfl,later⟩
        · obtain ⟨rfl,_⟩ := List.cons.inj first
          simp only [List.append_nil]
          exact takes
        · have next := taken before e behind later
          simp only [List.append_assoc] at next
          exact next
      · rename_i refuses
        obtain ⟨rfl,rfl⟩ := Prod.mk.inj (Option.some.inj result)
        exact ⟨[],(List.append_nil _).symm,accepted_nil _,fun _ => ⟨_,Bool.eq_false_iff.mpr refuses⟩⟩

theorem resume_append (more filled : Filled) (offset : Nat) : resume filled (resume more offset) = resume (more ++ filled) offset := by
  unfold resume
  rw [List.getLast?_append]
  cases filled.getLast? <;> rfl

theorem readdirLoop_takes {offset fuel : Nat} {filled : Filled} {ended : Bool}
    (result : readdirLoop block nameBuf dir filler fuel offset [] = some (filled,ended)) :
    Accepted filler filled ∧ (ended = false → ∃ e, filler filled e = false) := by
  obtain ⟨more,rfl,taken,stops⟩ := readdirLoop_accepted result
  exact ⟨taken,stops⟩

/-- However the calls were refused, what they have taken comes to an end at an entry, and the next call goes on there. -/
theorem readdirCalls_chain {offset fuel : Nat} {es : List DirEntry} (chain : Chain block nameBuf dir offset es)
    (enough : es.length < fuel) (fillers : List Filler) : ∃ taken rest filled next, es = taken ++ rest ∧
      readdirCalls block nameBuf dir fuel fillers offset = some (filled,next) ∧ filled.flatten.map Prod.fst = usedNames taken ∧
      List.Forall₂ Accepted fillers filled ∧ next = resume filled.flatten offset ∧ Chain block nameBuf dir next rest := by
  induction fillers generalizing offset es with
  | nil => exact ⟨[],es,[],offset,rfl,rfl,rfl,.nil,rfl,chain⟩
  | cons filler fillers ih =>
    obtain ⟨taken,rest,more,ended,rfl,result,names,after,_⟩ := @readdirLoop_chain block nameBuf dir filler _ _ _ chain enough []
    obtain ⟨taken',rest',filled,next,rfl,results,names',accepted,resumed,last⟩ := ih after (by
      rw [List.length_append] at enough
      omega)
    rw [List.nil_append] at result
    refine ⟨taken ++ taken',rest',more::filled,next,(List.append_assoc _ _ _).symm,?_,?_,.cons (readdirLoop_takes result).1 accepted,?_,
      last⟩
    · simp only [readdirCalls,result,results,Option.bind_eq_bind,Option.bind_some]
      rfl
    · rw [List.flatten_cons,List.map_append,names,names',usedNames_append]
    · rw [resumed,List.flatten_cons,resume_append]

/-- All calls together give the names in order, each once: at every point a first part of them, and all of them as soon as a call
comes to its end. What counts for a call its filler has taken, the next call goes on behind the last entry taken, and a call ends
early only where its filler refuses. -/
theorem readdirCalls_exact {blocks : List (List DirEntry)} (wellFormed : WellFormed block nameBuf dir blocks) {fuel : Nat}
    (enough : blocks.flatten.length < fuel) (fillers : List Filler) (last : Filler) :
    ∃ filled offset more ended, readdirCalls block nameBuf dir fuel fillers 0 = some (filled,offset) ∧
      readdirLoop block nameBuf dir last fuel offset [] = some (more,ended) ∧
      List.Forall₂ Accepted fillers filled ∧ Accepted last more ∧ offset = resume filled.flatten 0 ∧
      filled.flatten.map Prod.fst ++ more.map Prod.fst <+: usedNames blocks.flatten ∧
      (ended = true → filled.flatten.map Prod.fst ++ more.map Prod.fst = usedNames blocks.flatten) ∧
      (ended = false → ∃ e, last more e = false) := by
  have chain := @blocks_chain block nameBuf dir blocks 0 (by rw [Nat.zero_add]; exact wellFormed.count)
    (by rw [Nat.zero_add]; exact wellFormed.size) fun i es here => by
      rw [Nat.zero_add]
      exact wellFormed.holds i es here
  rw [Nat.zero_mul] at chain
  obtain ⟨taken,rest,filled,offset,parts,calls,names,accepted,resumed,after⟩ := readdirCalls_chain chain enough fillers
  rw [parts,List.length_append] at enough
  have fewer : rest.length < fuel := by omega
  obtain ⟨taken',rest',more,ended,rfl,result,names',_,_,done,_⟩ := @readdirLoop_chain block nameBuf dir last _ _ _ after fewer []
  rw [List.nil_append] at result
  obtain ⟨takes,stops⟩ := readdirLoop_takes result
  refine ⟨filled,offset,more,ended,calls,result,accepted,takes,resumed,?_,fun end_ => ?_,stops⟩
  · rw [parts,names,names',usedNames_append,usedNames_append,← List.append_assoc]
    exact List.prefix_append _ _
  · rw [parts,names,names',usedNames_append,usedNames_append,done end_,List.append_nil]

end Listing

/-- A directory of one block with an unused entry between `.` and `a`. -/
def oneBlock : DirInode where
  isDir := true
  size := 1024
  data := fun _ i => [2,0,0,0,12,0,1,2,46,0,0,0,0,0,0,0,12,0,0,0,0,0,0,0,4,0,0,0,232,3,1,1,97].getD i 0

def oneBlockEntries : List (List DirEntry) := [[⟨2,12,[46]⟩,⟨0,12,[]⟩,⟨4,1000,[97]⟩]]

theorem oneBlock_wellFormed : WellFormed smallBlock ext4NameLen oneBlock oneBlockEntries := by
  refine ⟨by decide,by decide,fun i es here => ?_⟩
  obtain ⟨inside,rfl⟩ := List.getElem?_eq_some_iff.mp here
  obtain rfl := Nat.lt_one_iff.mp inside
  refine ⟨⟨by decide,by decide,by decide,fun _ => by decide⟩,⟨by decide,by decide,by decide,fun used => absurd rfl used⟩,
    ⟨by decide,by decide,by decide,fun _ => by decide⟩,(by decide : 1024 = smallBlock.bytes)⟩

/-- The first call takes `.` alone. -/
theorem readdirCalls_exact_oneBlock : ∃ filled offset more ended,
    readdirCalls smallBlock ext4NameLen oneBlock 4 [fun filled _ => filled.isEmpty] 0 = some (filled,offset) ∧
      readdirLoop smallBlock ext4NameLen oneBlock (fun _ _ => true) 4 offset [] = some (more,ended) ∧
      List.Forall₂ Accepted [fun filled _ => filled.isEmpty] filled ∧ Accepted (fun _ _ => true) more ∧ offset = resume filled.flatten 0 ∧
      filled.flatten.map Prod.fst ++ more.map Prod.fst <+: usedNames oneBlockEntries.flatten ∧
      (ended = true → filled.flatten.map Prod.fst ++ more.map Prod.fst = usedNames oneBlockEntries.flatten) ∧
      (ended = false → ∃ e, (fun _ _ => true : Filler) more e = false) :=
  readdirCalls_exact oneBlock_wellFormed (by decide) _ _

end Ext4Fuse.Readdir
