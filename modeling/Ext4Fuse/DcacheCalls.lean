import Ext4Fuse.Dcache
import Ext4Fuse.Library.Steps

/-! Sequences of `dcache_insert` and `dcache_lookup` calls. The insertions that gave out
an entry tell the ring below every node and the answer of every later lookup. -/
namespace Ext4Fuse.DcacheCalls
open Dcache Library.Ring Library.Steps

/-- An insertion that returned `entry`. -/
structure Insertion where
  parent : Nat
  name : Name
  inode : Nat
  entry : Nat
  deriving DecidableEq

structure History where
  tree : DcacheTree
  insertions : List Insertion

/-- `name` is the rest of a path, as the bytes of its C string, and `namelen` the length of its first token. -/
inductive Call
  | insert (parent : Option Nat) (name : Name) (namelen n : Nat)
  | lookup (parent : Option Nat) (name : Name) (namelen : Nat)

def start (n : Nat) : History := ⟨dcacheInitRoot n,[]⟩

def call (h : History) : Call → Option History
  | .insert parent name namelen n => do
    let (newEntry,tree) ← dcacheInsert h.tree parent name namelen n
    match newEntry with
    | some entry => return ⟨tree,⟨parent.getD root,name.take namelen,n,entry⟩::h.insertions⟩
    | none => return ⟨tree,h.insertions⟩
  | .lookup parent name namelen => do
    let (_,tree) ← dcacheLookup h.tree parent name namelen
    return ⟨tree,h.insertions⟩

/-- A parent is null or an entry that was given out. -/
def known (h : History) (parent : Option Nat) : Bool :=
  parent.all fun e => h.insertions.any fun i => i.entry == e

/-- Calls are made for a known parent and a token of the string. -/
def proper (h : History) : Call → Bool
  | .insert parent name namelen _ => known h parent && decide (namelen ≤ name.length)
  | .lookup parent name namelen => known h parent && decide (namelen ≤ name.length)

def entriesBelow (h : History) (p : Nat) : List Nat :=
  (h.insertions.filter fun i => i.parent == p).map Insertion.entry

/-- The children of `p` form one ring, of exactly the entries inserted under it. -/
structure RingBelow (h : History) (p : Nat) (ring : List Nat) : Prop where
  members : ring.Perm (entriesBelow h p)
  distinct : ring.Nodup
  empty : ring = [] → (h.tree.entry p).childs = none
  circular : ∀ head rest, ring = head::rest →
    (h.tree.entry p).childs = some head ∧ Linked (fun i => (h.tree.entry i).siblings) head rest head

/-- `i` put the name below the parent. -/
def Under (parent : Option Nat) (name : Name) (namelen : Nat) (i : Insertion) : Prop :=
  i.parent = parent.getD root ∧ i.name = name.take namelen

/-- A lookup ends, finds an entry exactly when one was inserted, and moves nothing but the
parent's pointer into its ring. -/
def Answers (h : History) (parent : Option Nat) (name : Name) (namelen : Nat) : Prop :=
  ∃ found tree, dcacheLookup h.tree parent name namelen = some (found,tree) ∧
    ((∃ e, found = some e) ↔ ∃ i ∈ h.insertions, Under parent name namelen i) ∧
    (∀ e, found = some e → ∃ i ∈ h.insertions, Under parent name namelen i ∧ i.entry = e ∧
      dcacheGetInode tree (some e) = i.inode) ∧
    (tree = h.tree ∨ ∃ e, found = some e ∧ e ∈ entriesBelow h (parent.getD root) ∧
      tree = h.tree.set (parent.getD root) {h.tree.entry (parent.getD root) with childs := some e})

theorem mem_entriesBelow (h : History) (p e : Nat) :
    e ∈ entriesBelow h p ↔ ∃ i ∈ h.insertions, i.parent = p ∧ i.entry = e := by
  simp [entriesBelow,and_assoc]

/-! What every call keeps. -/

structure Kept (h : History) (kids : Nat → List Nat) : Prop where
  rings : Rings h.tree kids
  below : ∀ p, (kids p).Perm (entriesBelow h p)
  stored : ∀ i ∈ h.insertions, (h.tree.entry i.entry).name = i.name ∧ (h.tree.entry i.entry).inode = i.inode
  init : (h.tree.entry root).inode ≠ 0

theorem start_kept {n : Nat} (init : n ≠ 0) : Kept (start n) fun _ => [] :=
  ⟨dcacheInitRoot_rings n,fun _ => List.Perm.nil,by simp [start],init⟩

variable {h : History} {kids : Nat → List Nat}

theorem Kept.mem_iff (kept : Kept h kids) (p e : Nat) : e ∈ kids p ↔ ∃ i ∈ h.insertions, i.parent = p ∧ i.entry = e :=
  (kept.below p).mem_iff.trans (mem_entriesBelow h p e)

theorem Kept.live (kept : Kept h kids) {i : Insertion} (member : i ∈ h.insertions) : i.entry < h.tree.next :=
  (kept.rings.bound i.parent i.entry ((kept.mem_iff i.parent i.entry).mpr ⟨i,member,rfl,rfl⟩)).2.2

theorem Kept.known (kept : Kept h kids) {parent : Option Nat} (given : known h parent = true) :
    parent.getD root < h.tree.next := by
  cases parent with
  | none => exact kept.rings.rooted
  | some e =>
    obtain ⟨i,member,same⟩ := List.any_eq_true.mp given
    rw [Option.getD_some,← beq_iff_eq.mp same]
    exact kept.live member

theorem Kept.ringBelow (kept : Kept h kids) (p : Nat) : RingBelow h p (kids p) :=
  ⟨kept.below p,kept.rings.distinct p,kept.rings.empty p,fun head rest => kept.rings.ring p head rest⟩

/-- A node of the parent's ring has the name exactly when it was inserted with it. -/
theorem Kept.named_iff (kept : Kept h kids) (parent : Option Nat) (name : Name) (namelen e : Nat) :
    (e ∈ kids (parent.getD root) ∧ named (h.tree.entry e) name namelen = true) ↔
      ∃ i ∈ h.insertions, Under parent name namelen i ∧ i.entry = e := by
  rw [kept.mem_iff,Dcache.named_iff]
  constructor
  · rintro ⟨⟨i,member,under,rfl⟩,same⟩
    exact ⟨i,member,⟨under,(kept.stored i member).1.symm.trans same⟩,rfl⟩
  · rintro ⟨i,member,⟨under,same⟩,rfl⟩
    exact ⟨⟨i,member,under,rfl⟩,(kept.stored i member).1.trans same⟩

/-- A lookup leaves the tree alone, or points its parent to the entry it has found. -/
theorem dcacheLookup_moves {d d' : DcacheTree} {parent found : Option Nat} {name : Name} {namelen : Nat}
    (result : dcacheLookup d parent name namelen = some (found,d')) :
    d' = d ∨ ∃ e, found = some e ∧ d' = d.set (parent.getD root) {d.entry (parent.getD root) with childs := some e} := by
  unfold dcacheLookup at result
  cases first : (d.entry (parent.getD root)).childs with
  | none =>
    simp only [first] at result
    exact Or.inl (Prod.mk.inj (Option.some.inj result)).2.symm
  | some head =>
    simp only [first] at result
    obtain ⟨iter,_,result⟩ := Option.bind_eq_some_iff.mp result
    cases iter with
    | none => exact Or.inl (Prod.mk.inj (Option.some.inj result)).2.symm
    | some e =>
      obtain ⟨rfl,rfl⟩ := Prod.mk.inj (Option.some.inj result)
      exact Or.inr ⟨e,rfl,rfl⟩

theorem Kept.answers (kept : Kept h kids) (parent : Option Nat) (name : Name) (namelen : Nat) :
    Answers h parent name namelen := by
  obtain ⟨tree,result,_,_,same⟩ := dcacheLookup_spec kept.rings parent name namelen
  have hit (e : Nat) (found : (kids (parent.getD root)).find? (fun i => named (h.tree.entry i) name namelen) = some e) :
      ∃ i ∈ h.insertions, Under parent name namelen i ∧ i.entry = e := by
    have holds := List.find?_some found
    exact (kept.named_iff parent name namelen e).mp ⟨List.mem_of_find?_eq_some found,holds⟩
  refine ⟨_,tree,result,⟨?_,?_⟩,fun e found => ?_,?_⟩
  · rintro ⟨e,found⟩
    obtain ⟨i,member,under,_⟩ := hit e found
    exact ⟨i,member,under⟩
  · rintro ⟨i,member,under⟩
    obtain ⟨inside,same_name⟩ := (kept.named_iff parent name namelen i.entry).mpr ⟨i,member,under,rfl⟩
    exact Option.isSome_iff_exists.mp (List.find?_isSome.mpr ⟨i.entry,inside,same_name⟩)
  · obtain ⟨i,member,under,rfl⟩ := hit e found
    exact ⟨i,member,under,rfl,(same i.entry).1.trans (kept.stored i member).2⟩
  · refine (dcacheLookup_moves result).imp_right fun ⟨e,found,moved⟩ => ⟨e,found,?_,moved⟩
    obtain ⟨i,member,under,rfl⟩ := hit e found
    exact (mem_entriesBelow h _ _).mpr ⟨i,member,under.1,rfl⟩

theorem Kept.lookup (kept : Kept h kids) (parent : Option Nat) (name : Name) (namelen : Nat) :
    ∃ h' kids', call h (.lookup parent name namelen) = some h' ∧ Kept h' kids' := by
  obtain ⟨tree,result,⟨k,rings⟩,_,same⟩ := dcacheLookup_spec kept.rings parent name namelen
  refine ⟨⟨tree,h.insertions⟩,entered kids (parent.getD root) k,by rw [call,result]; rfl,rings,fun p => ?_,
    fun i member => ?_,?_⟩
  · have turned : (entered kids (parent.getD root) k p).Perm (kids p) := by
      rcases eq_or_ne p (parent.getD root) with rfl | other
      · rw [entered,Function.update_self]
        exact List.rotate_perm _ k
      · rw [entered,Function.update_of_ne other]
    exact turned.trans (kept.below p)
  · rw [(same i.entry).1,(same i.entry).2]
    exact kept.stored i member
  · rw [(same root).1]
    exact kept.init

/-- The entry of a name that is short enough comes first in its parent's ring. -/
theorem Kept.insert_short (kept : Kept h kids) (parent : Option Nat) (name : Name) (namelen n : Nat)
    (given : DcacheCalls.known h parent = true) (short : namelen < dcacheEntryNameLen) :
    ∃ tree, call h (.insert parent name namelen n) =
        some ⟨tree,⟨parent.getD root,name.take namelen,n,h.tree.next⟩::h.insertions⟩ ∧
      Kept ⟨tree,⟨parent.getD root,name.take namelen,n,h.tree.next⟩::h.insertions⟩
        (inserted kids (parent.getD root) h.tree.next) := by
  obtain ⟨tree,result,rings,_,inode,stored,same⟩ :=
    dcacheInsert_spec kept.rings parent name namelen n (kept.known given) short kept.init
  refine ⟨tree,by rw [call,result]; rfl,rings,fun p => ?_,fun i member => ?_,?_⟩
  · rcases eq_or_ne p (parent.getD root) with rfl | other
    · rw [inserted,Function.update_self,entriesBelow,List.filter_cons_of_pos (by exact beq_self_eq_true _),List.map_cons]
      exact ((List.rotate_perm _ 1).trans (kept.below _)).cons _
    · rw [inserted,Function.update_of_ne other,entriesBelow,List.filter_cons_of_neg (by simpa using other.symm)]
      exact kept.below p
  · rcases List.mem_cons.mp member with rfl | old
    · exact ⟨stored,inode⟩
    · rw [(same i.entry (kept.live old)).1,(same i.entry (kept.live old)).2]
      exact kept.stored i old
  · rw [(same root kept.rings.rooted).1]
    exact kept.init

theorem Kept.insert (kept : Kept h kids) (parent : Option Nat) (name : Name) (namelen n : Nat)
    (given : DcacheCalls.known h parent = true) :
    ∃ h' kids', call h (.insert parent name namelen n) = some h' ∧ Kept h' kids' := by
  rcases lt_or_ge namelen dcacheEntryNameLen with short | long
  · obtain ⟨tree,result,kept'⟩ := kept.insert_short parent name namelen n given short
    exact ⟨_,_,result,kept'⟩
  · exact ⟨h,kids,by rw [call,dcacheInsert_long h.tree parent name namelen n long]; rfl,kept⟩

/-- Such an insertion gives out an entry, which the next lookup of the name finds. -/
def Inserts (h : History) (parent : Option Nat) (name : Name) (namelen n : Nat) : Prop :=
  ∃ h' e tree, call h (.insert parent name namelen n) = some h' ∧
    h'.insertions = ⟨parent.getD root,name.take namelen,n,e⟩::h.insertions ∧
    dcacheLookup h'.tree parent name namelen = some (some e,tree) ∧ dcacheGetInode tree (some e) = n

theorem Kept.inserts (kept : Kept h kids) (parent : Option Nat) (name : Name) (namelen n : Nat)
    (given : DcacheCalls.known h parent = true) (short : namelen < dcacheEntryNameLen) : Inserts h parent name namelen n := by
  obtain ⟨tree,result,kept'⟩ := kept.insert_short parent name namelen n given short
  obtain ⟨stored,inode⟩ := kept'.stored _ List.mem_cons_self
  obtain ⟨tree',looked,_,_,same⟩ := dcacheLookup_spec kept'.rings parent name namelen
  have first : named (tree.entry h.tree.next) name namelen = true := (Dcache.named_iff _ _ _).mpr stored
  have found : (h.tree.next::(kids (parent.getD root)).rotate 1).find? (fun i => named (tree.entry i) name namelen) = some h.tree.next :=
    List.find?_cons_of_pos first
  rw [inserted,Function.update_self] at looked
  exact ⟨_,_,tree',result,rfl,looked.trans (congrArg (fun e => some (e,tree')) found),(same _).1.trans inode⟩

theorem Kept.call (kept : Kept h kids) (c : Call) (may : proper h c = true) :
    ∃ h' kids', call h c = some h' ∧ Kept h' kids' := by
  cases c with
  | insert parent name namelen n => exact kept.insert parent name namelen n (Bool.and_eq_true_iff.mp may).1
  | lookup parent name namelen => exact kept.lookup parent name namelen

theorem reached_kept {n : Nat} (init : n ≠ 0) (reached : Reaches call proper (start n) h) : ∃ kids, Kept h kids := by
  refine reached.invariant (P := fun h => ∃ kids, Kept h kids) ⟨_,start_kept init⟩ ?_
  rintro h c h' ⟨kids,kept⟩ may result
  obtain ⟨next,kids',result',kept'⟩ := kept.call c may
  obtain rfl := Option.some.inj (result'.symm.trans result)
  exact ⟨kids',kept'⟩

/-- After every sequence of calls, every call returns, the rings are those of the insertions
and so are the answers of lookups; a name of at most 39 bytes can be inserted and is found then. -/
theorem calls_rings {n : Nat} (init : n ≠ 0) (reached : Reaches call proper (start n) h) :
    (∀ p, ∃ ring, RingBelow h p ring) ∧
    (∀ parent name namelen, proper h (.lookup parent name namelen) = true → Answers h parent name namelen) ∧
    (∀ parent name namelen n, proper h (.insert parent name namelen n) = true → namelen < dcacheEntryNameLen →
      Inserts h parent name namelen n) ∧
    ∀ c, proper h c = true → ∃ h', call h c = some h' := by
  obtain ⟨kids,kept⟩ := reached_kept init reached
  refine ⟨fun p => ⟨kids p,kept.ringBelow p⟩,fun parent name namelen _ => kept.answers parent name namelen,
    fun parent name namelen n may => kept.inserts parent name namelen n (Bool.and_eq_true_iff.mp may).1,fun c may => ?_⟩
  obtain ⟨h',_,result,_⟩ := kept.call c may
  exact ⟨h',result⟩

/-- Two entries below the root, the first one looked up behind its token. -/
def twoCalls : List Call := [.insert none [97,47,98] 1 5,.insert none [98] 1 6,.lookup none [97,47,98] 1]

theorem calls_rings_two : ∃ h, run call proper (start 2) twoCalls = some h ∧ (h.tree.entry root).childs = some 1 ∧
    Answers h none [98,47] 1 ∧ Inserts h none [99] 1 7 := by
  cases ran : run call proper (start 2) twoCalls with
  | none =>
    have ends : (run call proper (start 2) twoCalls).isSome = true := by decide
    rw [ran] at ends
    nomatch ends
  | some h =>
    have first : (run call proper (start 2) twoCalls).map (fun h => (h.tree.entry root).childs) = some (some 1) := by decide
    rw [ran] at first
    obtain ⟨_,answers,inserts,_⟩ := calls_rings (by decide) (Reaches.start.run ran)
    exact ⟨h,rfl,Option.some.inj first,answers none [98,47] 1 (by rfl),inserts none [99] 1 7 (by rfl) (by decide)⟩

end Ext4Fuse.DcacheCalls
