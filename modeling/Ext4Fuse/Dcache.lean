import Ext4Fuse.Library.Ring
import Mathlib.Data.List.Rotate
import Mathlib.Data.Finset.Card
import Mathlib.Order.Interval.Finset.Nat

/-! `dcache.c`: a tree of named entries in which a parent points at one child and
the children of a parent form a ring through `siblings`. Entries are numbered in
the order `calloc` hands them out; number 0 is the static `root`. -/
namespace Ext4Fuse.Dcache
open Library.Ring

abbrev Name := List UInt8

structure DcacheEntry where
  childs : Option Nat
  siblings : Option Nat
  inode : Nat
  name : Name
  deriving DecidableEq

structure DcacheTree where
  entry : Nat → DcacheEntry
  next : Nat

def root : Nat := 0

def dcacheEntryNameLen : Nat := 40

def DcacheTree.set (d : DcacheTree) (id : Nat) (e : DcacheEntry) : DcacheTree :=
  {d with entry := Function.update d.entry id e}

/-- `dcache_init_root(n)`, called once. -/
def dcacheInitRoot (n : Nat) : DcacheTree where
  entry := fun _ => {childs := none,siblings := none,inode := n,name := []}
  next := 1

/-- `dcache_insert`; a failing `ASSERT(parent->inode)` has no result. -/
def dcacheInsert (d : DcacheTree) (parent : Option Nat) (name : Name) (namelen n : Nat) :
    Option (Option Nat × DcacheTree) :=
  if dcacheEntryNameLen < namelen + 1 then some (none,d)
  else if parent = none ∧ (d.entry root).inode = 0 then none
  else
    let parent := parent.getD root
    let newEntry := d.next
    let entry : DcacheEntry := {childs := none,siblings := none,inode := n,name := name.take namelen}
    let d := {d with next := d.next + 1}
    match (d.entry parent).childs with
    | none =>
      let d := d.set newEntry {entry with siblings := some newEntry}
      some (some newEntry,d.set parent {d.entry parent with childs := some newEntry})
    | some head =>
      let d := d.set newEntry {entry with siblings := (d.entry head).siblings}
      let d := d.set head {d.entry head with siblings := some newEntry}
      some (some newEntry,d.set parent {d.entry parent with childs := some newEntry})

/-- `strncmp(iter->name, name, namelen) == 0 && iter->name[namelen] == 0`. A name has
at most 39 bytes, so the second test is never reached for a longer `namelen`. -/
def named (e : DcacheEntry) (name : Name) (namelen : Nat) : Bool :=
  e.name.take namelen = name.take namelen ∧ e.name[namelen]? = none

/-- The `do … while (iter != parent->childs)` loop. No result: a null `siblings` is
followed, or the loop is still running when the fuel is spent. -/
def dcacheLookupLoop (d : DcacheTree) (head : Nat) (name : Name) (namelen : Nat) : Nat → Nat → Option (Option Nat)
  | 0, _ => none
  | fuel+1, iter =>
    if named (d.entry iter) name namelen then some (some iter)
    else match (d.entry iter).siblings with
      | none => none
      | some next => if next = head then some none else dcacheLookupLoop d head name namelen fuel next

def dcacheLookup (d : DcacheTree) (parent : Option Nat) (name : Name) (namelen : Nat) :
    Option (Option Nat × DcacheTree) :=
  let parent := parent.getD root
  match (d.entry parent).childs with
  | none => some (none,d)
  | some head => do
    match ← dcacheLookupLoop d head name namelen d.next head with
    | none => return (none,d)
    | some iter => return (some iter,d.set parent {d.entry parent with childs := some iter})

def dcacheGetInode (d : DcacheTree) (entry : Option Nat) : Nat :=
  (d.entry (entry.getD root)).inode

/-! The children of every entry form a ring. -/

/-- `kids p` lists the ring below `p`, starting at the child `p` points to. -/
structure Rings (d : DcacheTree) (kids : Nat → List Nat) : Prop where
  empty : ∀ p, kids p = [] → (d.entry p).childs = none
  ring : ∀ p head rest, kids p = head::rest →
    (d.entry p).childs = some head ∧ Linked (fun i => (d.entry i).siblings) head rest head
  bound : ∀ p c, c ∈ kids p → p < d.next ∧ root < c ∧ c < d.next
  distinct : ∀ p, (kids p).Nodup
  apart : ∀ p q c, c ∈ kids p → c ∈ kids q → p = q
  rooted : root < d.next

theorem named_iff (e : DcacheEntry) (name : Name) (namelen : Nat) :
    named e name namelen = true ↔ e.name = name.take namelen := by
  simp only [named,Bool.decide_and,Bool.and_eq_true,decide_eq_true_eq,List.getElem?_eq_none_iff]
  constructor
  · rintro ⟨same,short⟩
    rwa [List.take_of_length_le short] at same
  · intro same
    rw [same,List.take_take,List.length_take,min_self]
    exact ⟨rfl,min_le_left _ _⟩

theorem dcacheInitRoot_rings (n : Nat) : Rings (dcacheInitRoot n) (fun _ => []) := by
  refine ⟨fun _ _ => rfl,?_,?_,fun _ => List.nodup_nil,?_,Nat.one_pos⟩
  all_goals simp

theorem Rings.length_le {d : DcacheTree} {kids : Nat → List Nat} (rings : Rings d kids) (p : Nat) :
    (kids p).length ≤ d.next := by
  have counted := List.toFinset_card_of_nodup (rings.distinct p)
  rw [← counted,← Nat.card_Iio d.next]
  apply Finset.card_le_card
  intro c member
  exact Finset.mem_Iio.mpr (rings.bound p c (List.mem_toFinset.mp member)).2.2

/-! Lookup. -/

theorem lookupLoop_ring (d : DcacheTree) (head : Nat) (name : Name) (namelen fuel iter : Nat) (rest : List Nat)
    (linked : Linked (fun i => (d.entry i).siblings) iter rest head) (once : head ∉ rest)
    (enough : rest.length < fuel) :
    dcacheLookupLoop d head name namelen fuel iter =
      some ((iter::rest).find? fun i => named (d.entry i) name namelen) := by
  induction rest generalizing iter fuel with
  | nil =>
    obtain ⟨fuel,rfl⟩ := Nat.exists_eq_add_of_lt enough
    have back : (d.entry iter).siblings = some head := linked
    cases found : named (d.entry iter) name namelen
    · simp [dcacheLookupLoop,found,back]
    · simp [dcacheLookupLoop,found]
  | cons x rest ih =>
    obtain ⟨fuel,rfl⟩ := Nat.exists_eq_succ_of_ne_zero (Nat.ne_zero_of_lt enough)
    have step : (d.entry iter).siblings = some x := linked.1
    have apart : ¬x = head := fun same => once (same ▸ List.mem_cons_self)
    have next := ih fuel x linked.2 (fun member => once (List.mem_cons_of_mem _ member))
      (by simpa using enough)
    cases found : named (d.entry iter) name namelen
    · simpa [dcacheLookupLoop,found,step,apart] using next
    · simp [dcacheLookupLoop,found]

/-- The ring of `parent` entered at its member number `k`. -/
def entered (kids : Nat → List Nat) (parent k : Nat) : Nat → List Nat :=
  Function.update kids parent ((kids parent).rotate k)

theorem mem_entered (kids : Nat → List Nat) (parent k p c : Nat) :
    c ∈ entered kids parent k p ↔ c ∈ kids p := by
  by_cases same : p = parent
  · subst same
    simp [entered]
  · simp [entered,same]

theorem Rings.enter {d : DcacheTree} {kids : Nat → List Nat} (rings : Rings d kids) (parent k iter : Nat)
    (member : (kids parent)[k]? = some iter) :
    Rings (d.set parent {d.entry parent with childs := some iter}) (entered kids parent k) := by
  have siblings (i : Nat) : ((d.set parent {d.entry parent with childs := some iter}).entry i).siblings =
      (d.entry i).siblings := by
    by_cases same : i = parent
    · subst same
      simp [DcacheTree.set]
    · simp [DcacheTree.set,same]
  obtain ⟨inside,at_k⟩ := List.getElem?_eq_some_iff.mp member
  have turned : (kids parent).rotate k = iter::((kids parent).drop (k+1) ++ (kids parent).take k) := by
    rw [List.rotate_eq_drop_append_take inside.le,List.drop_eq_getElem_cons inside,at_k,List.cons_append]
  refine ⟨?_,?_,?_,?_,?_,rings.rooted⟩
  · intro p none_left
    by_cases same : p = parent
    · subst same
      simp [entered,turned] at none_left
    · simpa [DcacheTree.set,same] using rings.empty p (by simpa [entered,same] using none_left)
  · intro p head rest split
    simp only [siblings]
    by_cases same : p = parent
    · subst same
      rw [entered,Function.update_self,turned,List.cons.injEq] at split
      obtain ⟨rfl,rfl⟩ := split
      refine ⟨by simp [DcacheTree.set],?_⟩
      have parts : kids p = (kids p).take k ++ iter::(kids p).drop (k+1) := by
        rw [← at_k,← List.drop_eq_getElem_cons inside,List.take_append_drop]
      cases before : (kids p).take k with
      | nil =>
        rw [before,List.nil_append] at parts
        simpa using (rings.ring p iter _ parts).2
      | cons head xs =>
        rw [before] at parts
        exact (rings.ring p head _ parts).2.rotate
    · simpa [DcacheTree.set,same] using rings.ring p head rest (by simpa [entered,same] using split)
  · intro p c member
    exact rings.bound p c ((mem_entered kids parent k p c).mp member)
  · intro p
    by_cases same : p = parent
    · subst same
      simpa [entered] using rings.distinct p
    · simpa [entered,same] using rings.distinct p
  · intro p q c first second
    exact rings.apart p q c ((mem_entered kids parent k p c).mp first) ((mem_entered kids parent k q c).mp second)

/-- A lookup ends, finds a child exactly when one has the name, and changes only
which member of the ring the parent points to. -/
theorem dcacheLookup_spec {d : DcacheTree} {kids : Nat → List Nat} (rings : Rings d kids)
    (parent : Option Nat) (name : Name) (namelen : Nat) :
    ∃ d', dcacheLookup d parent name namelen =
        some ((kids (parent.getD root)).find? (fun i => named (d.entry i) name namelen),d') ∧
      (∃ k, Rings d' (entered kids (parent.getD root) k)) ∧ d'.next = d.next ∧
      ∀ i, (d'.entry i).inode = (d.entry i).inode ∧ (d'.entry i).name = (d.entry i).name := by
  generalize parent_eq : parent.getD root = p
  cases ring : kids p with
  | nil =>
    refine ⟨d,by simp [dcacheLookup,parent_eq,rings.empty p ring],⟨0,?_⟩,rfl,fun _ => ⟨rfl,rfl⟩⟩
    simpa [entered] using rings
  | cons head rest =>
    obtain ⟨first,linked⟩ := rings.ring p head rest ring
    have distinct := rings.distinct p
    have short := rings.length_le p
    rw [ring] at distinct short
    have loop := lookupLoop_ring d head name namelen d.next head rest linked
      (List.nodup_cons.mp distinct).1 (by simpa [Nat.succ_le_iff] using short)
    cases found : (head::rest).find? (fun i => named (d.entry i) name namelen) with
    | none =>
      refine ⟨d,by simp [dcacheLookup,parent_eq,first,loop,found],⟨0,?_⟩,rfl,fun _ => ⟨rfl,rfl⟩⟩
      simpa [entered] using rings
    | some iter =>
      refine ⟨d.set p {d.entry p with childs := some iter},
        by simp [dcacheLookup,parent_eq,first,loop,found],?_,rfl,?_⟩
      · have member := List.mem_of_find?_eq_some found
        rw [← ring] at member
        obtain ⟨k,at_k⟩ := List.mem_iff_getElem?.mp member
        exact ⟨k,rings.enter p k iter at_k⟩
      · intro i
        by_cases same : i = p
        · subst same
          simp [DcacheTree.set]
        · simp [DcacheTree.set,same]

/-! Insertion. -/

/-- The ring of `parent` once `new` has been linked in behind its first member. -/
def inserted (kids : Nat → List Nat) (parent new : Nat) : Nat → List Nat :=
  Function.update kids parent (new::(kids parent).rotate 1)

theorem mem_inserted (kids : Nat → List Nat) (parent new p c : Nat) :
    c ∈ inserted kids parent new p ↔ c ∈ kids p ∨ p = parent ∧ c = new := by
  by_cases same : p = parent
  · subst same
    simp [inserted,or_comm]
  · simp [inserted,same]

theorem Rings.insert {d d' : DcacheTree} {kids : Nat → List Nat} (rings : Rings d kids) (parent : Nat)
    (known : parent < d.next) (next : d'.next = d.next + 1)
    (childs : ∀ i, (d'.entry i).childs =
      if i = parent then some d.next else if i = d.next then none else (d.entry i).childs)
    (ring : Linked (fun i => (d'.entry i).siblings) d.next ((kids parent).rotate 1) d.next)
    (others : ∀ i, i ≠ d.next → i ∉ kids parent → (d'.entry i).siblings = (d.entry i).siblings) :
    Rings d' (inserted kids parent d.next) := by
  have fresh (p : Nat) : d.next ∉ kids p := fun member => Nat.lt_irrefl _ (rings.bound p _ member).2.2
  refine ⟨?_,?_,?_,?_,?_,?_⟩
  · intro p none_left
    by_cases same : p = parent
    · subst same
      simp [inserted] at none_left
    · have before : kids p = [] := by simpa [inserted,same] using none_left
      rw [childs,if_neg same]
      split
      · rfl
      · exact rings.empty p before
  · intro p head rest split
    by_cases same : p = parent
    · subst same
      rw [inserted,Function.update_self,List.cons.injEq] at split
      obtain ⟨rfl,rfl⟩ := split
      exact ⟨by simp [childs],ring⟩
    · have before : kids p = head::rest := by simpa [inserted,same] using split
      have old : p ≠ d.next := by
        have := (rings.bound p head (before ▸ List.mem_cons_self)).1
        omega
      obtain ⟨first,linked⟩ := rings.ring p head rest before
      refine ⟨by rw [childs,if_neg same,if_neg old,first],linked.congr fun x member => ?_⟩
      rw [← before] at member
      refine others x (fun equal => fresh p (equal ▸ member)) fun both => same ?_
      exact rings.apart p parent x member both
  · intro p c member
    rw [next]
    rcases (mem_inserted kids parent d.next p c).mp member with old | ⟨rfl,rfl⟩
    · have := rings.bound p c old
      omega
    · have := rings.rooted
      omega
  · intro p
    by_cases same : p = parent
    · subst same
      simpa [inserted,fresh p] using rings.distinct p
    · simpa [inserted,same] using rings.distinct p
  · intro p q c first second
    rcases (mem_inserted kids parent d.next p c).mp first with left | ⟨left,left_new⟩
    · rcases (mem_inserted kids parent d.next q c).mp second with right | ⟨_,right_new⟩
      · exact rings.apart p q c left right
      · exact absurd (right_new ▸ left) (fresh p)
    · rcases (mem_inserted kids parent d.next q c).mp second with right | ⟨right,_⟩
      · exact absurd (left_new ▸ right) (fresh q)
      · exact left.trans right.symm
  · rw [next]
    exact Nat.succ_pos _

theorem dcacheInsert_long (d : DcacheTree) (parent : Option Nat) (name : Name) (namelen n : Nat)
    (long : dcacheEntryNameLen ≤ namelen) : dcacheInsert d parent name namelen n = some (none,d) :=
  if_pos (Nat.lt_succ_of_le long)

/-- An insertion links one new entry, with the name and inode it was given, into
the ring of its parent and leaves every other entry's name and inode alone. -/
theorem dcacheInsert_spec {d : DcacheTree} {kids : Nat → List Nat} (rings : Rings d kids)
    (parent : Option Nat) (name : Name) (namelen n : Nat) (known : parent.getD root < d.next)
    (short : namelen < dcacheEntryNameLen) (init : (d.entry root).inode ≠ 0) :
    ∃ d', dcacheInsert d parent name namelen n = some (some d.next,d') ∧
      Rings d' (inserted kids (parent.getD root) d.next) ∧ d'.next = d.next + 1 ∧
      (d'.entry d.next).inode = n ∧ (d'.entry d.next).name = name.take namelen ∧
      ∀ i, i < d.next → (d'.entry i).inode = (d.entry i).inode ∧ (d'.entry i).name = (d.entry i).name := by
  have fits : ¬dcacheEntryNameLen < namelen + 1 := by omega
  have asserted : ¬(parent = none ∧ (d.entry root).inode = 0) := fun both => init both.2
  simp only [dcacheInsert,if_neg fits,if_neg asserted]
  generalize parent.getD root = p at known
  have old : p ≠ d.next := Nat.ne_of_lt known
  cases below : kids p with
  | nil =>
    rw [rings.empty p below]
    refine ⟨_,rfl,rings.insert p known rfl ?_ ?_ ?_,rfl,?_,?_,?_⟩
    · intro i
      rcases eq_or_ne i p with rfl | differs
      · simp [DcacheTree.set]
      · rcases eq_or_ne i d.next with rfl | other <;> simp [DcacheTree.set, *]
    · simp [below,Linked,DcacheTree.set,old.symm]
    · intro i new _
      rcases eq_or_ne i p with rfl | differs <;> simp [DcacheTree.set, *]
    · simp [DcacheTree.set,old.symm]
    · simp [DcacheTree.set,old.symm]
    · intro i before
      have new : i ≠ d.next := Nat.ne_of_lt before
      rcases eq_or_ne i p with rfl | differs <;> simp [DcacheTree.set, *]
  | cons head rest =>
    obtain ⟨first,linked⟩ := rings.ring p head rest below
    have inside : head ∈ kids p := below ▸ List.mem_cons_self
    have live : head ≠ d.next := Nat.ne_of_lt (rings.bound p head inside).2.2
    have distinct := rings.distinct p
    rw [below] at distinct
    have fresh : d.next ∉ head::rest := fun member =>
      Nat.lt_irrefl _ (rings.bound p _ (below ▸ member)).2.2
    rw [first]
    refine ⟨_,rfl,rings.insert p known rfl ?_ ?_ ?_,rfl,?_,?_,?_⟩
    · intro i
      rcases eq_or_ne i p with rfl | differs
      · simp [DcacheTree.set]
      · rcases eq_or_ne i head with rfl | other
        · simp [DcacheTree.set, *]
        · rcases eq_or_ne i d.next with rfl | new <;> simp [DcacheTree.set, *]
    · rw [below,List.rotate_cons_succ,List.rotate_zero]
      have siblings (i : Nat) (set : DcacheTree) (e : DcacheEntry) (same : e.siblings = (set.entry p).siblings) :
          ((set.set p e).entry i).siblings = (set.entry i).siblings := by
        rcases eq_or_ne i p with rfl | differs <;> simp [DcacheTree.set, *]
      simp only [siblings]
      apply linked.insert distinct fresh
      · simp [DcacheTree.set,live.symm]
      · simp [DcacheTree.set]
      · intro x member
        have apart : x ≠ head := fun equal => (List.nodup_cons.mp distinct).1 (equal ▸ member)
        have new : x ≠ d.next := fun equal => fresh (equal ▸ List.mem_cons_of_mem _ member)
        simp [DcacheTree.set,apart,new]
    · intro i new outside
      have apart : i ≠ head := fun equal => outside (equal ▸ inside)
      rcases eq_or_ne i p with rfl | differs <;> simp [DcacheTree.set, *]
    · rcases eq_or_ne d.next p with equal | differs
      · exact absurd equal.symm old
      · simp [DcacheTree.set,differs,live.symm]
    · simp [DcacheTree.set,old.symm,live.symm]
    · intro i before
      have new : i ≠ d.next := Nat.ne_of_lt before
      rcases eq_or_ne i p with rfl | differs
      · rcases eq_or_ne i head with rfl | other <;> simp [DcacheTree.set, *]
      · rcases eq_or_ne i head with rfl | other <;> simp [DcacheTree.set, *]

end Ext4Fuse.Dcache
