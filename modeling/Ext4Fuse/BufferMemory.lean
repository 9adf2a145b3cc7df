import Ext4Fuse.BufferFree
import Ext4Fuse.BufferLists
import Ext4Fuse.BufferRoot

/-! The tree and the lists of the buffer cache in memory. Each section of a call goes through them as the code does, pointer by
pointer, and finds and leaves what `BufferSections` says of it. A buffer of `BufferSections` is a number; `addr` is where it is. -/
namespace Ext4Fuse.BufferMemory
open Rbtree BufferRoot BufferLists BufferCache BufferSections Library.RedBlack Library.Partial Library.Steps

structure Memory where
  tree : State
  bBlocknr : Nat → Nat
  bdBhFree : Queue
  bdBhDirty : Queue

def Memory.init : Memory where
  tree := ⟨fun _ => none,nofun,⟨0,0,0⟩⟩
  bBlocknr := fun _ => 0
  bdBhFree := Queue.init
  bdBhDirty := Queue.init

namespace Memory

def bufferSearch (fuel : Nat) (m : Memory) (blocknr : Nat) : Option Nat := BufferRoot.bufferSearch m.bBlocknr fuel m.tree blocknr

/-- `buffer_alloc`, when `malloc` returns `bh`. -/
def bufferAlloc (m : Memory) (bh block : Nat) : Option Memory := do
  let tree ← alloc m.tree bh
  let free ← m.bdBhFree.alloc bh
  let dirty ← m.bdBhDirty.alloc bh
  return ⟨tree,Function.update m.bBlocknr bh block,free,dirty⟩

def bufferInsert (fuel : Nat) (m : Memory) (bh : Nat) : Option Memory :=
  (rbInsert (bufferBlocknrCmp m.bBlocknr) fuel m.tree bh).map fun tree => {m with tree := tree}

/-- `__buffer_remove`. -/
def bufferRemove (fuel : Nat) (m : Memory) (bh : Nat) : Option Memory :=
  (rbErase fuel m.tree bh).map fun tree => {m with tree := tree}

def bufferFree (m : Memory) (bh : Nat) : Memory :=
  {m with tree := free m.tree bh,bdBhFree := m.bdBhFree.free bh,bdBhDirty := m.bdBhDirty.free bh}

/-- `list_empty(&bh->b_freelist)`, which is read outside of the lock. -/
def bFreelistEmpty (m : Memory) (bh : Nat) : Option Bool := m.bdBhFree.empty bh

/-- `attach_bh_to_freelist` after its test. -/
def attachBhToFreelist (m : Memory) (bh : Nat) (empty : Bool) : Option Memory :=
  (m.bdBhFree.putLast bh empty).map fun q => {m with bdBhFree := q}

/-- `detach_bh_from_freelist` after its test. -/
def detachBhFromFreelist (m : Memory) (bh : Nat) (empty : Bool) : Option Memory :=
  (m.bdBhFree.takeOut bh empty).map fun q => {m with bdBhFree := q}

/-- The first lock of `remove_first_bh_from_freelist`. -/
def firstBhFromFreelist (m : Memory) : Option (Option Nat × Memory) :=
  m.bdBhFree.takeFirst.map fun r => (r.1,{m with bdBhFree := r.2})

def moveBufferToWriteback (m : Memory) (bh : Nat) : Option Memory := do
  let empty ← m.bdBhDirty.empty bh
  (m.bdBhDirty.putLast bh empty).map fun q => {m with bdBhDirty := q}

def removeBufferFromWriteback (m : Memory) (bh : Nat) : Option Memory := do
  let empty ← m.bdBhDirty.empty bh
  (m.bdBhDirty.takeOut bh empty).map fun q => {m with bdBhDirty := q}

def removeFirstBufferFromWriteback (m : Memory) : Option (Option Nat × Memory) :=
  m.bdBhDirty.takeFirst.map fun r => (r.1,{m with bdBhDirty := r.2})

end Memory

/-! What it is for the memory to be that of a cache. -/

variable {α : Type}

/-- Where the buffers are that are not freed. -/
def Live (addr : Nat → Nat) (buffer : Nat → Option (BufferHead α)) (a : Nat) : Prop := ∃ i, buffer i ≠ none ∧ addr i = a

/-- The tree in memory is `t`, which maps blocks as `root` does; `rest` has the nodes of the buffers that it does not hold. -/
structure Rooted (s : State) (block addr : Nat → Nat) (buffer : Nat → Option (BufferHead α)) (root : Nat → Option Nat) (t : RbTree Nat)
    (rest : Multiset (Nat × RbNode)) : Prop where
  stored : Stored s t rest
  ordered : Ordered block t.toList
  maps : ∀ b, (root b).map addr = mapOf block t.toList b
  held : ∀ b i, root b = some i → buffer i ≠ none
  nodes : ∀ a ∈ t.toList, Live addr buffer a
  others : ∀ a, Live addr buffer a → a ∉ t.toList → ∃ r, (a,r) ∈ rest

structure Shows (m : Memory) (addr : Nat → Nat) (c : Cache α) : Prop where
  fresh : ∀ i, c.next ≤ i → c.buffer i = none
  apart : ∀ i j, c.buffer i ≠ none → c.buffer j ≠ none → addr i = addr j → i = j
  block : ∀ i bh, c.buffer i = some bh → m.bBlocknr (addr i) = bh.bBlocknr ∧ bh.bBlocknr < 2 ^ 63
  tree : ∃ t rest, Rooted m.tree m.bBlocknr addr c.buffer c.root t rest
  free : m.bdBhFree.Lists (c.bdBhFree.map addr) (Live addr c.buffer)
  dirty : m.bdBhDirty.Lists (c.bdBhDirty.map addr) (Live addr c.buffer)
  freeLive : ∀ i ∈ c.bdBhFree, c.buffer i ≠ none
  dirtyLive : ∀ i ∈ c.bdBhDirty, c.buffer i ≠ none

theorem init_shows (device : Nat → α) (addr : Nat → Nat) : Shows Memory.init addr (Cache.init device) where
  fresh _ _ := rfl
  apart _ _ live := absurd rfl live
  block _ _ := nofun
  tree := ⟨.nil,0,{
    stored := ⟨⟨⟨Multiset.nodup_zero,by rintro c ⟨⟩⟩,rfl⟩,rfl,0,rfl⟩
    ordered := ⟨List.Pairwise.nil,by rintro a ⟨⟩⟩
    maps := fun _ => rfl
    held := nofun
    nodes := by rintro a ⟨⟩
    others := fun a live => by
      obtain ⟨i,live,_⟩ := live
      exact absurd rfl live}⟩
  free := init_lists.fewer fun a live => by
    obtain ⟨i,live,_⟩ := live
    exact absurd rfl live
  dirty := init_lists.fewer fun a live => by
    obtain ⟨i,live,_⟩ := live
    exact absurd rfl live
  freeLive := by rintro i ⟨⟩
  dirtyLive := by rintro i ⟨⟩

section Shows
variable {m : Memory} {addr : Nat → Nat} {c c' : Cache α} {i new b fuel : Nat} {bh : BufferHead α} {xs : List Nat}

theorem map_erase (apart : ∀ j ∈ xs, addr j = addr i → j = i) : (xs.erase i).map addr = (xs.map addr).erase (addr i) := by
  induction xs with
  | nil => rfl
  | cons j xs ih =>
    by_cases same : j = i
    · subst same
      rw [List.erase_cons_head,List.map_cons,List.erase_cons_head]
    · have other : addr j ≠ addr i := fun equal => same (apart j List.mem_cons_self equal)
      rw [List.erase_cons_tail (by simpa using same),List.map_cons,List.map_cons,List.erase_cons_tail (by simpa using other),
        ih fun k member => apart k (List.mem_cons_of_mem _ member)]

theorem mem_map_addr (apart : ∀ j ∈ xs, addr j = addr i → j = i) : addr i ∈ xs.map addr ↔ i ∈ xs := by
  rw [List.mem_map]
  constructor
  · rintro ⟨j,member,same⟩
    exact apart j member same ▸ member
  · exact fun member => ⟨i,member,rfl⟩

theorem live_some (held : c.buffer i = some bh) : c.buffer i ≠ none := by
  rw [held]
  exact Option.some_ne_none bh

theorem Shows.freeApart (shows : Shows m addr c) (live : c.buffer i ≠ none) (j : Nat) (member : j ∈ c.bdBhFree) (same : addr j = addr i) :
    j = i := shows.apart j i (shows.freeLive j member) live same

theorem Shows.dirtyApart (shows : Shows m addr c) (live : c.buffer i ≠ none) (j : Nat) (member : j ∈ c.bdBhDirty) (same : addr j = addr i) :
    j = i := shows.apart j i (shows.dirtyLive j member) live same

/-- Nothing that the memory shows has changed. -/
structure Unmoved (c c' : Cache α) : Prop where
  next : c'.next = c.next
  root : c'.root = c.root
  blocks : ∀ i, (c'.buffer i).map BufferHead.bBlocknr = (c.buffer i).map BufferHead.bBlocknr
  free : c'.bdBhFree = c.bdBhFree
  dirty : c'.bdBhDirty = c.bdBhDirty

theorem Unmoved.live (same : Unmoved c c') (i : Nat) : c'.buffer i ≠ none ↔ c.buffer i ≠ none := by
  rw [ne_eq,ne_eq,← Option.map_eq_none_iff,same.blocks,Option.map_eq_none_iff]

theorem Shows.unmoved (shows : Shows m addr c) (same : Unmoved c c') : Shows m addr c' := by
  have lives : Live addr c'.buffer = Live addr c.buffer := funext fun a => propext (exists_congr fun i => and_congr_left' (same.live i))
  obtain ⟨t,rest,rooted⟩ := shows.tree
  exact {
    fresh := fun i beyond => by
      by_contra live
      exact (same.live i).mp live (shows.fresh i (same.next ▸ beyond))
    apart := fun i j one two => shows.apart i j ((same.live i).mp one) ((same.live j).mp two)
    block := fun i bh held => by
      have block := same.blocks i
      rw [held,Option.map_some] at block
      obtain ⟨bh',held',equal⟩ := Option.map_eq_some_iff.mp block.symm
      rw [← equal]
      exact shows.block i bh' held'
    tree := ⟨t,rest,{
      stored := rooted.stored
      ordered := rooted.ordered
      maps := fun b => same.root ▸ rooted.maps b
      held := fun b i found => (same.live i).mpr (rooted.held b i (same.root ▸ found))
      nodes := fun a member => lives ▸ rooted.nodes a member
      others := fun a live absent => rooted.others a (lives ▸ live) absent}⟩
    free := by
      rw [same.free,lives]
      exact shows.free
    dirty := by
      rw [same.dirty,lives]
      exact shows.dirty
    freeLive := fun i member => (same.live i).mpr (shows.freeLive i (same.free ▸ member))
    dirtyLive := fun i member => (same.live i).mpr (shows.dirtyLive i (same.dirty ▸ member))}

/-! The lists. -/

theorem Shows.tested (shows : Shows m addr c) (live : c.buffer i ≠ none) : Yields (m.bFreelistEmpty (addr i)) fun _ => True :=
  ⟨_,empty_eq shows.free ⟨i,live,rfl⟩,trivial⟩

theorem Shows.attach (shows : Shows m addr c) (live : c.buffer i ≠ none) {empty : Bool} (tested : m.bFreelistEmpty (addr i) = some empty) :
    Yields (m.attachBhToFreelist (addr i) empty) fun m' => Shows m' addr (attachBhToFreelist c i) := by
  refine (putLast_lists shows.free ⟨i,live,rfl⟩ tested).map fun q lists => ?_
  unfold attachBhToFreelist
  by_cases member : i ∈ c.bdBhFree
  · rw [if_pos ((mem_map_addr (shows.freeApart live)).mpr member)] at lists
    rw [if_pos member]
    exact {shows with free := lists}
  · rw [if_neg (mt (mem_map_addr (shows.freeApart live)).mp member)] at lists
    rw [if_neg member]
    refine {shows with free := ?_,freeLive := fun j inside => ?_}
    · rw [List.map_append]
      exact lists
    · rcases List.mem_append.mp inside with there | here
      · exact shows.freeLive j there
      · exact List.mem_singleton.mp here ▸ live

theorem Shows.move (shows : Shows m addr c) (live : c.buffer i ≠ none) :
    Yields (m.moveBufferToWriteback (addr i)) fun m' => Shows m' addr (moveBufferToWriteback c i) := by
  have tested := empty_eq shows.dirty ⟨i,live,rfl⟩
  refine yields_bind tested ((putLast_lists shows.dirty ⟨i,live,rfl⟩ tested).map fun q lists => ?_)
  unfold moveBufferToWriteback
  by_cases member : i ∈ c.bdBhDirty
  · rw [if_pos ((mem_map_addr (shows.dirtyApart live)).mpr member)] at lists
    rw [if_pos member]
    exact {shows with dirty := lists}
  · rw [if_neg (mt (mem_map_addr (shows.dirtyApart live)).mp member)] at lists
    rw [if_neg member]
    refine {shows with dirty := ?_,dirtyLive := fun j inside => ?_}
    · rw [List.map_append]
      exact lists
    · rcases List.mem_append.mp inside with there | here
      · exact shows.dirtyLive j there
      · exact List.mem_singleton.mp here ▸ live

theorem Shows.detach (shows : Shows m addr c) (live : c.buffer i ≠ none) {empty : Bool} (tested : m.bFreelistEmpty (addr i) = some empty) :
    Yields (m.detachBhFromFreelist (addr i) empty) fun m' => Shows m' addr (detachBhFromFreelist c i) := by
  refine (takeOut_lists shows.free ⟨i,live,rfl⟩ tested).map fun q lists => ?_
  rw [← map_erase (shows.freeApart live)] at lists
  exact {shows with free := lists,freeLive := fun j inside => shows.freeLive j (List.mem_of_mem_erase inside)}

theorem Shows.unlist (shows : Shows m addr c) (live : c.buffer i ≠ none) :
    Yields (m.removeBufferFromWriteback (addr i)) fun m' => Shows m' addr (removeBufferFromWriteback c i) := by
  have tested := empty_eq shows.dirty ⟨i,live,rfl⟩
  refine yields_bind tested ((takeOut_lists shows.dirty ⟨i,live,rfl⟩ tested).map fun q lists => ?_)
  rw [← map_erase (shows.dirtyApart live)] at lists
  exact {shows with dirty := lists,dirtyLive := fun j inside => shows.dirtyLive j (List.mem_of_mem_erase inside)}

theorem Shows.pop (shows : Shows m addr c) : Yields m.firstBhFromFreelist fun r => r.1 = c.bdBhFree.head?.map addr ∧
    Shows r.2 addr {c with bdBhFree := c.bdBhFree.tail} := by
  refine (takeFirst_lists shows.free).map ?_
  rintro r ⟨first,lists⟩
  rw [List.head?_map] at first
  rw [← List.map_tail] at lists
  exact ⟨first,{shows with free := lists,freeLive := fun j inside => shows.freeLive j (List.mem_of_mem_tail inside)}⟩

theorem Shows.take (shows : Shows m addr c) : Yields m.removeFirstBufferFromWriteback fun r => r.1 = c.bdBhDirty.head?.map addr ∧
    Shows r.2 addr {c with bdBhDirty := c.bdBhDirty.tail} := by
  refine (takeFirst_lists shows.dirty).map ?_
  rintro r ⟨first,lists⟩
  rw [List.head?_map] at first
  rw [← List.map_tail] at lists
  exact ⟨first,{shows with dirty := lists,dirtyLive := fun j inside => shows.dirtyLive j (List.mem_of_mem_tail inside)}⟩

/-! The tree. -/

/-- A tree of buffers is no larger than their number so far. -/
theorem Rooted.few_nodes {s : State} {block : Nat → Nat} {buffer : Nat → Option (BufferHead α)} {root : Nat → Option Nat} {t : RbTree Nat}
    {rest : Multiset (Nat × RbNode)} {next : Nat} (rooted : Rooted s block addr buffer root t rest)
    (fresh : ∀ i, next ≤ i → buffer i = none) : t.toList.length ≤ next := by
  have inside : t.toList ⊆ (List.range next).map addr := fun a member => by
    obtain ⟨i,live,rfl⟩ := rooted.nodes a member
    refine List.mem_map_of_mem (List.mem_range.mpr ?_)
    by_contra beyond
    exact live (fresh i (Nat.le_of_not_lt beyond))
  have few := (rooted.ordered.nodup.subperm inside).length_le
  rwa [List.length_map,List.length_range] at few

theorem Rooted.few {s : State} {block : Nat → Nat} {buffer : Nat → Option (BufferHead α)} {root : Nat → Option Nat} {t : RbTree Nat}
    {rest : Multiset (Nat × RbNode)} {next : Nat} (rooted : Rooted s block addr buffer root t rest)
    (fresh : ∀ i, next ≤ i → buffer i = none) : deepest t.toList.length ≤ deepest next :=
  Nat.mul_le_mul_left 2 (Nat.log_mono_right (Nat.succ_le_succ (rooted.few_nodes fresh)))

theorem Shows.search (shows : Shows m addr c) (small : b < 2 ^ 63) (enough : deepest c.next < fuel) :
    m.bufferSearch fuel b = some (((c.root b).map addr).getD 0) := by
  obtain ⟨t,rest,rooted⟩ := shows.tree
  rw [rooted.maps]
  exact bufferSearch_eq rooted.stored rooted.ordered small (Nat.lt_of_le_of_lt (rooted.few shows.fresh) enough)

theorem Shows.allocated (shows : Shows m addr c) {a : Nat} (live : Live addr c.buffer a) : m.tree.node a ≠ none := by
  obtain ⟨t,rest,rooted⟩ := shows.tree
  have owns := rooted.stored.holds.owns
  have held : ∃ r, (a,r) ∈ cells 0 t + rest := by
    by_cases member : a ∈ t.toList
    · obtain ⟨r,cell⟩ := mem_cells member 0
      exact ⟨r,Multiset.mem_add.mpr (Or.inl cell)⟩
    · obtain ⟨r,cell⟩ := rooted.others a live member
      exact ⟨r,Multiset.mem_add.mpr (Or.inr cell)⟩
  obtain ⟨r,cell⟩ := held
  rw [owns.held _ cell]
  exact Option.some_ne_none r

/-- What `malloc` may return: memory that is not in use. -/
def Usable (m : Memory) (new : Nat) : Prop := (new ≠ 0 ∧ new % 4 = 0) ∧ m.tree.node new = none

instance (m : Memory) (new : Nat) : Decidable (Usable m new) :=
  inferInstanceAs (Decidable ((new ≠ 0 ∧ new % 4 = 0) ∧ m.tree.node new = none))

theorem Shows.unused (shows : Shows m addr c) (usable : Usable m new) (live : c.buffer i ≠ none) : addr i ≠ new := by
  rintro rfl
  exact shows.allocated ⟨i,live,rfl⟩ usable.2

theorem Shows.before (shows : Shows m addr c) (live : c.buffer i ≠ none) : i ≠ c.next := by
  rintro rfl
  exact live (shows.fresh _ (Nat.le_refl _))

/-- A new buffer is known by the next number, and the others are where they were. -/
theorem Shows.lives (shows : Shows m addr c) (new : Nat) (bh : BufferHead α) (a : Nat) :
    Live (Function.update addr c.next new) (Function.update c.buffer c.next (some bh)) a ↔ a = new ∨ Live addr c.buffer a := by
  constructor
  · rintro ⟨i,live,rfl⟩
    by_cases here : i = c.next
    · subst here
      exact Or.inl (Function.update_self ..)
    · rw [Function.update_of_ne here] at live ⊢
      exact Or.inr ⟨i,live,rfl⟩
  · rintro (rfl | ⟨i,live,rfl⟩)
    · exact ⟨c.next,by simp,Function.update_self ..⟩
    · exact ⟨i,by rwa [Function.update_of_ne (shows.before live)],Function.update_of_ne (shows.before live) ..⟩

theorem Shows.alloc_apart (shows : Shows m addr c) (usable : Usable m new) {i j : Nat}
    (one : Function.update c.buffer c.next (some bh) i ≠ none) (two : Function.update c.buffer c.next (some bh) j ≠ none)
    (equal : Function.update addr c.next new i = Function.update addr c.next new j) : i = j := by
  by_cases first : i = c.next
  · by_cases second : j = c.next
    · rw [first,second]
    · rw [Function.update_of_ne second] at two
      rw [first,Function.update_self,Function.update_of_ne second] at equal
      exact absurd equal.symm (shows.unused usable two)
  · rw [Function.update_of_ne first] at one
    by_cases second : j = c.next
    · rw [second,Function.update_self,Function.update_of_ne first] at equal
      exact absurd equal (shows.unused usable one)
    · rw [Function.update_of_ne second] at two
      rw [Function.update_of_ne first,Function.update_of_ne second] at equal
      exact shows.apart i j one two equal

theorem Shows.alloc_block (shows : Shows m addr c) (usable : Usable m new) (small : bh.bBlocknr < 2 ^ 63) {bh' : BufferHead α}
    (held : Function.update c.buffer c.next (some bh) i = some bh') :
    Function.update m.bBlocknr new bh.bBlocknr (Function.update addr c.next new i) = bh'.bBlocknr ∧ bh'.bBlocknr < 2 ^ 63 := by
  by_cases here : i = c.next
  · subst here
    rw [Function.update_self] at held
    obtain rfl := Option.some.inj held
    rw [Function.update_self,Function.update_self]
    exact ⟨rfl,small⟩
  · rw [Function.update_of_ne here] at held
    rw [Function.update_of_ne here,Function.update_of_ne (shows.unused usable (live_some held))]
    exact shows.block i bh' held

theorem Shows.alloc_rooted (shows : Shows m addr c) (usable : Usable m new) (bh : BufferHead α) :
    Yields (alloc m.tree new) fun tree => ∃ t rest, Rooted tree (Function.update m.bBlocknr new bh.bBlocknr)
      (Function.update addr c.next new) (Function.update c.buffer c.next (some bh)) c.root t rest := by
  obtain ⟨t,rest,rooted⟩ := shows.tree
  have same (a : Nat) (member : a ∈ t.toList) : Function.update m.bBlocknr new bh.bBlocknr a = m.bBlocknr a := by
    obtain ⟨i,live,rfl⟩ := rooted.nodes a member
    exact Function.update_of_ne (shows.unused usable live) ..
  refine (alloc_stored rooted.stored usable).imp fun tree stored => ⟨t,_,{
    stored := stored
    ordered := rooted.ordered.congr same
    maps := fun b => ?_
    held := fun b i found => ?_
    nodes := fun a member => (shows.lives new bh a).mpr (Or.inr (rooted.nodes a member))
    others := fun a live absent => ?_}⟩
  · rw [mapOf_congr same,← rooted.maps]
    exact Option.map_congr fun i found => Function.update_of_ne (shows.before (rooted.held b i found)) ..
  · have live := rooted.held b i found
    rwa [Function.update_of_ne (shows.before live)]
  · rcases (shows.lives new bh a).mp live with rfl | old
    · exact ⟨⟨0,0,0⟩,Multiset.mem_add.mpr (Or.inl (Multiset.mem_singleton_self _))⟩
    · obtain ⟨r,member⟩ := rooted.others a old absent
      exact ⟨r,Multiset.mem_add.mpr (Or.inr member)⟩

/-- A list in which the new buffer is not. -/
theorem Shows.alloc_lists (shows : Shows m addr c) (usable : Usable m new) (bh : BufferHead α) {q : Queue}
    (lists : q.Lists (xs.map addr) (Live addr c.buffer)) (lives : ∀ i ∈ xs, c.buffer i ≠ none) :
    Yields (q.alloc new) fun q' => q'.Lists (xs.map (Function.update addr c.next new))
      (Live (Function.update addr c.next new) (Function.update c.buffer c.next (some bh))) := by
  have same : xs.map (Function.update addr c.next new) = xs.map addr :=
    List.map_congr_left fun i member => Function.update_of_ne (shows.before (lives i member)) ..
  have fresh : new ∉ xs.map addr := fun member => by
    obtain ⟨i,inside,equal⟩ := List.mem_map.mp member
    exact shows.unused usable (lives i inside) equal
  rw [same]
  exact (BufferLists.alloc_lists lists fresh).imp fun q' lists' => lists'.fewer fun a live => (shows.lives new bh a).mp live

theorem Shows.alloc (shows : Shows m addr c) (usable : Usable m new) (small : bh.bBlocknr < 2 ^ 63) :
    Yields (m.bufferAlloc new bh.bBlocknr) fun m' => Shows m' (Function.update addr c.next new)
      (Cache.set {c with next := c.next + 1} c.next bh) := by
  have kept {i : Nat} (live : c.buffer i ≠ none) : Function.update c.buffer c.next (some bh) i ≠ none := by
    rwa [Function.update_of_ne (shows.before live)]
  refine (shows.alloc_rooted usable bh).bind fun tree rooted => ?_
  refine (shows.alloc_lists usable bh shows.free shows.freeLive).bind fun free freeLists => ?_
  refine (shows.alloc_lists usable bh shows.dirty shows.dirtyLive).bind fun dirty dirtyLists => ?_
  exact yields_some {
    fresh := fun i beyond => by
      have other : i ≠ c.next := Nat.ne_of_gt beyond
      exact (Function.update_of_ne other ..).trans (shows.fresh i (Nat.le_of_succ_le beyond))
    apart := fun i j => shows.alloc_apart usable
    block := fun i bh' => shows.alloc_block usable small
    tree := rooted
    free := freeLists
    dirty := dirtyLists
    freeLive := fun i member => kept (shows.freeLive i member)
    dirtyLive := fun i member => kept (shows.dirtyLive i member)}

/-- The buffer goes into the tree if there is none for its block. -/
theorem Shows.insert (shows : Shows m addr c) (held : c.buffer i = some bh) (enough : deepest c.next < fuel) :
    Yields (m.bufferInsert fuel (addr i)) fun m' => Shows m' addr {c with root := insertRoot c bh.bBlocknr i} := by
  obtain ⟨t,rest,rooted⟩ := shows.tree
  obtain ⟨block,small⟩ := shows.block i bh held
  have enough := Nat.lt_of_le_of_lt (rooted.few shows.fresh) enough
  have small : m.bBlocknr (addr i) < 2 ^ 63 := block ▸ small
  have maps := rooted.maps (m.bBlocknr (addr i))
  by_cases present : c.root bh.bBlocknr = none
  · have same : insertRoot c bh.bBlocknr i = Function.update c.root bh.bBlocknr (some i) := if_pos present
    rw [block,present,Option.map_none,← block] at maps
    have absent : addr i ∉ t.toList := fun member => mapOf_eq_none.mp maps.symm _ member rfl
    obtain ⟨r,member⟩ := rooted.others _ ⟨i,live_some held,rfl⟩ absent
    obtain ⟨rest,rfl⟩ := Multiset.exists_cons_of_mem member
    rw [same]
    refine (bufferInsert_absent rooted.stored rooted.ordered small enough maps.symm).map ?_
    rintro tree ⟨t',stored,ordered,perm⟩
    refine {shows with tree := ⟨t',rest,{
      stored := stored
      ordered := ordered
      maps := fun b => ?_
      held := fun b j found => ?_
      nodes := fun a inside => ?_
      others := fun a live apart => ?_}⟩}
    · show (Function.update c.root bh.bBlocknr (some i) b).map addr = _
      rw [mapOf_put rooted.ordered ordered perm,block,Function.update_apply]
      split
      · rfl
      · exact rooted.maps b
    · have found : Function.update c.root bh.bBlocknr (some i) b = some j := found
      rw [Function.update_apply] at found
      split at found
      · exact Option.some.inj found ▸ live_some held
      · exact rooted.held b j found
    · rcases List.mem_cons.mp (perm.mem_iff.mp inside) with rfl | there
      · exact ⟨i,live_some held,rfl⟩
      · exact rooted.nodes a there
    · have apart := not_or.mp (mt List.mem_cons.mpr (mt perm.mem_iff.mpr apart))
      obtain ⟨r',there⟩ := rooted.others a live apart.2
      exact ⟨r',(Multiset.mem_cons.mp there).resolve_left fun here => apart.1 (congrArg Prod.fst here)⟩
  · have same : insertRoot c bh.bBlocknr i = c.root := if_neg present
    rw [same]
    refine ⟨_,congrArg (Option.map _) (bufferInsert_present rooted.stored rooted.ordered small enough ?_),shows⟩
    rw [← maps,block]
    exact fun none_ => present (Option.map_eq_none_iff.mp none_)

theorem Shows.erase_lives (shows : Shows m addr c) (held : c.buffer i = some bh) (a : Nat) :
    Live addr (Function.update c.buffer i none) a ↔ a ≠ addr i ∧ Live addr c.buffer a := by
  constructor
  · rintro ⟨j,live,rfl⟩
    by_cases here : j = i
    · rw [here,Function.update_self] at live
      exact absurd rfl live
    · rw [Function.update_of_ne here] at live
      exact ⟨fun equal => here (shows.apart j i live (live_some held) equal),j,live,rfl⟩
  · rintro ⟨other,j,live,rfl⟩
    have there : j ≠ i := by
      rintro rfl
      exact other rfl
    exact ⟨j,by rwa [Function.update_of_ne there],rfl⟩

theorem Shows.erase_rooted (shows : Shows m addr c) (held : c.buffer i = some bh) (here : c.root bh.bBlocknr = some i)
    (enough : deepest c.next < fuel) : Yields (rbErase fuel m.tree (addr i)) fun tree => ∃ t rest,
      Rooted (BufferRoot.free tree (addr i)) m.bBlocknr addr (Function.update c.buffer i none) (Function.update c.root bh.bBlocknr none) t rest := by
  obtain ⟨t,rest,rooted⟩ := shows.tree
  have block := (shows.block i bh held).1
  have found := rooted.maps bh.bBlocknr
  rw [here,Option.map_some] at found
  have member := ((mapOf_eq_some rooted.ordered).mp found.symm).1
  have enough := Nat.lt_of_le_of_lt (Nat.le_trans rooted.stored.height_le (rooted.few shows.fresh)) enough
  refine (rbErase_yields rooted.stored member enough).imp ?_
  rintro tree ⟨t',o,stored,erased⟩
  refine ⟨t',rest,{
    stored := free_stored stored
    ordered := erased ▸ rooted.ordered.erase _
    maps := fun b => ?_
    held := fun b j root => ?_
    nodes := fun a inside => ?_
    others := fun a live absent => ?_}⟩
  · rw [erased,mapOf_erase rooted.ordered member,block,Function.update_apply]
    split
    · rfl
    · exact rooted.maps b
  · rw [Function.update_apply] at root
    split at root
    · cases root
    · rename_i other
      have live := rooted.held b j root
      have apart : j ≠ i := by
        rintro rfl
        have mapped := rooted.maps b
        rw [root,Option.map_some] at mapped
        exact other (((mapOf_eq_some rooted.ordered).mp mapped.symm).2.symm.trans block)
      rwa [Function.update_of_ne apart]
  · rw [erased,rooted.ordered.nodup.mem_erase_iff] at inside
    exact (shows.erase_lives held a).mpr ⟨inside.1,rooted.nodes a inside.2⟩
  · obtain ⟨other,live⟩ := (shows.erase_lives held a).mp live
    rw [erased,rooted.ordered.nodup.mem_erase_iff] at absent
    exact rooted.others a live fun inside => absent ⟨other,inside⟩

/-- A buffer that is on no list goes out of the tree and is freed. -/
theorem Shows.erase (shows : Shows m addr c) (held : c.buffer i = some bh) (here : c.root bh.bBlocknr = some i)
    (notFree : i ∉ c.bdBhFree) (notDirty : i ∉ c.bdBhDirty) (enough : deepest c.next < fuel) :
    Yields (m.bufferRemove fuel (addr i)) fun m' => Shows (m'.bufferFree (addr i)) addr
      {c with buffer := Function.update c.buffer i none,root := Function.update c.root bh.bBlocknr none} := by
  have lists {q : Queue} {xs : List Nat} (lists : q.Lists (xs.map addr) (Live addr c.buffer)) (lives : ∀ j ∈ xs, c.buffer j ≠ none)
      (absent : i ∉ xs) : (q.free (addr i)).Lists (xs.map addr) (Live addr (Function.update c.buffer i none)) := by
    have apart : addr i ∉ xs.map addr :=
      mt (mem_map_addr fun j member => shows.apart j i (lives j member) (live_some held)).mp absent
    exact (free_lists lists apart).fewer fun a live => (shows.erase_lives held a).mp live
  have kept {j : Nat} (other : j ≠ i) (live : c.buffer j ≠ none) : Function.update c.buffer i none j ≠ none := by
    rwa [Function.update_of_ne other]
  have old {j : Nat} (live : Function.update c.buffer i none j ≠ none) : j ≠ i ∧ c.buffer j ≠ none := by
    by_cases same : j = i
    · rw [same,Function.update_self] at live
      exact absurd rfl live
    · rw [Function.update_of_ne same] at live
      exact ⟨same,live⟩
  refine (shows.erase_rooted held here enough).map fun tree rooted => ?_
  exact {
    fresh := fun j beyond => by
      by_contra live
      exact (old live).2 (shows.fresh j beyond)
    apart := fun j k one two => shows.apart j k (old one).2 (old two).2
    block := fun j bh' held' => by
      have other := (old (live_some (c := {c with buffer := Function.update c.buffer i none}) held')).1
      exact shows.block j bh' ((Function.update_of_ne other ..).symm.trans held')
    tree := rooted
    free := lists shows.free shows.freeLive notFree
    dirty := lists shows.dirty shows.dirtyLive notDirty
    freeLive := fun j member => kept (fun same => notFree (same ▸ member)) (shows.freeLive j member)
    dirtyLive := fun j member => kept (fun same => notDirty (same ▸ member)) (shows.dirtyLive j member)}

end Shows

end Ext4Fuse.BufferMemory
