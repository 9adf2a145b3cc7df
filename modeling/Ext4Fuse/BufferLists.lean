import Ext4Fuse.ListHead

/-! The lists of buffers of `buffer.c`, each of which keeps a list and how long it is: `bd_bh_free` with `bd_nr_free`, and
`bd_bh_dirty` with `buffer_dirty_count`. The head of a list is `none`, and the entry in the buffer at `a` is `some a`. -/
namespace Ext4Fuse.BufferLists
open Library.Owned Library.Partial Library.Rings ListHead

structure Queue where
  heads : Heads (Option Nat)
  count : Int

def Queue.init : Queue where
  heads := Function.update (fun _ => none) none (some ⟨none,none⟩)
  count := 0

/-- The entry of a new buffer; an entry that `memset` has cleared is linked to no buffer at all. -/
def Queue.alloc (q : Queue) (a : Nat) : Option Queue := do
  let heads ← initListHead (Function.update q.heads (some a) (some ⟨some 0,some 0⟩)) (some a)
  return {q with heads := heads}

def Queue.free (q : Queue) (a : Nat) : Queue := {q with heads := Function.update q.heads (some a) none}

/-- Whether a buffer's entry is a list of its own. -/
def Queue.empty (q : Queue) (a : Nat) : Option Bool := listEmpty q.heads (some a)

/-- `list_add_tail` of a buffer whose entry has been found to be a list of its own. -/
def Queue.putLast (q : Queue) (a : Nat) (empty : Bool) : Option Queue := do
  if empty then
    let heads ← listAddTail q.heads (some a) none
    return ⟨heads,q.count + 1⟩
  else return q

/-- `list_del_init` of a buffer whose entry has been found not to be a list of its own. -/
def Queue.takeOut (q : Queue) (a : Nat) (empty : Bool) : Option Queue := do
  if empty then return q
  else
    let heads ← listDelInit q.heads (some a)
    return ⟨heads,q.count - 1⟩

/-- `list_del_init` of the first buffer. -/
def Queue.takeFirst (q : Queue) : Option (Option Nat × Queue) := do
  if ← listEmpty q.heads none then return (none,q)
  else
    let entry ← listFirstEntry q.heads none
    let heads ← listDelInit q.heads entry
    return (entry,⟨heads,q.count - 1⟩)

/-- The list is `xs`, and the entry of every other buffer that is allocated is a list of its own. -/
structure Queue.Lists (q : Queue) (xs : List Nat) (live : Nat → Prop) : Prop where
  owns : Owns q.heads (ring (none::xs.map some))
  alone : ∀ a, live a → a ∉ xs → q.heads (some a) = some ⟨some a,some a⟩
  count : q.count = xs.length

section Lists
variable {q : Queue} {xs : List Nat} {live : Nat → Prop} {a : Nat}

theorem init_lists : Queue.init.Lists [] fun _ => False where
  owns := by
    have nothing : Owns (fun _ : Option Nat => (none : Option (Links (Option Nat)))) 0 := ⟨Multiset.nodup_zero,by rintro c ⟨⟩⟩
    exact nothing.alloc (fun r => by rintro ⟨⟩) ⟨none,none⟩
  alone _ := False.elim
  count := rfl

theorem Queue.Lists.nodup (lists : q.Lists xs live) : xs.Nodup :=
  List.Nodup.of_map some (List.nodup_cons.mp (ring_nodup lists.owns)).2

/-- Only what is known of the buffers that are allocated counts. -/
theorem Queue.Lists.fewer {live' : Nat → Prop} (lists : q.Lists xs live) (fewer : ∀ a, live' a → live a) : q.Lists xs live' :=
  {lists with alone := fun a here absent => lists.alone a (fewer a here) absent}

theorem mem_ring_some {links : Links (Option Nat)} (member : (some a,links) ∈ ring (none::xs.map some)) : a ∈ xs := by
  rcases List.mem_cons.mp (mem_ring member) with is_none | there
  · cases is_none
  · obtain ⟨b,inside,same⟩ := List.mem_map.mp there
    exact Option.some.inj same ▸ inside

/-- An entry is found to be on the list or not. -/
theorem empty_eq (lists : q.Lists xs live) (here : live a) : q.empty a = some (decide (a ∉ xs)) := by
  unfold Queue.empty
  by_cases member : a ∈ xs
  · obtain ⟨ys,zs,rfl⟩ := List.append_of_mem member
    have owns := lists.owns
    rw [List.map_append,List.map_cons,← List.cons_append,ring_enter] at owns
    rw [listEmpty_eq (owns.split (add_zero _).symm)]
    simp
  · rw [listEmpty,lists.alone a here member]
    simp [member]

theorem alloc_lists (lists : q.Lists xs live) (fresh : a ∉ xs) : Yields (q.alloc a) fun q' => q'.Lists xs fun b => b = a ∨ live b := by
  have cleared := lists.owns.alloc (fun links member => fresh (mem_ring_some member)) ⟨some 0,some 0⟩
  refine (cleared.frame (q := ring [some a] + ring (none::xs.map some)) fun rest owns => ?_).bind ?_
  · rw [add_assoc] at owns ⊢
    exact initListHead_yields owns
  · rintro heads ⟨owns,others⟩
    refine yields_some ⟨(owns.split (add_comm ..)).left,fun b here absent => ?_,lists.count⟩
    by_cases same : b = a
    · subst same
      exact ring_read owns
    · have other : some b ≠ some a := fun equal => same (Option.some.inj equal)
      refine others _ _ ((Function.update_of_ne other ..).trans (lists.alone b (here.resolve_left same) absent)) fun links member => ?_
      rcases Multiset.mem_add.mp member with first | there
      · exact other (congrArg Prod.fst (Multiset.mem_singleton.mp first))
      · exact absent (mem_ring_some there)

theorem free_lists (lists : q.Lists xs live) (fresh : a ∉ xs) : (q.free a).Lists xs fun b => b ≠ a ∧ live b where
  owns := ⟨lists.owns.apart,fun c member => by
    obtain ⟨entry,links⟩ := c
    refine (Function.update_of_ne ?_ ..).trans (lists.owns.held _ member)
    rintro rfl
    exact fresh (mem_ring_some member)⟩
  alone b here absent := by
    have other : some b ≠ some a := fun equal => here.1 (Option.some.inj equal)
    exact (Function.update_of_ne other ..).trans (lists.alone b here.2 absent)
  count := lists.count

theorem putLast_lists (lists : q.Lists xs live) (here : live a) {empty : Bool} (tested : q.empty a = some empty) :
    Yields (q.putLast a empty) fun q' => q'.Lists (if a ∈ xs then xs else xs ++ [a]) live := by
  obtain rfl := Option.some.inj ((empty_eq lists here).symm.trans tested)
  unfold Queue.putLast
  by_cases member : a ∈ xs
  · rw [if_pos member]
    simp only [member,not_true_eq_false,decide_false]
    exact yields_some lists
  rw [if_neg member]
  simp only [member,not_false_eq_true,decide_true]
  have taken := lists.owns.take (lists.alone a here member) fun links inside => member (mem_ring_some inside)
  refine (taken.frame (q := ring (none::(xs ++ [a]).map some)) fun rest owns => ?_).bind ?_
  · rw [List.map_append]
    exact listAddTail_yields (owns.split (add_assoc ..))
  · rintro heads ⟨owns,others⟩
    refine yields_some ⟨owns,fun b live absent => ?_,?_⟩
    · have apart := not_or.mp (mt List.mem_append.mpr absent)
      refine others _ _ (lists.alone b live apart.1) fun links inside => ?_
      rcases Multiset.mem_add.mp inside with first | there
      · exact apart.2 (List.mem_singleton.mpr (Option.some.inj (congrArg Prod.fst (Multiset.mem_singleton.mp first))))
      · exact apart.1 (mem_ring_some there)
    · rw [List.length_append,lists.count]
      rfl

/-- An entry that is on the list is taken off it. -/
theorem delInit_lists {ys zs : List Nat} {count : Int} (lists : q.Lists (ys ++ a::zs) live) (fewer : count = q.count - 1) :
    Yields (listDelInit q.heads (some a)) fun heads => Queue.Lists ⟨heads,count⟩ (ys ++ zs) live := by
  have listed : none::(ys ++ a::zs).map some = none::ys.map some ++ some a::zs.map some := by simp
  refine (lists.owns.frame (q := ring [some a] + ring (none::(ys ++ zs).map some)) fun rest owns => ?_).imp ?_
  · rw [listed] at owns
    rw [List.map_append,add_assoc]
    exact listDelInit_entry owns
  · rintro heads ⟨owns,others⟩
    refine ⟨(owns.split (add_comm ..)).left,fun b here absent => ?_,?_⟩
    · by_cases same : b = a
      · subst same
        exact ring_read owns
      · have absent' : b ∉ ys ++ a::zs := by
          simp only [List.mem_append,List.mem_cons,not_or] at absent ⊢
          exact ⟨absent.1,same,absent.2⟩
        exact others _ _ (lists.alone b here absent') fun links inside => absent' (mem_ring_some inside)
    · rw [fewer,lists.count]
      simp only [List.length_append,List.length_cons]
      omega

theorem takeOut_lists (lists : q.Lists xs live) (here : live a) {empty : Bool} (tested : q.empty a = some empty) :
    Yields (q.takeOut a empty) fun q' => q'.Lists (xs.erase a) live := by
  obtain rfl := Option.some.inj ((empty_eq lists here).symm.trans tested)
  unfold Queue.takeOut
  by_cases member : a ∈ xs
  · have distinct := lists.nodup
    obtain ⟨ys,zs,rfl⟩ := List.append_of_mem member
    have absent : a ∉ ys := fun early => (List.nodup_append.mp distinct).2.2 a early a List.mem_cons_self rfl
    rw [List.erase_append_right _ absent,List.erase_cons_head]
    simp only [member,not_true_eq_false,decide_false]
    exact (delInit_lists lists rfl).bind fun heads lists' => yields_some lists'
  · rw [List.erase_of_not_mem member]
    simp only [member,not_false_eq_true,decide_true]
    exact yields_some lists

theorem takeFirst_lists (lists : q.Lists xs live) :
    Yields q.takeFirst fun r => r.1 = xs.head? ∧ r.2.Lists xs.tail live := by
  have owns : Owns q.heads (ring (none::xs.map some) + 0) := lists.owns.split (add_zero _).symm
  rw [Queue.takeFirst,listEmpty_eq owns]
  cases xs with
  | nil => exact yields_some ⟨rfl,lists⟩
  | cons a xs =>
    refine yields_bind rfl (yields_bind (listFirstEntry_eq owns) ?_)
    refine (delInit_lists (show q.Lists ([] ++ a::xs) live from lists) rfl).bind fun heads lists' => ?_
    exact yields_some ⟨rfl,lists'⟩

end Lists

end Ext4Fuse.BufferLists
