import Ext4Fuse.Library.Rings

/-! `list.h`: the circular lists of list heads, and for each operation what it does to the rings that are in memory. -/
namespace Ext4Fuse.ListHead
open Library.Owned Library.Partial Library.Rings

/-- A `struct list_head` holds the addresses of two others. -/
abbrev Heads (ι : Type) := ι → Option (Links ι)

variable {ι : Type} [DecidableEq ι]

def initListHead (m : Heads ι) (list : ι) : Option (Heads ι) := do
  let m ← setNext m list list
  setPrev m list list

/-- `__list_add`. -/
def listAddBetween (m : Heads ι) (new prev next : ι) : Option (Heads ι) := do
  let m ← setPrev m next new
  let m ← setNext m new next
  let m ← setPrev m new prev
  setNext m prev new

def listAddTail (m : Heads ι) (new head : ι) : Option (Heads ι) := do
  let h ← m head
  listAddBetween m new h.prev head

/-- `__list_del`. -/
def listDelBetween (m : Heads ι) (prev next : ι) : Option (Heads ι) := do
  let m ← setPrev m next prev
  setNext m prev next

/-- `__list_del_entry`. -/
def listDelEntry (m : Heads ι) (entry : ι) : Option (Heads ι) := do
  let e ← m entry
  listDelBetween m e.prev e.next

def listDelInit (m : Heads ι) (entry : ι) : Option (Heads ι) := do
  let m ← listDelEntry m entry
  initListHead m entry

def listEmpty (m : Heads ι) (head : ι) : Option Bool := (m head).map fun h => h.next = head

/-- `list_first_entry`, as the address of the entry's list head. -/
def listFirstEntry (m : Heads ι) (head : ι) : Option ι := (m head).map Links.next

section Rings
variable {m : Heads ι} {a new entry next : ι} {r : Links ι} {xs ys zs : List ι} {rest : Multiset (ι × Links ι)}

theorem initListHead_yields (owns : Owns m ({(a,r)} + rest)) : Yields (initListHead m a) fun m' => Owns m' (ring [a] + rest) := by
  have owns : Owns m (chain r.prev ([] ++ [a]) r.next + rest) := owns
  refine (setNext_chain owns a).bind fun m₁ owns₁ => ?_
  refine (setPrev_chain owns₁ a).imp fun m₂ owns₂ => ?_
  exact owns₂

/-- Between two neighbours of a ring, which is entered at the second one. -/
theorem listAddBetween_yields (owns : Owns m ({(new,r)} + (ring (next::zs) + rest))) :
    Yields (listAddBetween m new (last next zs) next) fun m' => Owns m' (ring (new::next::zs) + rest) := by
  have owned : Owns m (chain (last next zs) (next::zs) next + ({(new,r)} + rest)) := by
    refine owns.split ?_
    rw [ring_cons]
    abel
  refine (setPrev_chain owned new).bind fun m₁ owned₁ => ?_
  have owned₁ : Owns m₁ (chain r.prev ([] ++ [new]) r.next + (chain new (next::zs) next + rest)) := owned₁.split (add_left_comm ..)
  refine (setNext_chain owned₁ next).bind fun m₂ owned₂ => ?_
  refine (setPrev_chain owned₂ (last next zs)).bind fun m₃ owned₃ => ?_
  refine (setNext_last (owned₃.split (add_left_comm ..)) new).imp fun m₄ owned₄ => ?_
  refine owned₄.split ?_
  have whole : ring (new::next::zs) = {(new,⟨last next zs,next⟩)} + chain new (next::zs) new := rfl
  rw [whole,chain_single]
  abel

theorem listAddTail_yields (owns : Owns m ({(new,r)} + (ring (a::xs) + rest))) :
    Yields (listAddTail m new a) fun m' => Owns m' (ring (a::xs ++ [new]) + rest) := by
  refine yields_bind (ring_read (owns.split (add_left_comm ..))) ?_
  refine (listAddBetween_yields owns).imp fun m' owns' => ?_
  rw [ring_rotate]
  exact owns'

theorem listDelEntry_yields (owns : Owns m (ring (a::xs) + rest)) :
    Yields (listDelEntry m a) fun m' => ∃ r, Owns m' ({(a,r)} + (ring xs + rest)) := by
  refine yields_bind (ring_read owns) ?_
  cases xs with
  | nil =>
    refine (setPrev_chain owns a).bind fun m₁ owns₁ => ?_
    refine (setNext_last owns₁ a).imp fun m₂ owns₂ => ⟨⟨a,a⟩,owns₂.split ?_⟩
    rw [chain_single,ring,zero_add]
  | cons x xs =>
    have owned : Owns m (chain a (x::xs) a + ({(a,⟨last x xs,x⟩)} + rest)) := by
      refine owns.split ?_
      rw [ring_split,add_left_comm,← add_assoc]
      rfl
    refine (setPrev_chain owned (last x xs)).bind fun m₁ owned₁ => ?_
    refine (setNext_last owned₁ x).imp fun m₂ owned₂ => ⟨⟨last x xs,x⟩,owned₂.split ?_⟩
    rw [← ring_cons,add_left_comm]

theorem listDelInit_yields (owns : Owns m (ring (a::xs) + rest)) :
    Yields (listDelInit m a) fun m' => Owns m' (ring [a] + (ring xs + rest)) := by
  refine (listDelEntry_yields owns).bind ?_
  rintro m₁ ⟨r,owns₁⟩
  exact initListHead_yields owns₁

omit [DecidableEq ι] in
theorem ring_enter (a entry : ι) (xs ys : List ι) : ring (a::xs ++ entry::ys) = ring (entry::(ys ++ a::xs)) := ring_rotate ..

/-- An entry is taken out of the list with head `a`, and is a list of its own then. -/
theorem listDelInit_entry (owns : Owns m (ring (a::xs ++ entry::ys) + rest)) :
    Yields (listDelInit m entry) fun m' => Owns m' (ring [entry] + (ring (a::xs ++ ys) + rest)) := by
  rw [ring_enter] at owns
  refine (listDelInit_yields owns).imp fun m' owns' => ?_
  rw [ring_rotate ys] at owns'
  exact owns'

theorem listEmpty_eq (owns : Owns m (ring (a::xs) + rest)) : listEmpty m a = some xs.isEmpty := by
  rw [listEmpty,ring_read owns,Option.map_some]
  congr 1
  rw [Bool.eq_iff_iff,decide_eq_true_eq,List.isEmpty_iff]
  exact first_ne owns

omit [DecidableEq ι] in
theorem listFirstEntry_eq (owns : Owns m (ring (a::entry::ys) + rest)) : listFirstEntry m a = some entry := by
  rw [listFirstEntry,ring_read owns]
  rfl

end Rings

end Ext4Fuse.ListHead
