import Mathlib.Algebra.BigOperators.Group.List.Basic
import Mathlib.Algebra.Order.BigOperators.Group.List
import Mathlib.Algebra.Order.Group.Int
import Mathlib.Algebra.Ring.Int.Defs

/-! Where any number of threads stand: a list of places, of which a step moves one. -/
namespace Ext4Fuse.Library.Threads

variable {κ : Type} {p : κ → Bool} {places : List κ} {k : Nat} {old new : κ}

/-- How many threads stand where `p` says. -/
def count (p : κ → Bool) (places : List κ) : Nat := places.countP p

/-- A thread that moves is counted at its new place and no more at its old one. -/
theorem count_move (here : places[k]? = some old) (p : κ → Bool) (new : κ) :
    count p (places.set k new) + (p old).toNat = count p places + (p new).toNat := by
  obtain ⟨inside,rfl⟩ := List.getElem?_eq_some_iff.mp here
  have one : p places[k] = true → 0 < places.countP p := fun holds => List.countP_pos_iff.mpr ⟨_,List.getElem_mem inside,holds⟩
  rw [count,count,List.countP_set inside]
  cases old : p places[k] with
  | false => cases p new <;> simp
  | true =>
    have := one old
    cases p new <;> simp <;> omega

theorem count_same (here : places[k]? = some old) (same : p new = p old) : count p (places.set k new) = count p places := by
  have moved := count_move here p new
  rw [same] at moved
  omega

theorem count_pos (here : places[k]? = some old) (holds : p old = true) : 0 < count p places :=
  List.countP_pos_iff.mpr ⟨old,List.mem_of_getElem? here,holds⟩

theorem count_zero_iff : count p places = 0 ↔ ∀ place ∈ places, p place = false := by
  simp [count,List.countP_eq_zero]

theorem mem_move {place : κ} (member : place ∈ places.set k new) : place = new ∨ place ∈ places :=
  (List.mem_or_eq_of_mem_set member).symm

/-! An amount that each thread contributes. -/

def total (f : κ → Int) (places : List κ) : Int := (places.map f).sum

theorem total_move (here : places[k]? = some old) (f : κ → Int) (new : κ) :
    total f (places.set k new) = total f places + f new - f old := by
  induction places generalizing k with
  | nil => simp at here
  | cons place rest ih =>
    cases k with
    | zero =>
      obtain rfl : place = old := by simpa using here
      simp only [total,List.set_cons_zero,List.map_cons,List.sum_cons]
      omega
    | succ k =>
      have moved := ih (k := k) (by simpa using here)
      simp only [total] at moved
      simp only [total,List.set_cons_succ,List.map_cons,List.sum_cons]
      omega

theorem total_same (here : places[k]? = some old) (f : κ → Int) (new : κ) (same : f new = f old) :
    total f (places.set k new) = total f places := by
  rw [total_move here,same,Int.add_sub_cancel]

theorem total_zero {f : κ → Int} (zero : ∀ place ∈ places, f place = 0) : total f places = 0 :=
  List.sum_eq_zero fun x member => by
    obtain ⟨place,inside,rfl⟩ := List.mem_map.mp member
    exact zero place inside

theorem total_le {f : κ → Int} (here : places[k]? = some old) (least : ∀ place ∈ places, 0 ≤ f place) :
    f old ≤ total f places :=
  List.single_le_sum (fun x member => by
    obtain ⟨place,inside,rfl⟩ := List.mem_map.mp member
    exact least place inside) _ (List.mem_map_of_mem (List.mem_of_getElem? here))

theorem total_congr {f g : κ → Int} (same : ∀ place ∈ places, f place = g place) : total f places = total g places :=
  congrArg List.sum (List.map_congr_left same)

/-! What some of the threads hold. -/

theorem filterMap_sublist {β : Type} {f g : κ → Option β} (weaker : ∀ place x, f place = some x → g place = some x) :
    (places.filterMap f).Sublist (places.filterMap g) := by
  induction places with
  | nil => exact List.Sublist.refl _
  | cons place rest ih =>
    simp only [List.filterMap_cons]
    cases held : f place with
    | none =>
      cases g place with
      | none => exact ih
      | some x => exact ih.cons x
    | some x =>
      rw [weaker place x held]
      exact ih.cons_cons x

theorem filterMap_same {β : Type} (f : κ → Option β) (here : places[k]? = some old) (new : κ) (same : f new = f old) :
    (places.set k new).filterMap f = places.filterMap f := by
  induction places generalizing k with
  | nil => rfl
  | cons place rest ih =>
    cases k with
    | zero =>
      obtain rfl : place = old := by simpa using here
      simp only [List.set_cons_zero,List.filterMap_cons,same]
    | succ k => simp only [List.set_cons_succ,List.filterMap_cons,ih (k := k) (by simpa using here)]

theorem filterMap_new {β : Type} {f : κ → Option β} {x : β} (here : places[k]? = some old) (before : f old = none)
    (after : f new = some x) : ((places.set k new).filterMap f).Perm (x::places.filterMap f) := by
  induction places generalizing k with
  | nil => simp at here
  | cons place rest ih =>
    cases k with
    | zero =>
      obtain rfl : place = old := by simpa using here
      simp only [List.set_cons_zero,List.filterMap_cons,before,after]
      exact List.Perm.refl _
    | succ k =>
      have moved := ih (k := k) (by simpa using here)
      simp only [List.set_cons_succ,List.filterMap_cons]
      cases f place with
      | none => exact moved
      | some y => exact (moved.cons y).trans (List.Perm.swap x y _)

end Ext4Fuse.Library.Threads
