import Mathlib.Data.List.Basic

/-! Singly linked rings: nodes with a successor pointer, entered at any node and
read until the entry point comes round again. -/
namespace Ext4Fuse.Library.Ring

variable {α : Type} {next other : α → Option α}

/-- The successors of `a` are the nodes of the list in order, then `b`. -/
def Linked (next : α → Option α) : α → List α → α → Prop
  | a, [], b => next a = some b
  | a, x::xs, b => next a = some x ∧ Linked next x xs b

theorem linked_append (a b x : α) (xs ys : List α) :
    Linked next a (xs ++ x::ys) b ↔ Linked next a xs x ∧ Linked next x ys b := by
  induction xs generalizing a with
  | nil => exact Iff.rfl
  | cons y xs ih =>
    simp only [List.cons_append,Linked,ih y]
    exact and_assoc.symm

theorem Linked.congr {a b : α} {xs : List α} (linked : Linked next a xs b)
    (same : ∀ x, x ∈ a::xs → other x = next x) : Linked other a xs b := by
  induction xs generalizing a with
  | nil => exact (same a (by simp)).trans linked
  | cons y xs ih =>
    exact ⟨(same a (by simp)).trans linked.1,ih linked.2 fun x member => same x (List.mem_cons_of_mem _ member)⟩

/-- A ring may be entered at any of its nodes. -/
theorem Linked.rotate {a x : α} {xs ys : List α} (ring : Linked next a (xs ++ x::ys) a) :
    Linked next x (ys ++ a::xs) x :=
  have parts := (linked_append a a x xs ys).mp ring
  (linked_append x x a ys xs).mpr ⟨parts.2,parts.1⟩

/-- Linking `new` in behind the entry node and entering the ring there. -/
theorem Linked.insert {a new : α} {rest : List α} (ring : Linked next a rest a)
    (distinct : (a::rest).Nodup) (fresh : new ∉ a::rest)
    (entered : other new = next a) (linked : other a = some new)
    (same : ∀ x, x ∈ rest → other x = next x) : Linked other new (rest ++ [a]) new := by
  rw [linked_append]
  refine ⟨?_,linked⟩
  cases rest with
  | nil => exact entered.trans ring
  | cons x rest =>
    refine ⟨entered.trans ring.1,ring.2.congr same⟩

end Ext4Fuse.Library.Ring
