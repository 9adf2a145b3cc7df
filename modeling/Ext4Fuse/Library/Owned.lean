import Ext4Fuse.Library.Partial
import Mathlib.Algebra.Order.Group.Multiset
import Mathlib.Data.Multiset.UnionInter
import Mathlib.Logic.Function.Basic
import Mathlib.Tactic.Abel

/-! Memory as the cells somebody owns: a multiset of addresses with what they hold, no address twice. A write changes one cell
of the multiset, so what is owned beside it is seen to stay as it is. -/
namespace Ext4Fuse.Library.Owned
open Partial

variable {ι ρ : Type} {memory : ι → Option ρ} {cells other rest : Multiset (ι × ρ)} {a b : ι} {r s : ρ}

structure Owns (memory : ι → Option ρ) (cells : Multiset (ι × ρ)) : Prop where
  apart : (cells.map Prod.fst).Nodup
  held : ∀ c ∈ cells, memory c.1 = some c.2

theorem Owns.split (owns : Owns memory cells) (same : cells = other) : Owns memory other := same ▸ owns

theorem Owns.read (owns : Owns memory ({(a,r)} + rest)) : memory a = some r :=
  owns.held (a,r) (Multiset.mem_add.mpr (Or.inl (Multiset.mem_singleton_self _)))

theorem Owns.apart_from (owns : Owns memory ({(a,r)} + rest)) (member : (b,s) ∈ rest) : b ≠ a := by
  have apart := owns.apart
  rw [Multiset.map_add,Multiset.map_singleton,Multiset.singleton_add,Multiset.nodup_cons] at apart
  rintro rfl
  exact apart.1 (Multiset.mem_map.mpr ⟨_,member,rfl⟩)

theorem Owns.left (owns : Owns memory (cells + rest)) : Owns memory cells where
  apart := by
    have apart := owns.apart
    rw [Multiset.map_add] at apart
    exact (Multiset.nodup_add.mp apart).1
  held c member := owns.held c (Multiset.mem_add.mpr (Or.inl member))

/-- The rule for writing: the rest stays owned. -/
theorem Owns.write [DecidableEq ι] (owns : Owns memory ({(a,r)} + rest)) (r' : ρ) :
    Owns (Function.update memory a (some r')) ({(a,r')} + rest) where
  apart := by
    have apart := owns.apart
    rw [Multiset.map_add,Multiset.map_singleton] at apart ⊢
    exact apart
  held c member := by
    rcases Multiset.mem_add.mp member with here | there
    · rw [Multiset.mem_singleton.mp here]
      exact Function.update_self ..
    · obtain ⟨b,s⟩ := c
      exact (Function.update_of_ne (owns.apart_from there) ..).trans (owns.held _ (Multiset.mem_add.mpr (Or.inr there)))

/-- The rule for allocation: what is not owned may come to be. -/
theorem Owns.alloc [DecidableEq ι] (owns : Owns memory cells) (fresh : ∀ r, (a,r) ∉ cells) (r : ρ) :
    Owns (Function.update memory a (some r)) ({(a,r)} + cells) where
  apart := by
    rw [Multiset.map_add,Multiset.map_singleton,Multiset.singleton_add,Multiset.nodup_cons]
    refine ⟨fun member => ?_,owns.apart⟩
    obtain ⟨⟨b,s⟩,there,rfl⟩ := Multiset.mem_map.mp member
    exact fresh s there
  held c member := by
    rcases Multiset.mem_add.mp member with here | there
    · rw [Multiset.mem_singleton.mp here]
      exact Function.update_self ..
    · obtain ⟨b,s⟩ := c
      have other : b ≠ a := by
        rintro rfl
        exact fresh s there
      exact (Function.update_of_ne other ..).trans (owns.held _ there)

/-- The rule for deallocation: the rest stays owned. -/
theorem Owns.free [DecidableEq ι] (owns : Owns memory ({(a,r)} + rest)) : Owns (Function.update memory a none) rest where
  apart := by
    have apart := owns.apart
    rw [Multiset.map_add,Multiset.map_singleton,Multiset.singleton_add,Multiset.nodup_cons] at apart
    exact apart.2
  held c member := by
    obtain ⟨b,s⟩ := c
    exact (Function.update_of_ne (owns.apart_from member) ..).trans (owns.held _ (Multiset.mem_add.mpr (Or.inr member)))

/-- A cell that is held and not owned yet may be taken in. -/
theorem Owns.take [DecidableEq ι] (owns : Owns memory cells) (held : memory a = some r) (fresh : ∀ r, (a,r) ∉ cells) :
    Owns memory ({(a,r)} + cells) := by
  have taken := owns.alloc fresh r
  rw [← held,Function.update_eq_self] at taken
  exact taken

/-- Whatever is done to the cells that are owned, whoever owns the rest, leaves every other cell that is held as it is. -/
theorem Owns.frame [DecidableEq ι] {p q : Multiset (ι × ρ)} {op : Option (ι → Option ρ)} (owns : Owns memory p)
    (does : ∀ rest, Owns memory (p + rest) → Yields op fun memory' => Owns memory' (q + rest)) :
    Yields op fun memory' => Owns memory' q ∧ ∀ b r, memory b = some r → (∀ r', (b,r') ∉ p) → memory' b = some r := by
  obtain ⟨memory',done,owns'⟩ := does 0 (owns.split (add_zero _).symm)
  refine ⟨memory',done,owns'.left,fun b r held apart => ?_⟩
  obtain ⟨memory'',done',owns''⟩ := does {(b,r)} ((owns.take held apart).split (add_comm ..))
  obtain rfl := Option.some.inj (done.symm.trans done')
  exact (owns''.split (add_comm ..)).read

end Ext4Fuse.Library.Owned
