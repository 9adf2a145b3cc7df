import Mathlib.Data.Nat.Digits.Defs

/-! Tables of tables, all with `n` entries: the indices that lead to a number, and the walk
along them. -/
namespace Ext4Fuse.Library.Radix

/-- The number that a list of indices stands for, the index into the outermost table first. -/
def numberOf (n : Nat) (indices : List Nat) : Nat := Nat.ofDigits n indices.reverse

theorem numberOf_cons (n i : Nat) (indices : List Nat) :
    numberOf n (i::indices) = i * n^indices.length + numberOf n indices := by
  rw [numberOf,List.reverse_cons,Nat.ofDigits_append,Nat.ofDigits_singleton,List.length_reverse,Nat.mul_comm,Nat.add_comm]
  rfl

theorem numberOf_lt {n : Nat} {indices : List Nat} (inside : ∀ i ∈ indices, i < n) : numberOf n indices < n^indices.length := by
  induction indices with
  | nil => exact Nat.one_pos
  | cons i indices ih =>
    have rest := ih fun j member => inside j (List.mem_cons_of_mem i member)
    have first := inside i List.mem_cons_self
    rw [numberOf_cons,List.length_cons,Nat.pow_succ,Nat.mul_comm (n^indices.length)]
    calc i * n^indices.length + numberOf n indices
        < i * n^indices.length + n^indices.length := Nat.add_lt_add_left rest _
      _ = (i + 1) * n^indices.length := (Nat.succ_mul i _).symm
      _ ≤ n * n^indices.length := Nat.mul_le_mul_right _ first

/-- The indices through `levels` tables. -/
def indicesOf (n : Nat) : Nat → Nat → List Nat
  | 0, _ => []
  | levels+1, number => number / n^levels::indicesOf n levels (number % n^levels)

theorem indicesOf_succ (n levels number : Nat) :
    indicesOf n (levels + 1) number = number / n^levels::indicesOf n levels (number % n^levels) := rfl

theorem indicesOf_length (n levels number : Nat) : (indicesOf n levels number).length = levels := by
  induction levels generalizing number with
  | zero => rfl
  | succ levels ih => rw [indicesOf_succ,List.length_cons,ih]

section Number
variable {n : Nat} (positive : 0 < n)
include positive

theorem indicesOf_lt {levels number : Nat} (bound : number < n^levels) : ∀ i ∈ indicesOf n levels number, i < n := by
  induction levels generalizing number with
  | zero => nofun
  | succ levels ih =>
    intro i member
    rcases List.mem_cons.mp member with rfl | inside
    · exact Nat.div_lt_of_lt_mul (by rwa [Nat.pow_succ] at bound)
    · exact ih (Nat.mod_lt number (Nat.pow_pos positive)) i inside

theorem numberOf_indicesOf {levels number : Nat} (bound : number < n^levels) :
    numberOf n (indicesOf n levels number) = number := by
  induction levels generalizing number with
  | zero => exact (Nat.lt_one_iff.mp bound).symm
  | succ levels ih =>
    rw [indicesOf_succ,numberOf_cons,indicesOf_length,ih (Nat.mod_lt number (Nat.pow_pos positive)),Nat.mul_comm]
    exact Nat.div_add_mod number (n^levels)

theorem indicesOf_numberOf {indices : List Nat} (inside : ∀ i ∈ indices, i < n) :
    indicesOf n indices.length (numberOf n indices) = indices := by
  induction indices with
  | nil => rfl
  | cons i indices ih =>
    have others : ∀ j ∈ indices, j < n := fun j member => inside j (List.mem_cons_of_mem i member)
    have rest := numberOf_lt others
    rw [List.length_cons,indicesOf,numberOf_cons,Nat.mul_comm,Nat.mul_add_div (Nat.pow_pos positive),
      Nat.div_eq_of_lt rest,Nat.mul_add_mod,Nat.mod_eq_of_lt rest,ih others,Nat.add_zero]

end Number

section Walk
variable (entry : Nat → Nat → Nat)

/-- The entry that the indices lead to, from the table `root`. -/
def walk (root : Nat) (indices : List Nat) : Nat := indices.foldl entry root

theorem walk_cons (root i : Nat) (indices : List Nat) : walk entry root (i::indices) = walk entry (entry root i) indices := rfl

/-- The tables gone through. -/
def tables : Nat → List Nat → List Nat
  | _, [] => []
  | root, i::indices => root::tables (entry root i) indices

/-- The walk where a table 0 is no table, and what it would hold is 0. -/
def sparseWalk : Nat → List Nat → Nat
  | root, [] => root
  | root, i::indices => if root = 0 then 0 else sparseWalk (entry root i) indices

variable {entry}

theorem sparseWalk_missing {root : Nat} {indices : List Nat} (missing : 0 ∈ tables entry root indices) :
    sparseWalk entry root indices = 0 := by
  induction indices generalizing root with
  | nil => nomatch missing
  | cons i indices ih =>
    rcases List.mem_cons.mp missing with zero | later
    · rw [sparseWalk,if_pos zero.symm]
    · rw [sparseWalk,ih later,ite_self]

theorem sparseWalk_full {root : Nat} {indices : List Nat} (full : 0 ∉ tables entry root indices) :
    sparseWalk entry root indices = walk entry root indices := by
  induction indices generalizing root with
  | nil => rfl
  | cons i indices ih =>
    obtain ⟨some_,rest⟩ := not_or.mp fun zero => full (List.mem_cons.mpr zero)
    rw [sparseWalk,if_neg fun zero => some_ zero.symm,ih rest]
    rfl

/-- A walk that takes 0 for a table goes wrong unless it ends in 0. -/
theorem walk_eq_sparseWalk (root : Nat) (indices : List Nat) : walk entry root indices = sparseWalk entry root indices ↔
    0 ∉ tables entry root indices ∨ walk entry root indices = 0 := by
  rcases Classical.em (0 ∈ tables entry root indices) with missing | full
  · rw [sparseWalk_missing missing]
    exact ⟨Or.inr,fun either => either.resolve_left (absurd missing)⟩
  · exact ⟨fun _ => Or.inl full,fun _ => (sparseWalk_full full).symm⟩

end Walk

end Ext4Fuse.Library.Radix
