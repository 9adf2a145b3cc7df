import Mathlib.Order.Basic
import Mathlib.Algebra.Group.Nat.Defs
import Mathlib.Order.Lattice

/-! The records of a sequence, which are its values above all the earlier ones. A list of them
is complete when at every place some record up to there is not below the value. -/
namespace Ext4Fuse.Library.Records

section Sequence
variable {α : Type} [LinearOrder α] {f : Nat → α} {steps : List (Nat × α)} {a : α} {k : Nat}

/-- A value above all the earlier ones. -/
def Record (f : Nat → α) (a : α) : Prop := ∃ k, f k = a ∧ ∀ j, j < k → f j < a

/-- The first value that is not below `a` decides whether `a` is a record. -/
theorem record_iff_first (reached : a ≤ f k) (before : ∀ j, j < k → f j < a) : f k = a ↔ Record f a := by
  refine ⟨fun same => ⟨k,same,before⟩,?_⟩
  rintro ⟨i,same,earlier⟩
  rcases Nat.lt_trichotomy i k with less | rfl | more
  · exact absurd (same ▸ before i less) (lt_irrefl a)
  · exact same
  · exact absurd (earlier k more) (not_lt_of_ge reached)

/-- The places of the records with their values. -/
structure Recorded (f : Nat → α) (steps : List (Nat × α)) : Prop where
  values : ∀ step ∈ steps, f step.1 = step.2
  rising : ∀ step ∈ steps, ∀ later ∈ steps, step.1 < later.1 → step.2 < later.2
  covers : ∀ j, ∃ step ∈ steps, step.1 ≤ j ∧ f j ≤ step.2

theorem Recorded.record_iff (recorded : Recorded f steps) : Record f a ↔ ∃ step ∈ steps, step.2 = a := by
  constructor
  · rintro ⟨k,rfl,before⟩
    obtain ⟨step,member,early,above⟩ := recorded.covers k
    rcases Nat.lt_or_eq_of_le early with less | same
    · have below := before step.1 less
      rw [recorded.values step member] at below
      exact absurd below (not_lt_of_ge above)
    · exact ⟨step,member,by rw [← recorded.values step member,same]⟩
  · rintro ⟨step,member,rfl⟩
    refine ⟨step.1,recorded.values step member,fun j less => ?_⟩
    obtain ⟨earlier,earlier_member,early,above⟩ := recorded.covers j
    exact lt_of_le_of_lt above (recorded.rising earlier earlier_member step member (Nat.lt_of_le_of_lt early less))

theorem Recorded.lt (recorded : Recorded f steps) (above : ∀ step ∈ steps, step.2 < a) (j : Nat) : f j < a := by
  obtain ⟨step,member,_,here⟩ := recorded.covers j
  exact lt_of_le_of_lt here (above step member)

end Sequence

section Checker
variable {f : Nat → Nat} {steps : List (Nat × Nat)}

/-- Whether the first listed record that is not behind the place is not below the value. -/
def covered (place value : Nat) : List (Nat × Nat) → Bool
  | [] => false
  | (k,r)::steps => bif Nat.ble k place then Nat.ble value r else covered place value steps

theorem covered_sound {place value : Nat} (checked : covered place value steps = true) :
    ∃ step ∈ steps, step.1 ≤ place ∧ value ≤ step.2 := by
  induction steps with
  | nil => nomatch checked
  | cons step steps ih =>
    rw [covered] at checked
    cases inside : Nat.ble step.1 place with
    | true =>
      rw [inside,cond_true] at checked
      exact ⟨step,List.mem_cons_self,Nat.le_of_ble_eq_true inside,Nat.le_of_ble_eq_true checked⟩
    | false =>
      rw [inside,cond_false] at checked
      obtain ⟨found,member,here⟩ := ih checked
      exact ⟨found,List.mem_cons_of_mem step member,here⟩

/-- The test of the `2^n` numbers from `start` on, halved so that the recursion stays flat. -/
def allFrom (test : Nat → Bool) : Nat → Nat → Bool
  | 0, start => test start
  | n+1, start => allFrom test n start && allFrom test n (start + 2^n)

theorem allFrom_sound {test : Nat → Bool} {n start : Nat} (checked : allFrom test n start = true) {i : Nat}
    (from_start : start ≤ i) (inside : i < start + 2^n) : test i = true := by
  induction n generalizing start with
  | zero =>
    have same : i = start := by omega
    exact same ▸ checked
  | succ n ih =>
    obtain ⟨first,second⟩ := Bool.and_eq_true_iff.mp checked
    rw [Nat.pow_succ] at inside
    rcases Nat.lt_or_ge i (start + 2^n) with early | late
    · exact ih first from_start early
    · exact ih second late (by omega)

end Checker

end Ext4Fuse.Library.Records
