import Mathlib.Init

/-! The first index of a range at which a predicate holds, or the end of the range. -/
namespace Ext4Fuse.Library.Scan

variable {hit other : Nat → Bool} {low mid high r : Nat}

structure FirstFrom (hit : Nat → Bool) (low high r : Nat) : Prop where
  from_low : low ≤ r
  to_high : r ≤ high
  before : ∀ j, low ≤ j → j < r → hit j = false
  here : r < high → hit r = true

theorem FirstFrom.none_left (ordered : low ≤ high) (none : ∀ j, low ≤ j → j < high → hit j = false) :
    FirstFrom hit low high high :=
  ⟨ordered,Nat.le_refl _,none,fun bound => absurd bound (Nat.lt_irrefl _)⟩

theorem FirstFrom.skip (ordered : low ≤ mid) (none : ∀ j, low ≤ j → j < mid → hit j = false)
    (first : FirstFrom hit mid high r) : FirstFrom hit low high r := by
  refine ⟨Nat.le_trans ordered first.from_low,first.to_high,?_,first.here⟩
  intro j from_low bound
  rcases Nat.lt_or_ge j mid with early | late
  · exact none j from_low early
  · exact first.before j late bound

theorem FirstFrom.widen (further : mid ≤ high) (found : r < mid) (first : FirstFrom hit low mid r) :
    FirstFrom hit low high r :=
  ⟨first.from_low,Nat.le_trans first.to_high further,first.before,fun _ => first.here found⟩

theorem FirstFrom.shift {base : Nat} (first : FirstFrom (fun j => hit (base + j)) low high r) :
    FirstFrom hit (base + low) (base + high) (base + r) := by
  refine ⟨Nat.add_le_add_left first.from_low _,Nat.add_le_add_left first.to_high _,?_,?_⟩
  · intro j from_low bound
    obtain ⟨j,rfl⟩ := Nat.exists_eq_add_of_le (Nat.le_trans (Nat.le_add_right _ _) from_low)
    exact first.before j (by omega) (by omega)
  · intro bound
    exact first.here (by omega)

theorem FirstFrom.unique {r' : Nat} (first : FirstFrom hit low high r) (second : FirstFrom hit low high r') :
    r = r' := by
  rcases Nat.lt_trichotomy r r' with less | same | more
  · have missed := second.before r first.from_low less
    rw [first.here (Nat.lt_of_lt_of_le less second.to_high)] at missed
    nomatch missed
  · exact same
  · have missed := first.before r' second.from_low more
    rw [second.here (Nat.lt_of_lt_of_le more first.to_high)] at missed
    nomatch missed

/-- The first index of the range at which the predicate holds, or the end of the range, which
may also lie before its start. -/
structure FirstOrEnd (hit : Nat → Bool) (low high r : Nat) : Prop where
  to_high : r ≤ high
  before : ∀ j, low ≤ j → j < high → j < r → hit j = false
  here : r < high → low ≤ r ∧ hit r = true

theorem FirstOrEnd.empty (past : high ≤ low) : FirstOrEnd hit low high high :=
  ⟨Nat.le_refl _,fun j from_low below _ => absurd below (by omega),fun inside => absurd inside (Nat.lt_irrefl _)⟩

/-- Only what the predicate says inside the range matters. -/
theorem FirstOrEnd.unique {r' : Nat} (first : FirstOrEnd hit low high r) (second : FirstOrEnd other low high r')
    (same : ∀ j, low ≤ j → j < high → hit j = other j) : r = r' := by
  have most := first.to_high
  have most' := second.to_high
  rcases Nat.lt_trichotomy r r' with less | equal | more
  · obtain ⟨from_low,found⟩ := first.here (by omega)
    have missed := second.before r from_low (by omega) less
    rw [← same r from_low (by omega),found] at missed
    nomatch missed
  · exact equal
  · obtain ⟨from_low,found⟩ := second.here (by omega)
    have missed := first.before r' from_low (by omega) more
    rw [same r' from_low (by omega),found] at missed
    nomatch missed

end Ext4Fuse.Library.Scan
