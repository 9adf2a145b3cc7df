import Mathlib.Init

/-! Postconditions of computations that may have no result. -/
namespace Ext4Fuse.Library.Partial

variable {α β : Type} {P : α → Prop} {Q : β → Prop}

/-- Whatever the result is, if there is one, it satisfies `P`. -/
def Ensures (x : Option α) (P : α → Prop) : Prop := ∀ a, x = some a → P a

theorem ensures_none : Ensures none P := nofun

theorem ensures_some {a : α} (holds : P a) : Ensures (some a) P := by
  rintro _ ⟨⟩
  exact holds

theorem Ensures.bind {x : Option α} {f : α → Option β} (first : Ensures x P) (rest : ∀ a, P a → Ensures (f a) Q) :
    Ensures (x.bind f) Q := by
  intro b result
  obtain ⟨a,found,result⟩ := Option.bind_eq_some_iff.mp result
  exact rest a (first a found) b result

theorem Ensures.map {x : Option α} {f : α → β} (first : Ensures x P) (rest : ∀ a, P a → Q (f a)) : Ensures (x.map f) Q := by
  intro b result
  obtain ⟨a,found,rfl⟩ := Option.map_eq_some_iff.mp result
  exact rest a (first a found)

theorem Ensures.imp {P' : α → Prop} {x : Option α} (ensures : Ensures x P) (weaker : ∀ a, P a → P' a) : Ensures x P' :=
  fun a found => weaker a (ensures a found)

theorem ensures_any (x : Option α) : Ensures x fun _ => True := fun _ _ => trivial

theorem ensures_ite {c : Prop} [Decidable c] {x y : Option α} (yes : c → Ensures x P) (no : ¬c → Ensures y P) :
    Ensures (if c then x else y) P := by
  split
  · exact yes ‹_›
  · exact no ‹_›

/-- There is a result, and it satisfies `P`. -/
def Yields (x : Option α) (P : α → Prop) : Prop := ∃ a, x = some a ∧ P a

theorem yields_some {a : α} (holds : P a) : Yields (some a) P := ⟨a,rfl,holds⟩

theorem Yields.bind {x : Option α} {f : α → Option β} (first : Yields x P) (rest : ∀ a, P a → Yields (f a) Q) :
    Yields (x >>= f) Q := by
  obtain ⟨a,rfl,holds⟩ := first
  exact rest a holds

theorem yields_bind {x : Option α} {a : α} {f : α → Option β} (found : x = some a) (rest : Yields (f a) Q) : Yields (x >>= f) Q := by
  rw [found]
  exact rest

theorem Yields.imp {P' : α → Prop} {x : Option α} (yields : Yields x P) (weaker : ∀ a, P a → P' a) : Yields x P' := by
  obtain ⟨a,found,holds⟩ := yields
  exact ⟨a,found,weaker a holds⟩

theorem Yields.map {x : Option α} {f : α → β} (yields : Yields x P) (rest : ∀ a, P a → Q (f a)) : Yields (x.map f) Q := by
  obtain ⟨a,rfl,holds⟩ := yields
  exact ⟨f a,rfl,rest a holds⟩

theorem yields_ite {c : Prop} [Decidable c] {x y : Option α} (yes : c → Yields x P) (no : ¬c → Yields y P) :
    Yields (if c then x else y) P := by
  split
  · exact yes ‹_›
  · exact no ‹_›

/-- A loop over the numbers below `n`, each round of which has a result. -/
theorem foldlM_range {σ : Type} (step : σ → Nat → Option σ) (I : Nat → σ → Prop) (s : σ) (n : Nat) (start : I 0 s)
    (round : ∀ i s, i < n → I i s → ∃ s', step s i = some s' ∧ I (i + 1) s') :
    ∃ s', (List.range n).foldlM step s = some s' ∧ I n s' := by
  induction n with
  | zero => exact ⟨s,rfl,start⟩
  | succ n ih =>
    obtain ⟨s₁,before,inv⟩ := ih fun i s inside => round i s (Nat.lt_succ_of_lt inside)
    obtain ⟨s₂,last,done⟩ := round n s₁ (Nat.lt_succ_self n) inv
    refine ⟨s₂,?_,done⟩
    rw [List.range_succ,List.foldlM_append,before]
    simp [last]

end Ext4Fuse.Library.Partial
