import Mathlib.Logic.Function.Basic
import Mathlib.Data.List.Basic
import Mathlib.Algebra.Group.Nat.Defs

/-! Check values computed by a fold: a step that is injective in the state and in the symbol
tells any two words apart that differ in one symbol. -/
namespace Ext4Fuse.Library.Check

variable {σ α : Type} {step : σ → α → σ}

/-- Neither two states nor two symbols are taken to one state. -/
structure Separating (step : σ → α → σ) : Prop where
  state : ∀ a, Function.Injective fun s => step s a
  symbol : ∀ s, Function.Injective (step s)

theorem Separating.foldl_injective (separating : Separating step) (word : List α) :
    Function.Injective fun s => word.foldl step s := by
  induction word with
  | nil => exact Function.injective_id
  | cons a rest ih =>
    intro s s' same
    exact separating.state a (ih same)

/-- A symbol is replaced, and the rest of the word stays. -/
theorem Separating.foldl_set (separating : Separating step) (word : List α) (s : σ) {k : Nat} (inside : k < word.length)
    {a : α} (differs : word[k] ≠ a) : (word.set k a).foldl step s ≠ word.foldl step s := by
  induction word generalizing s k with
  | nil => exact absurd inside (Nat.not_lt_zero k)
  | cons b rest ih =>
    cases k with
    | zero =>
      intro same
      exact differs (separating.symbol s (separating.foldl_injective rest same)).symm
    | succ k => exact ih (step s b) (Nat.lt_of_succ_lt_succ inside) differs

/-- Two words that differ in one symbol. -/
def Differ (word word' : List α) : Prop :=
  ∃ (k : Nat) (a : α) (inside : k < word.length), word[k] ≠ a ∧ word' = word.set k a

theorem Differ.append_right {word word' : List α} (differ : Differ word word') (back : List α) :
    Differ (word ++ back) (word' ++ back) := by
  obtain ⟨k,a,inside,other,rfl⟩ := differ
  refine ⟨k,a,by rw [List.length_append]; omega,?_,?_⟩
  · rwa [List.getElem_append_left inside]
  · rw [List.set_append_left k a inside]

theorem Differ.append_left {word word' : List α} (differ : Differ word word') (front : List α) :
    Differ (front ++ word) (front ++ word') := by
  obtain ⟨k,a,inside,other,rfl⟩ := differ
  refine ⟨front.length + k,a,by rw [List.length_append]; omega,?_,?_⟩
  · simpa using other
  · rw [List.set_append_right _ _ (Nat.le_add_right ..),Nat.add_sub_cancel_left]

theorem Separating.foldl_differ (separating : Separating step) (s : σ) {word word' : List α} (differ : Differ word word') :
    word.foldl step s ≠ word'.foldl step s := by
  obtain ⟨k,a,inside,other,rfl⟩ := differ
  exact (separating.foldl_set word s inside other).symm

/-- No number of the list comes twice or is a bit of the mask. -/
def distinct (mask : Nat) : List Nat → Bool
  | [] => true
  | x::xs => bif mask.testBit x then false else distinct (mask ||| 2^x) xs

theorem distinct_sound {mask : Nat} {xs : List Nat} (checked : distinct mask xs = true) :
    xs.Nodup ∧ ∀ x ∈ xs, mask.testBit x = false := by
  induction xs generalizing mask with
  | nil => exact ⟨List.nodup_nil,nofun⟩
  | cons x xs ih =>
    rw [distinct] at checked
    cases marked : mask.testBit x with
    | true =>
      rw [marked,cond_true] at checked
      nomatch checked
    | false =>
      rw [marked,cond_false] at checked
      obtain ⟨nodup,apart⟩ := ih checked
      have other (y : Nat) (member : y ∈ xs) : mask.testBit y = false ∧ x ≠ y := by
        have clear := apart y member
        rw [Nat.testBit_or,Nat.testBit_two_pow,Bool.or_eq_false_iff] at clear
        exact ⟨clear.1,of_decide_eq_false clear.2⟩
      refine ⟨List.nodup_cons.mpr ⟨fun member => (other x member).2 rfl,nodup⟩,fun y member => ?_⟩
      rcases List.mem_cons.mp member with rfl | later
      · exact marked
      · exact (other y later).1

end Ext4Fuse.Library.Check
