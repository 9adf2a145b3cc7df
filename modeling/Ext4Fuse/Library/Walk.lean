import Mathlib.Data.Fintype.Pigeonhole
import Mathlib.Data.Fintype.Card

/-! Loops as walks: each turn ends the walk, gets stuck or goes on from another state. -/
namespace Ext4Fuse.Library.Walk

inductive Turn (α β : Type)
  | halt (result : β)
  | stuck
  | on (next : α)

variable {α β : Type} (turn : α → Turn α β)

/-- The walk's result, if it comes to one in so many turns. -/
def run : Nat → α → Option β
  | 0, _ => none
  | fuel+1, a => match turn a with
    | .halt result => some result
    | .stuck => none
    | .on next => run fuel next

def Ends (a : α) : Prop := ∃ fuel result, run turn fuel a = some result

/-- The states that the walk comes to. -/
inductive Comes (a : α) : α → Prop
  | here : Comes a a
  | on {b c : α} : Comes a b → turn b = .on c → Comes a c

variable {turn} {a b c : α}

theorem ends_halt (result : β) (halts : turn a = .halt result) : Ends turn a :=
  ⟨1,result,by rw [run,halts]⟩

theorem not_ends_stuck (stuck : turn a = .stuck) : ¬Ends turn a := by
  rintro ⟨fuel,result,ended⟩
  cases fuel with
  | zero => nomatch ended
  | succ fuel =>
    rw [run,stuck] at ended
    nomatch ended

theorem ends_on (goes : turn a = .on b) : Ends turn a ↔ Ends turn b := by
  constructor
  · rintro ⟨fuel,result,ended⟩
    cases fuel with
    | zero => nomatch ended
    | succ fuel =>
      rw [run,goes] at ended
      exact ⟨fuel,result,ended⟩
  · rintro ⟨fuel,result,ended⟩
    exact ⟨fuel + 1,result,by rw [run,goes]; exact ended⟩

theorem Comes.trans (first : Comes turn a b) (second : Comes turn b c) : Comes turn a c := by
  induction second with
  | here => exact first
  | on _ goes ih => exact ih.on goes

/-- A walk that goes anywhere begins with a turn. -/
theorem Comes.head (comes : Comes turn a c) : c = a ∨ ∃ b, turn a = .on b ∧ Comes turn b c := by
  induction comes with
  | here => exact Or.inl rfl
  | on _ goes ih =>
    rcases ih with rfl | ⟨b,first,rest⟩
    · exact Or.inr ⟨_,goes,.here⟩
    · exact Or.inr ⟨b,first,rest.on goes⟩

theorem Comes.ends (comes : Comes turn a b) : Ends turn a ↔ Ends turn b := by
  induction comes with
  | here => exact Iff.rfl
  | on _ goes ih => exact ih.trans (ends_on goes)

/-- Where every turn goes on there is no end. -/
theorem not_ends_of_forever {P : α → Prop} (forever : ∀ x, P x → ∃ y, turn x = .on y ∧ P y) (start : P a) : ¬Ends turn a := by
  rintro ⟨fuel,result,ended⟩
  induction fuel generalizing a with
  | zero => nomatch ended
  | succ fuel ih =>
    obtain ⟨y,goes,next⟩ := forever a start
    rw [run,goes] at ended
    exact ih next ended

/-- A walk that comes back to a state does not end. -/
theorem not_ends_of_return (goes : turn a = .on b) (back : Comes turn b a) : ¬Ends turn a := by
  refine not_ends_of_forever (P := fun x => Comes turn x a) (fun x to_a => ?_) .here
  rcases to_a.head with rfl | ⟨y,next,rest⟩
  · exact ⟨b,goes,back⟩
  · exact ⟨y,next,rest⟩

/-- The end of a walk, and what it comes to. -/
theorem run_comes {fuel : Nat} {result : β} (ended : run turn fuel a = some result) :
    ∃ b, Comes turn a b ∧ turn b = .halt result := by
  induction fuel generalizing a with
  | zero => nomatch ended
  | succ fuel ih =>
    rw [run] at ended
    split at ended
    · rename_i halts
      rw [← Option.some.inj ended]
      exact ⟨a,.here,halts⟩
    · nomatch ended
    · rename_i next goes
      obtain ⟨b,comes,halts⟩ := ih ended
      exact ⟨b,(Comes.here.on goes).trans comes,halts⟩

/-- The end does not depend on how many turns are left. -/
theorem run_of_comes {fuel : Nat} {result other : β} (ended : run turn fuel a = some other) (comes : Comes turn a b)
    (halts : turn b = .halt result) : other = result := by
  induction fuel generalizing a with
  | zero => nomatch ended
  | succ fuel ih =>
    rw [run] at ended
    rcases comes.head with rfl | ⟨c,goes,rest⟩
    · rw [halts] at ended
      exact (Option.some.inj ended).symm
    · rw [goes] at ended
      exact ih ended rest

/-- More turns give the same result. -/
theorem run_mono {fuel more : Nat} {result : β} (ended : run turn fuel a = some result) (enough : fuel ≤ more) :
    run turn more a = some result := by
  induction fuel generalizing a more with
  | zero => nomatch ended
  | succ fuel ih =>
    obtain ⟨more,rfl⟩ := Nat.exists_eq_add_of_le' (Nat.le_trans (Nat.le_add_left 1 fuel) enough)
    rw [run] at ended ⊢
    split at ended
    · exact ended
    · nomatch ended
    · exact ih ended (Nat.le_of_succ_le_succ enough)

/-- The state after so many turns. -/
def after (turn : α → Turn α β) : Nat → α → α
  | 0, a => a
  | n+1, a => match turn a with
    | .on next => after turn n next
    | _ => a

/-- A walk that is never stuck and has not ended has taken every turn. -/
theorem after_comes {fuel : Nat} (going : run turn fuel a = none) (free : ∀ b, Comes turn a b → turn b ≠ .stuck) {i j : Nat}
    (later : i < j) (inside : j ≤ fuel) :
    Comes turn a (after turn i a) ∧ ∃ c, turn (after turn i a) = .on c ∧ Comes turn c (after turn j a) := by
  induction fuel generalizing a i j with
  | zero => omega
  | succ fuel ih =>
    rw [run] at going
    cases goes : turn a with
    | halt result =>
      rw [goes] at going
      nomatch going
    | stuck => exact absurd goes (free a .here)
    | on next =>
      rw [goes] at going
      have free' : ∀ b, Comes turn next b → turn b ≠ .stuck := fun b comes => free b ((Comes.here.on goes).trans comes)
      obtain ⟨j,rfl⟩ := Nat.exists_eq_succ_of_ne_zero (Nat.ne_zero_of_lt later)
      have step (n : Nat) : after turn (n + 1) a = after turn n next := by rw [after,goes]
      cases i with
      | zero =>
        refine ⟨.here,next,goes,?_⟩
        rw [step]
        rcases Nat.eq_zero_or_pos j with rfl | positive
        · exact .here
        · obtain ⟨_,c,first,rest⟩ := ih going free' positive (Nat.le_of_succ_le_succ inside)
          exact (Comes.here.on first).trans rest
      | succ i =>
        obtain ⟨comes,rest⟩ := ih going free' (Nat.lt_of_succ_lt_succ later) (Nat.le_of_succ_le_succ inside)
        rw [step,step]
        exact ⟨(Comes.here.on goes).trans comes,rest⟩

/-- A walk that is never stuck, never comes back, and has only so many states to come to, ends. -/
theorem run_of_bounded {turn : Nat → Turn Nat β} {a n fuel : Nat} (bounded : ∀ b, Comes turn a b → b < n)
    (free : ∀ b, Comes turn a b → turn b ≠ .stuck)
    (once : ∀ b c, Comes turn a b → turn b = .on c → ¬Comes turn c b) (enough : n < fuel) : ∃ result, run turn fuel a = some result := by
  rcases found : run turn fuel a with _ | result
  · exfalso
    have reached (i : Nat) (inside : i < fuel) : Comes turn a (after turn i a) := (after_comes found free (Nat.lt_succ_self i) inside).1
    have small : Fintype.card (Fin n) < Fintype.card (Fin fuel) := by rwa [Fintype.card_fin,Fintype.card_fin]
    obtain ⟨i,j,differ,same⟩ := Fintype.exists_ne_map_eq_of_card_lt
      (fun i : Fin fuel => (⟨after turn i.val a,bounded _ (reached i.val i.isLt)⟩ : Fin n)) small
    have equal : after turn i.val a = after turn j.val a := congrArg Fin.val same
    have apart : i.val ≠ j.val := fun same => differ (Fin.ext same)
    rcases Nat.lt_or_gt_of_ne apart with before | before
    · obtain ⟨comes,c,goes,rest⟩ := after_comes found free before (Nat.le_of_lt j.isLt)
      exact once _ c comes goes (equal ▸ rest)
    · obtain ⟨comes,c,goes,rest⟩ := after_comes found free before (Nat.le_of_lt i.isLt)
      exact once _ c comes goes (equal.symm ▸ rest)
  · exact ⟨result,rfl⟩

/-! Where a walk leads to. -/

/-- After some turns, each from a `fine` state, the walk is where `P` holds if it `works`, and is stuck if it does not. -/
inductive Leads (turn : α → Turn α β) (fine : α → Prop) (works : Prop) (P : α → Prop) : α → Prop
  | here {a : α} : works → P a → Leads turn fine works P a
  | stuck {a : α} : ¬works → fine a → turn a = .stuck → Leads turn fine works P a
  | on {a b : α} : fine a → turn a = .on b → Leads turn fine works P b → Leads turn fine works P a

section Leads
variable {turn : α → Turn α β} {fine P Q : α → Prop} {works works' : Prop} {a b : α}

theorem Leads.congr (leads : Leads turn fine works P a) (same : works ↔ works') : Leads turn fine works' P a := propext same ▸ leads

theorem Leads.imp (leads : Leads turn fine works P a) (weaker : ∀ b, P b → Q b) : Leads turn fine works Q a := by
  induction leads with
  | here good there => exact .here good (weaker _ there)
  | stuck bad good stops => exact .stuck bad good stops
  | on good goes _ ih => exact .on good goes ih

/-- One stretch after the other works if both do. -/
theorem Leads.trans (first : Leads turn fine works P a) (next : ∀ b, P b → Leads turn fine works' Q b) :
    Leads turn fine (works ∧ works') Q a := by
  induction first with
  | here good there => exact (next _ there).congr (and_iff_right good).symm
  | stuck bad good stops => exact .stuck (fun both => bad both.1) good stops
  | on good goes _ ih => exact .on good goes ih

/-- Every state on the way is fine. -/
theorem Leads.fine_of_comes (leads : Leads turn fine works P a) (ends : ∀ b, P b → fine b ∧ ∃ result, turn b = .halt result)
    (comes : Comes turn a b) : fine b := by
  induction leads with
  | here _ there =>
    obtain ⟨good,result,halts⟩ := ends _ there
    rcases comes.head with rfl | ⟨c,goes,_⟩
    · exact good
    · exact nomatch halts.symm.trans goes
  | stuck _ good stops =>
    rcases comes.head with rfl | ⟨c,goes,_⟩
    · exact good
    · exact nomatch stops.symm.trans goes
  | on good goes _ ih =>
    rcases comes.head with rfl | ⟨c,goes',rest⟩
    · exact good
    · obtain rfl := Turn.on.inj (goes.symm.trans goes')
      exact ih rest

/-- A walk that works comes to its result in so many turns, and in more. -/
theorem Leads.ends (leads : Leads turn fine works P a) (ends : ∀ b, P b → ∃ result, turn b = .halt result) (good : works) :
    ∃ b result bound, P b ∧ turn b = .halt result ∧ ∀ fuel, bound ≤ fuel → run turn fuel a = some result := by
  induction leads with
  | here _ there =>
    obtain ⟨result,halts⟩ := ends _ there
    refine ⟨_,result,1,there,halts,fun fuel enough => ?_⟩
    obtain ⟨fuel,rfl⟩ := Nat.exists_eq_add_of_le' enough
    rw [run,halts]
  | stuck bad => exact absurd good bad
  | on _ goes _ ih =>
    obtain ⟨b,result,bound,there,halts,ran⟩ := ih
    refine ⟨b,result,bound + 1,there,halts,fun fuel enough => ?_⟩
    obtain ⟨fuel,rfl⟩ := Nat.exists_eq_add_of_le' (Nat.le_trans (Nat.le_add_left 1 bound) enough)
    rw [run,goes]
    exact ran fuel (by omega)

/-- One that does not work has no end. -/
theorem Leads.not_ends (leads : Leads turn fine works P a) (bad : ¬works) : ¬Ends turn a := by
  induction leads with
  | here good => exact absurd good bad
  | stuck _ _ stops => exact not_ends_stuck stops
  | on _ goes _ ih => exact (ends_on goes).not.mpr ih

/-- A result is the one that the walk leads to. -/
theorem Leads.result (leads : Leads turn fine works P a) (ends : ∀ b, P b → ∃ result, turn b = .halt result) {fuel : Nat} {result : β}
    (ran : run turn fuel a = some result) : ∃ b, P b ∧ turn b = .halt result := by
  by_cases good : works
  · obtain ⟨b,r,bound,there,halts,all⟩ := leads.ends ends good
    have same : some result = some r := (run_mono ran (Nat.le_max_left fuel bound)).symm.trans (all _ (Nat.le_max_right fuel bound))
    exact ⟨b,there,by rw [Option.some.inj same]; exact halts⟩
  · exact absurd ⟨fuel,result,ran⟩ (leads.not_ends good)

end Leads

end Ext4Fuse.Library.Walk
