import Mathlib.Init

/-! Runs of a partial step function whose steps are all allowed, and the rule for
what holds in every state such a run reaches. -/
namespace Ext4Fuse.Library.Steps

variable {σ α : Type} (step : σ → α → Option σ) (allowed : σ → α → Bool) (start : σ)

inductive Reaches : σ → Prop
  | start : Reaches start
  | step {s s' : σ} {a : α} : Reaches s → allowed s a = true → step s a = some s' → Reaches s'

variable {step allowed start}

theorem Reaches.invariant {P : σ → Prop} (base : P start)
    (kept : ∀ s a s', P s → allowed s a = true → step s a = some s' → P s')
    {s : σ} (reached : Reaches step allowed start s) : P s := by
  induction reached with
  | start => exact base
  | step _ may result ih => exact kept _ _ _ ih may result

variable (step allowed)

/-- The state after a list of steps, if every one is allowed and has a result. -/
def run : σ → List α → Option σ
  | s, [] => some s
  | s, a::rest => if allowed s a then (step s a).bind (run · rest) else none

variable {step allowed}

theorem Reaches.run {s s' : σ} {actions : List α} (reached : Reaches step allowed start s)
    (result : run step allowed s actions = some s') : Reaches step allowed start s' := by
  induction actions generalizing s with
  | nil => exact Option.some.inj result ▸ reached
  | cons a rest ih =>
    rw [Steps.run] at result
    split at result
    · rename_i may
      obtain ⟨next,one,others⟩ := Option.bind_eq_some_iff.mp result
      exact ih (reached.step may one) others
    · nomatch result

/-! What holds of every step of a list of steps. -/

section Along
variable (step)

def Along (P : σ → α → σ → Prop) : σ → List α → Prop
  | _, [] => True
  | s, a::rest => ∀ s', step s a = some s' → P s a s' ∧ Along P s' rest

variable {step}

theorem along_congr {P Q : σ → α → σ → Prop} (same : ∀ s a s', step s a = some s' → (P s a s' ↔ Q s a s'))
    (s : σ) (actions : List α) : Along step P s actions ↔ Along step Q s actions := by
  induction actions generalizing s with
  | nil => exact Iff.rfl
  | cons a rest ih =>
    refine forall_congr' fun s' => forall_congr' fun result => ?_
    exact and_congr (same s a s' result) (ih s')

end Along

end Ext4Fuse.Library.Steps
