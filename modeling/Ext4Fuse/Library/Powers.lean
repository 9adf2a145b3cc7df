import Ext4Fuse.Library.Records
import Mathlib.Data.Nat.ModEq
import Mathlib.Tactic.Ring

/-! Powers modulo `n²`. Where `b^T` is 1 modulo `n`, the exponents `t + T * q` of one `t` give
values with one last digit in base `n`, whose first digit is linear in `q`. So the exponent of
a value can be solved for, and the records among the powers are found with few exponents. -/
namespace Ext4Fuse.Library.Powers
open Records

variable {b n T β d : Nat}

theorem pow_linear (period : b^T ≡ 1 + n * β [MOD n * n]) (q : Nat) : b^(T * q) ≡ 1 + n * (q * β) [MOD n * n] := by
  induction q with
  | zero => simpa using Nat.ModEq.refl 1
  | succ q ih =>
    have expand : (1 + n * (q * β)) * (1 + n * β) = 1 + n * ((q + 1) * β) + n * n * (q * β * β) := by ring
    calc b^(T * (q + 1)) = b^(T * q) * b^T := by rw [Nat.mul_succ,Nat.pow_add]
      _ ≡ (1 + n * (q * β)) * (1 + n * β) [MOD n * n] := ih.mul period
      _ = 1 + n * ((q + 1) * β) + n * n * (q * β * β) := expand
      _ ≡ 1 + n * ((q + 1) * β) [MOD n * n] := Nat.add_modulus_mul_modEq_iff.mpr (Nat.ModEq.refl _)

theorem pow_split (period : b^T ≡ 1 + n * β [MOD n * n]) (t q : Nat) :
    b^(t + T * q) ≡ b^t + n * (q * (β * b^t)) [MOD n * n] := by
  calc b^(t + T * q) = b^t * b^(T * q) := Nat.pow_add ..
    _ ≡ b^t * (1 + n * (q * β)) [MOD n * n] := (pow_linear period q).mul_left _
    _ = b^t + n * (q * (β * b^t)) := by ring

theorem pow_first_digit (positive : 0 < n) (period : b^T ≡ 1 + n * β [MOD n * n]) (t q : Nat) :
    b^(t + T * q) % (n * n) / n = (b^t / n + q * (β * b^t)) % n := by
  rw [pow_split period t q,Nat.mod_mul_right_div_self,Nat.add_mul_div_left _ _ positive]

theorem pow_last_digit (period : b^T ≡ 1 + n * β [MOD n * n]) (t q : Nat) : b^(t + T * q) % (n * n) % n = b^t % n := by
  rw [pow_split period t q,Nat.mod_mul_right_mod,Nat.add_mul_mod_self_left]

/-- The least exponent from `t` in steps of `T` at which the first digit is `head`; `d` is the
inverse of `β`. -/
def leastExponent (b n T d t head : Nat) : Nat :=
  t + T * ((head + n - b^t / n % n) * (b^(T - t) * d % n) % n)

/-! In the functions that the kernel computes by itself. -/

theorem pow_mod_eq (b k m : Nat) : b^k % m = Nat.mod (Nat.pow b k) m := rfl

theorem leastExponent_eq (b n T d t head : Nat) : leastExponent b n T d t head =
    Nat.add t (Nat.mul T (Nat.mod (Nat.mul (Nat.sub (Nat.add head n) (Nat.mod (Nat.div (Nat.pow b t) n) n))
      (Nat.mod (Nat.mul (Nat.pow b (Nat.sub T t)) d) n)) n)) := rfl

theorem leastExponent_le (positive : 0 < n) (period : b^T ≡ 1 + n * β [MOD n * n]) (inverse : β * d ≡ 1 [MOD n])
    {t : Nat} (inside : t < T) (q : Nat) : leastExponent b n T d t (b^(t + T * q) % (n * n) / n) ≤ t + T * q := by
  have unit : b^T ≡ 1 [MOD n] := by
    calc b^T ≡ 1 + n * β [MOD n] := period.of_mul_right n
      _ ≡ 1 [MOD n] := Nat.add_modulus_mul_modEq_iff.mpr (Nat.ModEq.refl _)
  rw [pow_first_digit positive period]
  have less := Nat.mod_lt (b^t / n) positive
  have difference : (b^t / n + q * (β * b^t)) % n + n - b^t / n % n ≡ q * (β * b^t) [MOD n] := by
    apply Nat.ModEq.add_left_cancel' (b^t / n % n)
    rw [Nat.add_sub_cancel' (le_trans (Nat.le_of_lt less) (Nat.le_add_left n _))]
    calc (b^t / n + q * (β * b^t)) % n + n
        ≡ b^t / n + q * (β * b^t) [MOD n] := Nat.add_modulus_modEq_iff.mpr (Nat.mod_modEq _ n)
      _ ≡ b^t / n % n + q * (β * b^t) [MOD n] := (Nat.mod_modEq _ n).symm.add_right _
  have solved : ((b^t / n + q * (β * b^t)) % n + n - b^t / n % n) * (b^(T - t) * d % n) ≡ q [MOD n] := by
    calc ((b^t / n + q * (β * b^t)) % n + n - b^t / n % n) * (b^(T - t) * d % n)
        ≡ q * (β * b^t) * (b^(T - t) * d) [MOD n] := difference.mul (Nat.mod_modEq _ n)
      _ = q * (β * d) * (b^t * b^(T - t)) := by ring
      _ = q * (β * d) * b^T := by rw [← Nat.pow_add,Nat.add_sub_cancel' (Nat.le_of_lt inside)]
      _ ≡ q * 1 * 1 [MOD n] := (inverse.mul_left q).mul unit
      _ = q := by ring
  rw [leastExponent,solved]
  exact Nat.add_le_add_left (Nat.mul_le_mul_left T (Nat.mod_le q n)) t

/-- A power without its exponent's multiples of `T`. -/
def powerMod (b n T β k : Nat) : Nat := (b^(k % T) + n * (k / T * (β * b^(k % T)))) % (n * n)

theorem powerMod_eq (period : b^T ≡ 1 + n * β [MOD n * n]) (k : Nat) : powerMod b n T β k = b^k % (n * n) := by
  have split := pow_split period (k % T) (k / T)
  rw [Nat.mod_add_div] at split
  exact split.symm

/-- What shows that a list of powers modulo `n²` has all the records. The exponents below `2^m`
are covered by a part of the list. Of the others, those whose first digit is before `low` are
below a listed power, and for each later first digit the least exponents are covered. -/
structure Certificate (b n e β d m low : Nat) (middle steps : List (Nat × Nat)) : Prop where
  positive : 0 < n
  period : b^2^e ≡ 1 + n * β [MOD n * n]
  inverse : β * d ≡ 1 [MOD n]
  values : ∀ step ∈ steps, powerMod b n (2^e) β step.1 = step.2
  rising : ∀ step ∈ steps, ∀ later ∈ steps, step.1 < later.1 → step.2 < later.2
  part : middle ⊆ steps
  meets : ∃ step ∈ steps, step.1 ≤ 2^m ∧ low * n ≤ step.2
  early : allFrom (fun k => covered k (b^k % (n * n)) middle) m 0 = true
  late : ((List.range' low (n - low)).all fun head =>
    allFrom (fun t => covered (leastExponent b n (2^e) d t head) (head * n + b^t % n) steps) e 0) = true

theorem Certificate.recorded {e m low : Nat} {middle steps : List (Nat × Nat)}
    (certificate : Certificate b n e β d m low middle steps) : Recorded (fun k => b^k % (n * n)) steps := by
  have ⟨positive,period,inverse,values,rising,part,meets,early,late⟩ := certificate
  refine ⟨fun step member => (powerMod_eq period step.1).symm.trans (values step member),rising,fun k => ?_⟩
  rcases Nat.lt_or_ge k (2^m) with soon | after
  · obtain ⟨step,member,here⟩ := covered_sound (allFrom_sound early (Nat.zero_le k) (by rwa [Nat.zero_add]))
    exact ⟨step,part member,here⟩
  · rcases Nat.lt_or_ge (b^k % (n * n) / n) low with small | large
    · obtain ⟨step,member,before,above⟩ := meets
      have below := (Nat.div_lt_iff_lt_mul positive).mp small
      exact ⟨step,member,Nat.le_trans before after,Nat.le_of_lt (Nat.lt_of_lt_of_le below above)⟩
    · have inside := Nat.mod_lt k (Nat.two_pow_pos e)
      have least := leastExponent_le positive period inverse inside (k / 2^e)
      have last := pow_last_digit period (k % 2^e) (k / 2^e)
      rw [Nat.mod_add_div] at least last
      have head_lt := Nat.div_lt_of_lt_mul (Nat.mod_lt (b^k) (Nat.mul_pos positive positive))
      have head : b^k % (n * n) / n ∈ List.range' low (n - low) := by
        rw [List.mem_range'_1]
        omega
      have checked := allFrom_sound (List.all_eq_true.mp late _ head) (Nat.zero_le _) (by rwa [Nat.zero_add])
      obtain ⟨step,member,before,above⟩ := covered_sound checked
      rw [← last,Nat.div_add_mod'] at above
      exact ⟨step,member,Nat.le_trans before least,above⟩

end Ext4Fuse.Library.Powers
