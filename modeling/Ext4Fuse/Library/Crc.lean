import Mathlib.Algebra.CharP.Two
import Mathlib.Algebra.Field.ZMod
import Mathlib.Algebra.Polynomial.OfFn
import Mathlib.RingTheory.AdjoinRoot

/-! Cyclic redundancy checks with the low bit first. A register is a polynomial over the field of two elements whose leading
coefficient is the low bit; a step multiplies it by `X` modulo the generator. -/
namespace Ext4Fuse.Library.Crc
open Polynomial

section Register
variable {w : Nat} (g : BitVec w)

/-- One bit of the division by the generator, of which `g` holds what lies below the leading term. -/
def bitStep (v : BitVec w) : BitVec w := (v >>> 1) ^^^ if v.getLsbD 0 then g else 0

def bitSteps : Nat → BitVec w → BitVec w
  | 0, v => v
  | n+1, v => bitSteps n (bitStep g v)

def byteStep (v : BitVec w) (b : BitVec 8) : BitVec w := bitSteps g 8 (v ^^^ b.setWidth w)

def crc (v : BitVec w) (bytes : List (BitVec 8)) : BitVec w := bytes.foldl (byteStep g) v

/-! The table. -/

theorem bitStep_xor (v u : BitVec w) : bitStep g (v ^^^ u) = bitStep g v ^^^ bitStep g u := by
  have taken (x y : Bool) : (if x ^^ y then g else 0) = (if x then g else 0) ^^^ if y then g else 0 := by
    cases x <;> cases y <;> simp
  unfold bitStep
  rw [BitVec.getLsbD_xor,BitVec.ushiftRight_xor_distrib,taken]
  ac_rfl

theorem bitSteps_xor (n : Nat) (v u : BitVec w) : bitSteps g n (v ^^^ u) = bitSteps g n v ^^^ bitSteps g n u := by
  induction n generalizing v u with
  | zero => rfl
  | succ n ih => rw [bitSteps,bitStep_xor,ih,bitSteps,bitSteps]

/-- Bits that are clear are shifted out. -/
theorem bitSteps_clear {n : Nat} {v : BitVec w} (clear : ∀ i < n, v.getLsbD i = false) : bitSteps g n v = v >>> n := by
  induction n generalizing v with
  | zero => exact (BitVec.ushiftRight_zero v).symm
  | succ n ih =>
    have shifted : bitStep g v = v >>> 1 := by simp [bitStep,clear 0 (Nat.zero_lt_succ n)]
    have rest (i : Nat) (low : i < n) : (v >>> 1).getLsbD i = false := by
      rw [BitVec.getLsbD_ushiftRight]
      exact clear (1 + i) (by omega)
    rw [bitSteps,shifted,ih rest,Nat.add_comm,BitVec.shiftRight_add]

/-- A byte at a time: what the low byte of the register and the new byte make together is looked up, the rest is shifted. -/
theorem byteStep_table (v : BitVec w) (b : BitVec 8) :
    byteStep g v b = (v >>> 8) ^^^ bitSteps g 8 ((v.setWidth 8 ^^^ b).setWidth w) := by
  have parts : v ^^^ b.setWidth w = (v >>> 8 <<< 8) ^^^ (v.setWidth 8 ^^^ b).setWidth w := by
    apply BitVec.eq_of_getLsbD_eq
    intro i inside
    simp only [BitVec.getLsbD_xor,BitVec.getLsbD_setWidth,BitVec.getLsbD_shiftLeft,BitVec.getLsbD_ushiftRight,inside,decide_true,
      Bool.true_and]
    rcases Nat.lt_or_ge i 8 with low | high
    · simp [low]
    · simp [Nat.not_lt.mpr high,Nat.add_sub_cancel' high]
  have clear (i : Nat) (low : i < 8) : (v >>> 8 <<< 8).getLsbD i = false := by simp [low]
  have back : v >>> 8 <<< 8 >>> 8 = v >>> 8 := by
    apply BitVec.eq_of_getLsbD_eq
    intro i _
    rw [BitVec.getLsbD_ushiftRight,BitVec.getLsbD_shiftLeft,BitVec.getLsbD_ushiftRight]
    rcases Nat.lt_or_ge (8 + i) w with inside | outside
    · simp [inside]
    · simp [Nat.not_lt.mpr outside,BitVec.getLsbD_of_ge v (8 + i) outside]
  rw [byteStep,parts,bitSteps_xor,bitSteps_clear g clear,back]

/-- What is looked up. -/
def table : List (BitVec w) := (List.range 256).map fun i => bitSteps g 8 (BitVec.ofNat w i)

theorem byteStep_lookup (v : BitVec w) (b : BitVec 8) :
    byteStep g v b = (v >>> 8) ^^^ (table g).getD (v.setWidth 8 ^^^ b).toNat 0 := by
  have inside := (v.setWidth 8 ^^^ b).isLt
  have entry : BitVec.ofNat w (v.setWidth 8 ^^^ b).toNat = (v.setWidth 8 ^^^ b).setWidth w := by
    rw [← BitVec.toNat_inj,BitVec.toNat_ofNat,BitVec.toNat_setWidth]
  rw [byteStep_table,table,List.getD_eq_getElem _ _ (by rw [List.length_map,List.length_range]; exact inside),List.getElem_map,
    List.getElem_range,entry]

end Register

section Remainder
variable {w : Nat}

/-- The polynomial of a register. -/
noncomputable def ofBits (v : BitVec w) : (ZMod 2)[X] := ofFn w fun i => if v.getLsbD (w - 1 - i) then 1 else 0

/-- The generator, with its leading term. -/
noncomputable def generator (g : BitVec w) : (ZMod 2)[X] := X^w + ofBits g

theorem ofBits_coeff (v : BitVec w) (k : Nat) : (ofBits v).coeff k = if k < w ∧ v.getLsbD (w - 1 - k) = true then 1 else 0 := by
  unfold ofBits
  rcases Nat.lt_or_ge k w with inside | outside
  · rw [ofFn_coeff_eq_val_of_lt _ inside]
    simp [inside]
  · rw [ofFn_coeff_eq_zero_of_ge _ outside]
    simp [Nat.not_lt.mpr outside]

theorem ofBits_degree (v : BitVec w) : (ofBits v).degree < w := ofFn_degree_lt _

theorem ofBits_xor (v u : BitVec w) : ofBits (v ^^^ u) = ofBits v + ofBits u := by
  ext k
  rw [coeff_add,ofBits_coeff,ofBits_coeff,ofBits_coeff,BitVec.getLsbD_xor]
  rcases Nat.lt_or_ge k w with inside | outside
  · simp only [inside,true_and]
    cases v.getLsbD (w - 1 - k) <;> cases u.getLsbD (w - 1 - k) <;> decide
  · simp [Nat.not_lt.mpr outside]

/-- A byte in the low end of a longer register has the leading terms. -/
theorem ofBits_setWidth (wide : 8 ≤ w) (b : BitVec 8) : ofBits (b.setWidth w) = ofBits b * X^(w - 8) := by
  ext k
  rw [coeff_mul_X_pow',ofBits_coeff,ofBits_coeff,BitVec.getLsbD_setWidth]
  rcases Nat.lt_or_ge k (w - 8) with low | high
  · rw [if_neg (Nat.not_le.mpr low),BitVec.getLsbD_of_ge b (w - 1 - k) (by omega)]
    simp
  · rw [if_pos high]
    rcases Nat.lt_or_ge k w with inside | outside
    · have place : 8 - 1 - (k - (w - 8)) = w - 1 - k := by omega
      have near : k - (w - 8) < 8 := by omega
      have below : w - 1 - k < w := by omega
      simp only [place,near,below,inside,decide_true,Bool.true_and]
    · have far : ¬k - (w - 8) < 8 := by omega
      simp only [far,Nat.not_lt.mpr outside,false_and]

theorem generator_monic (g : BitVec w) : (generator g).Monic := monic_X_pow_add (ofBits_degree g)

theorem generator_degree (g : BitVec w) : (generator g).degree = w := by
  have top : (X^w : (ZMod 2)[X]).degree = w := degree_X_pow w
  rw [generator,degree_add_eq_left_of_degree_lt (by rw [top]; exact ofBits_degree g),top]

/-- The bit that is shifted out is the leading coefficient. -/
theorem ofBits_shift (positive : 0 < w) (v : BitVec w) :
    X * ofBits v = ofBits (v >>> 1) + C (if v.getLsbD 0 then 1 else 0) * X^w := by
  ext k
  rw [coeff_add,coeff_C_mul,coeff_X_pow,ofBits_coeff,BitVec.getLsbD_ushiftRight]
  cases k with
  | zero =>
    have out : v.getLsbD (1 + (w - 1 - 0)) = false := BitVec.getLsbD_of_ge v _ (by omega)
    have other : 0 ≠ w := Nat.ne_of_lt positive
    rw [coeff_X_mul_zero,out]
    simp [other]
  | succ k =>
    rw [coeff_X_mul,ofBits_coeff]
    rcases Nat.lt_trichotomy (k + 1) w with inside | rfl | outside
    · have place : 1 + (w - 1 - (k + 1)) = w - 1 - k := by omega
      have other : k + 1 ≠ w := Nat.ne_of_lt inside
      simp [place,inside,other,Nat.lt_of_succ_lt inside]
    · simp
    · have beyond : ¬k < w := by omega
      have other : k + 1 ≠ w := Nat.ne_of_gt outside
      simp [beyond,other,Nat.not_lt.mpr (Nat.le_of_lt outside)]

variable (g : BitVec w)

theorem bitStep_mod (positive : 0 < w) (v : BitVec w) :
    AdjoinRoot.mk (generator g) (ofBits (bitStep g v)) = AdjoinRoot.mk (generator g) (X * ofBits v) := by
  refine AdjoinRoot.mk_eq_mk.mpr ⟨C (if v.getLsbD 0 then 1 else 0),?_⟩
  rw [bitStep,ofBits_xor,ofBits_shift positive,generator]
  have zero : ofBits 0#w = 0 := by
    ext k
    simp [ofBits_coeff]
  cases v.getLsbD 0 with
  | false => simp [zero]
  | true =>
    simp only [if_true,map_one,one_mul,mul_one,CharTwo.sub_eq_add]
    rw [add_add_add_comm,CharTwo.add_self_eq_zero,zero_add,add_comm]

theorem bitSteps_mod (positive : 0 < w) (n : Nat) (v : BitVec w) :
    AdjoinRoot.mk (generator g) (ofBits (bitSteps g n v)) = AdjoinRoot.mk (generator g) (ofBits v * X^n) := by
  induction n generalizing v with
  | zero => rw [bitSteps,pow_zero,mul_one]
  | succ n ih => rw [bitSteps,ih,map_mul,bitStep_mod g positive,← map_mul,mul_assoc,mul_left_comm,← pow_succ']

/-- The polynomial of a message: the low bit of its first byte comes first. -/
noncomputable def message : List (BitVec 8) → (ZMod 2)[X]
  | [] => 0
  | b::bytes => ofBits b * X^(8 * bytes.length) + message bytes

/-- What is divided for a message, when the register starts with `v`. -/
noncomputable def dividend (v : BitVec w) (bytes : List (BitVec 8)) : (ZMod 2)[X] :=
  ofBits v * X^(8 * bytes.length) + message bytes * X^w

theorem dividend_cons (v : BitVec w) (b : BitVec 8) (bytes : List (BitVec 8)) :
    dividend v (b::bytes) = dividend v [b] * X^(8 * bytes.length) + message bytes * X^w := by
  have more : (X : (ZMod 2)[X])^(8 * (b::bytes).length) = X^8 * X^(8 * bytes.length) := by
    rw [← pow_add,List.length_cons,Nat.mul_succ,Nat.add_comm]
  simp only [dividend,message,more,List.length_singleton,List.length_nil,Nat.mul_zero,pow_zero,mul_one,add_zero]
  ring

theorem byteStep_mod (wide : 8 ≤ w) (v : BitVec w) (b : BitVec 8) :
    AdjoinRoot.mk (generator g) (ofBits (byteStep g v b)) = AdjoinRoot.mk (generator g) (dividend v [b]) := by
  have entered : ofBits (v ^^^ b.setWidth w) * X^8 = dividend v [b] := by
    rw [ofBits_xor,ofBits_setWidth wide,add_mul,mul_assoc,← pow_add,Nat.sub_add_cancel wide]
    simp [dividend,message]
  rw [byteStep,bitSteps_mod g (by omega),entered]

theorem crc_mod (wide : 8 ≤ w) (v : BitVec w) (bytes : List (BitVec 8)) :
    AdjoinRoot.mk (generator g) (ofBits (crc g v bytes)) = AdjoinRoot.mk (generator g) (dividend v bytes) := by
  induction bytes generalizing v with
  | nil => simp [crc,dividend,message]
  | cons b bytes ih =>
    have step : crc g v (b::bytes) = crc g (byteStep g v b) bytes := rfl
    have first := byteStep_mod g wide v b
    rw [step,ih,dividend,map_add,map_mul,first,← map_mul,← map_add,← dividend_cons]

/-- The register ends as the remainder. -/
theorem crc_remainder (wide : 8 ≤ w) (v : BitVec w) (bytes : List (BitVec 8)) :
    ofBits (crc g v bytes) = dividend v bytes %ₘ generator g := by
  have reduced : ofBits (crc g v bytes) %ₘ generator g = ofBits (crc g v bytes) :=
    (modByMonic_eq_self_iff (generator_monic g)).mpr ((generator_degree g).symm ▸ ofBits_degree _)
  rw [← reduced]
  exact modByMonic_eq_of_dvd_sub (generator_monic g) (AdjoinRoot.mk_eq_mk.mp (crc_mod g wide v bytes))

end Remainder

/-! What a check finds. -/

section Errors
variable {w : Nat} {g : BitVec w} {bytes bytes' : List (BitVec 8)}

/-- The bit of a message that is fed in at a time. -/
def bitAt (bytes : List (BitVec 8)) (j : Nat) : Bool := (bytes.getD (j / 8) 0).getLsbD (j % 8)

theorem message_coeff (bytes : List (BitVec 8)) (k : Nat) :
    (message bytes).coeff k = if k < 8 * bytes.length ∧ bitAt bytes (8 * bytes.length - 1 - k) = true then 1 else 0 := by
  induction bytes with
  | nil => simp [message]
  | cons b bytes ih =>
    rw [message,coeff_add,coeff_mul_X_pow',ofBits_coeff,ih,List.length_cons]
    generalize length : bytes.length = n
    rcases Nat.lt_or_ge k (8 * n) with low | high
    · have place : 8 * (n + 1) - 1 - k = 8 * n - 1 - k + 8 := by omega
      have later : bitAt (b::bytes) (8 * n - 1 - k + 8) = bitAt bytes (8 * n - 1 - k) := by
        unfold bitAt
        rw [Nat.add_mod_right,Nat.add_div_right _ (by decide),List.getD_cons_succ]
      have inside : k < 8 * (n + 1) := by omega
      rw [if_neg (Nat.not_le.mpr low),zero_add,place,later]
      simp only [low,inside]
    · have beyond : ¬k < 8 * n := Nat.not_lt.mpr high
      rw [if_pos high]
      simp only [beyond,false_and,if_false,add_zero]
      refine if_congr ?_ rfl rfl
      rcases Nat.lt_or_ge k (8 * (n + 1)) with inside | outside
      · have place : 8 - 1 - (k - 8 * n) = 8 * (n + 1) - 1 - k := by omega
        have near : k - 8 * n < 8 := by omega
        have first : bitAt (b::bytes) (8 * (n + 1) - 1 - k) = b.getLsbD (8 * (n + 1) - 1 - k) := by
          unfold bitAt
          rw [Nat.div_eq_of_lt (by omega),Nat.mod_eq_of_lt (by omega),List.getD_cons_zero]
        simp only [place,near,inside,first]
      · have far : ¬k - 8 * n < 8 := by omega
        simp only [far,Nat.not_lt.mpr outside,false_and]

theorem generator_coprime (positive : 0 < w) (last : g.getLsbD (w - 1) = true) : IsCoprime (generator g) X := by
  have constant : (generator g).coeff 0 = 1 := by
    have other : 0 ≠ w := Nat.ne_of_lt positive
    rw [generator,coeff_add,coeff_X_pow,ofBits_coeff]
    simp [other,positive,last]
  obtain ⟨q,rest⟩ := X_dvd_sub_C (p := generator g)
  rw [constant,map_one] at rest
  refine ⟨1,-q,?_⟩
  rw [one_mul,sub_eq_iff_eq_add.mp rest]
  ring

/-- Messages that a check confuses differ by a multiple of the generator. -/
theorem crc_confused (wide : 8 ≤ w) (last : g.getLsbD (w - 1) = true) (length : bytes.length = bytes'.length) {v : BitVec w}
    (same : crc g v bytes = crc g v bytes') : generator g ∣ message bytes + message bytes' := by
  have registers := congrArg (fun v => AdjoinRoot.mk (generator g) (ofBits v)) same
  have divides := AdjoinRoot.mk_eq_mk.mp ((crc_mod g wide v bytes).symm.trans (registers.trans (crc_mod g wide v bytes')))
  have shifted : dividend v bytes - dividend v bytes' = (message bytes + message bytes') * X^w := by
    rw [dividend,dividend,length,add_sub_add_left_eq_sub,← sub_mul,CharTwo.sub_eq_add]
  rw [shifted] at divides
  exact IsCoprime.dvd_of_dvd_mul_right (generator_coprime (by omega) last).pow_right divides

theorem bitAt_injective (length : bytes.length = bytes'.length) (same : ∀ j < 8 * bytes.length, bitAt bytes j = bitAt bytes' j) :
    bytes = bytes' := by
  refine List.ext_getElem length fun k inside inside' => BitVec.eq_of_getLsbD_eq fun i low => ?_
  have bit := same (8 * k + i) (by omega)
  have byte : (8 * k + i) / 8 = k := by omega
  have place : (8 * k + i) % 8 = i := by omega
  rwa [bitAt,bitAt,byte,place,List.getD_eq_getElem _ _ inside,List.getD_eq_getElem _ _ inside'] at bit

theorem message_injective (length : bytes.length = bytes'.length) (same : message bytes = message bytes') : bytes = bytes' := by
  refine bitAt_injective length fun j inside => ?_
  have bit := congrArg (fun p : (ZMod 2)[X] => p.coeff (8 * bytes.length - 1 - j)) same
  simp only [message_coeff,← length] at bit
  have place : 8 * bytes.length - 1 - (8 * bytes.length - 1 - j) = j := by omega
  have low : 8 * bytes.length - 1 - j < 8 * bytes.length := by omega
  rw [place] at bit
  simp only [low,true_and] at bit
  cases one : bitAt bytes j <;> cases two : bitAt bytes' j <;> simp_all

/-- The messages differ, and only in some `w` bits that come one after another. -/
def Burst (w : Nat) (bytes bytes' : List (BitVec 8)) : Prop :=
  bytes ≠ bytes' ∧ ∃ i, ∀ j < 8 * bytes.length, j < i ∨ i + w ≤ j → bitAt bytes j = bitAt bytes' j

/-- A check with a register of `w` bits finds every burst of at most `w` bits. -/
theorem crc_burst (wide : 8 ≤ w) (last : g.getLsbD (w - 1) = true) (length : bytes.length = bytes'.length)
    (burst : Burst w bytes bytes') (v : BitVec w) : crc g v bytes ≠ crc g v bytes' := by
  intro same
  obtain ⟨differ,i,outside⟩ := burst
  have divides := crc_confused wide last length same
  have coefficients (k : Nat) (apart : k < 8 * bytes.length → 8 * bytes.length - 1 - k < i ∨ i + w ≤ 8 * bytes.length - 1 - k) :
      (message bytes + message bytes').coeff k = 0 := by
    rw [coeff_add,message_coeff,message_coeff,← length]
    rcases Nat.lt_or_ge k (8 * bytes.length) with inside | beyond
    · rw [outside _ (by omega) (apart inside)]
      exact CharTwo.add_self_eq_zero _
    · simp [Nat.not_lt.mpr beyond]
  obtain ⟨q,shifted⟩ : X^(8 * bytes.length - (i + w)) ∣ message bytes + message bytes' :=
    X_pow_dvd_iff.mpr fun k low => coefficients k fun _ => by omega
  have short : q.degree < w := by
    refine (degree_lt_iff_coeff_zero _ _).mpr fun c high => ?_
    rw [← coeff_X_pow_mul q (8 * bytes.length - (i + w)),← shifted]
    exact coefficients _ fun _ => by omega
  rw [shifted] at divides
  have factor : generator g ∣ q := (generator_coprime (by omega) last).pow_right.dvd_of_dvd_mul_left divides
  have nothing : q = 0 := eq_zero_of_dvd_of_degree_lt factor (by rw [generator_degree]; exact short)
  rw [nothing,mul_zero] at shifted
  exact differ (message_injective length (CharTwo.add_eq_zero.mp shifted))

/-- How many bits are set. -/
def ones (v : BitVec w) : Nat := ∑ i ∈ Finset.range w, (v.getLsbD i).toNat

theorem ofBits_eval (v : BitVec w) : (ofBits v).eval 1 = ones v := by
  rw [ofBits,ofFn_eq_sum_monomial,eval_finsetSum,ones,← Finset.sum_range_reflect,Finset.sum_range,Nat.cast_sum]
  refine Finset.sum_congr rfl fun i _ => ?_
  rw [eval_monomial,one_pow,mul_one]
  cases v.getLsbD (w - 1 - i) <;> rfl

theorem message_eval (bytes : List (BitVec 8)) : (message bytes).eval 1 = ((bytes.map ones).sum : Nat) := by
  induction bytes with
  | nil => simp [message]
  | cons b bytes ih => simp [message,ih,ofBits_eval]

/-- With an even number of terms in the generator the register keeps the parity of all that is fed in. -/
theorem crc_parity (wide : 8 ≤ w) (odd : ones g % 2 = 1) (v : BitVec w) (bytes : List (BitVec 8)) :
    ones (crc g v bytes) % 2 = (ones v + (bytes.map ones).sum) % 2 := by
  obtain ⟨q,apart⟩ := AdjoinRoot.mk_eq_mk.mp (crc_mod g wide v bytes)
  have root : (generator g).eval 1 = 0 := by
    have one : ((ones g : Nat) : ZMod 2) = (1 : Nat) := (ZMod.natCast_eq_natCast_iff' _ _ 2).mpr odd
    rw [generator,eval_add,eval_pow,eval_X,one_pow,ofBits_eval,one]
    decide
  have values := congrArg (eval 1) apart
  rw [eval_sub,eval_mul,root,zero_mul,ofBits_eval,dividend,eval_add,eval_mul,eval_mul,eval_pow,eval_pow,eval_X,one_pow,one_pow,
    mul_one,mul_one,ofBits_eval,message_eval,sub_eq_zero,← Nat.cast_add] at values
  exact (ZMod.natCast_eq_natCast_iff' _ _ 2).mp values

end Errors

end Ext4Fuse.Library.Crc
