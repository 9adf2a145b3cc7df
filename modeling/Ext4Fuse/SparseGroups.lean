import Ext4Fuse.GroupBitmap
import Ext4Fuse.Library.Powers

/-! Which groups `ext4_group_sparse` is right about. The product in `test_root` wraps at 2^32,
so what the loop finds is a power that is above all the smaller powers modulo 2^32. -/
namespace Ext4Fuse.SparseGroups
open Machine Super GroupBitmap Library.Records Library.Powers

section TestRoot
variable {a b k : Nat}

/-- The loop stops at the first power that is not below `a` modulo 2^32. -/
theorem testRootLoop_first (reached : a ≤ b^k % 2^32) (before : ∀ i, i < k → b^i % 2^32 < a) (rounds j : Nat)
    (inside : j ≤ k) (enough : k < rounds + j) :
    testRootLoop a b rounds (b^j % 2^32) = some (decide (b^k % 2^32 = a)) := by
  induction rounds generalizing j with
  | zero => omega
  | succ rounds ih =>
    rw [testRootLoop]
    rcases Nat.lt_or_eq_of_le inside with less | rfl
    · rw [if_pos (before j less),u32_cast,Nat.mod_mul_mod,← Nat.pow_succ]
      exact ih (j + 1) less (by omega)
    · rw [if_neg (Nat.not_lt_of_ge reached)]

/-- Below all powers modulo 2^32 there is no end to it. -/
theorem testRootLoop_never (above : ∀ k, b^k % 2^32 < a) (rounds j : Nat) : testRootLoop a b rounds (b^j % 2^32) = none := by
  induction rounds generalizing j with
  | zero => rfl
  | succ rounds ih =>
    rw [testRootLoop,if_pos (above j),u32_cast,Nat.mod_mul_mod,← Nat.pow_succ]
    exact ih (j + 1)

variable {steps : List (Nat × Nat)} (recorded : Recorded (fun k => b^k % 2^32) steps) (small : b < 2^32)
include recorded small

/-- Up to a listed record the test ends, and it is true of the records. -/
theorem testRoot_record {top : Nat × Nat} (member : top ∈ steps) (place : top.1 ≤ 2^32) (above : 1 < a) (below : a ≤ top.2) :
    ∃ r, testRoot a b = some r ∧ (r = true ↔ ∃ step ∈ steps, step.2 = a) := by
  have reached : ∃ k, a ≤ b^k % 2^32 := ⟨top.1,below.trans (recorded.values top member).ge⟩
  have soon : Nat.find reached ≤ top.1 := Nat.find_min' reached (below.trans (recorded.values top member).ge)
  have before : ∀ i, i < Nat.find reached → b^i % 2^32 < a := fun i less => Nat.lt_of_not_ge (Nat.find_min reached less)
  have moved : 1 ≤ Nat.find reached := by
    rw [Nat.one_le_iff_ne_zero]
    intro zero
    have first := Nat.find_spec reached
    rw [zero,Nat.pow_zero] at first
    omega
  have loop := testRootLoop_first (Nat.find_spec reached) before (2^32 + 1) 1 moved (by omega)
  rw [Nat.pow_one,Nat.mod_eq_of_lt small] at loop
  refine ⟨_,loop,decide_eq_true_iff.trans ?_⟩
  exact (record_iff_first (f := fun k => b^k % 2^32) (Nat.find_spec reached) before).trans recorded.record_iff

theorem testRootLoop_above (above : ∀ step ∈ steps, step.2 < a) (rounds : Nat) : testRootLoop a b rounds b = none := by
  have loop := testRootLoop_never (recorded.lt above) rounds 1
  rwa [Nat.pow_one,Nat.mod_eq_of_lt small] at loop

end TestRoot

/-! The exponents at which the powers modulo 2^32 come to a new maximum, and these maxima: the
last ones, which are found by their values, and the middle ones, which are met in going
through the exponents. -/

def firstRecords7 : List (Nat × Nat) :=
  [(107,4268884887), (49,4212558727), (40,4152848833), (14,3913207377), (13,2399729895), (11,1977326743),
    (10,282475249), (9,40353607), (8,5764801), (7,823543), (6,117649), (5,16807), (4,2401), (3,343), (2,49), (1,7),
    (0,1)]

def middleRecords7 : List (Nat × Nat) :=
  (7686,4294843281)::(673,4294107399)::(651,4277248151)::(290,4268925745)::firstRecords7

def records7 : List (Nat × Nat) :=
  (216009063,4294967287)::(68877802,4294967281)::(24053690,4294967153)::(15656121,4294966983)::(7159546,4294966641)::
    (4853378,4294966321)::(3784646,4294964625)::(1466339,4294964311)::(208366,4294964049)::(175595,4294934423)::
    (84068,4294892129)::(67131,4294860823)::(16547,4294853207)::middleRecords7

def firstRecords5 : List (Nat × Nat) :=
  [(469,4281523189), (286,4280783785), (135,4279965485), (98,4216122009), (27,4195354525), (19,3831533885),
    (17,2730241733), (16,2264035265), (14,1808548329), (13,1220703125), (12,244140625), (11,48828125), (10,9765625),
    (9,1953125), (8,390625), (7,78125), (6,15625), (5,3125), (4,625), (3,125), (2,25), (1,5), (0,1)]

def middleRecords5 : List (Nat × Nat) :=
  (4541,4294952405)::(4319,4294856525)::(3011,4294602109)::(2162,4292875353)::(1972,4292718513)::(740,4288134897)::
    firstRecords5

def records5 : List (Nat × Nat) :=
  (423929507,4294967293)::(344218837,4294967285)::(187415447,4294967277)::(149556882,4294967257)::
    (106605885,4294967253)::(69846212,4294967153)::(21358955,4294967133)::(19217278,4294966825)::
    (4661930,4294966393)::(1290805,4294966389)::(828988,4294964625)::(359508,4294956337)::middleRecords5

def firstRecords3 : List (Nat × Nat) :=
  [(295,4292506635), (278,4271688729), (124,4217610929), (48,4206638529), (34,4077925001), (23,3948865611),
    (20,3486784401), (19,1162261467), (18,387420489), (17,129140163), (16,43046721), (15,14348907), (14,4782969),
    (13,1594323), (12,531441), (11,177147), (10,59049), (9,19683), (8,6561), (7,2187), (6,729), (5,243), (4,81),
    (3,27), (2,9), (1,3), (0,1)]

def middleRecords3 : List (Nat × Nat) :=
  (26721,4294824579)::(25582,4294639865)::(15275,4294503803)::(9873,4294056899)::(4665,4294012451)::firstRecords3

def records3 : List (Nat × Nat) :=
  (365444363,4294967291)::(55313582,4294967289)::(16710450,4294967241)::(3856373,4294967091)::(1379813,4294964595)::
    (359835,4294961595)::(237878,4294928025)::(179987,4294899675)::(90419,4294895451)::middleRecords3

/-- The groups at which a wrapped product is taken for a power, and the last four, at which
the loop does not end. -/
def wrappedGroups : List Nat :=
  [1808548329, 2264035265, 2399729895, 2730241733, 3831533885, 3913207377, 3948865611, 4077925001, 4152848833,
    4195354525, 4206638529, 4212558727, 4216122009, 4217610929, 4268884887, 4268925745, 4271688729, 4277248151,
    4279965485, 4280783785, 4281523189, 4288134897, 4292506635, 4292718513, 4292875353, 4294012451, 4294056899,
    4294107399, 4294503803, 4294602109, 4294639865, 4294824579, 4294843281, 4294853207, 4294856525, 4294860823,
    4294892129, 4294895451, 4294899675, 4294928025, 4294934423, 4294952405, 4294956337, 4294961595, 4294964049,
    4294964311, 4294964595, 4294964625, 4294966321, 4294966389, 4294966393, 4294966641, 4294966825, 4294966983,
    4294967091, 4294967133, 4294967153, 4294967241, 4294967253, 4294967257, 4294967277, 4294967281, 4294967285,
    4294967287, 4294967289, 4294967291, 4294967293, 4294967295]

theorem records_wrapped : ∀ step ∈ records7 ++ records5 ++ records3, step.2 ∈ wrappedGroups ∨ Sparse step.2 := by decide +kernel

theorem wrapped_records : ∀ g ∈ wrappedGroups, 1 < g ∧ g % 2 ≠ 0 ∧ ¬Sparse g ∧
    (4294967287 < g ∨ ∃ step ∈ records7 ++ records5 ++ records3, step.2 = g) := by decide +kernel

/-! The checks read the lists as written out here; the rest of a list comes in rarely. -/

theorem certificate7 : Certificate 7 65536 13 17595 24691 13 65534 middleRecords7 records7 where
  positive := by decide
  period := by decide +kernel
  inverse := by decide
  values := by decide +kernel
  rising := by decide +kernel
  part := by decide +kernel
  meets := by decide +kernel
  early := by
    simp only [covered,middleRecords7,pow_mod_eq]
    decide +kernel
  late := by
    simp only [List.range',List.all_cons,List.all_nil,Bool.and_true,Bool.and_eq_true,covered,records7,leastExponent_eq,
      pow_mod_eq,← Nat.add_eq,← Nat.mul_eq]
    exact ⟨by decide +kernel,by decide +kernel⟩

theorem certificate5 : Certificate 5 65536 14 2463 53855 13 65535 middleRecords5 records5 where
  positive := by decide
  period := by decide +kernel
  inverse := by decide
  values := by decide +kernel
  rising := by decide +kernel
  part := by decide +kernel
  meets := by decide +kernel
  early := by
    simp only [covered,middleRecords5,pow_mod_eq]
    decide +kernel
  late := by
    simp only [List.range',List.all_cons,List.all_nil,Bool.and_true,covered,records5,leastExponent_eq,
      pow_mod_eq,← Nat.add_eq,← Nat.mul_eq]
    decide +kernel

theorem certificate3 : Certificate 3 65536 14 14909 44309 15 65533 middleRecords3 records3 where
  positive := by decide
  period := by decide +kernel
  inverse := by decide
  values := by decide +kernel
  rising := by decide +kernel
  part := by decide +kernel
  meets := by decide +kernel
  early := by
    simp only [covered,middleRecords3,pow_mod_eq]
    exact Bool.and_eq_true_iff.mpr ⟨by decide +kernel,by decide +kernel⟩
  late := by
    simp only [List.range',List.all_cons,List.all_nil,Bool.and_true,Bool.and_eq_true,covered,records3,leastExponent_eq,
      pow_mod_eq,← Nat.add_eq,← Nat.mul_eq]
    exact ⟨by decide +kernel,by decide +kernel,by decide +kernel⟩

variable {g : Nat}

/-- The largest power of 7 modulo 2^32 is the last group at which the loop ends. -/
theorem ext4GroupSparse_record (above : 1 < g) (odd : g % 2 ≠ 0) (below : g ≤ 4294967287) :
    ∃ r, ext4GroupSparse g = some r ∧ (r = true ↔ ∃ step ∈ records7 ++ records5 ++ records3, step.2 = g) := by
  obtain ⟨r₇,test₇,record₇⟩ := testRoot_record certificate7.recorded (by decide) (show (216009063,4294967287) ∈ records7 by decide)
    (by decide) above below
  obtain ⟨r₅,test₅,record₅⟩ := testRoot_record certificate5.recorded (by decide) (show (423929507,4294967293) ∈ records5 by decide)
    (by decide) above (by omega)
  obtain ⟨r₃,test₃,record₃⟩ := testRoot_record certificate3.recorded (by decide) (show (365444363,4294967291) ∈ records3 by decide)
    (by decide) above (by omega)
  refine ⟨r₇ || r₅ || r₃,?_,?_⟩
  · rw [ext4GroupSparse,if_neg (Nat.not_le_of_gt above),if_neg odd]
    cases r₇ <;> cases r₅ <;> simp [test₇,test₅,test₃]
  · rw [Bool.or_eq_true,Bool.or_eq_true,record₇,record₅,record₃]
    simp only [List.mem_append,or_and_right,exists_or]

theorem testRootLoop_last (above : 4294967287 < g) (rounds : Nat) : testRootLoop g 7 rounds 7 = none := by
  have largest : ∀ step ∈ records7, step.2 ≤ 4294967287 := by decide
  exact testRootLoop_above certificate7.recorded (by decide) (fun step member => Nat.lt_of_le_of_lt (largest step member) above) rounds

theorem ext4GroupSparse_never (odd : g % 2 ≠ 0) (above : 4294967287 < g) : ext4GroupSparse g = none := by
  rw [ext4GroupSparse,if_neg (by omega),if_neg odd,testRoot,testRootLoop_last above]
  rfl

theorem last_wrapped (odd : g % 2 ≠ 0) (above : 4294967287 < g) (bound : g < 2^32) : g ∈ wrappedGroups := by
  have last : g = 4294967289 ∨ g = 4294967291 ∨ g = 4294967293 ∨ g = 4294967295 := by omega
  rcases last with rfl | rfl | rfl | rfl
  all_goals decide

/-- The test ends with the right answer for all groups but the wrapped ones. -/
theorem ext4GroupSparse_right_iff (bound : g < 2^32) :
    (∃ r, ext4GroupSparse g = some r ∧ (r = true ↔ Sparse g)) ↔ g ∉ wrappedGroups := by
  constructor
  · rintro ⟨r,result,right⟩ wrapped
    obtain ⟨above,odd,lone,past | record⟩ := wrapped_records g wrapped
    · cases (ext4GroupSparse_never odd past).symm.trans result
    · rcases Nat.lt_or_ge 4294967287 g with past | below
      · cases (ext4GroupSparse_never odd past).symm.trans result
      · obtain ⟨r',result',taken⟩ := ext4GroupSparse_record above odd below
        have same := Option.some.inj (result.symm.trans result')
        exact lone (right.mp (same.trans (taken.mpr record)))
  · intro whole
    rcases Nat.lt_or_ge 1 g with above | low
    · by_cases even : g % 2 = 0
      · refine ⟨false,?_,iff_of_false (by rintro ⟨⟩) fun sparse => sparse_odd (Nat.not_le_of_gt above) sparse even⟩
        rw [ext4GroupSparse,if_neg (Nat.not_le_of_gt above),if_pos even]
      · have below := Nat.le_of_not_gt fun past => whole (last_wrapped even past bound)
        obtain ⟨r,result,taken⟩ := ext4GroupSparse_record above even below
        refine ⟨r,result,fun yes => ?_,fun sparse => ?_⟩
        · obtain ⟨step,member,rfl⟩ := taken.mp yes
          exact (records_wrapped step member).resolve_left whole
        · rw [← Bool.not_eq_false]
          exact fun no => ext4GroupSparse_backup bound sparse (no ▸ result)
    · exact ⟨true,by rw [ext4GroupSparse,if_pos low],iff_of_true rfl (Or.inl low)⟩

theorem ext4GroupSparse_right_three : ∃ r, ext4GroupSparse (3^20) = some r ∧ (r = true ↔ Sparse (3^20)) :=
  (ext4GroupSparse_right_iff (by decide)).mpr (by decide)

/-- 7^13 wraps to a number that is no power of 3, 5 or 7, and the last group is above all
powers of 7. -/
theorem ext4GroupSparse_wraps :
    (ext4GroupSparse 2399729895 = some true ∧ ¬Sparse 2399729895) ∧
      ext4GroupSparse 4294967295 = none ∧ ∀ rounds, testRootLoop 4294967295 7 rounds 7 = none := by
  refine ⟨⟨?_,(wrapped_records 2399729895 (by decide)).2.2.1⟩,ext4GroupSparse_never (by decide) (by decide),testRootLoop_last (by decide)⟩
  obtain ⟨r,result,taken⟩ := ext4GroupSparse_record (g := 2399729895) (by decide) (by decide) (by decide)
  rw [result,taken.mpr ⟨(13,2399729895),by decide,rfl⟩]

end Ext4Fuse.SparseGroups
