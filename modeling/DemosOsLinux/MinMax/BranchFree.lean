/-
  Minimum and maximum without branches (examples/performance/min_max_without_branching.cc).

  `(a-b) & (a-b)>>31` is `a-b` if that is negative and 0 otherwise, so that `f_min_b` and `f_max_b` go by
  the sign of `a-b`. This is the order of `a` and `b` unless the subtraction overflows; then it is the
  opposite one, and the two functions return each other's results.
  * `fMinB_eq_iff`, `fMaxB_eq_iff`: they are right if and only if `a - b` is an `int`.
  * `toInt_minB`: how far `min_b` is off. Hence `sums_eq_iff`: the sums of the benchmark differ by the
    sum of these, modulo 2^64. For at most 2^32 pairs they agree only if every difference is an `int`
    (`sums_eq_iff_allFit`).
  * `main_assert`: over the range of `main` they agree.
-/
import DemosOsLinux.Lib.IntLoops
import DemosOsLinux.Lib.MachineInt
import Mathlib.Algebra.Group.Action.Defs
import Mathlib.Algebra.Order.BigOperators.Group.List
import Mathlib.Algebra.Order.Ring.Nat
import Mathlib.Data.UInt

namespace DemosOsLinux.MinMax

open Lib

/-! ## The program -/

def fMinA (a b : Int32) : Int32 := if a < b then a else b

def fMaxA (a b : Int32) : Int32 := if a > b then a else b

def fMinB (a b : Int32) : Int32 := b + ((a - b) &&& (a - b) >>> 31)

def fMaxB (a b : Int32) : Int32 := a - ((a - b) &&& (a - b) >>> 31)

/-- The macro `min_a`, for two `int`s. -/
def minA (a b : Int32) : Int32 := if a < b then a else b

/-- The macro `min_b`. -/
def minB (a b : Int32) : Int32 := b + ((a - b) &&& (a - b) >>> 31)

/-- The bounds of a loop, `for(int i=lo; i<hi; i++)`. -/
structure Range where
  lo : Int32
  hi : Int32

/-- Two nested loops that add up `op(i, j)` in a `long`. -/
def benchmark (op : Int32 → Int32 → Int32) (is js : Range) : Int64 :=
  forInt is.lo is.hi (fun sum i =>
    forInt js.lo js.hi (fun sum j => sum + (op i j).toInt64) sum) 0

def sumA (is js : Range) : Int64 := benchmark minA is js

def sumB (is js : Range) : Int64 := benchmark minB is js

/-- The range of both loops of `main`, which asserts that `sum_a==sum_b`. -/
def tested : Range := ⟨0, 10000⟩

/-! ## One pair -/

/-- `a-b` does not overflow. -/
def Fits (a b : Int32) : Prop := FitsI32 (a.toInt - b.toInt)

instance (a b : Int32) : Decidable (Fits a b) := inferInstanceAs (Decidable (_ ∧ _))

theorem mask_eq (d : Int32) : (d &&& d >>> 31) = if d < 0 then d else 0 := by
  have hshift : (d >>> 31).toBitVec = d.toBitVec.sshiftRight 31 := by
    rw [Int32.toBitVec_shiftRight]
    rfl
  have hsign : d.toBitVec.msb = true ↔ d < 0 := by
    rw [BitVec.msb_eq_toInt, decide_eq_true_eq, Int32.toInt_toBitVec, Int32.lt_iff_toInt_lt]
    rfl
  refine Int32.toBitVec_inj.mp ?_
  rw [Int32.toBitVec_and, hshift, and_sshiftRight_last d.toBitVec]
  simp only [hsign]
  split
  · rfl
  · rfl

/-- They go by the sign of `a-b`. -/
theorem fMinB_eq (a b : Int32) : fMinB a b = if a - b < 0 then a else b := by
  rw [fMinB, mask_eq]
  split
  · rw [Int32.add_comm, Int32.sub_add_cancel]
  · rw [Int32.add_zero]

theorem fMaxB_eq (a b : Int32) : fMaxB a b = if a - b < 0 then b else a := by
  rw [fMaxB, mask_eq]
  split
  · rw [Int32.sub_eq_add_neg, Int32.neg_sub, Int32.add_comm, Int32.sub_add_cancel]
  · rw [Int32.sub_zero]

/-- The sign of `a-b` is the order of `a` and `b`, or, if `a-b` overflows, the opposite one. -/
theorem sub_neg_iff (a b : Int32) : a - b < 0 ↔ if Fits a b then a < b else b < a := by
  have halo := a.le_toInt
  have hahi := a.toInt_lt
  have hblo := b.le_toInt
  have hbhi := b.toInt_lt
  have hneg : a - b < 0 ↔ (a.toInt - b.toInt).bmod (2 ^ 32) < 0 := by
    rw [Int32.lt_iff_toInt_lt, Int32.toInt_sub]
    rfl
  rw [hneg, Int32.lt_iff_toInt_lt, Int32.lt_iff_toInt_lt]
  split
  · rename_i hfits
    rw [FitsI32.bmod hfits]
    omega
  · rename_i hfits
    unfold Fits FitsI32 at hfits
    rw [Int.bmod_def]
    omega

theorem swap_lt {a b x y : Int32} (h : a = b → x = y) :
    (if a < b then x else y) = if b < a then y else x := by
  by_cases hlt : a < b
  · have hgt : ¬ b < a := fun h => Int32.lt_irrefl (Int32.lt_trans hlt h)
    rw [if_pos hlt, if_neg hgt]
  · rw [if_neg hlt]
    split
    · rfl
    · rename_i hgt
      exact (h (Int32.le_antisymm (Int32.not_lt.mp hgt) (Int32.not_lt.mp hlt))).symm

/-- If `a-b` overflows, the two functions return each other's results. -/
theorem fMinB_eq_ite (a b : Int32) : fMinB a b = if Fits a b then fMinA a b else fMaxA a b := by
  have hsign := sub_neg_iff a b
  by_cases hfits : Fits a b
  · rw [if_pos hfits] at hsign
    simp only [fMinB_eq, hsign, if_pos hfits]
    rfl
  · rw [if_neg hfits] at hsign
    simp only [fMinB_eq, hsign, if_neg hfits]
    rfl

theorem fMaxB_eq_ite (a b : Int32) : fMaxB a b = if Fits a b then fMaxA a b else fMinA a b := by
  have hsign := sub_neg_iff a b
  by_cases hfits : Fits a b
  · rw [if_pos hfits] at hsign
    simp only [fMaxB_eq, hsign, if_pos hfits]
    exact swap_lt Eq.symm
  · rw [if_neg hfits] at hsign
    simp only [fMaxB_eq, hsign, if_neg hfits]
    exact swap_lt id

/-- How far apart minimum and maximum are. -/
theorem toInt_fMaxA (a b : Int32) :
    (fMaxA a b).toInt = (fMinA a b).toInt + (a.toInt - b.toInt).natAbs := by
  rw [fMaxA, fMinA]
  simp only [gt_iff_lt, Int32.lt_iff_toInt_lt]
  split <;> split <;> omega

theorem fMinA_ne_fMaxA {a b : Int32} (h : ¬ Fits a b) : fMinA a b ≠ fMaxA a b := by
  intro heq
  have hmax := toInt_fMaxA a b
  rw [← heq] at hmax
  exact h ⟨by omega, by omega⟩

theorem ite_eq_left_iff_of_ne {α : Type} {P : Prop} [Decidable P] {x y : α} (h : ¬ P → y ≠ x) :
    (if P then x else y) = x ↔ P := by
  rw [ite_eq_left_iff]
  refine ⟨fun heq => ?_, fun hp hn => absurd hp hn⟩
  by_contra hn
  exact h hn (heq hn)

theorem fMinB_eq_iff (a b : Int32) : fMinB a b = fMinA a b ↔ Fits a b := by
  rw [fMinB_eq_ite]
  exact ite_eq_left_iff_of_ne fun hfits => (fMinA_ne_fMaxA hfits).symm

theorem fMaxB_eq_iff (a b : Int32) : fMaxB a b = fMaxA a b ↔ Fits a b := by
  rw [fMaxB_eq_ite]
  exact ite_eq_left_iff_of_ne fMinA_ne_fMaxA

/-! ## The sums -/

/-- How far `min_b` is off. -/
def excess (a b : Int32) : Nat := if Fits a b then 0 else (a.toInt - b.toInt).natAbs

theorem toInt_minB (a b : Int32) : (minB a b).toInt = (minA a b).toInt + excess a b := by
  show (fMinB a b).toInt = (fMinA a b).toInt + excess a b
  rw [fMinB_eq_ite, excess]
  split
  · exact (Int.add_zero _).symm
  · exact toInt_fMaxA a b

theorem excess_eq_zero {a b : Int32} : excess a b = 0 ↔ Fits a b := by
  refine ite_eq_left_iff_of_ne fun hfits hzero => hfits ⟨?_, ?_⟩
  · omega
  · omega

theorem excess_lt (a b : Int32) : excess a b < 2 ^ 32 := by
  have halo := a.le_toInt
  have hahi := a.toInt_lt
  have hblo := b.le_toInt
  have hbhi := b.toInt_lt
  unfold excess
  split <;> omega

/-- The number of turns of the loop. -/
def Range.size (r : Range) : Nat := (r.hi.toInt - r.lo.toInt).toNat

/-- The pairs that the two loops go through. -/
def pairs (is js : Range) : List (Int32 × Int32) :=
  (ints is.lo is.hi).flatMap fun i => (ints js.lo js.hi).map fun j => (i, j)

theorem mem_pairs {is js : Range} {p : Int32 × Int32} :
    p ∈ pairs is js ↔ (is.lo ≤ p.1 ∧ p.1 < is.hi) ∧ js.lo ≤ p.2 ∧ p.2 < js.hi := by
  rw [← mem_ints, ← mem_ints, pairs, List.mem_flatMap]
  constructor
  · rintro ⟨i, hi, hp⟩
    obtain ⟨j, hj, rfl⟩ := List.mem_map.mp hp
    exact ⟨hi, hj⟩
  · rintro ⟨hi, hj⟩
    exact ⟨p.1, hi, List.mem_map.mpr ⟨p.2, hj, rfl⟩⟩

theorem length_pairs (is js : Range) : (pairs is js).length = is.size * js.size := by
  rw [pairs, List.length_flatMap]
  simp only [List.length_map, length_ints, List.map_const', List.sum_replicate_nat]
  rfl

/-- The sum of `op` over the pairs, in the integers. -/
def exactSum (op : Int32 → Int32 → Int32) (is js : Range) : Int :=
  ((pairs is js).map fun p => (op p.1 p.2).toInt).sum

def totalExcess (is js : Range) : Nat := ((pairs is js).map fun p => excess p.1 p.2).sum

theorem benchmark_eq (op : Int32 → Int32 → Int32) (is js : Range) :
    benchmark op is js = Int64.ofInt (exactSum op is js) := by
  have hturn : ∀ (n : Int) (p : Int32 × Int32),
      Int64.ofInt n + (op p.1 p.2).toInt64 = Int64.ofInt (n + (op p.1 p.2).toInt) := by
    intro n p
    rw [Int64.ofInt_add, Int64.ofInt_int32ToInt]
  have hflat : benchmark op is js =
      (pairs is js).foldl (fun sum p => sum + (op p.1 p.2).toInt64) (Int64.ofInt 0) := by
    rw [pairs, List.foldl_flatMap, benchmark, forInt_eq_foldl]
    simp only [forInt_eq_foldl, List.foldl_map]
    rfl
  rw [hflat, foldl_ofInt hturn, Int.zero_add]
  rfl

theorem exactSum_minB (is js : Range) :
    exactSum minB is js = exactSum minA is js + totalExcess is js := by
  unfold exactSum totalExcess
  induction pairs is js with
  | nil => rfl
  | cons p ps ih =>
    simp only [List.map_cons, List.sum_cons, Int.natCast_add]
    rw [ih, toInt_minB]
    omega

theorem sums_eq_iff (is js : Range) : sumA is js = sumB is js ↔ 2 ^ 64 ∣ totalExcess is js := by
  rw [sumA, sumB, benchmark_eq, benchmark_eq, exactSum_minB]
  exact ofInt_add_eq_iff _ _

/-- `a-b` overflows for no pair of the loops. -/
def AllFit (is js : Range) : Prop :=
  ∀ i j, is.lo ≤ i → i < is.hi → js.lo ≤ j → j < js.hi → Fits i j

theorem totalExcess_eq_zero {is js : Range} : totalExcess is js = 0 ↔ AllFit is js := by
  rw [totalExcess, List.sum_eq_zero_iff_forall_eq_nat, List.forall_mem_map]
  constructor
  · intro hzero i j hilo hihi hjlo hjhi
    exact excess_eq_zero.mp (hzero (i, j) (mem_pairs.mpr ⟨⟨hilo, hihi⟩, hjlo, hjhi⟩))
  · intro hfit p hp
    obtain ⟨⟨hilo, hihi⟩, hjlo, hjhi⟩ := mem_pairs.mp hp
    exact excess_eq_zero.mpr (hfit p.1 p.2 hilo hihi hjlo hjhi)

theorem totalExcess_le (is js : Range) : totalExcess is js ≤ is.size * js.size * (2 ^ 32 - 1) := by
  have hle : ∀ n ∈ (pairs is js).map fun p => excess p.1 p.2, n ≤ 2 ^ 32 - 1 := by
    intro n hn
    obtain ⟨p, _, rfl⟩ := List.mem_map.mp hn
    exact Nat.le_sub_one_of_lt (excess_lt p.1 p.2)
  have hsum := List.sum_le_card_nsmul _ _ hle
  rwa [List.length_map, length_pairs, smul_eq_mul] at hsum

theorem sums_agree_of_allFit {is js : Range} (h : AllFit is js) : sumA is js = sumB is js := by
  rw [sums_eq_iff, totalExcess_eq_zero.mpr h]
  exact Nat.dvd_zero _

/-- With so few pairs the errors cannot add up to a multiple of 2^64. -/
theorem sums_eq_iff_allFit {is js : Range} (h : is.size * js.size ≤ 2 ^ 32) :
    sumA is js = sumB is js ↔ AllFit is js := by
  refine ⟨fun heq => totalExcess_eq_zero.mp ?_, sums_agree_of_allFit⟩
  have hle := totalExcess_le is js
  refine Nat.eq_zero_of_dvd_of_lt ((sums_eq_iff is js).mp heq) ?_
  omega

/-- The branch-free functions are right exactly if `a-b` is an `int`, and the sums agree exactly if
    the errors add up to a multiple of 2^64. -/
theorem branch_free_iff (a b : Int32) (is js : Range) :
    (fMinB a b = fMinA a b ↔ Fits a b) ∧ (fMaxB a b = fMaxA a b ↔ Fits a b) ∧
    (sumA is js = sumB is js ↔ 2 ^ 64 ∣ totalExcess is js) ∧
    (is.size * js.size ≤ 2 ^ 32 → (sumA is js = sumB is js ↔ AllFit is js)) :=
  ⟨fMinB_eq_iff a b, fMaxB_eq_iff a b, sums_eq_iff is js, sums_eq_iff_allFit⟩

/-- INT_MAX and -1, and loops of one turn each over INT_MAX - 1 and -2. -/
theorem branch_free_overflow :
    (fMinB 2147483647 (-1) = 2147483647 ∧ fMinA 2147483647 (-1) = -1) ∧
    (fMaxB 2147483647 (-1) = -1 ∧ fMaxA 2147483647 (-1) = 2147483647) ∧
    sumA ⟨2147483646, 2147483647⟩ ⟨-2, -1⟩ ≠ sumB ⟨2147483646, 2147483647⟩ ⟨-2, -1⟩ := by
  refine ⟨by decide, by decide, ?_⟩
  rw [sumA, sumB, benchmark_eq, benchmark_eq]
  decide

/-- `assert(sum_a==sum_b)` -/
theorem main_assert : sumA tested tested = sumB tested tested := by
  refine sums_agree_of_allFit fun i j hilo hihi hjlo hjhi => ?_
  rw [Int32.le_iff_toInt_le] at hilo hjlo
  rw [Int32.lt_iff_toInt_lt] at hihi hjhi
  have hlo : tested.lo.toInt = 0 := rfl
  have hhi : tested.hi.toInt = 10000 := rfl
  exact ⟨by omega, by omega⟩

end DemosOsLinux.MinMax
