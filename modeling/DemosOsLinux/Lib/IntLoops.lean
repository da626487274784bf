/-
  `for (int i = lo; i < hi; i++)` over 32-bit numbers.

  `forInt lo hi f x` is that loop with the state `x`; `i++` does not overflow, since `i` is below `hi`.
  `ints lo hi` are the numbers it goes through.
  * `forInt_eq_foldl`: the loop is a fold over them.
  * `mem_ints`, `length_ints`: which they are, and how many.
  * `foldl_ofInt`, `ofInt_add_eq_iff`: sums in a `long`.
-/
import Mathlib.Data.List.Basic
import Mathlib.Algebra.Ring.Int.Defs
import Mathlib.Algebra.Ring.Nat

namespace DemosOsLinux.Lib

variable {σ : Type}

theorem toInt_succ_of_lt {i hi : Int32} (h : i < hi) : (i + 1).toInt = i.toInt + 1 := by
  have hlt : i.toInt < hi.toInt := Int32.lt_iff_toInt_lt.mp h
  have hlo := i.le_toInt
  have hhi := hi.toInt_lt
  rw [Int32.toInt_add]
  refine Int.bmod_eq_of_le ?_ ?_
  · show -(2 ^ 32 / 2) ≤ i.toInt + 1
    omega
  · show i.toInt + 1 < (2 ^ 32 + 1) / 2
    omega

def forInt (i hi : Int32) (f : σ → Int32 → σ) (x : σ) : σ :=
  if i < hi then forInt (i + 1) hi f (f x i) else x
termination_by (hi.toInt - i.toInt).toNat
decreasing_by
  rename_i h
  have hlt : i.toInt < hi.toInt := Int32.lt_iff_toInt_lt.mp h
  rw [toInt_succ_of_lt h]
  omega

def ints (lo hi : Int32) : List Int32 :=
  (List.range (hi.toInt - lo.toInt).toNat).map fun (k : Nat) => Int32.ofInt (lo.toInt + k)

theorem length_ints (lo hi : Int32) : (ints lo hi).length = (hi.toInt - lo.toInt).toNat := by
  rw [ints, List.length_map, List.length_range]

theorem ints_of_not_lt {lo hi : Int32} (h : ¬ lo < hi) : ints lo hi = [] := by
  have hle : ¬ lo.toInt < hi.toInt := fun hlt => h (Int32.lt_iff_toInt_lt.mpr hlt)
  have hlen : (hi.toInt - lo.toInt).toNat = 0 := by omega
  rw [ints, hlen, List.range_zero, List.map_nil]

theorem ints_of_lt {lo hi : Int32} (h : lo < hi) : ints lo hi = lo :: ints (lo + 1) hi := by
  have hlt : lo.toInt < hi.toInt := Int32.lt_iff_toInt_lt.mp h
  have hlen : (hi.toInt - lo.toInt).toNat = (hi.toInt - (lo.toInt + 1)).toNat + 1 := by omega
  rw [ints, ints, toInt_succ_of_lt h, hlen, List.range_succ_eq_map, List.map_cons, List.map_map]
  congr 1
  · rw [Int.natCast_zero, Int.add_zero, Int32.ofInt_toInt]
  · refine List.map_congr_left fun k _ => ?_
    show Int32.ofInt (lo.toInt + ((k + 1 : Nat) : Int)) = Int32.ofInt (lo.toInt + 1 + k)
    congr 1
    omega

theorem forInt_eq_foldl (lo hi : Int32) (f : σ → Int32 → σ) (x : σ) :
    forInt lo hi f x = (ints lo hi).foldl f x := by
  fun_induction forInt lo hi f x with
  | case1 i x h ih => rw [ih, ints_of_lt h, List.foldl_cons]
  | case2 i x h => rw [ints_of_not_lt h, List.foldl_nil]

theorem mem_ints {lo hi i : Int32} : i ∈ ints lo hi ↔ lo ≤ i ∧ i < hi := by
  have hlo := lo.le_toInt
  have hhi := hi.toInt_lt
  rw [Int32.le_iff_toInt_le, Int32.lt_iff_toInt_lt, ints, List.mem_map]
  constructor
  · rintro ⟨k, hk, rfl⟩
    rw [List.mem_range] at hk
    rw [Int32.toInt_ofInt_of_le (by omega) (by omega)]
    omega
  · rintro ⟨hle, hlt⟩
    have hsum : lo.toInt + ((i.toInt - lo.toInt).toNat : Int) = i.toInt := by omega
    refine ⟨(i.toInt - lo.toInt).toNat, List.mem_range.mpr (by omega), ?_⟩
    rw [hsum, Int32.ofInt_toInt]

/-- A wrapping sum is the exact one, cut to 64 bits; `g x` is what a turn adds. -/
theorem foldl_ofInt {α : Type} {f : Int64 → α → Int64} {g : α → Int}
    (h : ∀ n x, f (Int64.ofInt n) x = Int64.ofInt (n + g x)) (xs : List α) (n : Int) :
    xs.foldl f (Int64.ofInt n) = Int64.ofInt (n + (xs.map g).sum) := by
  induction xs generalizing n with
  | nil => rw [List.foldl_nil, List.map_nil, List.sum_nil, Int.add_zero]
  | cons x xs ih => rw [List.foldl_cons, h, ih, List.map_cons, List.sum_cons, Int.add_assoc]

theorem ofInt_add_eq_iff (x : Int) (n : Nat) :
    Int64.ofInt x = Int64.ofInt (x + n) ↔ 2 ^ 64 ∣ n := by
  rw [Int64.ofInt_eq_iff_bmod_eq_toInt, Int64.toInt_ofInt]
  show x.bmod (2 ^ 64) = (x + n).bmod (2 ^ 64) ↔ _
  rw [Int.bmod_def, Int.bmod_def]
  omega

end DemosOsLinux.Lib
