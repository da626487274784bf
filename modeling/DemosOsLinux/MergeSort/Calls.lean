/-
  The recursion of the parallel merge sort (examples/openmp/merge_sort.cc).

  `mergesort(arr, from, to, scratch)` returns at once if `from+1==to`; otherwise it calls itself
  on `[from, mid)` and on `[mid, to)`. The indices are `unsigned int`s, so `from+to` is modulo
  2^32. A call is named by the sections that lead to it.
  * `callAt_of_fits`: up to 2^31 the sum does not wrap, and the calls stay inside `[0, size)`.
  * `exists_bad_call`: beyond, a call on the right edge has its `mid` before its `from`.
  * `mergesort_recursion_iff`: when the recursion comes to its end.
-/
import Mathlib.Algebra.Ring.Nat
import DemosOsLinux.Lib.ForkJoin

namespace DemosOsLinux.MergeSort

open Lib

/-- `(from+to)/2`. -/
def mid (lo hi : UInt32) : UInt32 := (lo + hi) / 2

/-- The arguments `from` and `to` of the call at a path below `mergesort(arr, lo, hi, scratch)`;
    `none` if there is no such call. -/
def callAt (lo hi : UInt32) : List Side → Option (UInt32 × UInt32)
  | [] => some (lo, hi)
  | .left :: p => if lo + 1 = hi then none else callAt lo (mid lo hi) p
  | .right :: p => if lo + 1 = hi then none else callAt (mid lo hi) hi p

section Calls

variable {lo hi : UInt32} {p : List Side}

theorem callAt_leaf (h : lo + 1 = hi) (s : Side) (p : List Side) :
    callAt lo hi (s :: p) = none := by
  cases s <;> rw [callAt, if_pos h]

theorem callAt_left (h : lo + 1 ≠ hi) (p : List Side) :
    callAt lo hi (.left :: p) = callAt lo (mid lo hi) p := by
  rw [callAt, if_neg h]

theorem callAt_right (h : lo + 1 ≠ hi) (p : List Side) :
    callAt lo hi (.right :: p) = callAt (mid lo hi) hi p := by
  rw [callAt, if_neg h]

/-! ## Calls up to 2^31 -/

/-- A range that is not empty and does not make `from+to` wrap. -/
structure Fits (lo hi : UInt32) : Prop where
  lt : lo.toNat < hi.toNat
  le : hi.toNat ≤ 2 ^ 31

theorem toNat_mid (h : lo.toNat + hi.toNat < 2 ^ 32) :
    (mid lo hi).toNat = (lo.toNat + hi.toNat) / 2 := by
  rw [mid, UInt32.toNat_div, UInt32.toNat_add, Nat.mod_eq_of_lt h]
  rfl

theorem add_one_eq_iff (h : lo.toNat < hi.toNat) : lo + 1 = hi ↔ lo.toNat + 1 = hi.toNat := by
  have hlt := hi.toNat_lt
  rw [← UInt32.toNat_inj, UInt32.toNat_add, UInt32.toNat_one, Nat.mod_eq_of_lt (by omega)]

theorem Fits.mid_between (h : Fits lo hi) (hleaf : lo + 1 ≠ hi) :
    lo.toNat < (mid lo hi).toNat ∧ (mid lo hi).toNat < hi.toNat := by
  have hlt := h.lt
  have hle := h.le
  rw [Ne, add_one_eq_iff hlt] at hleaf
  rw [toNat_mid (by omega)]
  omega

theorem Fits.left (h : Fits lo hi) (hleaf : lo + 1 ≠ hi) : Fits lo (mid lo hi) :=
  ⟨(h.mid_between hleaf).1, Nat.le_trans (Nat.le_of_lt (h.mid_between hleaf).2) h.le⟩

theorem Fits.right (h : Fits lo hi) (hleaf : lo + 1 ≠ hi) : Fits (mid lo hi) hi :=
  ⟨(h.mid_between hleaf).2, h.le⟩

/-- The calls below stay inside the range, and each is smaller than the one above. -/
theorem callAt_of_fits (h : Fits lo hi) {a b : UInt32} (hc : callAt lo hi p = some (a, b)) :
    Fits a b ∧ lo.toNat ≤ a.toNat ∧ b.toNat ≤ hi.toNat ∧
      p.length + (b.toNat - a.toNat) ≤ hi.toNat - lo.toNat := by
  induction p generalizing lo hi with
  | nil =>
    cases hc
    exact ⟨h, Nat.le_refl _, Nat.le_refl _, by simp⟩
  | cons s p ih =>
    by_cases hleaf : lo + 1 = hi
    · rw [callAt_leaf hleaf] at hc
      cases hc
    · obtain ⟨hlo, hhi⟩ := h.mid_between hleaf
      rw [List.length_cons]
      cases s with
      | left =>
        rw [callAt_left hleaf] at hc
        obtain ⟨hab, ha, hb, hlen⟩ := ih (h.left hleaf) hc
        exact ⟨hab, ha, by omega, by omega⟩
      | right =>
        rw [callAt_right hleaf] at hc
        obtain ⟨hab, ha, hb, hlen⟩ := ih (h.right hleaf) hc
        exact ⟨hab, by omega, hb, by omega⟩

/-! ## Calls outside -/

/-- The empty range calls itself. -/
theorem callAt_empty (p : List Side) : callAt 0 0 p = some (0, 0) := by
  induction p with
  | nil => rfl
  | cons s p ih =>
    cases s with
    | left =>
      rw [callAt_left (by decide)]
      exact ih
    | right =>
      rw [callAt_right (by decide)]
      exact ih

/-- A wrapped sum puts `mid` before `from`. -/
theorem mid_lt_of_wrap (h : 2 ^ 32 ≤ lo.toNat + hi.toNat) : (mid lo hi).toNat < lo.toNat := by
  have hlo := lo.toNat_lt
  have hhi := hi.toNat_lt
  have hsum : (lo.toNat + hi.toNat) % 2 ^ 32 = lo.toNat + hi.toNat - 2 ^ 32 := by omega
  have hmid : (mid lo hi).toNat = (lo.toNat + hi.toNat - 2 ^ 32) / 2 := by
    rw [mid, UInt32.toNat_div, UInt32.toNat_add, hsum]
    rfl
  omega

theorem exists_bad_call (lo hi : UInt32) (hwide : lo.toNat + 2 ≤ hi.toNat)
    (hbig : 2 ^ 31 < hi.toNat) : ∃ p a b, callAt lo hi p = some (a, b) ∧ ¬a < b := by
  have hleaf : lo + 1 ≠ hi := by
    rw [Ne, add_one_eq_iff (by omega)]
    omega
  by_cases hwrap : 2 ^ 32 ≤ lo.toNat + hi.toNat
  · refine ⟨[.left], lo, mid lo hi, ?_, ?_⟩
    · rw [callAt_left hleaf]
      rfl
    · rw [UInt32.lt_iff_toNat_lt]
      exact Nat.not_lt.mpr (Nat.le_of_lt (mid_lt_of_wrap hwrap))
  · -- down the right edge, where two elements are left before one is
    have hmid := toNat_mid (Nat.lt_of_not_le hwrap)
    obtain ⟨p, a, b, hc, hab⟩ := exists_bad_call (mid lo hi) hi (by omega) hbig
    refine ⟨.right :: p, a, b, ?_, hab⟩
    rw [callAt_right hleaf]
    exact hc
termination_by hi.toNat - lo.toNat

end Calls

/-- **The recursion of merge sort.** For a size of 32 bits, the recursion of
    `mergesort(arr, 0, size, scratch)` has a bounded depth, and each of its calls has a range
    `from < to` inside `[0, size)`, if and only if the size is between 1 and 2^31. -/
theorem mergesort_recursion_iff (size : UInt32) :
    ((∃ depth, ∀ p : List Side, depth ≤ p.length → callAt 0 size p = none) ∧
      ∀ p lo hi, callAt 0 size p = some (lo, hi) → lo < hi ∧ hi ≤ size) ↔
      1 ≤ size.toNat ∧ size.toNat ≤ 2 ^ 31 := by
  constructor
  · rintro ⟨⟨depth, hdepth⟩, hcalls⟩
    constructor
    · by_contra hzero
      obtain rfl : size = 0 := UInt32.toNat_inj.mp (by rw [UInt32.toNat_zero]; omega)
      have hnone := hdepth (List.replicate depth .left) (by simp)
      rw [callAt_empty] at hnone
      cases hnone
    · by_contra hbig
      obtain ⟨p, lo, hi, hc, hbad⟩ := exists_bad_call 0 size
        (by rw [UInt32.toNat_zero]; omega) (by omega)
      exact hbad (hcalls p lo hi hc).1
  · rintro ⟨hpos, hle⟩
    have hfits : Fits 0 size := ⟨hpos, hle⟩
    constructor
    · refine ⟨size.toNat, fun p hp => ?_⟩
      cases hc : callAt 0 size p with
      | none => rfl
      | some c =>
        obtain ⟨hab, _, _, hlen⟩ := callAt_of_fits hfits hc
        have := hab.lt
        omega
    · intro p lo hi hc
      obtain ⟨hab, _, hhi, _⟩ := callAt_of_fits hfits hc
      exact ⟨UInt32.lt_iff_toNat_lt.mpr hab.lt, UInt32.le_iff_toNat_le.mpr hhi⟩

/-- With size 0 every call calls itself again, and with size 2^31 + 1 the call on the last two
    elements calls `mergesort(arr, 2147483647, 0, scratch)`. -/
theorem mergesort_recursion_fails :
    (∀ p, callAt 0 0 p = some (0, 0)) ∧
      callAt 0 2147483649 (List.replicate 31 .right ++ [.left]) = some (2147483647, 0) :=
  ⟨callAt_empty, by decide +kernel⟩

end DemosOsLinux.MergeSort
