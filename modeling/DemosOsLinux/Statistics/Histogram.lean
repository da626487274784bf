/-
  `Stat` (include/Stat.hh): a histogram, extremes and moments of the accepted values.

  `double` is the rationals, the counters are `unsigned int`. An increment of `bins[bin]` is recorded
  with the value it counts; outside of the array it leaves the bins as they are.
  * `binOf_spec`: the bin of a value in range, by the floor of its distance from `minbin`.
  * `accept_conserves`: one value adds one to the bins and to `counter`, unless its bin is outside.
  * `histogram_conserved_iff`: the only such value is `maxbin` itself; the test that should send it
    to `bin_max` is `val>maxbin`.
-/
import DemosOsLinux.Lib.ArrayLoops
import Mathlib.Data.List.Induction
import Mathlib.Data.Rat.Floor
import Mathlib.Data.UInt

namespace DemosOsLinux.Statistics

open Lib

/-- `DBL_MIN`, which is the least positive normal `double`, and `DBL_MAX`. -/
structure FloatLimits where
  dblMin : Rat
  dblMax : Rat
  dblMin_pos : 0 < dblMin
  dblMin_le : dblMin ≤ dblMax

/-- `float.h` for 64-bit `double`. -/
def binary64 : FloatLimits where
  dblMin := 1 / 2 ^ 1022
  dblMax := (2 ^ 53 - 1) * 2 ^ 971
  dblMin_pos := by positivity
  dblMin_le := by
    have hmin : (1 : Rat) / 2 ^ 1022 ≤ 1 := div_le_one_of_le₀ (one_le_pow₀ one_le_two) (by positivity)
    have hmax : (1 : Rat) ≤ (2 ^ 53 - 1) * 2 ^ 971 :=
      one_le_mul_of_one_le_of_one_le (by norm_num) (one_le_pow₀ one_le_two)
    exact hmin.trans hmax

/-- `class Stat`. -/
structure Stat where
  binnum : UInt32
  binsize : Rat
  mean : Rat
  bins : List UInt32
  binMax : UInt32
  binMin : UInt32
  minbin : Rat
  maxbin : Rat
  max : Rat
  min : Rat
  maxabs : Rat
  minabs : Rat
  ex : Rat
  ex2 : Rat
  counter : UInt32

/-- The object once `bins` is allocated and cleared. -/
def initial (limits : FloatLimits) (ibinnum : UInt32) (ibinsize imean : Rat) (bins : List UInt32) :
    Stat where
  binnum := ibinnum
  binsize := ibinsize
  mean := imean
  bins := bins
  binMax := 0
  binMin := 0
  minbin := imean - ibinsize * ibinnum.toNat / 2
  maxbin := imean + ibinsize * ibinnum.toNat / 2
  max := limits.dblMin
  min := limits.dblMax
  maxabs := limits.dblMin
  minabs := limits.dblMax
  ex := 0
  ex2 := 0
  counter := 0

/-- `Stat::Stat`; `new` returns memory that holds `uninit`. -/
def construct (limits : FloatLimits) (ibinnum : UInt32) (ibinsize imean : Rat)
    (uninit : Fin ibinnum.toNat → UInt32) : Option Stat := do
  let bins ← forLoop 0 ibinnum.toNat 1 (fun i bins => store bins i 0) (List.ofFn uninit)
  return initial limits ibinnum ibinsize imean bins

/-- One increment of a bin. -/
structure Counted where
  val : Rat
  bin : UInt32

/-- `(unsigned int)(floor(distance/binsize))`. -/
def binOf (s : Stat) (val : Rat) : UInt32 := UInt32.ofNat ⌊(val - s.minbin) / s.binsize⌋.toNat

/-- "Calculate the bin and add one to it". -/
def addToBin (s : Stat) (val : Rat) : Stat × List Counted :=
  if val < s.minbin then ({ s with binMin := s.binMin + 1 }, [])
  else if val > s.maxbin then ({ s with binMax := s.binMax + 1 }, [])
  else
    ({ s with bins := s.bins.modify (binOf s val).toNat (· + 1) }, [⟨val, binOf s val⟩])

/-- "Update min, max, minabs, maxabs". -/
def updateExtremes (s : Stat) (val : Rat) : Stat :=
  { s with
    max := if val > s.max then val else s.max
    min := if val < s.min then val else s.min
    maxabs := if |val| > s.maxabs then |val| else s.maxabs
    minabs := if |val| < s.minabs then |val| else s.minabs }

/-- "Handle stats". -/
def handleStats (s : Stat) (val : Rat) : Stat :=
  { s with ex := s.ex + val, ex2 := s.ex2 + val * val, counter := s.counter + 1 }

/-- `Stat::accept`. -/
def accept (s : Stat) (val : Rat) : Stat × List Counted :=
  (handleStats (updateExtremes (addToBin s val).1 val) val, (addToBin s val).2)

/-- The values of a list, one after the other. -/
def acceptAll (s : Stat) (vals : List Rat) : Stat × List Counted :=
  vals.foldl (fun r val => ((accept r.1 val).1, r.2 ++ (accept r.1 val).2)) (s, [])

theorem acceptAll_concat (s : Stat) (vals : List Rat) (val : Rat) :
    acceptAll s (vals ++ [val]) = ((accept (acceptAll s vals).1 val).1,
      (acceptAll s vals).2 ++ (accept (acceptAll s vals).1 val).2) := by
  unfold acceptAll
  rw [List.foldl_concat]

theorem construct_eq (limits : FloatLimits) (binnum : UInt32) (binsize mean : Rat)
    (uninit : Fin binnum.toNat → UInt32) :
    construct limits binnum binsize mean uninit =
      some (initial limits binnum binsize mean (List.replicate binnum.toNat 0)) := by
  have hfill := forLoop_fill (List.ofFn uninit) 0
  rw [List.length_ofFn] at hfill
  unfold construct
  rw [hfill]
  rfl

/-! ## The bin of a value -/

/-- What the constructor fixes: the bins cover `[minbin, maxbin)`. -/
structure Binned (binnum : UInt32) (binsize mean : Rat) (s : Stat) : Prop where
  size : s.binsize = binsize
  minbin : s.minbin = mean - binsize * binnum.toNat / 2
  maxbin : s.maxbin = mean + binsize * binnum.toNat / 2
  length : s.bins.length = binnum.toNat

variable {binnum : UInt32} {binsize mean val : Rat} {s : Stat}

theorem Binned.width (h : Binned binnum binsize mean s) :
    s.maxbin = s.minbin + binnum.toNat * binsize := by
  rw [h.minbin, h.maxbin]
  ring

/-- The interval of bin `b`. -/
def InBin (s : Stat) (b : Nat) (val : Rat) : Prop :=
  s.minbin + b * s.binsize ≤ val ∧ val < s.minbin + (b + 1) * s.binsize

theorem binOf_spec (h : Binned binnum binsize mean s) (hsize : 0 < binsize) (hlo : s.minbin ≤ val)
    (hhi : val ≤ s.maxbin) :
    (binOf s val).toNat ≤ binnum.toNat ∧ InBin s (binOf s val).toNat val := by
  rw [h.width, ← sub_le_iff_le_add', ← div_le_iff₀ hsize] at hhi
  have hnonneg : 0 ≤ (val - s.minbin) / binsize := div_nonneg (sub_nonneg.mpr hlo) hsize.le
  have hfloor : 0 ≤ ⌊(val - s.minbin) / binsize⌋ := Int.floor_nonneg.mpr hnonneg
  obtain ⟨b, hb⟩ := Int.eq_ofNat_of_zero_le hfloor
  have hlast : b ≤ binnum.toNat := by
    have hle := Int.floor_mono hhi
    rw [hb, Int.floor_natCast] at hle
    exact_mod_cast hle
  have hbin : (binOf s val).toNat = b := by
    unfold binOf
    rw [h.size, hb, Int.toNat_natCast]
    exact UInt32.toNat_ofNat_of_lt' (Nat.lt_of_le_of_lt hlast binnum.toNat_lt)
  have hfle := Int.floor_le ((val - s.minbin) / binsize)
  have hflt := Int.lt_floor_add_one ((val - s.minbin) / binsize)
  rw [hb, Int.cast_natCast] at hfle hflt
  rw [le_div_iff₀ hsize] at hfle
  rw [div_lt_iff₀ hsize] at hflt
  unfold InBin
  rw [hbin, h.size]
  exact ⟨hlast, by linarith, by linarith⟩

/-- Only `maxbin` has a bin that does not exist. -/
theorem binOf_eq_binnum_iff (h : Binned binnum binsize mean s) (hsize : 0 < binsize)
    (hlo : s.minbin ≤ val) (hhi : val ≤ s.maxbin) :
    (binOf s val).toNat = binnum.toNat ↔ val = s.maxbin := by
  obtain ⟨hle, hbin⟩ := binOf_spec h hsize hlo hhi
  unfold InBin at hbin
  rw [h.size] at hbin
  constructor
  · intro heq
    rw [heq, ← h.width] at hbin
    exact le_antisymm hhi hbin.1
  · intro heq
    have hlt : (binnum.toNat : Rat) * binsize < ((binOf s val).toNat + 1) * binsize := by
      have hval : val = s.minbin + binnum.toNat * binsize := heq.trans h.width
      linarith [hbin.2]
    have hcast : (binnum.toNat : Rat) < (binOf s val).toNat + 1 :=
      lt_of_mul_lt_mul_right hlt hsize.le
    have hnat : binnum.toNat < (binOf s val).toNat + 1 := by exact_mod_cast hcast
    omega

/-! ## Conservation -/

theorem sum_modify_succ {xs : List UInt32} {i : Nat} (h : i < xs.length) :
    (xs.modify i (· + 1)).sum = xs.sum + 1 := by
  induction xs generalizing i with
  | nil => exact absurd h (Nat.not_lt_zero i)
  | cons x xs ih =>
    cases i with
    | zero =>
      rw [List.modify_zero_cons, List.sum_cons, List.sum_cons]
      rw [UInt32.add_assoc, UInt32.add_comm 1, ← UInt32.add_assoc]
    | succ i =>
      rw [List.modify_succ_cons, List.sum_cons, List.sum_cons, ih (Nat.lt_of_succ_lt_succ h),
        UInt32.add_assoc]

/-- The sum of all bins, `bin_min` and `bin_max`, an `unsigned int` as they are. -/
def totalCount (s : Stat) : UInt32 := s.bins.sum + s.binMin + s.binMax

theorem totalCount_accept (s : Stat) (val : Rat) :
    totalCount (accept s val).1 = totalCount (addToBin s val).1 := by
  simp only [totalCount, accept, handleStats, updateExtremes]

section Binned

variable (h : Binned binnum binsize mean s)
include h

theorem Binned.accepted (val : Rat) : Binned binnum binsize mean (accept s val).1 := by
  unfold accept addToBin
  split
  · exact ⟨h.size, h.minbin, h.maxbin, h.length⟩
  · split
    · exact ⟨h.size, h.minbin, h.maxbin, h.length⟩
    · have hlength := List.length_modify (· + 1) s.bins (binOf s val).toNat
      exact ⟨h.size, h.minbin, h.maxbin, hlength.trans h.length⟩

/-- A value that is not `maxbin` is counted once, in a bin that exists and is its own. -/
theorem accept_conserves (hsize : 0 < binsize)
    (hval : val ≠ s.maxbin) : totalCount (accept s val).1 = totalCount s + 1 ∧
      ∀ c ∈ (accept s val).2, c.bin < binnum ∧ InBin s c.bin.toNat c.val := by
  rw [totalCount_accept]
  unfold accept addToBin totalCount
  split
  · refine ⟨?_, nofun⟩
    show s.bins.sum + (s.binMin + 1) + s.binMax = _
    rw [← UInt32.add_assoc, UInt32.add_assoc, UInt32.add_comm 1, ← UInt32.add_assoc]
  · next hlo =>
    split
    · exact ⟨(UInt32.add_assoc _ _ 1).symm, nofun⟩
    · next hhi =>
      obtain ⟨hle, hbin⟩ := binOf_spec h hsize (not_lt.mp hlo) (not_lt.mp hhi)
      have hne := mt (binOf_eq_binnum_iff h hsize (not_lt.mp hlo) (not_lt.mp hhi)).mp hval
      have hlt : (binOf s val).toNat < binnum.toNat := Nat.lt_of_le_of_ne hle hne
      constructor
      · show (s.bins.modify (binOf s val).toNat (· + 1)).sum + s.binMin + s.binMax = _
        rw [sum_modify_succ (h.length.symm ▸ hlt), UInt32.add_assoc, UInt32.add_assoc,
          UInt32.add_comm 1, ← UInt32.add_assoc, ← UInt32.add_assoc]
      · intro c hc
        obtain rfl := List.mem_singleton.mp hc
        exact ⟨hlt, hbin⟩

/-- `maxbin` is counted in the bin after the last one. -/
theorem accept_maxbin (hsize : 0 < binsize) : ⟨s.maxbin, binnum⟩ ∈ (accept s s.maxbin).2 := by
  have hwidth : s.minbin ≤ s.maxbin := by
    rw [h.width]
    exact le_add_of_nonneg_right (by positivity)
  have hbin : binOf s s.maxbin = binnum :=
    UInt32.toNat_inj.mp ((binOf_eq_binnum_iff h hsize hwidth le_rfl).mpr rfl)
  unfold accept addToBin
  rw [if_neg (not_lt.mpr hwidth), if_neg (lt_irrefl s.maxbin), hbin]
  exact List.mem_singleton_self _

theorem Binned.inBin_congr {s' : Stat} (h' : Binned binnum binsize mean s') (b : Nat) (val : Rat) :
    InBin s b val ↔ InBin s' b val := by
  unfold InBin
  rw [h.minbin, h'.minbin, h.size, h'.size]

theorem acceptAll_binned (vals : List Rat) : Binned binnum binsize mean (acceptAll s vals).1 := by
  induction vals using List.reverseRecOn with
  | nil => exact h
  | append_singleton vals val ih =>
    rw [acceptAll_concat]
    exact ih.accepted val

end Binned

/-- What is counted is in range and in its own bin, and nothing is lost. -/
structure Conserved (binnum : UInt32) (s : Stat) (counted : List Counted) : Prop where
  bins : ∀ c ∈ counted, c.bin < binnum ∧ InBin s c.bin.toNat c.val
  total : totalCount s = s.counter

theorem acceptAll_conserved (h : Binned binnum binsize mean s) (hsize : 0 < binsize)
    (hstart : totalCount s = s.counter) {vals : List Rat} (hvals : ∀ val ∈ vals, val ≠ s.maxbin) :
    Conserved binnum (acceptAll s vals).1 (acceptAll s vals).2 := by
  induction vals using List.reverseRecOn with
  | nil => exact ⟨nofun, hstart⟩
  | append_singleton vals val ih =>
    have hc := ih fun v hv => hvals v (List.mem_append_left [val] hv)
    have hb := acceptAll_binned h vals
    have hval : val ≠ (acceptAll s vals).1.maxbin := by
      rw [hb.maxbin, ← h.maxbin]
      exact hvals val (List.mem_append_right vals List.mem_cons_self)
    obtain ⟨htotal, hnew⟩ := accept_conserves hb hsize hval
    have hsame := hb.inBin_congr (hb.accepted val)
    rw [acceptAll_concat]
    refine ⟨fun c hc' => ?_, ?_⟩
    · rw [← hsame]
      exact (List.mem_append.mp hc').elim (hc.bins c) (hnew c)
    · have hcounter : (accept (acceptAll s vals).1 val).1.counter =
          (acceptAll s vals).1.counter + 1 := by
        unfold accept addToBin
        split
        · rfl
        · split <;> rfl
      rw [htotal, hc.total, hcounter]

theorem acceptAll_maxbin (h : Binned binnum binsize mean s) (hsize : 0 < binsize)
    {vals : List Rat} (hmax : s.maxbin ∈ vals) : ⟨s.maxbin, binnum⟩ ∈ (acceptAll s vals).2 := by
  induction vals using List.reverseRecOn with
  | nil => cases hmax
  | append_singleton vals val ih =>
    rw [acceptAll_concat]
    rcases List.mem_append.mp hmax with hold | hlast
    · exact List.mem_append_left _ (ih hold)
    · have hb := acceptAll_binned h vals
      have hsame : s.maxbin = (acceptAll s vals).1.maxbin := by rw [h.maxbin, hb.maxbin]
      obtain rfl := List.mem_singleton.mp hlast
      rw [hsame]
      exact List.mem_append_right _ (accept_maxbin hb hsize)

theorem initial_binned (limits : FloatLimits) (binnum : UInt32) (binsize mean : Rat) :
    Binned binnum binsize mean
      (initial limits binnum binsize mean (List.replicate binnum.toNat 0)) :=
  ⟨rfl, rfl, rfl, List.length_replicate⟩

theorem initial_total (limits : FloatLimits) (binnum : UInt32) (binsize mean : Rat) :
    totalCount (initial limits binnum binsize mean (List.replicate binnum.toNat 0)) = 0 := by
  have hsum : ∀ n, (List.replicate n (0 : UInt32)).sum = 0 := by
    intro n
    induction n with
    | zero => rfl
    | succ n ih => rw [List.replicate_succ, List.sum_cons, ih]; rfl
  show (List.replicate binnum.toNat (0 : UInt32)).sum + 0 + 0 = 0
  rw [hsum]
  rfl

theorem histogram_conserved_iff (limits : FloatLimits) (binnum : UInt32) (_hnum : 1 ≤ binnum)
    (binsize mean : Rat) (hsize : 0 < binsize) (uninit : Fin binnum.toNat → UInt32)
    (vals : List Rat) :
    ∃ s, construct limits binnum binsize mean uninit = some s ∧
      (Conserved binnum (acceptAll s vals).1 (acceptAll s vals).2 ↔
        ∀ val ∈ vals, val ≠ mean + binsize * binnum.toNat / 2) := by
  have hb := initial_binned limits binnum binsize mean
  refine ⟨_, construct_eq limits binnum binsize mean uninit, ?_, ?_⟩
  · intro hc val hval heq
    rw [← hb.maxbin] at heq
    have hlt := (hc.bins _ (acceptAll_maxbin hb hsize (heq ▸ hval))).1
    exact absurd hlt (UInt32.lt_irrefl binnum)
  · exact acceptAll_conserved hb hsize (initial_total limits binnum binsize mean)

/-- Three bins from -3/2 to 3/2: a value below them, one in each, one of them on the lower border, and
    one above. -/
theorem histogram_conserved_three : ∃ s, construct binary64 3 1 0 (fun _ => 0) = some s ∧
    Conserved 3 (acceptAll s [-2, -3 / 2, 0, 1, 2]).1 (acceptAll s [-2, -3 / 2, 0, 1, 2]).2 := by
  obtain ⟨s, hs, hiff⟩ := histogram_conserved_iff binary64 3 (by decide) 1 0 (by decide) (fun _ => 0)
    [-2, -3 / 2, 0, 1, 2]
  refine ⟨s, hs, hiff.mpr ?_⟩
  rw [show (3 : UInt32).toNat = 3 from rfl]
  norm_num

/-- One bin around zero, and its upper border: `bins[1]++`. -/
theorem histogram_upper_border : ∃ s, construct binary64 1 1 0 (fun _ => 0) = some s ∧
    ⟨1 / 2, 1⟩ ∈ (acceptAll s [1 / 2]).2 ∧
    ¬ Conserved 1 (acceptAll s [1 / 2]).1 (acceptAll s [1 / 2]).2 := by
  have hb := initial_binned binary64 1 1 0
  have hmax := hb.maxbin
  rw [show (0 : Rat) + 1 * (1 : UInt32).toNat / 2 = 1 / 2 by
    rw [show (1 : UInt32).toNat = 1 from rfl]; norm_num] at hmax
  have hcounted := acceptAll_maxbin hb one_pos (hmax ▸ List.mem_singleton_self (1 / 2 : Rat))
  rw [hmax] at hcounted
  exact ⟨_, construct_eq binary64 1 1 0 _, hcounted,
    fun hc => absurd (hc.bins _ hcounted).1 (UInt32.lt_irrefl 1)⟩

end DemosOsLinux.Statistics
