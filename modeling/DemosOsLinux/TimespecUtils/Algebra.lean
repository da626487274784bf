/-
  `struct timespec` arithmetic (include/timespec_utils.h).

  A `timespec` stands for `tv_sec * 10^9 + tv_nsec` nanoseconds, its total. It is normalised if
  `tv_nsec` is a proper part of a second; then its fields are quotient and remainder of the total
  (`of_total`), and it is the only one with that total (`eq_of_total`). C's `/` and `%` truncate
  toward zero, and signed arithmetic is modulo 2^64 where nothing is assumed about its range.
  * `timespec_algebra`: what each function does to the total.
  * `addNanosTimes_exact`: the periodic loop of examples/real_time/cyclictest.cc.
  * `add_nanos_normalises_iff`: for sums below zero the remainder is negative, unless it is zero.
-/
import DemosOsLinux.Lib.MachineInt

namespace DemosOsLinux.TimespecUtils

open Lib

/-- `NSEC_PER_SEC`. -/
def nsecPerSec : Int64 := 1000000000

/-- `MSEC_PER_SEC`: it is the number of microseconds in a second. -/
def msecPerSec : Int64 := 1000000

/-- `struct timespec`. -/
structure Timespec where
  sec : Int64
  nsec : Int64
deriving DecidableEq

/-- `timespec_add_nanos`. -/
def timespecAddNanos (t : Timespec) (nanosCount : Int64) : Timespec :=
  let nsec := t.nsec + nanosCount
  ⟨t.sec + nsec / nsecPerSec, nsec % nsecPerSec⟩

/-- `timespec_add(to, from)`: what is left in `*to`. -/
def timespecAdd (dst src : Timespec) : Timespec :=
  let nsec := dst.nsec + src.nsec
  ⟨dst.sec + (src.sec + nsec / nsecPerSec), nsec % nsecPerSec⟩

/-- `timespec_diff_nano`; the result is an `unsigned long long`. -/
def timespecDiffNano (tEnd tStart : Timespec) : Nat :=
  u64OfInt ((tEnd.sec - tStart.sec) * nsecPerSec + (tEnd.nsec - tStart.nsec)).toInt

/-- `timespec_sub(end, start, result)`. -/
def timespecSub (tEnd start : Timespec) : Timespec :=
  let sec := tEnd.sec - start.sec
  let nsec := tEnd.nsec - start.nsec
  if nsec < 0 then ⟨sec - 1, nsec + nsecPerSec⟩ else ⟨sec, nsec⟩

/-- `timespec_to_micros`. -/
def timespecToMicros (t : Timespec) : Nat :=
  u64OfInt (t.sec * msecPerSec + t.nsec / 1000).toInt

/-! ## Totals -/

def total (t : Timespec) : Int := t.sec.toInt * 10 ^ 9 + t.nsec.toInt

def Normalised (t : Timespec) : Prop := 0 ≤ t.nsec.toInt ∧ t.nsec.toInt < 10 ^ 9

/-- The seconds of `x` nanoseconds are a `time_t`. -/
def Representable (x : Int) : Prop := FitsI64 (x / 10 ^ 9)

variable {a b t : Timespec} {x : Int} {n : Int64}

theorem of_total (hsec : t.sec.toInt = x / 10 ^ 9) (hnsec : t.nsec.toInt = x % 10 ^ 9) :
    Normalised t ∧ total t = x := by
  unfold Normalised total
  omega

theorem Normalised.total_div (h : Normalised t) : total t / 10 ^ 9 = t.sec.toInt := by
  unfold Normalised at h
  unfold total
  omega

theorem Normalised.total_mod (h : Normalised t) : total t % 10 ^ 9 = t.nsec.toInt := by
  unfold Normalised at h
  unfold total
  omega

theorem eq_of_total (ha : Normalised a) (hb : Normalised b) (h : total a = total b) : a = b := by
  have hsec : a.sec = b.sec := Int64.toInt_inj.mp (by rw [← ha.total_div, h, hb.total_div])
  have hnsec : a.nsec = b.nsec := Int64.toInt_inj.mp (by rw [← ha.total_mod, h, hb.total_mod])
  cases a
  cases b
  exact congrArg₂ Timespec.mk hsec hnsec

theorem Normalised.representable (h : Normalised t) : Representable (total t) := by
  unfold Representable
  rw [h.total_div]
  exact ⟨t.sec.le_toInt, t.sec.toInt_lt⟩

/-! ## Sums -/

theorem nsecPerSec_toInt : nsecPerSec.toInt = 10 ^ 9 := rfl

theorem div_nsecPerSec_toInt (n : Int64) : (n / nsecPerSec).toInt = n.toInt.tdiv (10 ^ 9) := by
  have hlo := n.le_toInt
  have hhi := n.toInt_lt
  have hfits : FitsI64 (n.toInt.tdiv (10 ^ 9)) := by
    rw [Int.tdiv_eq_ediv, show (10 ^ 9 : Int).sign = 1 from rfl]
    unfold FitsI64
    split <;> omega
  rw [Int64.toInt_div, nsecPerSec_toInt, hfits.bmod]

theorem mod_nsecPerSec_toInt (n : Int64) : (n % nsecPerSec).toInt = n.toInt.tmod (10 ^ 9) := by
  rw [Int64.toInt_mod, nsecPerSec_toInt]

theorem add_toInt {m : Int64} (h : FitsI64 (m.toInt + n.toInt)) :
    (m + n).toInt = m.toInt + n.toInt := by
  rw [Int64.toInt_add, h.bmod]

theorem sub_toInt {m : Int64} (h : FitsI64 (m.toInt - n.toInt)) :
    (m - n).toInt = m.toInt - n.toInt := by
  rw [Int64.toInt_sub, h.bmod]

/-- No operation of `timespec_add_nanos` overflows. -/
def AddNanosFits (t : Timespec) (n : Int64) : Prop :=
  FitsI64 (t.nsec.toInt + n.toInt) ∧ FitsI64 (t.sec.toInt + (t.nsec.toInt + n.toInt).tdiv (10 ^ 9))

theorem timespecAddNanos_sec (h : AddNanosFits t n) :
    (timespecAddNanos t n).sec.toInt =
      t.sec.toInt + (t.nsec.toInt + n.toInt).tdiv (10 ^ 9) := by
  have hdiv : ((t.nsec + n) / nsecPerSec).toInt = (t.nsec.toInt + n.toInt).tdiv (10 ^ 9) := by
    rw [div_nsecPerSec_toInt, add_toInt h.1]
  show (t.sec + (t.nsec + n) / nsecPerSec).toInt = _
  rw [add_toInt (hdiv ▸ h.2), hdiv]

theorem timespecAddNanos_nsec (h : AddNanosFits t n) :
    (timespecAddNanos t n).nsec.toInt = (t.nsec.toInt + n.toInt).tmod (10 ^ 9) := by
  show ((t.nsec + n) % nsecPerSec).toInt = _
  rw [mod_nsecPerSec_toInt, add_toInt h.1]

/-- The total is right for every count. -/
theorem timespecAddNanos_total (h : AddNanosFits t n) :
    total (timespecAddNanos t n) = total t + n.toInt := by
  have hdiv := Int.mul_tdiv_add_tmod (t.nsec.toInt + n.toInt) (10 ^ 9)
  unfold total
  rw [timespecAddNanos_sec h, timespecAddNanos_nsec h]
  omega

theorem timespecAddNanos_normalised_iff (h : AddNanosFits t n) :
    Normalised (timespecAddNanos t n) ↔
      0 ≤ t.nsec.toInt + n.toInt ∨ 10 ^ 9 ∣ t.nsec.toInt + n.toInt := by
  unfold Normalised
  rw [timespecAddNanos_nsec h, Int.tmod_eq_emod]
  split
  · next hsum => simp only [hsum, iff_true]; omega
  -- a sum below zero that is no whole number of seconds has a negative remainder
  · next hsum => simp only [hsum, iff_false]; omega

theorem timespecAdd_exact (ha : Normalised a) (hb : Normalised b)
    (hfits : Representable (total a + total b)) :
    Normalised (timespecAdd a b) ∧ total (timespecAdd a b) = total a + total b := by
  unfold Normalised at ha hb
  have hadd : (a.nsec + b.nsec).toInt = a.nsec.toInt + b.nsec.toInt :=
    add_toInt ⟨by omega, by omega⟩
  have hnonneg : 0 ≤ (a.nsec + b.nsec).toInt := by omega
  have hsec : a.sec.toInt + (b.sec.toInt + (a.nsec + b.nsec).toInt / 10 ^ 9) =
      (total a + total b) / 10 ^ 9 := by
    unfold total
    omega
  refine of_total ?_ ?_
  · show (a.sec + (b.sec + (a.nsec + b.nsec) / nsecPerSec)).toInt = _
    rw [Int64.toInt_add, Int64.toInt_add, Int.add_bmod_bmod, div_nsecPerSec_toInt,
      Int.tdiv_eq_ediv_of_nonneg hnonneg, hsec, FitsI64.bmod hfits]
  · show ((a.nsec + b.nsec) % nsecPerSec).toInt = _
    rw [mod_nsecPerSec_toInt, Int.tmod_eq_emod_of_nonneg hnonneg]
    unfold total
    omega

theorem timespecSub_exact (ha : Normalised a) (hb : Normalised b)
    (hfits : Representable (total a - total b)) :
    Normalised (timespecSub a b) ∧ total (timespecSub a b) = total a - total b := by
  unfold Normalised at ha hb
  have hsub : (a.nsec - b.nsec).toInt = a.nsec.toInt - b.nsec.toInt :=
    sub_toInt ⟨by omega, by omega⟩
  have hneg : a.nsec - b.nsec < 0 ↔ a.nsec.toInt - b.nsec.toInt < 0 := by
    rw [Int64.lt_iff_toInt_lt, hsub]
    rfl
  unfold timespecSub
  dsimp only
  by_cases hborrow : a.nsec.toInt - b.nsec.toInt < 0
  · rw [if_pos (hneg.mpr hborrow)]
    have hsec : a.sec.toInt - b.sec.toInt - 1 = (total a - total b) / 10 ^ 9 := by
      unfold total
      omega
    have hback : (a.nsec - b.nsec + nsecPerSec).toInt = (a.nsec - b.nsec).toInt + 10 ^ 9 :=
      add_toInt (by rw [nsecPerSec_toInt, hsub]; exact ⟨by omega, by omega⟩)
    refine of_total ?_ ?_
    · show (a.sec - b.sec - 1).toInt = _
      rw [Int64.toInt_sub, Int64.toInt_sub, Int.bmod_sub_bmod, Int64.toInt_one, hsec,
        FitsI64.bmod hfits]
    · rw [hback, hsub]
      unfold total
      omega
  · rw [if_neg fun h => hborrow (hneg.mp h)]
    have hsec : a.sec.toInt - b.sec.toInt = (total a - total b) / 10 ^ 9 := by
      unfold total
      omega
    refine of_total ?_ ?_
    · show (a.sec - b.sec).toInt = _
      rw [Int64.toInt_sub, hsec, FitsI64.bmod hfits]
    · rw [hsub]
      unfold total
      omega

/-- Subtracting what was added. -/
theorem timespecSub_timespecAdd (ha : Normalised a) (hb : Normalised b)
    (hfits : Representable (total a + total b)) : timespecSub (timespecAdd a b) b = a := by
  obtain ⟨hadd, htotal⟩ := timespecAdd_exact ha hb hfits
  have hback : total (timespecAdd a b) - total b = total a := by omega
  obtain ⟨hsub, htotal'⟩ := timespecSub_exact hadd hb (hback ▸ ha.representable)
  exact eq_of_total hsub ha (htotal'.trans hback)

/-! ## Unsigned results -/

theorem timespecDiffNano_eq (a b : Timespec) :
    timespecDiffNano a b = u64OfInt (total a - total b) := by
  have hsum : (a.sec.toInt - b.sec.toInt) * 10 ^ 9 + (a.nsec.toInt - b.nsec.toInt) =
      total a - total b := by
    unfold total
    omega
  unfold timespecDiffNano
  rw [Int64.toInt_add, Int64.toInt_mul, Int64.toInt_sub, Int64.toInt_sub, nsecPerSec_toInt,
    Int.bmod_mul_bmod, Int.bmod_add_bmod, Int.add_bmod_bmod, hsum, u64OfInt_bmod]

theorem timespecToMicros_eq (h : Normalised t) :
    timespecToMicros t = u64OfInt (total t / 1000) := by
  unfold Normalised at h
  have hsum : t.sec.toInt * 10 ^ 6 + t.nsec.toInt / 1000 = total t / 1000 := by
    unfold total
    omega
  have hdiv : (t.nsec / 1000).toInt = t.nsec.toInt / 1000 := by
    have hfits : FitsI64 (t.nsec.toInt / 1000) := ⟨by omega, by omega⟩
    rw [Int64.toInt_div, show (1000 : Int64).toInt = 1000 from rfl,
      Int.tdiv_eq_ediv_of_nonneg h.1, hfits.bmod]
  unfold timespecToMicros
  rw [Int64.toInt_add, Int64.toInt_mul, hdiv, show msecPerSec.toInt = 10 ^ 6 from rfl,
    Int.bmod_add_bmod, hsum, u64OfInt_bmod]

/-! ## The periodic loop -/

/-- `n` times `timespec_add_nanos(&t, interval)`. -/
def addNanosTimes (interval : Int64) (n : Nat) (t : Timespec) : Timespec :=
  (fun t => timespecAddNanos t interval)^[n] t

theorem addNanosTimes_succ (interval : Int64) (n : Nat) (t : Timespec) :
    addNanosTimes interval (n + 1) t = timespecAddNanos (addNanosTimes interval n t) interval :=
  Function.iterate_succ_apply' _ n t

theorem addNanosTimes_exact {interval : Int64} (ht : Normalised t) (hpos : 0 ≤ interval.toInt)
    {n : Nat} (hfits : ∀ k < n, AddNanosFits (addNanosTimes interval k t) interval) :
    Normalised (addNanosTimes interval n t) ∧
      total (addNanosTimes interval n t) = total t + n * interval.toInt := by
  induction n with
  | zero => exact ⟨ht, by simp [addNanosTimes]⟩
  | succ n ih =>
    obtain ⟨hnorm, htotal⟩ := ih fun k hk => hfits k (Nat.lt_succ_of_lt hk)
    have hsum : 0 ≤ (addNanosTimes interval n t).nsec.toInt + interval.toInt := by
      have hnonneg := hnorm.1
      omega
    have hlast := hfits n (Nat.lt_succ_self n)
    rw [addNanosTimes_succ, timespecAddNanos_total hlast, htotal]
    refine ⟨(timespecAddNanos_normalised_iff hlast).mpr (Or.inl hsum), ?_⟩
    rw [Nat.cast_succ, Int.add_mul, Int.one_mul, Int.add_assoc]

/-- The functions compute with totals. -/
theorem timespec_algebra (a b : Timespec) (ha : Normalised a) (hb : Normalised b) :
    (Representable (total a + total b) → Normalised (timespecAdd a b) ∧
      total (timespecAdd a b) = total a + total b ∧ timespecSub (timespecAdd a b) b = a) ∧
    (Representable (total a - total b) → Normalised (timespecSub a b) ∧
      total (timespecSub a b) = total a - total b) ∧
    timespecDiffNano a b = u64OfInt (total a - total b) ∧
    timespecToMicros a = u64OfInt (total a / 1000) ∧
    ∀ interval n, 0 ≤ interval.toInt →
      (∀ k < n, AddNanosFits (addNanosTimes interval k a) interval) →
      Normalised (addNanosTimes interval n a) ∧
        total (addNanosTimes interval n a) = total a + n * interval.toInt := by
  refine ⟨fun hfits => ?_, timespecSub_exact ha hb, timespecDiffNano_eq a b,
    timespecToMicros_eq ha, fun interval n hpos hfits => addNanosTimes_exact ha hpos hfits⟩
  obtain ⟨hadd, htotal⟩ := timespecAdd_exact ha hb hfits
  exact ⟨hadd, htotal, timespecSub_timespecAdd ha hb hfits⟩

theorem timespec_algebra_before_epoch :
    Normalised ⟨-1, 600000000⟩ ∧ Normalised ⟨0, 700000000⟩ ∧
      timespecSub (timespecAdd ⟨-1, 600000000⟩ ⟨0, 700000000⟩) ⟨0, 700000000⟩ = ⟨-1, 600000000⟩ ∧
      total (addNanosTimes 500000 2 ⟨-1, 600000000⟩) =
        total ⟨-1, 600000000⟩ + (2 : Nat) * (500000 : Int64).toInt := by
  have ha : Normalised ⟨-1, 600000000⟩ := by unfold Normalised; decide
  have hb : Normalised ⟨0, 700000000⟩ := by unfold Normalised; decide
  obtain ⟨hadd, -, -, -, hloop⟩ := timespec_algebra _ _ ha hb
  have hfits : ∀ k < 2, AddNanosFits (addNanosTimes 500000 k ⟨-1, 600000000⟩) 500000 := by
    unfold AddNanosFits FitsI64
    decide
  exact ⟨ha, hb, (hadd (by unfold Representable FitsI64; decide)).2.2,
    (hloop 500000 2 (by decide) hfits).2⟩

/-- C's remainder has the sign of the sum. -/
theorem add_nanos_normalises_iff (t : Timespec) (n : Int64) (_ht : Normalised t)
    (hfits : AddNanosFits t n) :
    Normalised (timespecAddNanos t n) ∧ total (timespecAddNanos t n) = total t + n.toInt ↔
      0 ≤ t.nsec.toInt + n.toInt ∨ 10 ^ 9 ∣ t.nsec.toInt + n.toInt := by
  rw [timespecAddNanos_normalised_iff hfits, and_iff_left (timespecAddNanos_total hfits)]

theorem add_nanos_one_second_back :
    Normalised (timespecAddNanos ⟨5, 0⟩ (-1000000000)) ∧
      total (timespecAddNanos ⟨5, 0⟩ (-1000000000)) =
        total ⟨5, 0⟩ + (-1000000000 : Int64).toInt :=
  (add_nanos_normalises_iff ⟨5, 0⟩ (-1000000000) (by unfold Normalised; decide)
    (by unfold AddNanosFits FitsI64; decide)).mpr (Or.inr (by decide))

/-- One nanosecond before second 5. -/
theorem add_nanos_minus_one :
    Normalised ⟨5, 0⟩ ∧ AddNanosFits ⟨5, 0⟩ (-1) ∧ timespecAddNanos ⟨5, 0⟩ (-1) = ⟨5, -1⟩ ∧
      ¬ (Normalised (timespecAddNanos ⟨5, 0⟩ (-1)) ∧
        total (timespecAddNanos ⟨5, 0⟩ (-1)) = total ⟨5, 0⟩ + (-1 : Int64).toInt) := by
  have ht : Normalised ⟨5, 0⟩ := by unfold Normalised; decide
  have hfits : AddNanosFits ⟨5, 0⟩ (-1) := by unfold AddNanosFits FitsI64; decide
  refine ⟨ht, hfits, by decide, ?_⟩
  unfold Normalised
  decide

end DemosOsLinux.TimespecUtils
