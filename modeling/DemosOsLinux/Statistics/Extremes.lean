/-
  The extremes of `Stat` (include/Stat.hh).

  `max` and `maxabs` start at `DBL_MIN`, `min` and `minabs` at `DBL_MAX`; from then on each is the
  greatest or least of its start and the values seen (`acceptAll_extremes`). A start does no harm iff
  some value is on its other side (`isGreatest_iff_of_insert`). Below `DBL_MAX` that is so of every
  value, but `DBL_MIN` is positive: `extremes_iff`.
-/
import DemosOsLinux.Statistics.Histogram
import Mathlib.Order.Bounds.Basic

namespace DemosOsLinux.Statistics

/-! ## Starting values -/

section Start

variable {α : Type} [LinearOrder α] {V : Set α} {a m : α}

theorem isGreatest_iff_of_insert (h : IsGreatest (insert a V) m) :
    IsGreatest V m ↔ ∃ v ∈ V, a ≤ v := by
  have hupper : ∀ v ∈ V, v ≤ m := fun v hv => h.2 (Set.mem_insert_of_mem a hv)
  constructor
  · intro hm
    exact ⟨m, hm.1, h.2 (Set.mem_insert a V)⟩
  · rintro ⟨v, hv, hav⟩
    rcases h.1 with rfl | hm
    · obtain rfl := le_antisymm hav (hupper v hv)
      exact ⟨hv, hupper⟩
    · exact ⟨hm, hupper⟩

theorem isLeast_of_insert (h : IsLeast (insert a V) m) (hV : ∃ v ∈ V, v ≤ a) : IsLeast V m :=
  (isGreatest_iff_of_insert (α := αᵒᵈ) h).mpr hV

end Start

/-! ## One value, and a list -/

/-- The accepted values. -/
def seen (vals : List Rat) : Set Rat := { v | v ∈ vals }

/-- Their absolute values. -/
def seenAbs (vals : List Rat) : Set Rat := seen (vals.map fun v => |v|)

theorem insert_seen_concat (a : Rat) (vals : List Rat) (val : Rat) :
    insert a (seen (vals ++ [val])) = insert val (insert a (seen vals)) := by
  ext x
  simp only [seen, Set.mem_insert_iff, Set.mem_ofPred_eq, List.mem_append, List.mem_singleton]
  tauto

theorem insert_seenAbs_concat (a : Rat) (vals : List Rat) (val : Rat) :
    insert a (seenAbs (vals ++ [val])) = insert |val| (insert a (seenAbs vals)) := by
  unfold seenAbs
  rw [List.map_append]
  exact insert_seen_concat a _ |val|

/-- Each extreme is that of its start `lo` or `hi` and the values. -/
structure Extremes (lo hi : Rat) (vals : List Rat) (s : Stat) : Prop where
  max : IsGreatest (insert lo (seen vals)) s.max
  min : IsLeast (insert hi (seen vals)) s.min
  maxabs : IsGreatest (insert lo (seenAbs vals)) s.maxabs
  minabs : IsLeast (insert hi (seenAbs vals)) s.minabs

variable {s : Stat} {lo hi : Rat} {vals : List Rat}

/-- The histogram does not touch the extremes. -/
theorem updateExtremes_addToBin (s : Stat) (val : Rat) :
    (updateExtremes (addToBin s val).1 val).max = Max.max val s.max ∧
    (updateExtremes (addToBin s val).1 val).min = Min.min val s.min ∧
    (updateExtremes (addToBin s val).1 val).maxabs = Max.max |val| s.maxabs ∧
    (updateExtremes (addToBin s val).1 val).minabs = Min.min |val| s.minabs := by
  have hframe : (addToBin s val).1.max = s.max ∧ (addToBin s val).1.min = s.min ∧
      (addToBin s val).1.maxabs = s.maxabs ∧ (addToBin s val).1.minabs = s.minabs := by
    unfold addToBin
    split
    · exact ⟨rfl, rfl, rfl, rfl⟩
    · split <;> exact ⟨rfl, rfl, rfl, rfl⟩
  have hmax : ∀ x y : Rat, (if x > y then x else y) = Max.max x y := fun x y => by
    rw [max_comm, max_def_lt]
  have hmin : ∀ x y : Rat, (if x < y then x else y) = Min.min x y := fun x y => by
    rw [min_def_lt]
  simp only [updateExtremes, hframe, hmax, hmin, and_self]

theorem Extremes.accepted (h : Extremes lo hi vals s) (val : Rat) :
    Extremes lo hi (vals ++ [val]) (accept s val).1 := by
  obtain ⟨hmax, hmin, hmaxabs, hminabs⟩ := updateExtremes_addToBin s val
  refine ⟨?_, ?_, ?_, ?_⟩
  · rw [insert_seen_concat, show (accept s val).1.max = Max.max val s.max from hmax]
    exact h.max.insert val
  · rw [insert_seen_concat, show (accept s val).1.min = Min.min val s.min from hmin]
    exact h.min.insert val
  · rw [insert_seenAbs_concat, show (accept s val).1.maxabs = Max.max |val| s.maxabs from hmaxabs]
    exact h.maxabs.insert |val|
  · rw [insert_seenAbs_concat, show (accept s val).1.minabs = Min.min |val| s.minabs from hminabs]
    exact h.minabs.insert |val|

theorem acceptAll_extremes (h : Extremes lo hi [] s) (vals : List Rat) :
    Extremes lo hi vals (acceptAll s vals).1 := by
  induction vals using List.reverseRecOn with
  | nil => exact h
  | append_singleton vals val ih =>
    rw [acceptAll_concat]
    exact ih.accepted val

theorem initial_extremes (limits : FloatLimits) (binnum : UInt32) (binsize mean : Rat)
    (bins : List UInt32) :
    Extremes limits.dblMin limits.dblMax [] (initial limits binnum binsize mean bins) := by
  have hseen : seen [] = ∅ := Set.eq_empty_iff_forall_notMem.mpr fun _ => List.not_mem_nil
  have hseenAbs : seenAbs [] = ∅ := hseen
  refine ⟨?_, ?_, ?_, ?_⟩
  · rw [hseen, insert_empty_eq]
    exact isGreatest_singleton
  · rw [hseen, insert_empty_eq]
    exact isLeast_singleton
  · rw [hseenAbs, insert_empty_eq]
    exact isGreatest_singleton
  · rw [hseenAbs, insert_empty_eq]
    exact isLeast_singleton

/-! ## The extremes of the values alone -/

/-- The four fields are what their names say. -/
structure ExtremesRight (vals : List Rat) (s : Stat) : Prop where
  max : IsGreatest (seen vals) s.max
  min : IsLeast (seen vals) s.min
  maxabs : IsGreatest (seenAbs vals) s.maxabs
  minabs : IsLeast (seenAbs vals) s.minabs

theorem Extremes.right_iff (h : Extremes lo hi vals s) (hne : vals ≠ [])
    (hhi : ∀ val ∈ vals, |val| ≤ hi) : ExtremesRight vals s ↔ ∃ val ∈ vals, lo ≤ val := by
  obtain ⟨v, hv⟩ := List.exists_mem_of_ne_nil vals hne
  constructor
  · intro hr
    exact (isGreatest_iff_of_insert h.max).mp hr.max
  · rintro ⟨val, hval, hlo⟩
    refine ⟨(isGreatest_iff_of_insert h.max).mpr ⟨val, hval, hlo⟩,
      isLeast_of_insert h.min ⟨v, hv, (le_abs_self v).trans (hhi v hv)⟩,
      (isGreatest_iff_of_insert h.maxabs).mpr ⟨|val|, List.mem_map_of_mem hval, ?_⟩,
      isLeast_of_insert h.minabs ⟨|v|, List.mem_map_of_mem hv, hhi v hv⟩⟩
    exact hlo.trans (le_abs_self val)

theorem extremes_iff (limits : FloatLimits) (binnum : UInt32) (binsize mean : Rat)
    (uninit : Fin binnum.toNat → UInt32) (vals : List Rat) (hne : vals ≠ [])
    (hbound : ∀ val ∈ vals, |val| ≤ limits.dblMax) :
    ∃ s, construct limits binnum binsize mean uninit = some s ∧
      (ExtremesRight vals (acceptAll s vals).1 ↔ ∃ val ∈ vals, limits.dblMin ≤ val) :=
  ⟨_, construct_eq limits binnum binsize mean uninit,
    (acceptAll_extremes (initial_extremes limits binnum binsize mean _) vals).right_iff hne hbound⟩

theorem one_le_dblMax : 1 ≤ binary64.dblMax :=
  one_le_mul_of_one_le_of_one_le (by norm_num) (one_le_pow₀ one_le_two)

theorem extremes_one : ∃ s, construct binary64 1 1 0 (fun _ => 0) = some s ∧
    ExtremesRight [1, -1] (acceptAll s [1, -1]).1 := by
  have hbound : ∀ val ∈ [1, -1], |val| ≤ binary64.dblMax := by
    simpa using one_le_dblMax
  obtain ⟨s, hs, hiff⟩ := extremes_iff binary64 1 1 0 (fun _ => 0) [1, -1] (by simp) hbound
  refine ⟨s, hs, hiff.mpr ⟨1, List.mem_cons_self, ?_⟩⟩
  exact div_le_one_of_le₀ (one_le_pow₀ one_le_two) (by positivity)

/-- After a single `-1`, `max` is `DBL_MIN`. -/
theorem extremes_minus_one : ∃ s, construct binary64 1 1 0 (fun _ => 0) = some s ∧
    |(-1 : Rat)| ≤ binary64.dblMax ∧ ¬ ExtremesRight [-1] (acceptAll s [-1]).1 := by
  have hbound : |(-1 : Rat)| ≤ binary64.dblMax := by simpa using one_le_dblMax
  refine ⟨_, construct_eq binary64 1 1 0 _, hbound, fun hr => ?_⟩
  have hx := acceptAll_extremes (initial_extremes binary64 1 1 0 (List.replicate 1 0)) [-1]
  obtain ⟨val, hval, hle⟩ := (hx.right_iff (by simp) (by simpa using hbound)).mp hr
  obtain rfl := List.mem_singleton.mp hval
  exact absurd (binary64.dblMin_pos.trans_le hle) (by norm_num)

end DemosOsLinux.Statistics
