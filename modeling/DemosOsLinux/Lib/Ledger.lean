/-
  Ledgers: what a piece of code has acquired and released.

  * `Balanced`: every resource that was acquired was acquired once and released once, and nothing
    else was released.
  * `nested`: resources acquired in groups, and released group by group in the opposite order.
    `balanced_nested`: such a log is balanced.
-/
import Mathlib.Data.List.Count
import Mathlib.Data.List.Nodup

namespace DemosOsLinux.Lib

inductive LedgerEvent (ρ : Type) where
  | acquired (r : ρ)
  | released (r : ρ)
  deriving DecidableEq

variable {ρ : Type} [DecidableEq ρ]

def Balanced (log : List (LedgerEvent ρ)) : Prop :=
  ∀ r, log.count (.acquired r) = log.count (.released r) ∧ log.count (.acquired r) ≤ 1

def nested : List (List ρ) → List (LedgerEvent ρ)
  | [] => []
  | rs :: gs => rs.map .acquired ++ nested gs ++ rs.map .released

theorem count_acquired_map (rs : List ρ) (r : ρ) :
    (rs.map LedgerEvent.acquired).count (.acquired r) = rs.count r ∧
      (rs.map LedgerEvent.acquired).count (.released r) = 0 := by
  refine ⟨?_, ?_⟩
  · exact List.count_map_of_injective rs _ (fun _ _ h => by cases h; rfl) r
  · simp [List.count_eq_zero]

theorem count_released_map (rs : List ρ) (r : ρ) :
    (rs.map LedgerEvent.released).count (.released r) = rs.count r ∧
      (rs.map LedgerEvent.released).count (.acquired r) = 0 := by
  refine ⟨?_, ?_⟩
  · exact List.count_map_of_injective rs _ (fun _ _ h => by cases h; rfl) r
  · simp [List.count_eq_zero]

theorem count_nested (gs : List (List ρ)) (r : ρ) :
    (nested gs).count (.acquired r) = gs.flatten.count r ∧
      (nested gs).count (.released r) = gs.flatten.count r := by
  induction gs with
  | nil => exact ⟨rfl, rfl⟩
  | cons rs gs ih =>
    have ha := count_acquired_map rs r
    have hr := count_released_map rs r
    rw [nested, List.flatten_cons, List.count_append, List.count_append, List.count_append,
      List.count_append, List.count_append, ih.1, ih.2, ha.1, ha.2, hr.1, hr.2]
    omega

theorem balanced_nested {gs : List (List ρ)} (h : gs.flatten.Nodup) : Balanced (nested gs) := by
  intro r
  obtain ⟨ha, hr⟩ := count_nested gs r
  rw [ha, hr]
  exact ⟨rfl, List.nodup_iff_count_le_one.mp h r⟩

end DemosOsLinux.Lib
