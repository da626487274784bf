/-
  Counting the holders of a readers-writer lock.

  `locked .rd` is the number of readers that hold the lock, `locked .wr` that of writers.
  `Exclusive` says that one writer excludes everybody else; the lemmas say which changes of the
  counters keep it, and that the mode of a holder can be read off the counters (`mode_eq`).
-/
import Mathlib.Logic.Function.Basic

namespace DemosOsLinux.Lib

open Function

inductive Mode where
  | rd
  | wr
  deriving DecidableEq

structure Exclusive (locked : Mode → Nat) : Prop where
  oneWriter : locked .wr ≤ 1
  noWriter : 0 < locked .rd → locked .wr = 0

namespace Exclusive

variable {locked : Mode → Nat}

theorem of_noWriter (h : locked .wr = 0) : Exclusive locked :=
  ⟨Nat.le_trans (Nat.le_of_eq h) (Nat.zero_le 1), fun _ => h⟩

/-- If there are readers, a holder is one. -/
theorem mode_eq (h : Exclusive locked) {m : Mode} (hpos : 0 < locked m) :
    (if locked .rd ≠ 0 then Mode.rd else .wr) = m := by
  cases m with
  | rd => exact if_pos (Nat.ne_of_gt hpos)
  | wr =>
    refine if_neg (not_not_intro ?_)
    by_contra hr
    exact absurd (h.noWriter (Nat.pos_of_ne_zero hr)) (Nat.ne_of_gt hpos)

theorem take_rd (hw : locked .wr = 0) (x : Nat) : Exclusive (update locked .rd x) := by
  apply of_noWriter
  rw [update_of_ne (by decide), hw]

theorem take_wr (hr : locked .rd = 0) : Exclusive (update locked .wr 1) := by
  refine ⟨?_, ?_⟩
  · exact Nat.le_of_eq (update_self ..)
  · rw [update_of_ne (by decide), hr]
    intro h
    exact absurd h (Nat.lt_irrefl 0)

/-- There is no writer after a holder has left. -/
theorem release (h : Exclusive locked) {m : Mode} {x : Nat} (hx : x + 1 = locked m) :
    update locked m x .wr = 0 := by
  cases m with
  | rd =>
    rw [update_of_ne (by decide)]
    exact h.noWriter (hx ▸ Nat.succ_pos x)
  | wr =>
    have hone := h.oneWriter
    rw [update_self]
    omega

end Exclusive

end DemosOsLinux.Lib
