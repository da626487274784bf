/-
  Loops over the blocks of a square.

  `blockedLoops size n row` visits the n×n cells in blocks of `size`, each block once for every block
  of a third index, and each time row by row. How far the cells have come is a function of the row and
  the column; `fillRect` is what it is after a rectangle of cells has reached a value.
  * `blockedLoops_spec`: if `row` takes its part of a row from one block of the third index to the
    next, all cells reach `n`.
-/
import DemosOsLinux.Lib.ArrayLoops

namespace DemosOsLinux.Lib

variable {σ : Type}

/-- The loops over `ii`, `jj`, `kk` and `i`; the last blocks may be partial. -/
def blockedLoops (size n : Nat) (row : Nat → Nat → Nat → σ → Option σ) (s : σ) : Option σ :=
  forLoop 0 n size (fun ii => forLoop 0 n size fun jj => forLoop 0 n size fun kk =>
    forLoop ii (min (ii + size) n) 1 fun i => row i jj kk) s

/-- `D`, with `v` for the rows from `i` to `i'` and the columns from `j` to `j'`. -/
def fillRect (D : Nat → Nat → Nat) (i i' j j' v : Nat) : Nat → Nat → Nat :=
  fun x y => if i ≤ x ∧ x < i' ∧ j ≤ y ∧ y < j' then v else D x y

section FillRect

variable {D : Nat → Nat → Nat} {i i' i'' j j' j'' u v : Nat}

theorem fillRect_of_eq (h : ∀ x y, i ≤ x → x < i' → j ≤ y → y < j' → D x y = v) :
    fillRect D i i' j j' v = D := by
  funext x y
  unfold fillRect
  split
  case isTrue hin => rw [h x y hin.1 hin.2.1 hin.2.2.1 hin.2.2.2]
  case isFalse => rfl

theorem fillRect_same : fillRect (fillRect D i i' j j' u) i i' j j' v = fillRect D i i' j j' v := by
  funext x y
  unfold fillRect
  split <;> simp_all

theorem fillRect_rows (h : i ≤ i') (h' : i' ≤ i'') :
    fillRect (fillRect D i i' j j' v) i' i'' j j' v = fillRect D i i'' j j' v := by
  funext x y
  unfold fillRect
  split_ifs <;> first | rfl | omega

theorem fillRect_cols (h : j ≤ j') (h' : j' ≤ j'') :
    fillRect (fillRect D i i' j j' v) i i' j' j'' v = fillRect D i i' j j'' v := by
  funext x y
  unfold fillRect
  split_ifs <;> first | rfl | omega

theorem fillRect_rows_empty : fillRect D i i j j' v = D :=
  fillRect_of_eq fun x _ hx hx' => by omega

theorem fillRect_cols_empty : fillRect D i i' j j v = D :=
  fillRect_of_eq fun _ y _ _ hy hy' => by omega

/-- Outside of the rectangle nothing changes. -/
theorem fillRect_outside {x y : Nat} (h : ¬(i ≤ x ∧ x < i' ∧ j ≤ y ∧ y < j')) :
    fillRect D i i' j j' v x y = D x y := if_neg h

theorem fillRect_inside {x y : Nat} (h : i ≤ x ∧ x < i' ∧ j ≤ y ∧ y < j') :
    fillRect D i i' j j' v x y = v := if_pos h

end FillRect

section Blocked

variable {size n : Nat} {row : Nat → Nat → Nat → σ → Option σ}
  {P : (Nat → Nat → Nat) → σ → Prop}

/-- `row` takes the cells of one row in a block from `kk` to the next block. -/
def RowSpec (size n : Nat) (row : Nat → Nat → Nat → σ → Option σ)
    (P : (Nat → Nat → Nat) → σ → Prop) : Prop :=
  ∀ i jj kk D s, i < n → jj < n → size ∣ jj → kk < n → P D s →
    (∀ j, jj ≤ j → j < min (jj + size) n → D i j = kk) →
    ∃ s', row i jj kk s = some s' ∧
      P (fillRect D i (i + 1) jj (min (jj + size) n) (min (kk + size) n)) s'

variable {D : Nat → Nat → Nat} {s : σ} {ii jj kk : Nat}

/-- The loop over the rows of a block. -/
theorem rows_spec (hsize : 0 < size) (hrow : RowSpec size n row P) (hii : ii < n) (hjj : jj < n)
    (hdvd : size ∣ jj) (hkk : kk < n) (hs : P D s)
    (hD : ∀ i j, ii ≤ i → i < min (ii + size) n → jj ≤ j → j < min (jj + size) n → D i j = kk) :
    ∃ s', forLoop ii (min (ii + size) n) 1 (fun i => row i jj kk) s = some s' ∧
      P (fillRect D ii (min (ii + size) n) jj (min (jj + size) n) (min (kk + size) n)) s' := by
  refine forLoop_spec Nat.one_pos
    (fun i => P (fillRect D ii i jj (min (jj + size) n) (min (kk + size) n))) (by omega)
    (by rw [fillRect_rows_empty]; exact hs) fun i s hi hlt hs => ?_
  have hrest : ∀ j, jj ≤ j → j < min (jj + size) n →
      fillRect D ii i jj (min (jj + size) n) (min (kk + size) n) i j = kk := by
    intro j hj hj'
    rw [fillRect_outside (by omega), hD i j hi hlt hj hj']
  obtain ⟨s', hs', hP⟩ := hrow i jj kk _ s (by omega) hjj hdvd hkk hs hrest
  rw [fillRect_rows hi (Nat.le_succ i)] at hP
  rw [Nat.min_eq_left hlt]
  exact ⟨s', hs', hP⟩

/-- The loop over the third index, for one block of cells. -/
theorem depth_spec (hsize : 0 < size) (hrow : RowSpec size n row P) (hii : ii < n) (hjj : jj < n)
    (hdvd : size ∣ jj) (hs : P D s)
    (hD : ∀ i j, ii ≤ i → i < min (ii + size) n → jj ≤ j → j < min (jj + size) n → D i j = 0) :
    ∃ s', forLoop 0 n size (fun kk => forLoop ii (min (ii + size) n) 1 fun i => row i jj kk) s =
        some s' ∧
      P (fillRect D ii (min (ii + size) n) jj (min (jj + size) n) n) s' := by
  refine forLoop_spec hsize
    (fun kk => P (fillRect D ii (min (ii + size) n) jj (min (jj + size) n) kk)) (Nat.zero_le n)
    (by rw [fillRect_of_eq hD]; exact hs) fun kk s _ hlt hs => ?_
  obtain ⟨s', hs', hP⟩ := rows_spec hsize hrow hii hjj hdvd hlt hs
    fun i j hi hi' hj hj' => fillRect_inside ⟨hi, hi', hj, hj'⟩
  rw [fillRect_same] at hP
  exact ⟨s', hs', hP⟩

/-- The loop over the blocks of one row of blocks. -/
theorem cols_spec (hsize : 0 < size) (hrow : RowSpec size n row P) (hii : ii < n) (hs : P D s)
    (hD : ∀ i j, ii ≤ i → i < min (ii + size) n → D i j = 0) :
    ∃ s', forLoop 0 n size (fun jj => forLoop 0 n size fun kk =>
        forLoop ii (min (ii + size) n) 1 fun i => row i jj kk) s = some s' ∧
      P (fillRect D ii (min (ii + size) n) 0 n n) s' := by
  refine forLoop_spec_dvd hsize
    (fun jj => P (fillRect D ii (min (ii + size) n) 0 jj n)) (Nat.zero_le n)
    (by rw [fillRect_cols_empty]; exact hs) fun jj s _ hlt hdvd hs => ?_
  obtain ⟨s', hs', hP⟩ := depth_spec hsize hrow hii hlt hdvd hs fun i j hi hi' hj _ => by
    rw [fillRect_outside (by omega), hD i j hi hi']
  rw [fillRect_cols (Nat.zero_le jj) (by omega)] at hP
  exact ⟨s', hs', hP⟩

theorem blockedLoops_spec (hsize : 0 < size) (hrow : RowSpec size n row P)
    (hs : P (fun _ _ => 0) s) :
    ∃ s', blockedLoops size n row s = some s' ∧ P (fillRect (fun _ _ => 0) 0 n 0 n n) s' := by
  refine forLoop_spec hsize (fun ii => P (fillRect (fun _ _ => 0) 0 ii 0 n n)) (Nat.zero_le n)
    (by rw [fillRect_rows_empty]; exact hs) fun ii s _ hlt hs => ?_
  obtain ⟨s', hs', hP⟩ := cols_spec hsize hrow hlt hs fun i j hi _ => by
    rw [fillRect_outside (by omega)]
  rw [fillRect_rows (Nat.zero_le ii) (by omega)] at hP
  exact ⟨s', hs', hP⟩

end Blocked

end DemosOsLinux.Lib
