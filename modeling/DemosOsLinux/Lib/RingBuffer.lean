/-
  Circular buffers over a plain list of cells.

  A ring is a list `buf` of cells, a start index `r` and a fill `n`; cell number `i` of the
  ring is `buf[ringIdx buf.length r i]`. `contents buf r n` is the queue it stores: the `n`
  cells from `r` onward, wrapping at the end of the buffer.

  The three facts every circular buffer rests on:
  * `contents_overwrite`: a block written at the free end, not passing the end of the buffer,
    is appended to the queue.
  * `slice_eq_take_contents`: a block read at `r`, not passing the end of the buffer, is the
    front of the queue.
  * `contents_ringIdx`: moving the start past `k` cells drops them from the queue.

  The last section is about rings that keep two positions, `r` to read from and `w` to write
  to, and one cell free: `fill size r w` is the number of cells in use, and the facts above
  are restated in terms of the two positions.
-/
import Mathlib.Data.List.Basic

namespace DemosOsLinux.Lib

variable {α : Type} {k : Nat}

/-- `buf` with the cells from `pos` on replaced by `bs`. -/
def overwrite (buf : List α) (pos : Nat) (bs : List α) : List α :=
  buf.take pos ++ (bs ++ buf.drop (pos + bs.length))

/-- The `n` cells of `buf` from `pos` on. -/
def slice (buf : List α) (pos n : Nat) : List α := (buf.drop pos).take n

/-- The buffer index of ring cell `i` when the ring starts at `r`. -/
def ringIdx (size r i : Nat) : Nat := if r + i < size then r + i else r + i - size

/-- The `n` cells from `r` on, wrapping at the end of `buf`. -/
def contents (buf : List α) (r n : Nat) : List α := (buf.drop r ++ buf.take r).take n

theorem ringIdx_lt {size r i : Nat} (hr : r < size) (hi : i ≤ size) : ringIdx size r i < size := by
  unfold ringIdx
  split <;> omega

theorem ringIdx_add {size r i j : Nat} (hr : r < size) (hij : i + j ≤ size) :
    ringIdx size (ringIdx size r i) j = ringIdx size r (i + j) := by
  unfold ringIdx
  split <;> split <;> split <;> omega

/-- A block of `k` free cells at the end of the queue covers no cell of the queue. -/
theorem ringIdx_outside {size r n i : Nat} (hn : n + k ≤ size) (hi : i < n) :
    ¬ (ringIdx size r n ≤ ringIdx size r i ∧ ringIdx size r i < ringIdx size r n + k) := by
  unfold ringIdx
  by_cases h1 : r + n < size
  · rw [if_pos h1, if_pos (by omega)]
    omega
  · rw [if_neg h1]
    split <;> omega

/-- Cells `n, n + 1, …` of the ring are consecutive up to the end of the buffer. -/
theorem ringIdx_block {size r n i : Nat} (hend : ringIdx size r n + k ≤ size) (hi : n ≤ i)
    (hik : i < n + k) : ringIdx size r i = ringIdx size r n + (i - n) := by
  unfold ringIdx at hend ⊢
  by_cases h1 : r + n < size
  · rw [if_pos h1] at hend ⊢
    rw [if_pos (by omega)]
    omega
  · rw [if_neg h1, if_neg (by omega)]
    omega

/-- The first `k` cells of the second list move to the end of the first. -/
theorem append_take_drop (as bs cs : List α) (k : Nat) :
    as ++ bs.take k ++ (bs.drop k ++ cs) = as ++ (bs ++ cs) := by
  rw [List.append_assoc, ← List.append_assoc (bs.take k), List.take_append_drop]

theorem length_overwrite (buf : List α) (pos : Nat) (bs : List α)
    (h : pos + bs.length ≤ buf.length) : (overwrite buf pos bs).length = buf.length := by
  simp only [overwrite, List.length_append, List.length_take, List.length_drop]
  omega

theorem slice_add (buf : List α) (pos m n : Nat) :
    slice buf pos (m + n) = slice buf pos m ++ slice buf (pos + m) n := by
  rw [slice, slice, slice, List.take_add, List.drop_drop]

/-- A block written at the end of what there is. -/
theorem overwrite_length (buf bs : List α) : overwrite buf buf.length bs = buf ++ bs := by
  rw [overwrite, List.take_length, List.drop_of_length_le (Nat.le_add_right _ _), List.append_nil]

section Blocks

variable (buf : List α)

/-- Everything up to the end of the new block. -/
theorem take_overwrite (pos : Nat) (bs : List α) (h : pos ≤ buf.length) :
    (overwrite buf pos bs).take (pos + bs.length) = buf.take pos ++ bs := by
  have hlen : (buf.take pos ++ bs).length = pos + bs.length := by
    rw [List.length_append, List.length_take, Nat.min_eq_left h]
  rw [overwrite, ← List.append_assoc, ← hlen, List.take_left]

theorem getElem?_overwrite (pos : Nat) (bs : List α) (h : pos + bs.length ≤ buf.length) (i : Nat) :
    (overwrite buf pos bs)[i]? =
      if pos ≤ i ∧ i < pos + bs.length then bs[i - pos]? else buf[i]? := by
  have hlen : (buf.take pos).length = pos := by
    rw [List.length_take]; omega
  unfold overwrite
  by_cases h1 : i < pos
  · rw [List.getElem?_append_left (by omega), List.getElem?_take_of_lt h1, if_neg (by omega)]
  · rw [List.getElem?_append_right (by omega), hlen]
    by_cases h2 : i < pos + bs.length
    · rw [List.getElem?_append_left (by omega), if_pos ⟨by omega, h2⟩]
    · rw [List.getElem?_append_right (by omega), List.getElem?_drop, if_neg (by omega)]
      congr 1
      omega

theorem length_contents (r n : Nat) (hn : n ≤ buf.length) : (contents buf r n).length = n := by
  simp only [contents, List.length_take, List.length_append, List.length_drop]
  omega

theorem getElem?_contents (r n : Nat) (hr : r ≤ buf.length) (hn : n ≤ buf.length) (i : Nat) :
    (contents buf r n)[i]? = if i < n then buf[ringIdx buf.length r i]? else none := by
  unfold contents
  rw [List.getElem?_take]
  by_cases hi : i < n
  · rw [if_pos hi, if_pos hi]
    unfold ringIdx
    by_cases hw : r + i < buf.length
    · rw [if_pos hw, List.getElem?_append_left (by rw [List.length_drop]; omega),
        List.getElem?_drop]
    · rw [if_neg hw, List.getElem?_append_right (by rw [List.length_drop]; omega),
        List.length_drop, List.getElem?_take_of_lt (by omega)]
      congr 1
      omega
  · rw [if_neg hi, if_neg hi]

/-- A block written at the free end of the ring, not passing the end of the buffer, is
    appended to the queue. -/
theorem contents_overwrite (r n : Nat) (bs : List α) (hr : r < buf.length)
    (hn : n + bs.length ≤ buf.length) (hend : ringIdx buf.length r n + bs.length ≤ buf.length) :
    contents (overwrite buf (ringIdx buf.length r n) bs) r (n + bs.length) =
      contents buf r n ++ bs := by
  have hlen := length_overwrite buf _ bs hend
  have hold := length_contents buf r n (by omega)
  apply List.ext_getElem?
  intro i
  rw [getElem?_contents _ _ _ (by omega) (by omega), hlen, getElem?_overwrite _ _ _ hend]
  by_cases hi : i < n
  · -- an old cell: its index is outside the block that was written
    rw [List.getElem?_append_left (by omega), getElem?_contents _ _ _ (by omega) (by omega),
      if_pos (by omega), if_pos hi, if_neg (ringIdx_outside hn hi)]
  · rw [List.getElem?_append_right (by omega), hold]
    by_cases hi2 : i < n + bs.length
    · rw [if_pos hi2, ringIdx_block hend (by omega) hi2, if_pos (by omega),
        Nat.add_sub_cancel_left]
    · rw [if_neg hi2, List.getElem?_eq_none (by omega)]

/-- A block read at the start of the ring, not passing the end of the buffer, is the front
    of the queue. -/
theorem slice_eq_take_contents (r n k : Nat) (hk : k ≤ n)
    (hend : r + k ≤ buf.length) : slice buf r k = (contents buf r n).take k := by
  unfold slice contents
  rw [List.take_take, Nat.min_eq_left hk,
    List.take_append_of_le_length (by rw [List.length_drop]; omega)]

/-- Moving the start of the ring past `k` cells drops them from the queue. -/
theorem contents_ringIdx (r n k : Nat) (hr : r < buf.length) (hk : k ≤ n) (hn : n ≤ buf.length) :
    contents buf (ringIdx buf.length r k) (n - k) = (contents buf r n).drop k := by
  have hlt : ringIdx buf.length r k < buf.length := ringIdx_lt hr (by omega)
  apply List.ext_getElem?
  intro i
  rw [getElem?_contents _ _ _ (by omega) (by omega), List.getElem?_drop,
    getElem?_contents _ _ _ (by omega) hn]
  by_cases hi : i < n - k
  · rw [if_pos hi, if_pos (by omega), ringIdx_add hr (by omega)]
  · rw [if_neg hi, if_neg (by omega)]

end Blocks

/-! ## Rings with two positions -/

/-- The number of cells in use between the read position and the write position. -/
def fill (size r w : Nat) : Nat := if r ≤ w then w - r else size - r + w

theorem fill_self (size r : Nat) : fill size r r = 0 := by
  unfold fill
  rw [if_pos (Nat.le_refl r), Nat.sub_self]

section TwoPositions

variable {size r w : Nat}

section Fill

variable (hr : r < size)
include hr

theorem fill_lt (hw : w < size) : fill size r w < size := by
  unfold fill
  split <;> omega

/-- The write position is the cell after those in use. -/
theorem ringIdx_fill (hw : w < size) : ringIdx size r (fill size r w) = w := by
  unfold fill ringIdx
  split <;> split <;> omega

/-- The fill is determined by the positions. -/
theorem fill_unique {n : Nat} (hn : n < size) (h : ringIdx size r n = w) : fill size r w = n := by
  subst h
  unfold fill ringIdx
  split <;> split <;> omega

theorem fill_read (hw : w < size) (hk : k ≤ fill size r w) :
    fill size (ringIdx size r k) w = fill size r w - k := by
  have hlt := fill_lt hr hw
  apply fill_unique (ringIdx_lt hr (by omega)) (by omega)
  rw [ringIdx_add hr (by omega), Nat.add_sub_cancel' hk, ringIdx_fill hr hw]

theorem fill_write (hw : w < size) (hk : fill size r w + k < size) :
    fill size r (ringIdx size w k) = fill size r w + k := by
  apply fill_unique hr hk
  rw [← ringIdx_add hr (by omega), ringIdx_fill hr hw]

theorem fill_eq_zero : fill size r w = 0 ↔ w = r := by
  unfold fill
  split <;> omega

/-- One cell is left free when the next write position is the read position. -/
theorem ringIdx_one_eq (hw : w < size) : ringIdx size w 1 = r ↔ fill size r w + 1 = size := by
  unfold ringIdx fill
  split <;> split <;> omega

end Fill

variable {buf : List α} (hlen : buf.length = size)

include hlen

/-- Moving the read position past `k` cells in use drops them from the queue. -/
theorem contents_read (hr : r < size) (hw : w < size) (hk : k ≤ fill size r w) :
    contents buf (ringIdx size r k) (fill size (ringIdx size r k) w) =
      (contents buf r (fill size r w)).drop k := by
  have hlt := fill_lt hr hw
  rw [fill_read hr hw hk]
  subst hlen
  exact contents_ringIdx buf r _ k hr hk (by omega)

/-- A block written at the write position, not passing the end of the buffer nor the free
    cells but one, is appended to the queue. -/
theorem contents_write {bs : List α} (hr : r < size) (hw : w < size)
    (hroom : fill size r w + bs.length < size) (hend : w + bs.length ≤ size) :
    contents (overwrite buf w bs) r (fill size r (ringIdx size w bs.length)) =
      contents buf r (fill size r w) ++ bs := by
  have hwr := ringIdx_fill hr hw
  rw [fill_write hr hw hroom]
  subst hlen
  have h := contents_overwrite buf r (fill buf.length r w) bs hr (by omega)
    (by rw [hwr]; exact hend)
  rw [hwr] at h
  exact h

/-- Reading one cell. -/
theorem contents_pop (hr : r < size) (hw : w < size) (hne : w ≠ r) {a : α} (ha : buf[r]? = some a) :
    contents buf r (fill size r w) =
      a :: contents buf (ringIdx size r 1) (fill size (ringIdx size r 1) w) := by
  have hpos : 1 ≤ fill size r w :=
    Nat.pos_of_ne_zero fun h => hne ((fill_eq_zero hr).mp h)
  have hcell : slice buf r 1 = [a] := by
    rw [slice, List.take_one, List.head?_drop, ha]
    rfl
  rw [contents_read hlen hr hw hpos, ← List.singleton_append, ← hcell,
    slice_eq_take_contents buf r _ 1 hpos (by omega), List.take_append_drop]

/-- Writing one cell. -/
theorem contents_push (hr : r < size) (hw : w < size) (hroom : fill size r w + 1 < size) (a : α) :
    contents (buf.set w a) r (fill size r (ringIdx size w 1)) =
      contents buf r (fill size r w) ++ [a] := by
  have hset : buf.set w a = overwrite buf w [a] :=
    List.set_eq_take_append_cons_drop.trans (if_pos (by omega))
  rw [hset]
  have hroom' : fill size r w + [a].length < size := hroom
  exact contents_write hlen hr hw hroom' hw

end TwoPositions

end DemosOsLinux.Lib
