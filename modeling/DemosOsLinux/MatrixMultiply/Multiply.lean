/-
  Blocked matrix multiplication, with and without SIMD
  (examples_standalone/simd_matrix_multiplication/simd.c).

  The elements are of a commutative ring in place of `float`. `n` and the indices are `int`s, whose
  overflow is undefined and fails here, as an access outside of an array does. An 8-wide access also
  fails if it is not aligned; the arrays start at multiples of 32 bytes.
  * `scalarRow_spec`, `simdRow_spec`: both functions take a part of a row of C from the sum over the
    blocks before `kk` to the sum including that block.
  * `matrix_multiply_iff`: both compute the product if and only if `n * n` is an `int`.
-/
import DemosOsLinux.Lib.BlockedLoops
import Mathlib.Algebra.BigOperators.Group.Finset.Basic
import Mathlib.Algebra.Ring.Int.Defs
import Mathlib.Data.List.OfFn

namespace DemosOsLinux.MatrixMultiply

open Lib

def blockSize : Nat := 32

/-- The three arrays, and where the 8-wide accesses began. -/
structure Memory (R : Type) where
  a : List R
  b : List R
  c : List R
  accesses : List Nat

/-- `x * y` on `int`s that are not negative. -/
def intMul (x y : Nat) : Option Nat := if x * y < 2 ^ 31 then some (x * y) else none

/-- `x + y` on `int`s that are not negative. -/
def intAdd (x y : Nat) : Option Nat := if x + y < 2 ^ 31 then some (x + y) else none

/-- `i * n + j`. -/
def index (n i j : Nat) : Option Nat := do
  let row ← intMul i n
  intAdd row j

variable {R : Type}

/-- `_mm256_load_ps`. -/
def load8 (xs : List R) (x : Nat) : Option (Fin 8 → R) :=
  if h : x % 8 = 0 ∧ x + 8 ≤ xs.length then some fun l => xs.get ⟨x + l, by omega⟩ else none

/-- `_mm256_store_ps`. -/
def store8 (xs : List R) (x : Nat) (v : Fin 8 → R) : Option (List R) :=
  if x % 8 = 0 ∧ x + 8 ≤ xs.length then some (xs.take x ++ List.ofFn v ++ xs.drop (x + 8)) else none

section Multiply

variable [CommRing R]

/-- `memset(C, 0, n * n * sizeof(float))`. -/
def clear (n : Nat) (m : Memory R) : Option (Memory R) := do
  let size ← intMul n n
  if size ≤ m.c.length then some { m with c := List.replicate size 0 ++ m.c.drop size } else none

/-- `sum += A[i * n + k] * B[k * n + j]`. -/
def scalarTerm (m : Memory R) (n i j k : Nat) (sum : R) : Option R := do
  let ik ← index n i k
  let x ← m.a[ik]?
  let kj ← index n k j
  let y ← m.b[kj]?
  some (sum + x * y)

/-- The loop over `k`. -/
def scalarSum (m : Memory R) (n i j kk : Nat) : R → Option R :=
  forLoop kk (min (kk + blockSize) n) 1 (scalarTerm m n i j)

/-- The body of the loop over `j`. -/
def scalarCell (n i kk j : Nat) (m : Memory R) : Option (Memory R) := do
  let ij ← index n i j
  let sum ← m.c[ij]?
  let sum ← scalarSum m n i j kk sum
  let c ← store m.c ij sum
  some { m with c := c }

def scalarRow (n i jj kk : Nat) : Memory R → Option (Memory R) :=
  forLoop jj (min (jj + blockSize) n) 1 (scalarCell n i kk)

/-- `scalar_matrix_multiply`. -/
def scalarMatrixMultiply (n : Nat) (m : Memory R) : Option (Memory R) := do
  let m ← clear n m
  blockedLoops blockSize n (scalarRow n) m

/-- The body of the loop over `k`, on 8 columns; `s` is the sum and the accesses so far. -/
def simdTerm (m : Memory R) (n i j k : Nat) (s : (Fin 8 → R) × List Nat) :
    Option ((Fin 8 → R) × List Nat) := do
  let ik ← index n i k
  let x ← m.a[ik]?
  let kj ← index n k j
  let y ← load8 m.b kj
  some (fun l => s.1 l + x * y l, kj :: s.2)

def simdSum (m : Memory R) (n i j kk : Nat) :
    (Fin 8 → R) × List Nat → Option ((Fin 8 → R) × List Nat) :=
  forLoop kk (min (kk + blockSize) n) 1 (simdTerm m n i j)

/-- The body of the loop over `j`, which goes in steps of 8. -/
def simdCells (n i kk j : Nat) (m : Memory R) : Option (Memory R) := do
  let ij ← index n i j
  let sum ← load8 m.c ij
  let s ← simdSum m n i j kk (sum, ij :: m.accesses)
  let c ← store8 m.c ij s.1
  some { m with c := c, accesses := ij :: s.2 }

def simdRow (n i jj kk : Nat) : Memory R → Option (Memory R) :=
  forLoop jj (min (jj + blockSize) n) 8 (simdCells n i kk)

/-- `simd_matrix_multiply`. -/
def simdMatrixMultiply (n : Nat) (m : Memory R) : Option (Memory R) := do
  let m ← clear n m
  blockedLoops blockSize n (simdRow n) m

end Multiply

/-! ## Indices -/

theorem index_lt {n i j : Nat} (hi : i < n) (hj : j < n) : i * n + j < n * n := calc
  i * n + j < i * n + n := by omega
  _ = (i + 1) * n := (Nat.succ_mul i n).symm
  _ ≤ n * n := Nat.mul_le_mul_right n hi

theorem index_eq {n i j : Nat} (hn : n * n < 2 ^ 31) (hi : i < n) (hj : j < n) :
    index n i j = some (i * n + j) := by
  have hlt := index_lt hi hj
  unfold index intMul intAdd
  rw [if_pos (by omega), Option.bind_eq_bind, Option.bind_some, if_pos (by omega)]

variable {xs : List R}

theorem exists_cell {n i j : Nat} (hlen : xs.length = n * n) (hi : i < n) (hj : j < n) :
    ∃ x, xs[i * n + j]? = some x :=
  ⟨_, List.getElem?_eq_getElem (by rw [hlen]; exact index_lt hi hj)⟩

/-- A part of a row is a range of indices. -/
theorem index_range {n i j j' x y : Nat} (hj' : j' ≤ n) (hy : y < n) :
    (i * n + j ≤ x * n + y ∧ x * n + y < i * n + j') ↔ (x = i ∧ j ≤ y ∧ y < j') := by
  rcases Nat.lt_trichotomy x i with hlt | rfl | hgt
  · have hmul : (x + 1) * n ≤ i * n := Nat.mul_le_mul_right n hlt
    rw [Nat.succ_mul] at hmul
    omega
  · omega
  · have hmul : (i + 1) * n ≤ x * n := Nat.mul_le_mul_right n hgt
    rw [Nat.succ_mul] at hmul
    omega

/-- An aligned 8-wide access inside of a row. -/
theorem access_ok {n i j : Nat} (h8 : 8 ∣ n) (hi : i < n) (hj : 8 ∣ j) (hjn : j + 8 ≤ n) :
    (i * n + j) % 8 = 0 ∧ i * n + j + 8 ≤ n * n ∧ (i * n + j) % n + 8 ≤ n := by
  have hmul : (i + 1) * n ≤ n * n := Nat.mul_le_mul_right n hi
  rw [Nat.succ_mul] at hmul
  refine ⟨Nat.mod_eq_zero_of_dvd (Nat.dvd_add (Nat.dvd_mul_left_of_dvd h8 i) hj), by omega, ?_⟩
  rw [Nat.mul_add_mod', Nat.mod_eq_of_lt (by omega)]
  exact hjn

theorem load8_eq {x : Nat} (hx : x % 8 = 0) (hlen : x + 8 ≤ xs.length) :
    ∃ v, load8 xs x = some v ∧ ∀ l : Fin 8, xs[x + l]? = some (v l) := by
  refine ⟨_, dif_pos ⟨hx, hlen⟩, fun l => ?_⟩
  exact List.getElem?_eq_getElem (by omega)

theorem store8_eq {x : Nat} (hx : x % 8 = 0) (hlen : x + 8 ≤ xs.length) (v : Fin 8 → R) :
    ∃ ys, store8 xs x v = some ys ∧ ys.length = xs.length ∧
      (∀ l : Fin 8, ys[x + l]? = some (v l)) ∧
      ∀ y, ¬(x ≤ y ∧ y < x + 8) → ys[y]? = xs[y]? := by
  refine ⟨_, if_pos ⟨hx, hlen⟩, ?_, fun l => ?_, fun y hy => ?_⟩
  · simp only [List.length_append, List.length_take, List.length_ofFn, List.length_drop]
    omega
  · rw [List.append_assoc, List.getElem?_append_right (by rw [List.length_take]; omega),
      List.length_take, Nat.min_eq_left (by omega), Nat.add_sub_cancel_left,
      List.getElem?_append_left (by rw [List.length_ofFn]; exact l.isLt), List.getElem?_ofFn]
    simp
  · rw [List.append_assoc]
    rcases Nat.lt_or_ge y x with hlt | hge
    · rw [List.getElem?_append_left (by rw [List.length_take]; omega), List.getElem?_take_of_lt hlt]
    · have hge' : x + 8 ≤ y := by omega
      rw [List.getElem?_append_right (by rw [List.length_take]; omega), List.length_take,
        Nat.min_eq_left (by omega),
        List.getElem?_append_right (by rw [List.length_ofFn]; omega), List.length_ofFn,
        List.getElem?_drop]
      congr 1
      omega

/-! ## Partial sums -/

section Sums

variable [CommRing R]

/-- The sum over the first `K` indices. -/
def partialSum (a b : List R) (n i j K : Nat) : R :=
  ∑ k ∈ Finset.range K, a[i * n + k]?.getD 0 * b[k * n + j]?.getD 0

/-- `C` holds the sums over the first `D i j` indices. -/
structure Done (a b : List R) (n : Nat) (D : Nat → Nat → Nat) (m : Memory R) : Prop where
  sameA : m.a = a
  sameB : m.b = b
  lengthC : m.c.length = n * n
  cells : ∀ i j, i < n → j < n → m.c[i * n + j]? = some (partialSum a b n i j (D i j))
  inRow : ∀ x ∈ m.accesses, x % n + 8 ≤ n

variable {a b : List R} {n i j j' kk K : Nat} {D : Nat → Nat → Nat} {m : Memory R}

theorem partialSum_succ {x y : R} (hx : a[i * n + K]? = some x) (hy : b[K * n + j]? = some y) :
    partialSum a b n i j (K + 1) = partialSum a b n i j K + x * y := by
  rw [partialSum, Finset.sum_range_succ, hx, hy]
  rfl

/-- New sums for a part of a row. -/
theorem Done.update {m' : Memory R} (h : Done a b n D m) (hi : i < n) (hj' : j' ≤ n)
    (hA : m'.a = m.a) (hB : m'.b = m.b) (hlen : m'.c.length = m.c.length)
    (hnew : ∀ y, j ≤ y → y < j' → m'.c[i * n + y]? = some (partialSum a b n i y K))
    (hold : ∀ x, ¬(i * n + j ≤ x ∧ x < i * n + j') → m'.c[x]? = m.c[x]?)
    (hrow : ∀ x ∈ m'.accesses, x % n + 8 ≤ n) : Done a b n (fillRect D i (i + 1) j j' K) m' := by
  refine ⟨hA.trans h.sameA, hB.trans h.sameB, hlen.trans h.lengthC, fun x y hx hy => ?_, hrow⟩
  by_cases hin : x = i ∧ j ≤ y ∧ y < j'
  · obtain ⟨rfl, hj, hy'⟩ := hin
    rw [fillRect_inside (by omega), hnew y hj hy']
  · rw [fillRect_outside (by omega), hold _ (fun hrange => hin ((index_range hj' hy).mp hrange)),
      h.cells x y hx hy]

section Bounded

variable (hn : n * n < 2 ^ 31) (ha : a.length = n * n) (hb : b.length = n * n)

include hn ha hb

theorem scalarSum_eq (hA : m.a = a) (hB : m.b = b) (hi : i < n) (hj : j < n) (hkk : kk < n) :
    scalarSum m n i j kk (partialSum a b n i j kk) =
      some (partialSum a b n i j (min (kk + blockSize) n)) := by
  have hloop : ∃ sum, scalarSum m n i j kk (partialSum a b n i j kk) = some sum ∧
      sum = partialSum a b n i j (min (kk + blockSize) n) := by
    refine forLoop_spec Nat.one_pos (fun k sum => sum = partialSum a b n i j k) (by omega) rfl ?_
    intro k sum _ hlt hsum
    have hk : k < n := by omega
    obtain ⟨x, hx⟩ := exists_cell ha hi hk
    obtain ⟨y, hy⟩ := exists_cell hb hk hj
    refine ⟨sum + x * y, ?_, ?_⟩
    · rw [scalarTerm, index_eq hn hi hk, index_eq hn hk hj, hA, hB]
      dsimp only [Option.bind_eq_bind, Option.bind_some]
      rw [hx, hy]
      rfl
    · rw [Nat.min_eq_left hlt, hsum, partialSum_succ hx hy]
  obtain ⟨sum, hsum, rfl⟩ := hloop
  exact hsum

theorem scalarCell_spec (h : Done a b n D m) (hi : i < n) (hj : j < n) (hkk : kk < n)
    (hD : D i j = kk) :
    ∃ m', scalarCell n i kk j m = some m' ∧
      Done a b n (fillRect D i (i + 1) j (j + 1) (min (kk + blockSize) n)) m' := by
  have hlt : i * n + j < m.c.length := by rw [h.lengthC]; exact index_lt hi hj
  unfold scalarCell
  rw [index_eq hn hi hj]
  dsimp only [Option.bind_eq_bind, Option.bind_some]
  rw [h.cells i j hi hj, hD, Option.bind_some, scalarSum_eq hn ha hb h.sameA h.sameB hi hj hkk,
    Option.bind_some, store_of_lt hlt]
  refine ⟨_, rfl, h.update hi hj rfl rfl (List.length_set ..) (fun y hy hy' => ?_)
    (fun x hx => ?_) h.inRow⟩
  · obtain rfl : y = j := by omega
    exact List.getElem?_set_self hlt
  · exact List.getElem?_set_ne (by omega)

theorem scalarRow_spec : RowSpec blockSize n (scalarRow n) (Done a b n) := by
  intro i jj kk D m hi hjj _ hkk h hD
  refine forLoop_spec Nat.one_pos
    (fun j => Done a b n (fillRect D i (i + 1) jj j (min (kk + blockSize) n))) (by omega)
    (by rw [fillRect_cols_empty]; exact h) fun j m hj hlt h => ?_
  have hkept : fillRect D i (i + 1) jj j (min (kk + blockSize) n) i j = kk := by
    rw [fillRect_outside (by omega), hD j hj hlt]
  obtain ⟨m', hm', hdone⟩ := scalarCell_spec hn ha hb h hi (by omega) hkk hkept
  rw [fillRect_cols hj (Nat.le_succ j)] at hdone
  rw [Nat.min_eq_left hlt]
  exact ⟨m', hm', hdone⟩

section Aligned

variable (h8 : 8 ∣ n)

include h8

theorem simdSum_spec (hA : m.a = a) (hB : m.b = b) (hi : i < n) (hj : 8 ∣ j) (hjn : j + 8 ≤ n)
    (hkk : kk < n) {s : (Fin 8 → R) × List Nat}
    (hsum : ∀ l : Fin 8, s.1 l = partialSum a b n i (j + l) kk) (hrow : ∀ x ∈ s.2, x % n + 8 ≤ n) :
    ∃ s', simdSum m n i j kk s = some s' ∧
      (∀ l : Fin 8, s'.1 l = partialSum a b n i (j + l) (min (kk + blockSize) n)) ∧
      ∀ x ∈ s'.2, x % n + 8 ≤ n := by
  refine forLoop_spec Nat.one_pos (fun k (s : (Fin 8 → R) × List Nat) =>
    (∀ l : Fin 8, s.1 l = partialSum a b n i (j + l) k) ∧ ∀ x ∈ s.2, x % n + 8 ≤ n) (by omega)
    ⟨hsum, hrow⟩ ?_
  intro k s _ hlt ⟨hsum, hrow⟩
  have hk : k < n := by omega
  obtain ⟨hmod, hlen, hin⟩ := access_ok h8 hk hj hjn
  obtain ⟨x, hx⟩ := exists_cell ha hi hk
  rw [← hb] at hlen
  obtain ⟨y, hload, hy⟩ := load8_eq hmod hlen
  refine ⟨(fun l => s.1 l + x * y l, (k * n + j) :: s.2), ?_, fun l => ?_,
    List.forall_mem_cons.mpr ⟨hin, hrow⟩⟩
  · rw [simdTerm, index_eq hn hi hk, index_eq hn hk (by omega), hA, hB]
    dsimp only [Option.bind_eq_bind, Option.bind_some]
    rw [hx, hload]
    rfl
  · have hyl := hy l
    rw [Nat.add_assoc] at hyl
    rw [Nat.min_eq_left hlt, partialSum_succ hx hyl, ← hsum l]

theorem simdCells_spec (h : Done a b n D m) (hi : i < n) (hj : 8 ∣ j) (hjn : j + 8 ≤ n)
    (hkk : kk < n) (hD : ∀ y, j ≤ y → y < j + 8 → D i y = kk) :
    ∃ m', simdCells n i kk j m = some m' ∧
      Done a b n (fillRect D i (i + 1) j (j + 8) (min (kk + blockSize) n)) m' := by
  obtain ⟨hmod, hlen, hin⟩ := access_ok h8 hi hj hjn
  rw [← h.lengthC] at hlen
  obtain ⟨sum, hload, hsum⟩ := load8_eq hmod hlen
  have hstart : ∀ l : Fin 8, sum l = partialSum a b n i (j + l) kk := by
    intro l
    have hcell := h.cells i (j + l) hi (by omega)
    rw [← Nat.add_assoc, hsum l, hD (j + l) (by omega) (by omega)] at hcell
    exact Option.some.inj hcell
  have hrow : ∀ x ∈ (i * n + j) :: m.accesses, x % n + 8 ≤ n :=
    List.forall_mem_cons.mpr ⟨hin, h.inRow⟩
  obtain ⟨s, hs, hfinal, hrow'⟩ := simdSum_spec hn ha hb h8 h.sameA h.sameB hi hj hjn hkk
    (s := (sum, (i * n + j) :: m.accesses)) hstart hrow
  obtain ⟨c, hc, hlenC, hnew, hold⟩ := store8_eq hmod hlen s.1
  unfold simdCells
  rw [index_eq hn hi (by omega)]
  dsimp only [Option.bind_eq_bind, Option.bind_some]
  rw [hload, Option.bind_some, hs, Option.bind_some, hc]
  refine ⟨_, rfl, h.update hi hjn rfl rfl hlenC (fun y hy hy' => ?_) (fun x hx => ?_)
    (List.forall_mem_cons.mpr ⟨hin, hrow'⟩)⟩
  · have hlane := hnew ⟨y - j, by omega⟩
    rw [hfinal] at hlane
    rw [show i * n + j + (y - j) = i * n + y by omega, show j + (y - j) = y by omega] at hlane
    exact hlane
  · exact hold x (by rw [Nat.add_assoc]; exact hx)

theorem simdRow_spec : RowSpec blockSize n (simdRow n) (Done a b n) := by
  intro i jj kk D m hi hjj hdvd hkk h hD
  have h8jj : 8 ∣ jj := Nat.dvd_trans (by decide) hdvd
  refine forLoop_spec_dvd (by decide)
    (fun j => Done a b n (fillRect D i (i + 1) jj j (min (kk + blockSize) n))) (by omega)
    (by rw [fillRect_cols_empty]; exact h) fun j m hj hlt hstep h => ?_
  have h8j : 8 ∣ j := by omega
  have hend : j + 8 ≤ min (jj + blockSize) n := by
    have h32 : blockSize = 32 := rfl
    omega
  have hkept : ∀ y, j ≤ y → y < j + 8 →
      fillRect D i (i + 1) jj j (min (kk + blockSize) n) i y = kk := by
    intro y hy hy'
    rw [fillRect_outside (by omega), hD y (by omega) (by omega)]
  obtain ⟨m', hm', hdone⟩ := simdCells_spec hn ha hb h8 h hi h8j (by omega) hkk hkept
  rw [fillRect_cols hj (by omega)] at hdone
  rw [Nat.min_eq_left hend]
  exact ⟨m', hm', hdone⟩

end Aligned

end Bounded

/-! ## The products -/

/-- What a function must leave: the product in C, the factors as they were, and every 8-wide access
    inside of its row. -/
def IsProduct (a b : List R) (n : Nat) (m : Memory R) : Prop :=
  m.a = a ∧ m.b = b ∧ m.c.length = n * n ∧
    (∀ i j, i < n → j < n → m.c[i * n + j]? =
      some (∑ k ∈ Finset.range n, a[i * n + k]?.getD 0 * b[k * n + j]?.getD 0)) ∧
    ∀ x ∈ m.accesses, x % n + 8 ≤ n

theorem Done.isProduct (h : Done a b n (fillRect (fun _ _ => 0) 0 n 0 n n) m) :
    IsProduct a b n m := by
  refine ⟨h.sameA, h.sameB, h.lengthC, fun i j hi hj => ?_, h.inRow⟩
  rw [h.cells i j hi hj, fillRect_inside ⟨Nat.zero_le i, hi, Nat.zero_le j, hj⟩]
  rfl

theorem clear_spec (hn : n * n < 2 ^ 31) {c : List R} (hc : c.length = n * n) :
    ∃ m, clear n ⟨a, b, c, []⟩ = some m ∧ Done a b n (fun _ _ => 0) m := by
  unfold clear intMul
  rw [if_pos hn]
  dsimp only [Option.bind_eq_bind, Option.bind_some]
  rw [if_pos (Nat.le_of_eq hc.symm)]
  refine ⟨_, rfl, rfl, rfl, ?_, fun i j hi hj => ?_, List.forall_mem_nil _⟩
  · rw [List.length_append, List.length_replicate, List.length_drop, hc, Nat.sub_self, Nat.add_zero]
  · have hlt := index_lt hi hj
    rw [List.getElem?_append_left (by rw [List.length_replicate]; exact hlt),
      List.getElem?_replicate, if_pos hlt]
    rfl

/-- Too large a matrix: already the size for memset(3) overflows. -/
theorem clear_none (hn : ¬n * n < 2 ^ 31) : clear n m = none := by
  unfold clear intMul
  rw [if_neg hn]
  rfl

/-- Both functions leave the product of A and B exactly if `n * n` is an `int`. -/
theorem matrix_multiply_iff (a b c : List R) (n : Nat) (h8 : 8 ∣ n) (ha : a.length = n * n)
    (hb : b.length = n * n) (hc : c.length = n * n) :
    ((∃ m, scalarMatrixMultiply n ⟨a, b, c, []⟩ = some m ∧ IsProduct a b n m) ∧
      ∃ m, simdMatrixMultiply n ⟨a, b, c, []⟩ = some m ∧ IsProduct a b n m) ↔ n * n < 2 ^ 31 := by
  constructor
  · rintro ⟨⟨m, hm, -⟩, -⟩
    by_contra hn
    rw [scalarMatrixMultiply, clear_none hn] at hm
    exact absurd hm.symm (Option.some_ne_none m)
  · intro hn
    obtain ⟨m, hclear, hm⟩ : ∃ m, clear n ⟨a, b, c, []⟩ = some m ∧ Done a b n (fun _ _ => 0) m :=
      clear_spec hn hc
    unfold scalarMatrixMultiply simdMatrixMultiply
    rw [hclear]
    constructor
    · obtain ⟨m', hm', hdone⟩ := blockedLoops_spec (by decide) (scalarRow_spec hn ha hb) hm
      exact ⟨m', hm', hdone.isProduct⟩
    · obtain ⟨m', hm', hdone⟩ := blockedLoops_spec (by decide) (simdRow_spec hn ha hb h8) hm
      exact ⟨m', hm', hdone.isProduct⟩

/-- Matrices of one partial block. -/
theorem matrix_multiply_eight :
    (8 ∣ 8 ∧ (List.replicate 64 (1 : Int)).length = 8 * 8 ∧ 8 * 8 < 2 ^ 31) ∧
      (∃ m, scalarMatrixMultiply 8 ⟨List.replicate 64 (1 : Int), List.replicate 64 2,
          List.replicate 64 3, []⟩ = some m ∧
        IsProduct (List.replicate 64 1) (List.replicate 64 2) 8 m) ∧
      ∃ m, simdMatrixMultiply 8 ⟨List.replicate 64 (1 : Int), List.replicate 64 2,
          List.replicate 64 3, []⟩ = some m ∧
        IsProduct (List.replicate 64 1) (List.replicate 64 2) 8 m :=
  ⟨by decide, (matrix_multiply_iff _ _ (List.replicate 64 3) 8 (by decide)
    List.length_replicate List.length_replicate List.length_replicate).mpr (by decide)⟩

/-- 46344 is divisible by 8, and its square is not an `int`. -/
theorem matrix_multiply_overflow :
    8 ∣ 46344 ∧ (List.replicate (46344 * 46344) (0 : Int)).length = 46344 * 46344 ∧
      ¬∃ m, scalarMatrixMultiply 46344 ⟨List.replicate (46344 * 46344) (0 : Int),
        List.replicate (46344 * 46344) 0, List.replicate (46344 * 46344) 0, []⟩ = some m := by
  refine ⟨by decide, List.length_replicate, ?_⟩
  rintro ⟨m, hm⟩
  rw [scalarMatrixMultiply, clear_none (by decide)] at hm
  exact absurd hm.symm (Option.some_ne_none m)

end Sums

end DemosOsLinux.MatrixMultiply
