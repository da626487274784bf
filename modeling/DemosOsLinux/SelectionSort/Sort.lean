/-
  Selection sort and its specialisation for C strings
  (exercises/cpp/correct_use_of_template/solution.cc).

  The template compares elements with `<`; the specialisation for `const char*` compares what the
  pointers point to with strcmp(3). The model also counts the swaps.
  * `findMin_spec`: the inner loop finds an element of the rest that no other one is less than.
  * `exchange_spec`: the swap permutes the array by a transposition.
  * `sort_correct`: sort permutes and orders the array, and the specialisation is sort with "strcmp is
    negative" in place of `<`.
  * `sortStrings_sorted`: hence it orders the strings as well.
-/
import DemosOsLinux.Lib.ArrayLoops
import Mathlib.Data.List.Lex
import Mathlib.Logic.Equiv.Basic
import Mathlib.Order.RelClasses

namespace DemosOsLinux.SelectionSort

open Lib

/-- The array and the number of swaps so far. -/
structure State (α : Type) where
  array : List α
  swaps : Nat

section Generic

variable {α : Type}

/-- `if (array[j] < array[min_idx]) min_idx = j`. -/
def compare (lt : α → α → Bool) (array : List α) (j minIdx : Nat) : Option Nat := do
  let x ← array[j]?
  let least ← array[minIdx]?
  some (if lt x least then j else minIdx)

/-- The inner loop: `min_idx` for the elements from `i` on. -/
def findMin (lt : α → α → Bool) (array : List α) (size i : Nat) : Option Nat :=
  forLoop (i + 1) size 1 (compare lt array) i

/-- `if (min_idx != i)`, the swap. -/
def exchange (i minIdx : Nat) (s : State α) : Option (State α) :=
  if minIdx ≠ i then do
    let temp ← s.array[i]?
    let least ← s.array[minIdx]?
    let array ← store s.array i least
    let array ← store array minIdx temp
    some ⟨array, s.swaps + 1⟩
  else some s

/-- The body of the outer loop. -/
def turn (lt : α → α → Bool) (size i : Nat) (s : State α) : Option (State α) := do
  let minIdx ← findMin lt s.array size i
  exchange i minIdx s

/-- `sort<type>`, with the `<` of the type. -/
def sort (lt : α → α → Bool) (array : List α) (size : Nat) : Option (State α) :=
  forLoop 0 size 1 (turn lt size) ⟨array, 0⟩

end Generic

/-! ## The specialisation -/

/-- The bytes that a `const char*` points to. -/
structure CString where
  bytes : List UInt8
  terminated : 0 ∈ bytes

/-- strcmp(3), `none` behind the end of the bytes. -/
def strcmp : List UInt8 → List UInt8 → Option Int
  | x :: xs, y :: ys =>
    if x = y then if x = 0 then some 0 else strcmp xs ys
    else some ((x.toNat : Int) - y.toNat)
  | _, _ => none

section Strings

variable {Ptr : Type} (heap : Ptr → CString)

/-- `if (strcmp(array[j], array[min_idx]) < 0) min_idx = j`. -/
def compareStrings (array : List Ptr) (j minIdx : Nat) : Option Nat := do
  let x ← array[j]?
  let least ← array[minIdx]?
  let diff ← strcmp (heap x).bytes (heap least).bytes
  some (if diff < 0 then j else minIdx)

def findMinString (array : List Ptr) (size i : Nat) : Option Nat :=
  forLoop (i + 1) size 1 (compareStrings heap array) i

def turnStrings (size i : Nat) (s : State Ptr) : Option (State Ptr) := do
  let minIdx ← findMinString heap s.array size i
  exchange i minIdx s

/-- `sort<const char*>`. -/
def sortStrings (array : List Ptr) (size : Nat) : Option (State Ptr) :=
  forLoop 0 size 1 (turnStrings heap size) ⟨array, 0⟩

/-- "strcmp is negative". -/
def strcmpNegative (p q : Ptr) : Bool := (strcmp (heap p).bytes (heap q).bytes).any (· < 0)

end Strings

/-! ## One turn -/

section Generic

variable {α : Type} {lt : α → α → Bool} {array : List α} {size i : Nat}

/-- No element of the rest is less than the one at `m`. -/
def Least (lt : α → α → Bool) (array : List α) (i stop m : Nat) : Prop :=
  ∀ k x least, i ≤ k → k < stop → array[k]? = some x → array[m]? = some least →
    lt x least = false

theorem Least.start [IsStrictWeakOrder α fun x y => lt x y = true] :
    Least lt array i (i + 1) i := by
  intro k x least hik hk hx hleast
  obtain rfl : k = i := by omega
  rw [hx] at hleast
  obtain rfl := Option.some.inj hleast
  exact Bool.eq_false_iff.mpr (irrefl_of (fun x y => lt x y = true) x)

theorem Least.step [IsStrictWeakOrder α fun x y => lt x y = true] {j m : Nat} {x least : α}
    (h : Least lt array i j m) (hx : array[j]? = some x) (hleast : array[m]? = some least) :
    Least lt array i (j + 1) (if lt x least then j else m) := by
  intro k y least' hik hk hy hleast'
  by_cases hless : lt x least = true
  · rw [if_pos hless, hx] at hleast'
    obtain rfl := Option.some.inj hleast'
    rcases Nat.lt_succ_iff_lt_or_eq.mp hk with hlt | rfl
    · refine Bool.eq_false_iff.mpr fun hyx => ?_
      have hym := trans_of (fun x y => lt x y = true) hyx hless
      rw [h k y least hik hlt hy hleast] at hym
      exact Bool.noConfusion hym
    · rw [hx] at hy
      obtain rfl := Option.some.inj hy
      exact Bool.eq_false_iff.mpr (irrefl_of (fun x y => lt x y = true) x)
  · rw [if_neg hless] at hleast'
    rcases Nat.lt_succ_iff_lt_or_eq.mp hk with hlt | rfl
    · exact h k y least' hik hlt hy hleast'
    · rw [hx] at hy
      rw [hleast] at hleast'
      obtain rfl := Option.some.inj hy
      obtain rfl := Option.some.inj hleast'
      exact Bool.eq_false_iff.mpr hless

theorem findMin_spec [IsStrictWeakOrder α fun x y => lt x y = true] (hi : i < size)
    (hsize : size ≤ array.length) :
    ∃ m, findMin lt array size i = some m ∧ i ≤ m ∧ m < size ∧ Least lt array i size m := by
  refine forLoop_spec Nat.one_pos (fun x m => i ≤ m ∧ m < x ∧ Least lt array i x m) hi
    ⟨Nat.le_refl i, Nat.lt_succ_self i, Least.start⟩ ?_
  intro j m hij hj ⟨him, hmj, hleast⟩
  obtain ⟨x, hx⟩ : ∃ x, array[j]? = some x := ⟨_, List.getElem?_eq_getElem (by omega)⟩
  obtain ⟨y, hy⟩ : ∃ y, array[m]? = some y := ⟨_, List.getElem?_eq_getElem (by omega)⟩
  refine ⟨if lt x y then j else m, by rw [compare, hx, hy]; rfl, ?_⟩
  rw [Nat.min_eq_left hj]
  refine ⟨?_, ?_, hleast.step hx hy⟩ <;> split <;> omega

theorem exchange_spec {m : Nat} {s : State α} (hi : i < s.array.length) (hm : m < s.array.length) :
    ∃ s', exchange i m s = some s' ∧ s'.array.Perm s.array ∧ s'.swaps ≤ s.swaps + 1 ∧
      ∀ p : Nat, s'.array[p]? = s.array[Equiv.swap i m p]? := by
  unfold exchange
  by_cases hne : m ≠ i
  · rw [if_pos hne, List.getElem?_eq_getElem hi, List.getElem?_eq_getElem hm]
    dsimp only [Option.bind_eq_bind, Option.bind_some]
    rw [store_of_lt hi, Option.bind_some, store_of_lt (by rw [List.length_set]; exact hm)]
    refine ⟨_, rfl, List.set_set_perm hi hm, Nat.le_refl _, fun p => ?_⟩
    rw [List.getElem?_set, List.getElem?_set, List.length_set, Equiv.swap_apply_def]
    by_cases hpm : m = p
    · rw [if_pos hpm, if_pos hm, if_neg (by omega), if_pos hpm.symm, List.getElem?_eq_getElem hi]
    · rw [if_neg hpm]
      by_cases hpi : i = p
      · rw [if_pos hpi, if_pos hi, if_pos hpi.symm, List.getElem?_eq_getElem hm]
      · rw [if_neg hpi, if_neg (Ne.symm hpi), if_neg (Ne.symm hpm)]
  · obtain rfl : m = i := by omega
    rw [if_neg hne]
    refine ⟨s, rfl, List.Perm.refl _, Nat.le_succ _, fun p => ?_⟩
    rw [Equiv.swap_self]
    rfl

/-! ## The sort -/

/-- The elements before `i` are in their places. -/
structure Sorted (lt : α → α → Bool) (input : List α) (size i : Nat) (s : State α) : Prop where
  perm : s.array.Perm input
  ordered : ∀ k l x y, k < i → k < l → l < size → s.array[k]? = some x → s.array[l]? = some y →
    lt y x = false
  swaps : s.swaps ≤ i
  rest : ∀ p, size ≤ p → s.array[p]? = input[p]?

/-- The swap stays behind the elements that are in their places. -/
theorem swap_range {m : Nat} (him : i ≤ m) (hm : m < size) (p : Nat) :
    (p < i → Equiv.swap i m p = p) ∧
      (i ≤ p → p < size → i ≤ Equiv.swap i m p ∧ Equiv.swap i m p < size) := by
  rw [Equiv.swap_apply_def]
  refine ⟨fun hp => ?_, fun hp hps => ?_⟩
  · rw [if_neg (by omega), if_neg (by omega)]
  · split
    · omega
    · split <;> omega

theorem Sorted.turn [IsStrictWeakOrder α fun x y => lt x y = true] {input : List α} {s : State α}
    (h : Sorted lt input size i s) (hi : i < size) (hsize : size ≤ input.length) :
    ∃ s', turn lt size i s = some s' ∧ Sorted lt input size (i + 1) s' := by
  have hlen : size ≤ s.array.length := h.perm.length_eq ▸ hsize
  obtain ⟨m, hm, him, hms, hleast⟩ : ∃ m, findMin lt s.array size i = some m ∧ i ≤ m ∧ m < size ∧
    Least lt s.array i size m := findMin_spec hi hlen
  have hi' : i < s.array.length := Nat.lt_of_lt_of_le hi hlen
  have hm' : m < s.array.length := Nat.lt_of_lt_of_le hms hlen
  obtain ⟨s', hs', hperm, hswaps, helem⟩ := exchange_spec hi' hm'
  refine ⟨s', by rw [SelectionSort.turn, hm]; exact hs', hperm.trans h.perm, ?_, ?_, ?_⟩
  · intro k l x y hk hkl hl hx hy
    rw [helem] at hx hy
    rcases Nat.lt_succ_iff_lt_or_eq.mp hk with hki | rfl
    · -- an element that was in its place already
      rw [(swap_range him hms k).1 hki] at hx
      rcases Nat.lt_or_ge l i with hli | hil
      · rw [(swap_range him hms l).1 hli] at hy
        exact h.ordered k l x y hki hkl hl hx hy
      · obtain ⟨hlo, hhi⟩ := (swap_range him hms l).2 hil hl
        exact h.ordered k _ x y hki (by omega) hhi hx hy
    · rw [Equiv.swap_apply_left] at hx
      obtain ⟨hlo, hhi⟩ := (swap_range him hms l).2 (Nat.le_of_lt hkl) hl
      exact hleast _ y x hlo hhi hy hx
  · have hbefore := h.swaps
    omega
  · intro p hp
    rw [helem, Equiv.swap_apply_of_ne_of_ne (by omega) (by omega), h.rest p hp]

theorem sort_sorted [IsStrictWeakOrder α fun x y => lt x y = true] (hsize : size ≤ array.length) :
    ∃ s, sort lt array size = some s ∧ Sorted lt array size size s := by
  refine forLoop_spec Nat.one_pos (fun i => Sorted lt array size i) (Nat.zero_le size)
    ⟨List.Perm.refl array, fun k _ _ _ hk => absurd hk (Nat.not_lt_zero k), Nat.le_refl 0,
      fun _ _ => rfl⟩ ?_
  intro i s _ hi hs
  rw [Nat.min_eq_left hi]
  exact hs.turn hi hsize

end Generic

/-! ## strcmp -/

/-- The bytes before the terminator. -/
def text (bytes : List UInt8) : List Nat := (bytes.takeWhile (· ≠ 0)).map UInt8.toNat

theorem text_zero (xs : List UInt8) : text (0 :: xs) = [] := by
  rw [text, List.takeWhile_cons_of_neg (by simp), List.map_nil]

theorem text_cons {x : UInt8} (hx : x ≠ 0) (xs : List UInt8) :
    text (x :: xs) = x.toNat :: text xs := by
  rw [text, List.takeWhile_cons_of_pos (by simpa using hx), List.map_cons, text]

/-- The first difference decides. -/
theorem sub_neg_iff_lex {x y : UInt8} (hne : x ≠ y) (xs ys : List UInt8) :
    (x.toNat : Int) - y.toNat < 0 ↔ List.Lex (· < ·) (text (x :: xs)) (text (y :: ys)) := by
  have hne' : x.toNat ≠ y.toNat := fun h => hne (UInt8.toNat_inj.mp h)
  by_cases hx : x = 0
  · subst hx
    rw [text_zero, text_cons (Ne.symm hne)]
    have hpos : (0 : UInt8).toNat < y.toNat := by
      have hzero : (0 : UInt8).toNat = 0 := rfl
      omega
    exact ⟨fun _ => List.Lex.nil, fun _ => by omega⟩
  · rw [text_cons hx]
    by_cases hy : y = 0
    · subst hy
      rw [text_zero, show (0 : UInt8).toNat = 0 from rfl]
      exact ⟨fun h => by omega, fun h => absurd h List.not_lex_nil⟩
    · rw [text_cons hy, List.cons_lex_cons_iff]
      constructor
      · intro hlt
        exact Or.inl (by omega)
      · rintro (hlt | ⟨heq, -⟩)
        · omega
        · exact absurd heq hne'

/-- On terminated bytes strcmp returns, and it is negative for texts in lexicographic order. -/
theorem strcmp_spec {xs ys : List UInt8} (hx : 0 ∈ xs) (hy : 0 ∈ ys) :
    ∃ d, strcmp xs ys = some d ∧ (d < 0 ↔ List.Lex (· < ·) (text xs) (text ys)) := by
  induction xs generalizing ys with
  | nil => exact absurd hx List.not_mem_nil
  | cons x xs ih =>
    cases ys with
    | nil => exact absurd hy List.not_mem_nil
    | cons y ys =>
      unfold strcmp
      by_cases heq : x = y
      · subst heq
        rw [if_pos rfl]
        by_cases hzero : x = 0
        · subst hzero
          rw [if_pos rfl, text_zero, text_zero]
          exact ⟨0, rfl, fun h => absurd h (Int.lt_irrefl 0), fun h => absurd h List.not_lex_nil⟩
        · rw [if_neg hzero, text_cons hzero, text_cons hzero, List.lex_cons_iff]
          exact ih ((List.mem_cons.mp hx).resolve_left (Ne.symm hzero))
            ((List.mem_cons.mp hy).resolve_left (Ne.symm hzero))
      · rw [if_neg heq]
        exact ⟨_, rfl, sub_neg_iff_lex heq xs ys⟩

section Strings

variable {Ptr : Type} (heap : Ptr → CString)

theorem strcmpNegative_iff (p q : Ptr) :
    strcmpNegative heap p q = true ↔ List.Lex (· < ·) (text (heap p).bytes) (text (heap q).bytes) := by
  obtain ⟨d, hd, hiff⟩ := strcmp_spec (heap p).terminated (heap q).terminated
  rw [strcmpNegative, hd, Option.any_some, decide_eq_true_iff]
  exact hiff

theorem compareStrings_eq (array : List Ptr) :
    compareStrings heap array = compare (strcmpNegative heap) array := by
  funext j minIdx
  unfold compareStrings compare
  cases array[j]? with
  | none => rfl
  | some x =>
    cases array[minIdx]? with
    | none => rfl
    | some least =>
      obtain ⟨d, hd, -⟩ := strcmp_spec (heap x).terminated (heap least).terminated
      simp [strcmpNegative, hd]

theorem sortStrings_eq (array : List Ptr) (size : Nat) :
    sortStrings heap array size = sort (strcmpNegative heap) array size := by
  have hturn : turnStrings heap size = turn (strcmpNegative heap) size := by
    funext i s
    rw [turnStrings, turn, findMinString, findMin, compareStrings_eq]
  rw [sortStrings, sort, hturn]

/-- "strcmp is negative" is a strict weak order; different pointers may be equivalent. -/
instance strcmpNegative_isStrictWeakOrder :
    IsStrictWeakOrder Ptr fun p q => strcmpNegative heap p q = true := by
  have hlex : IsStrictWeakOrder (List Nat) (List.Lex (· < ·)) :=
    isStrictWeakOrder_of_isOrderConnected
  have hcomap : IsStrictWeakOrder Ptr fun p q =>
      List.Lex (· < ·) (text (heap p).bytes) (text (heap q).bytes) :=
    inferInstanceAs (IsStrictWeakOrder Ptr
      (Order.Preimage (fun p => text (heap p).bytes) (List.Lex (· < ·))))
  simpa only [strcmpNegative_iff] using hcomap

/-- The specialisation orders the strings. -/
theorem sortStrings_sorted {array : List Ptr} {size : Nat} (hsize : size ≤ array.length) :
    ∃ s, sortStrings heap array size = some s ∧
      Sorted (strcmpNegative heap) array size size s := by
  rw [sortStrings_eq]
  exact sort_sorted hsize

end Strings

/-- `sort` leaves a permutation of the array in which no later element is less than an earlier one,
    with at most `size` swaps; the specialisation for C strings leaves what `sort` leaves with
    "strcmp is negative" as `<`. -/
theorem sort_correct {α Ptr : Type} (lt : α → α → Bool)
    [IsStrictWeakOrder α fun x y => lt x y = true] (heap : Ptr → CString)
    (array : List α) (strings : List Ptr) (size strSize : Nat) (hsize : size ≤ array.length)
    (hstrSize : strSize ≤ strings.length) :
    (∃ s, sort lt array size = some s ∧ s.array.Perm array ∧
      (s.array.take size).Pairwise (fun x y => lt y x = false) ∧
      s.array.drop size = array.drop size ∧ s.swaps ≤ size) ∧
    ∃ s, sortStrings heap strings strSize = some s ∧
      sort (strcmpNegative heap) strings strSize = some s := by
  constructor
  · obtain ⟨s, hs, hsorted⟩ : ∃ s, sort lt array size = some s ∧ Sorted lt array size size s :=
      sort_sorted hsize
    refine ⟨s, hs, hsorted.perm, ?_, ?_, hsorted.swaps⟩
    · rw [List.pairwise_iff_getElem]
      intro k l hk hl hkl
      rw [List.length_take] at hk hl
      rw [List.getElem_take, List.getElem_take]
      exact hsorted.ordered k l _ _ (by omega) hkl (by omega) (List.getElem?_eq_getElem _)
        (List.getElem?_eq_getElem _)
    · apply List.ext_getElem?
      intro p
      rw [List.getElem?_drop, List.getElem?_drop]
      exact hsorted.rest _ (Nat.le_add_right size p)
  · obtain ⟨s, hs, -⟩ := sortStrings_sorted heap hstrSize
    exact ⟨s, hs, by rw [← sortStrings_eq, hs]⟩

/-- Pairs by their first component, and three pointers, two of them to equal texts. -/
theorem sort_correct_pairs :
    IsStrictWeakOrder (Nat × Nat) (fun x y => decide (x.1 < y.1) = true) ∧
      ((∃ s, sort (fun x y : Nat × Nat => decide (x.1 < y.1)) [(2, 0), (1, 0), (2, 1), (1, 1)] 4 =
          some s ∧ s.array.Perm [(2, 0), (1, 0), (2, 1), (1, 1)] ∧
          (s.array.take 4).Pairwise (fun x y => decide (y.1 < x.1) = false) ∧
          s.array.drop 4 = [] ∧ s.swaps ≤ 4) ∧
        ∃ s, sortStrings (fun p : Bool => ⟨if p then [98, 0] else [97, 98, 0], by split <;> simp⟩)
            [true, false, true] 3 = some s ∧
          sort (strcmpNegative
            fun p : Bool => ⟨if p then [98, 0] else [97, 98, 0], by split <;> simp⟩)
            [true, false, true] 3 = some s) := by
  have hweak : IsStrictWeakOrder (Nat × Nat) (fun x y => decide (x.1 < y.1) = true) := by
    refine @IsStrictWeakOrder.mk _ _ { irrefl := ?_, trans := ?_ } ?_
    · simp
    · intro x y z hxy hyz
      simp only [decide_eq_true_iff] at hxy hyz ⊢
      omega
    · intro x y z hxy hyz
      simp only [decide_eq_true_iff] at hxy hyz ⊢
      omega
  exact ⟨hweak, sort_correct _ _ _ _ 4 3 (by decide) (by decide)⟩

end DemosOsLinux.SelectionSort
