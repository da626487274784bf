/-
  Two passes over an array, and the same in chunks
  (exercises/optimization/cache_line_and_algo/solution.c).

  The first operation adds 1 to an element, the second doubles an element if the one before it is
  odd, so it reads what it has itself written. `int` arithmetic wraps, and `% 2` of a negative `int`
  is not positive.
  * `Mixed.addOne`, `Mixed.doubleIfOdd`: what one turn of each loop does to an array whose elements
    before `i` are final and before `j` have had the first operation.
  * `processChunk_mixed`: a chunk makes its elements final.
  * `process_cache_friendly_eq`: both functions leave the same array.
-/
import DemosOsLinux.Lib.ArrayLoops
import DemosOsLinux.Lib.MachineInt

namespace DemosOsLinux.CacheChunks

open Lib

/-- An array of `int`s: it has a place in the address space. -/
structure IntArray where
  data : List Int32
  fits : 4 * data.length ≤ 2 ^ 64

/-- `arr[i] += 1`. -/
def addOne (i : Nat) (arr : List Int32) : Option (List Int32) := do
  let v ← arr[i]?
  store arr i (v + 1)

/-- `if (arr[i-1] % 2 == 1) arr[i] *= 2`. -/
def doubleIfOdd (i : Nat) (arr : List Int32) : Option (List Int32) := do
  let before ← arr[i - 1]?
  if before % 2 = 1 then
    let v ← arr[i]?
    store arr i (v * 2)
  else some arr

def processCacheUnfriendly (arr : List Int32) (size : Nat) : Option (List Int32) := do
  let arr ← forLoop 0 size 1 addOne arr
  forLoop 1 size 1 doubleIfOdd arr

/-- The body of the loop over the chunks. -/
def processChunk (chunkSize size start : Nat) (arr : List Int32) : Option (List Int32) := do
  let sum := u64Add start chunkSize
  let stop := if sum > size then size else sum
  let arr ← forLoop start stop 1 addOne arr
  let loopStart := if start = 0 then 1 else start
  forLoop loopStart stop 1 doubleIfOdd arr

/-- The loop over the chunks from `start` on, `none` if the turns do not suffice. -/
def chunkLoop (chunkSize size : Nat) : Nat → Nat → List Int32 → Option (List Int32)
  | 0, _, _ => none
  | turns + 1, start, arr =>
    if start < size then do
      let arr ← processChunk chunkSize size start arr
      chunkLoop chunkSize size turns (u64Add start chunkSize) arr
    else some arr

/-- `process_cache_friendly` with the chunk size as an argument. -/
def processCacheFriendly (chunkSize turns : Nat) (arr : List Int32) (size : Nat) :
    Option (List Int32) :=
  chunkLoop chunkSize size turns 0 arr

/-! ## How far an array is -/

/-- What the two passes make of the element at a position. -/
def final (a : Nat → Int32) : Nat → Int32
  | 0 => a 0 + 1
  | k + 1 => if final a k % 2 = 1 then (a (k + 1) + 1) * 2 else a (k + 1) + 1

def value (a : Nat → Int32) (i j k : Nat) : Int32 :=
  if k < i then final a k else if k < j then a k + 1 else a k

/-- `arr` holds `a`, with the elements before `i` final and before `j` after the first operation. -/
structure Mixed (a : Nat → Int32) (n i j : Nat) (arr : List Int32) : Prop where
  length : arr.length = n
  elem : ∀ k < n, arr[k]? = some (value a i j k)

variable {a : Nat → Int32} {n i j start : Nat} {arr arr' : List Int32}

theorem Mixed.eq (h : Mixed a n i j arr) (h' : Mixed a n i j arr') : arr = arr' := by
  apply List.ext_getElem?
  intro k
  by_cases hk : k < n
  · rw [h.elem k hk, h'.elem k hk]
  · rw [List.getElem?_eq_none (by rw [h.length]; omega),
      List.getElem?_eq_none (by rw [h'.length]; omega)]

/-- The first element is final after the first operation. -/
theorem Mixed.first (h : Mixed a n 0 j arr) (hj : 0 < j) : Mixed a n 1 j arr := by
  refine ⟨h.length, fun k hk => ?_⟩
  rw [h.elem k hk]
  unfold value
  cases k with
  | zero => rw [if_neg (Nat.lt_irrefl 0), if_pos hj, if_pos Nat.zero_lt_one, final]
  | succ k => rw [if_neg (Nat.not_lt_zero _), if_neg (show ¬k + 1 < 1 by omega)]

/-- One element is stored, and the new value is the one of the next stage. -/
theorem Mixed.store {i' j' x : Nat} {v : Int32} (h : Mixed a n i j arr) (hx : x < n)
    (hv : v = value a i' j' x) (hother : ∀ k, k ≠ x → value a i' j' k = value a i j k) :
    ∃ arr', Lib.store arr x v = some arr' ∧ Mixed a n i' j' arr' := by
  refine ⟨arr.set x v, store_of_lt (by rw [h.length]; exact hx) v, ?_, fun k hk => ?_⟩
  · rw [List.length_set, h.length]
  · rw [List.getElem?_set]
    by_cases heq : x = k
    · subst heq
      rw [if_pos rfl, if_pos (by rw [h.length]; exact hx), hv]
    · rw [if_neg heq, h.elem k hk, hother k (Ne.symm heq)]

theorem Mixed.addOne (h : Mixed a n i j arr) (hij : i ≤ j) (hj : j < n) :
    ∃ arr', addOne j arr = some arr' ∧ Mixed a n i (j + 1) arr' := by
  have hold : value a i j j = a j := by
    rw [value, if_neg (by omega), if_neg (Nat.lt_irrefl j)]
  unfold CacheChunks.addOne
  rw [h.elem j hj, hold]
  refine h.store hj ?_ fun k hk => ?_
  · rw [value, if_neg (by omega), if_pos (Nat.lt_succ_self j)]
  · unfold value
    simp only [show k < j + 1 ↔ k < j by omega]

theorem Mixed.doubleIfOdd (h : Mixed a n (i + 1) j arr) (hij : i + 1 < j) (hj : j ≤ n) :
    ∃ arr', doubleIfOdd (i + 1) arr = some arr' ∧ Mixed a n (i + 2) j arr' := by
  have hbefore : value a (i + 1) j i = final a i := by rw [value, if_pos (Nat.lt_succ_self i)]
  have hold : value a (i + 1) j (i + 1) = a (i + 1) + 1 := by
    rw [value, if_neg (Nat.lt_irrefl _), if_pos hij]
  have hnew : value a (i + 2) j (i + 1) = final a (i + 1) := by
    rw [value, if_pos (Nat.lt_succ_self _)]
  have hother : ∀ k, k ≠ i + 1 → value a (i + 2) j k = value a (i + 1) j k := by
    intro k hk
    unfold value
    simp only [show k < i + 2 ↔ k < i + 1 by omega]
  unfold CacheChunks.doubleIfOdd
  rw [Nat.add_sub_cancel, h.elem i (by omega), hbefore, h.elem (i + 1) (by omega), hold]
  dsimp only [Option.bind_eq_bind, Option.bind_some]
  by_cases hodd : final a i % 2 = 1
  · rw [if_pos hodd]
    exact h.store (by omega) (by rw [hnew, final, if_pos hodd]) hother
  · rw [if_neg hodd]
    -- the element is already what it will be
    refine ⟨arr, rfl, h.length, fun k hk => ?_⟩
    rw [h.elem k hk]
    by_cases heq : k = i + 1
    · rw [heq, hold, hnew, final, if_neg hodd]
    · rw [hother k heq]

/-! ## The loops -/

theorem Mixed.addLoop {stop : Nat} (h : Mixed a n i j arr) (hij : i ≤ j) (hstop : j ≤ stop)
    (hn : stop ≤ n) :
    ∃ arr', forLoop j stop 1 CacheChunks.addOne arr = some arr' ∧ Mixed a n i stop arr' := by
  refine forLoop_spec Nat.one_pos (fun x => Mixed a n i x) hstop h fun x s hx hlt hs => ?_
  rw [Nat.min_eq_left hlt]
  exact hs.addOne (by omega) (by omega)

theorem Mixed.doubleLoop (h : Mixed a n start j arr) (hpos : 0 < start) (hle : start ≤ j)
    (hn : j ≤ n) :
    ∃ arr', forLoop start j 1 CacheChunks.doubleIfOdd arr = some arr' ∧ Mixed a n j j arr' := by
  refine forLoop_spec Nat.one_pos (fun x => Mixed a n x j) hle h fun x s hx hlt hs => ?_
  rw [Nat.min_eq_left hlt]
  obtain ⟨y, rfl⟩ := Nat.exists_eq_add_of_lt (Nat.lt_of_lt_of_le hpos hx)
  rw [Nat.zero_add] at hs hlt ⊢
  exact hs.doubleIfOdd hlt hn

/-- The second operation from the first place where it applies. -/
theorem Mixed.doubleFrom (h : Mixed a n start j arr) (hlt : start < j) (hn : j ≤ n) :
    ∃ arr', forLoop (if start = 0 then 1 else start) j 1 CacheChunks.doubleIfOdd arr = some arr' ∧
      Mixed a n j j arr' := by
  by_cases hzero : start = 0
  · subst hzero
    rw [if_pos rfl]
    exact (h.first hlt).doubleLoop Nat.one_pos hlt hn
  · rw [if_neg hzero]
    exact h.doubleLoop (Nat.pos_of_ne_zero hzero) (Nat.le_of_lt hlt) hn

theorem processCacheUnfriendly_mixed {size : Nat} (h : Mixed a n 0 0 arr) (hsize : size ≤ n) :
    ∃ arr', processCacheUnfriendly arr size = some arr' ∧ Mixed a n size size arr' := by
  unfold processCacheUnfriendly
  obtain ⟨arr₁, harr₁, h₁⟩ := h.addLoop (Nat.le_refl 0) (Nat.zero_le size) hsize
  rw [harr₁]
  dsimp only [Option.bind_eq_bind, Option.bind_some]
  rcases Nat.eq_zero_or_pos size with rfl | hpos
  · exact ⟨arr₁, forLoop_of_le Nat.one_pos (Nat.zero_le 1), h₁⟩
  · exact h₁.doubleFrom hpos hsize

theorem processChunk_mixed {chunkSize size : Nat} (h : Mixed a n start start arr)
    (hchunk : 0 < chunkSize) (hlt : start < size) (hsize : size ≤ n)
    (hsum : start + chunkSize < 2 ^ 64) :
    ∃ arr', processChunk chunkSize size start arr = some arr' ∧
      Mixed a n (min (start + chunkSize) size) (min (start + chunkSize) size) arr' := by
  have hstop : (if start + chunkSize > size then size else start + chunkSize) =
      min (start + chunkSize) size := by
    split <;> omega
  unfold processChunk
  dsimp only
  rw [u64Add_of_lt hsum, hstop]
  have hfrom : start ≤ min (start + chunkSize) size := by omega
  obtain ⟨arr₁, harr₁, h₁⟩ := h.addLoop (Nat.le_refl start) hfrom (by omega)
  rw [harr₁]
  exact h₁.doubleFrom (by omega) (by omega)

/-- `start` is 0 or at least a chunk, so the sum only wraps for arrays that do not exist. -/
theorem chunkLoop_mixed {chunkSize size turns : Nat} (h : Mixed a n start start arr)
    (hchunk : 0 < chunkSize) (hword : chunkSize < 2 ^ 64) (hsize : size ≤ n) (hn : 4 * n ≤ 2 ^ 64)
    (hstart : start = 0 ∨ chunkSize ≤ start) (hle : start ≤ size) (hturns : size - start < turns) :
    ∃ arr', chunkLoop chunkSize size turns start arr = some arr' ∧ Mixed a n size size arr' := by
  induction turns generalizing start arr with
  | zero => omega
  | succ turns ih =>
    unfold chunkLoop
    rcases Nat.lt_or_ge start size with hlt | hge
    · have hsum : start + chunkSize < 2 ^ 64 := by omega
      obtain ⟨arr₁, harr₁, h₁⟩ := processChunk_mixed h hchunk hlt hsize hsum
      rw [if_pos hlt, harr₁, u64Add_of_lt hsum]
      dsimp only [Option.bind_eq_bind, Option.bind_some]
      rcases Nat.le_total (start + chunkSize) size with hin | hout
      · rw [Nat.min_eq_left hin] at h₁
        exact ih h₁ (Or.inr (by omega)) hin (by omega)
      · -- the last chunk: the loop ends
        rw [Nat.min_eq_right hout] at h₁
        cases turns with
        | zero => omega
        | succ turns =>
          rw [chunkLoop, if_neg (by omega)]
          exact ⟨arr₁, rfl, h₁⟩
    · obtain rfl := Nat.le_antisymm hle hge
      rw [if_neg (Nat.lt_irrefl _)]
      exact ⟨arr, rfl, h⟩

theorem mixed_start (xs : List Int32) : Mixed (fun k => xs[k]?.getD 0) xs.length 0 0 xs := by
  refine ⟨rfl, fun k hk => ?_⟩
  rw [value, if_neg (Nat.not_lt_zero k), if_neg (Nat.not_lt_zero k),
    List.getElem?_eq_getElem hk]
  rfl

/-- In chunks of any size, the array is what the two passes leave. -/
theorem process_cache_friendly_eq (arr : IntArray) (size chunkSize turns : Nat)
    (hsize : size ≤ arr.data.length) (hchunk : 0 < chunkSize) (hword : chunkSize < 2 ^ 64)
    (hturns : size < turns) :
    ∃ out, processCacheUnfriendly arr.data size = some out ∧
      processCacheFriendly chunkSize turns arr.data size = some out := by
  have hstart := mixed_start arr.data
  obtain ⟨out, hout, hmixed⟩ := processCacheUnfriendly_mixed hstart hsize
  have hleft : size - 0 < turns := hturns
  obtain ⟨out', hout', hmixed'⟩ := chunkLoop_mixed hstart hchunk hword hsize arr.fits
    (Or.inl rfl) (Nat.zero_le size) hleft
  obtain rfl := hmixed.eq hmixed'
  exact ⟨out, hout, hout'⟩

/-- Five elements in chunks of two; the fourth one depends on the chunk before it. -/
theorem process_cache_friendly_five :
    (5 ≤ [0, -4, 0, 6, 7].length ∧ 0 < 2 ∧ 2 < 2 ^ 64 ∧ 5 < 6) ∧
      ∃ out, processCacheUnfriendly [0, -4, 0, 6, 7] 5 = some out ∧
        processCacheFriendly 2 6 [0, -4, 0, 6, 7] 5 = some out :=
  ⟨by decide, process_cache_friendly_eq ⟨[0, -4, 0, 6, 7], by decide⟩ 5 2 6 (by decide) (by decide)
    (by decide) (by decide)⟩

end DemosOsLinux.CacheChunks
