/-
  The parallel merge sort under every schedule.

  The program is a fork-join command over the cells of `arr` and `scratch`. The two sections of a
  call and its copy and merge are in the source's order; memcpy(3) copies one element after the
  other. The elements are of any type with a linear order.
  * `copy_runs`, `merge_writes`: what the two loops do.
  * `mergesort_runs`: the serial run sorts, and the call at a path keeps to its own range.
  * `mergesort_sorts`: so does every interleaving.
-/
import Mathlib.Data.List.Sort
import DemosOsLinux.MergeSort.Calls

namespace DemosOsLinux.MergeSort

open Lib Function

/-- An element of one of the two arrays. -/
inductive Cell where
  | arr (i : Nat)
  | scratch (i : Nat)
  deriving DecidableEq

def Cell.index : Cell → Nat
  | .arr i => i
  | .scratch i => i

variable {V : Type}

/-- `dst=src`. -/
def move (src dst : Cell) (k : Cmd Cell V) : Cmd Cell V := .read src fun v => .write dst v k

/-- memcpy(3) of `n` elements of `arr` to `scratch`, from element `i` on. -/
def copy : Nat → Nat → Cmd Cell V → Cmd Cell V
  | _, 0, k => k
  | i, n + 1, k => move (.arr i) (.scratch i) (copy (i + 1) n k)

/-- `while(target<to)`. -/
def merge [LT V] [DecidableLT V] (mid hi : UInt32) :
    Nat → UInt32 → UInt32 → UInt32 → Cmd Cell V
  | 0, _, _, target => if target < hi then .hang else .done
  | fuel + 1, i, j, target =>
      if target < hi then
        if i < hi ∧ j < mid then
          .read (.scratch i.toNat) fun x =>
            .read (.scratch j.toNat) fun y =>
              if x < y then
                move (.scratch i.toNat) (.arr target.toNat)
                  (merge mid hi fuel (i + 1) j (target + 1))
              else
                move (.scratch j.toNat) (.arr target.toNat)
                  (merge mid hi fuel i (j + 1) (target + 1))
        else if i < hi then
          move (.scratch i.toNat) (.arr target.toNat) (merge mid hi fuel (i + 1) j (target + 1))
        else
          move (.scratch j.toNat) (.arr target.toNat) (merge mid hi fuel i (j + 1) (target + 1))
      else .done

/-- `mergesort(arr, lo, hi, scratch)`; `fuel` bounds the depth of the recursion. -/
def mergesort [LT V] [DecidableLT V] : Nat → UInt32 → UInt32 → Cmd Cell V
  | 0, lo, hi => if lo + 1 = hi then .done else .hang
  | fuel + 1, lo, hi =>
      if lo + 1 = hi then .done
      else
        .par (mergesort fuel lo (mid lo hi)) (mergesort fuel (mid lo hi) hi)
          (copy lo.toNat (hi - lo).toNat
            (merge (mid lo hi) hi (hi - lo).toNat (mid lo hi) lo lo))

/-- The elements `a`, …, `b - 1`. -/
def slice (f : Nat → V) (a b : Nat) : List V := (List.range' a (b - a)).map f

def arrOf (m : Cell → V) (i : Nat) : V := m (.arr i)

def scratchOf (m : Cell → V) (i : Nat) : V := m (.scratch i)

/-! ## Slices -/

section Slice

variable {f g : Nat → V} {a b c : Nat}

theorem slice_of_le (h : b ≤ a) : slice f a b = [] := by
  rw [slice, Nat.sub_eq_zero_of_le h]
  rfl

theorem slice_cons (h : a < b) : slice f a b = f a :: slice f (a + 1) b := by
  rw [slice, show b - a = (b - (a + 1)) + 1 by omega, List.range'_succ]
  rfl

theorem slice_append (hab : a ≤ b) (hbc : b ≤ c) : slice f a b ++ slice f b c = slice f a c := by
  have hrange := @List.range'_append a (b - a) (c - b) 1
  rw [Nat.one_mul, Nat.add_sub_cancel' hab, show b - a + (c - b) = c - a by omega] at hrange
  rw [slice, slice, ← List.map_append, hrange]
  rfl

theorem slice_congr (h : ∀ i, a ≤ i → i < b → f i = g i) : slice f a b = slice g a b := by
  refine List.map_congr_left fun i hi => ?_
  rw [List.mem_range'_1] at hi
  exact h i hi.1 (by omega)

end Slice

/-! ## The copy -/

/-- The memory after the copy. -/
def copied (i n : Nat) (m : Cell → V) : Cell → V
  | .arr k => m (.arr k)
  | .scratch k => if i ≤ k ∧ k < i + n then m (.arr k) else m (.scratch k)

theorem copied_succ (i n : Nat) (m : Cell → V) :
    copied (i + 1) n (update m (.scratch i) (m (.arr i))) = copied i (n + 1) m := by
  funext c
  cases c with
  | arr k => simp [copied]
  | scratch k =>
    by_cases hk : k = i
    · subst hk
      simp [copied]
    · have hiff : (i + 1 ≤ k ∧ k < i + 1 + n) ↔ (i ≤ k ∧ k < i + (n + 1)) := by omega
      have hother : update m (.scratch i) (m (.arr i)) (.scratch k) = m (.scratch k) :=
        update_of_ne (by simpa using hk) _ _
      have harr : update m (.scratch i) (m (.arr i)) (.arr k) = m (.arr k) :=
        update_of_ne (by simp) _ _
      simp only [copied, hother, harr, hiff]

theorem copy_runs {R : List Side → Cell → Prop} {k : Cmd Cell V} {m m' : Cell → V} {i n t : Nat}
    (hR : ∀ c : Cell, i ≤ c.index → c.index < i + n → R [] c)
    (h : Cmd.Runs R k (copied i n m) t m') : Cmd.Runs R (copy i n k) m (t + 2 * n) m' := by
  induction n generalizing i m with
  | zero =>
    have hsame : copied i 0 m = m := by
      funext c
      cases c with
      | arr k => rfl
      | scratch k => exact if_neg (by omega)
    rw [hsame] at h
    exact h
  | succ n ih =>
    rw [← copied_succ] at h
    have hrest := ih (fun c hc hc' => hR c (by omega) (by omega)) h
    exact .read (hR (.arr i) (Nat.le_refl i) (by simp [Cell.index]))
      (.write (hR (.scratch i) (Nat.le_refl i) (by simp [Cell.index])) hrest)

/-! ## The merge -/

/-- `k` writes `xs` to `arr[t]`, …, `arr[b-1]`, and nothing else. -/
def Writes (R : List Side → Cell → Prop) (k : Cmd Cell V) (m : Cell → V) (t b : Nat)
    (xs : List V) : Prop :=
  ∃ n m', Cmd.Runs R k m n m' ∧ slice (arrOf m') t b = xs ∧
    ∀ c : Cell, (∀ i, c = .arr i → i < t) → m' c = m c

section Merge

variable {R : List Side → Cell → Prop} {m : Cell → V}

theorem Writes.read {a : Cell} {k : V → Cmd Cell V} {t b : Nat} {xs : List V} (ha : R [] a)
    (h : Writes R (k (m a)) m t b xs) : Writes R (.read a k) m t b xs := by
  obtain ⟨n, m', hruns, hxs, hother⟩ := h
  exact ⟨n + 1, m', .read ha hruns, hxs, hother⟩

theorem Writes.move {src : Cell} {k : Cmd Cell V} {t b : Nat} {xs : List V} (hsrc : R [] src)
    (hdst : R [] (.arr t)) (ht : t < b) (h : Writes R k (update m (.arr t) (m src)) (t + 1) b xs) :
    Writes R (move src (.arr t) k) m t b (m src :: xs) := by
  obtain ⟨n, m', hruns, hxs, hother⟩ := h
  refine ⟨n + 1 + 1, m', .read hsrc (.write hdst hruns), ?_, fun c hc => ?_⟩
  · have hval : m' (.arr t) = m src := by
      rw [hother (.arr t) (fun i hi => by cases hi; exact Nat.lt_succ_self t),
        update_self]
    rw [slice_cons ht, hxs, arrOf, hval]
  · rw [hother c fun i hi => Nat.lt_succ_of_lt (hc i hi), update_of_ne]
    rintro rfl
    exact Nat.lt_irrefl t (hc t rfl)

theorem scratchOf_update (t : Nat) (v : V) : scratchOf (update m (.arr t) v) = scratchOf m := by
  funext i
  rw [scratchOf, update_of_ne (by simp)]
  rfl

/-- The indices of the loop: `target - from` elements are taken from the two halves. -/
structure MergeInv (lo mid hi i j target : UInt32) : Prop where
  mid_le : mid.toNat ≤ i.toNat
  le_hi : i.toNat ≤ hi.toNat
  lo_le : lo.toNat ≤ j.toNat
  le_mid : j.toNat ≤ mid.toNat
  target : target.toNat + mid.toNat = i.toNat + j.toNat
  small : hi.toNat ≤ 2 ^ 31

variable {lo mid hi i j target : UInt32}

theorem toNat_succ {x : UInt32} (h : x.toNat < 2 ^ 31) : (x + 1).toNat = x.toNat + 1 := by
  rw [UInt32.toNat_add, UInt32.toNat_one, Nat.mod_eq_of_lt (by omega)]

theorem MergeInv.right (h : MergeInv lo mid hi i j target) (hi' : i.toNat < hi.toNat)
    (ht : target.toNat < hi.toNat) : MergeInv lo mid hi (i + 1) j (target + 1) := by
  obtain ⟨h1, h2, h3, h4, h5, h6⟩ := h
  have ei := toNat_succ (show i.toNat < 2 ^ 31 by omega)
  have et := toNat_succ (show target.toNat < 2 ^ 31 by omega)
  constructor <;> omega

theorem MergeInv.left (h : MergeInv lo mid hi i j target) (hj : j.toNat < mid.toNat)
    (ht : target.toNat < hi.toNat) : MergeInv lo mid hi i (j + 1) (target + 1) := by
  obtain ⟨h1, h2, h3, h4, h5, h6⟩ := h
  have ej := toNat_succ (show j.toNat < 2 ^ 31 by omega)
  have et := toNat_succ (show target.toNat < 2 ^ 31 by omega)
  constructor <;> omega

/-- What is left of the two halves, merged. -/
def rest [LinearOrder V] (m : Cell → V) (mid hi i j : UInt32) : List V :=
  (slice (scratchOf m) j.toNat mid.toNat).merge (slice (scratchOf m) i.toNat hi.toNat) (· ≤ ·)

section Rest

variable [LinearOrder V]

theorem rest_update (t : Nat) (v : V) :
    rest (update m (.arr t) v) mid hi i j = rest m mid hi i j := by
  rw [rest, scratchOf_update]
  rfl

section Merge

variable (inv : MergeInv lo mid hi i j target)
include inv

/-- The next element is from the right half if that of the left one is greater, or there is
    none. -/
theorem rest_right (hi' : i.toNat < hi.toNat)
    (h : j.toNat < mid.toNat → m (.scratch i.toNat) < m (.scratch j.toNat)) :
    rest m mid hi i j = m (.scratch i.toNat) :: rest m mid hi (i + 1) j := by
  have ei := toNat_succ (Nat.lt_of_lt_of_le hi' inv.small)
  rw [rest, rest, ei, slice_cons hi']
  by_cases hj : j.toNat < mid.toNat
  · rw [slice_cons hj, List.cons_merge_cons_neg]
    · rfl
    · rw [decide_eq_true_eq]
      exact not_le.mpr (h hj)
  · rw [slice_of_le (Nat.le_of_not_lt hj), List.nil_merge, List.nil_merge]
    rfl

theorem rest_left (hj : j.toNat < mid.toNat)
    (h : i.toNat < hi.toNat → ¬m (.scratch i.toNat) < m (.scratch j.toNat)) :
    rest m mid hi i j = m (.scratch j.toNat) :: rest m mid hi i (j + 1) := by
  have hsmall := inv.small
  have hmid := inv.mid_le
  have hle := inv.le_hi
  have ej := toNat_succ (show j.toNat < 2 ^ 31 by omega)
  rw [rest, rest, ej, slice_cons hj]
  by_cases hi' : i.toNat < hi.toNat
  · rw [slice_cons hi', List.cons_merge_cons_pos]
    · rfl
    · exact decide_eq_true (not_lt.mp (h hi'))
  · rw [slice_of_le (Nat.le_of_not_lt hi'), List.merge_right, List.merge_right]
    rfl

theorem merge_done (ht : ¬target.toNat < hi.toNat) :
    Writes R .done m target.toNat hi.toNat (rest m mid hi i j) := by
  obtain ⟨h1, h2, h3, h4, h5, h6⟩ := inv
  refine ⟨0, m, .done R m, ?_, fun _ _ => rfl⟩
  rw [rest, slice_of_le (by omega), slice_of_le (by omega), slice_of_le (by omega),
    List.nil_merge]

/-- The loop writes the merge of the two halves. -/
theorem merge_writes {fuel : Nat}
    (hR : ∀ c : Cell, lo.toNat ≤ c.index → c.index < hi.toNat → R [] c)
    (hfuel : hi.toNat - target.toNat ≤ fuel) :
    Writes R (merge mid hi fuel i j target) m target.toNat hi.toNat (rest m mid hi i j) := by
  induction fuel generalizing i j target m with
  | zero =>
    have ht : ¬target.toNat < hi.toNat := by omega
    rw [merge, if_neg (by rwa [UInt32.lt_iff_toNat_lt])]
    exact merge_done inv ht
  | succ fuel ih =>
    by_cases ht : target.toNat < hi.toNat
    · obtain ⟨h1, h2, h3, h4, h5, h6⟩ := inv
      -- one turn: element `s` of `scratch` to `arr[target]`, then the rest of the loop
      have turn {i' j' : UInt32} (inv' : MergeInv lo mid hi i' j' (target + 1)) {s : Nat}
          (hs : lo.toNat ≤ s) (hs' : s < hi.toNat) :
          Writes R (move (.scratch s) (.arr target.toNat) (merge mid hi fuel i' j' (target + 1))) m
            target.toNat hi.toNat (m (.scratch s) :: rest m mid hi i' j') := by
        have et := toNat_succ (show target.toNat < 2 ^ 31 by omega)
        have hrest := ih (m := update m (.arr target.toNat) (m (.scratch s))) inv'
          (by omega)
        rw [rest_update, et] at hrest
        exact .move (hR (.scratch s) hs hs')
          (hR (.arr target.toNat) (show lo.toNat ≤ target.toNat by omega) ht) ht hrest
      have inv : MergeInv lo mid hi i j target := ⟨h1, h2, h3, h4, h5, h6⟩
      rw [merge, if_pos (UInt32.lt_iff_toNat_lt.mpr ht)]
      split
      · rename_i hij
        rw [UInt32.lt_iff_toNat_lt, UInt32.lt_iff_toNat_lt] at hij
        refine .read (hR (.scratch i.toNat) (show lo.toNat ≤ i.toNat by omega) hij.1)
          (.read (hR (.scratch j.toNat) h3 (show j.toNat < hi.toNat by omega)) ?_)
        split
        · rename_i hlt
          rw [rest_right inv hij.1 fun _ => hlt]
          exact turn (inv.right hij.1 ht) (by omega) hij.1
        · rename_i hge
          rw [rest_left inv hij.2 fun _ => hge]
          exact turn (inv.left hij.2 ht) h3 (by omega)
      · rename_i hij
        rw [UInt32.lt_iff_toNat_lt, UInt32.lt_iff_toNat_lt] at hij
        split
        · rename_i hi'
          rw [UInt32.lt_iff_toNat_lt] at hi'
          rw [rest_right inv hi' fun hj => absurd ⟨hi', hj⟩ hij]
          exact turn (inv.right hi' ht) (by omega) hi'
        · rename_i hi'
          rw [UInt32.lt_iff_toNat_lt] at hi'
          have hj : j.toNat < mid.toNat := by omega
          rw [rest_left inv hj fun h => absurd h hi']
          exact turn (inv.left hj ht) h3 (by omega)
    · rw [merge, if_neg (by rwa [UInt32.lt_iff_toNat_lt])]
      exact merge_done inv ht

end Merge

end Rest

end Merge

/-! ## The whole sort -/

/-- The cells that belong to the call at a path. -/
def cells (lo hi : UInt32) (p : List Side) (c : Cell) : Prop :=
  ∃ a b, callAt lo hi p = some (a, b) ∧ a.toNat ≤ c.index ∧ c.index < b.toNat

section Cells

variable {lo hi : UInt32}

theorem cells_left (h : lo + 1 ≠ hi) :
    (fun p => cells lo hi (.left :: p)) = cells lo (mid lo hi) := by
  funext p c
  rw [cells, callAt_left h]
  rfl

theorem cells_right (h : lo + 1 ≠ hi) :
    (fun p => cells lo hi (.right :: p)) = cells (mid lo hi) hi := by
  funext p c
  rw [cells, callAt_right h]
  rfl

theorem cells_between (h : Fits lo hi) {p : List Side} {c : Cell} (hc : cells lo hi p c) :
    lo.toNat ≤ c.index ∧ c.index < hi.toNat := by
  obtain ⟨a, b, hab, hlo, hhi⟩ := hc
  obtain ⟨_, ha, hb, _⟩ := callAt_of_fits h hab
  omega

/-- Concurrent calls have ranges without a common index. -/
theorem index_ne_of_concurrent (h : Fits lo hi) {p q : List Side} (hpq : Cmd.Concurrent p q)
    {c d : Cell} (hc : cells lo hi p c) (hd : cells lo hi q d) : c.index ≠ d.index := by
  induction p generalizing lo hi q with
  | nil => exact absurd List.nil_prefix hpq.1
  | cons s p ih =>
    cases q with
    | nil => exact absurd List.nil_prefix hpq.2
    | cons t q =>
      have hleaf : lo + 1 ≠ hi := by
        intro hleaf
        obtain ⟨a, b, hab, _⟩ := hc
        rw [callAt_leaf hleaf] at hab
        cases hab
      obtain ⟨hlo, hhi⟩ := h.mid_between hleaf
      have hleft (r : List Side) (e : Cell) (he : cells lo hi (.left :: r) e) :
          cells lo (mid lo hi) r e := by
        rwa [← cells_left hleaf]
      have hright (r : List Side) (e : Cell) (he : cells lo hi (.right :: r) e) :
          cells (mid lo hi) hi r e := by
        rwa [← cells_right hleaf]
      cases s with
      | left =>
        cases t with
        | left =>
          exact ih (h.left hleaf) (Cmd.concurrent_cons_iff.mp hpq) (hleft p c hc) (hleft q d hd)
        | right =>
          have hc' := cells_between (h.left hleaf) (hleft p c hc)
          have hd' := cells_between (h.right hleaf) (hright q d hd)
          omega
      | right =>
        cases t with
        | left =>
          have hc' := cells_between (h.right hleaf) (hright p c hc)
          have hd' := cells_between (h.left hleaf) (hleft q d hd)
          omega
        | right =>
          exact ih (h.right hleaf) (Cmd.concurrent_cons_iff.mp hpq) (hright p c hc)
            (hright q d hd)

theorem cells_apart (h : Fits lo hi) : Cmd.Apart (cells lo hi) := by
  intro p q c hpq hp hq
  exact index_ne_of_concurrent h hpq hp hq rfl

end Cells

section Whole

variable [LinearOrder V] {lo hi : UInt32}

/-- The copy and the merge of a call whose halves are sorted. -/
theorem join_runs (h : Fits lo hi) (hleaf : lo + 1 ≠ hi) (m : Cell → V)
    (hl : (slice (arrOf m) lo.toNat (mid lo hi).toNat).Pairwise (· ≤ ·))
    (hr : (slice (arrOf m) (mid lo hi).toNat hi.toNat).Pairwise (· ≤ ·)) :
    ∃ n m', Cmd.Runs (cells lo hi) (copy lo.toNat (hi - lo).toNat
        (merge (mid lo hi) hi (hi - lo).toNat (mid lo hi) lo lo)) m n m' ∧
      (slice (arrOf m') lo.toNat hi.toNat).Pairwise (· ≤ ·) ∧
      (slice (arrOf m') lo.toNat hi.toNat).Perm (slice (arrOf m) lo.toNat hi.toNat) := by
  obtain ⟨hlo, hhi⟩ := h.mid_between hleaf
  have hlen : (hi - lo).toNat = hi.toNat - lo.toNat :=
    UInt32.toNat_sub_of_le hi lo (UInt32.le_iff_toNat_le.mpr (by omega))
  have hR (c : Cell) (hc : lo.toNat ≤ c.index) (hc' : c.index < hi.toNat) : cells lo hi [] c :=
    ⟨lo, hi, rfl, hc, hc'⟩
  have inv : MergeInv lo (mid lo hi) hi (mid lo hi) lo lo :=
    ⟨Nat.le_refl _, by omega, Nat.le_refl _, by omega, by omega, h.le⟩
  obtain ⟨n, m', hruns, hxs, _⟩ := merge_writes (m := copied lo.toNat (hi - lo).toNat m) inv hR
    (Nat.le_of_eq hlen.symm)
  refine ⟨_, m', copy_runs (fun c hc hc' => hR c hc (by omega)) hruns, ?_⟩
  -- both halves of `scratch` are those of `arr`
  have hscratch {a b : Nat} (ha : lo.toNat ≤ a) (hb : b ≤ hi.toNat) :
      slice (scratchOf (copied lo.toNat (hi - lo).toNat m)) a b = slice (arrOf m) a b :=
    slice_congr fun i hi' hi'' => if_pos (by omega)
  rw [rest, hscratch (Nat.le_refl _) (by omega), hscratch (by omega) (Nat.le_refl _)] at hxs
  rw [hxs, ← slice_append (Nat.le_of_lt hlo) (Nat.le_of_lt hhi)]
  exact ⟨hl.merge hr, List.merge_perm_append _⟩

/-- The serial run sorts its range. -/
theorem mergesort_runs (fuel : Nat) (h : Fits lo hi) (hfuel : hi.toNat - lo.toNat ≤ fuel)
    (m : Cell → V) :
    ∃ n m', Cmd.Runs (cells lo hi) (mergesort fuel lo hi) m n m' ∧
      (slice (arrOf m') lo.toNat hi.toNat).Pairwise (· ≤ ·) ∧
      (slice (arrOf m') lo.toNat hi.toNat).Perm (slice (arrOf m) lo.toNat hi.toNat) := by
  induction fuel generalizing lo hi m with
  | zero =>
    have hlt := h.lt
    omega
  | succ fuel ih =>
    rw [mergesort]
    by_cases hleaf : lo + 1 = hi
    · rw [if_pos hleaf]
      refine ⟨0, m, .done _ m, ?_, List.Perm.refl _⟩
      have hone := (add_one_eq_iff h.lt).mp hleaf
      rw [slice_cons h.lt, slice_of_le (by omega)]
      exact List.pairwise_singleton _ _
    · rw [if_neg hleaf]
      obtain ⟨hlo, hhi⟩ := h.mid_between hleaf
      obtain ⟨n₁, m₁, hruns₁, hsort₁, hperm₁⟩ := ih (h.left hleaf) (by omega) m
      obtain ⟨n₂, m₂, hruns₂, hsort₂, hperm₂⟩ := ih (h.right hleaf) (by omega) m₁
      -- each side leaves the other's half as it is
      have hright : slice (arrOf m₁) (mid lo hi).toNat hi.toNat =
          slice (arrOf m) (mid lo hi).toNat hi.toNat :=
        slice_congr fun i hi' _ => hruns₁.unchanged fun p hp =>
          Nat.not_lt.mpr hi' (cells_between (h.left hleaf) hp).2
      have hleft : slice (arrOf m₂) lo.toNat (mid lo hi).toNat =
          slice (arrOf m₁) lo.toNat (mid lo hi).toNat :=
        slice_congr fun i _ hi' => hruns₂.unchanged fun p hp =>
          Nat.not_le.mpr hi' (cells_between (h.right hleaf) hp).1
      rw [← hleft] at hsort₁ hperm₁
      obtain ⟨n₃, m₃, hruns₃, hsort₃, hperm₃⟩ := join_runs h hleaf m₂ hsort₁ hsort₂
      rw [← cells_left hleaf] at hruns₁
      rw [← cells_right hleaf] at hruns₂
      refine ⟨_, m₃, .par hruns₁ hruns₂ hruns₃, hsort₃, hperm₃.trans ?_⟩
      rw [hright] at hperm₂
      rw [← slice_append (Nat.le_of_lt hlo) (Nat.le_of_lt hhi),
        ← slice_append (Nat.le_of_lt hlo) (Nat.le_of_lt hhi)]
      exact hperm₁.append hperm₂

end Whole

/-- **Merge sort under every schedule.** For an array of `size` elements, `size` between 1 and
    2^31, and any contents of `scratch`: there is a bound on the length of all schedules; a run
    that has not returned can go on; one that has returned leaves the array sorted, with the
    elements it had; every access is inside the arrays, and two calls that run concurrently have
    no index in common. -/
theorem mergesort_sorts {V : Type} [LinearOrder V] (size : UInt32) (hpos : 1 ≤ size.toNat)
    (hle : size.toNat ≤ 2 ^ 31) (m : Cell → V) (fuel : Nat) (hfuel : size.toNat ≤ fuel) :
    ∃ bound, ∀ (schedule : List (List Side)) (c : Cmd Cell V) (m' : Cell → V)
      (tr : List (Access Cell)),
      (Cmd.machine Cell V).run (mergesort fuel 0 size, m) schedule = some ((c, m'), tr) →
      schedule.length ≤ bound ∧
      (c = .done ∨ ∃ p, (c.step m' p).isSome = true) ∧
      (c = .done → (slice (arrOf m') 0 size.toNat).Pairwise (· ≤ ·) ∧
        (slice (arrOf m') 0 size.toNat).Perm (slice (arrOf m) 0 size.toNat)) ∧
      (∀ e ∈ tr, e.addr.index < size.toNat) ∧
      ∀ e ∈ tr, ∀ f ∈ tr, Cmd.Concurrent e.path f.path → e.addr.index ≠ f.addr.index := by
  have hfits : Fits 0 size := ⟨hpos, hle⟩
  obtain ⟨n, mf, hruns, hsort, hperm⟩ := mergesort_runs fuel hfits hfuel m
  refine ⟨n, fun schedule c m' tr hr => ?_⟩
  obtain ⟨⟨n', hn, hrest⟩, htr⟩ := Cmd.runs_of_schedule (cells_apart hfits) hruns hr
  refine ⟨by omega, Cmd.enabled_of_runs hrest, ?_, ?_, ?_⟩
  · rintro rfl
    cases hrest
    exact ⟨hsort, hperm⟩
  · intro e he
    exact (cells_between hfits (htr e he)).2
  · intro e he f hf hpq
    exact index_ne_of_concurrent hfits hpq (htr e he) (htr f hf)

/-- The array 4, 5, 7, 6. -/
def fourElements : Cell → Int
  | .arr 0 => 4
  | .arr 1 => 5
  | .arr 2 => 7
  | .arr 3 => 6
  | _ => 0

/-- The two sections of the first call take turns. -/
def alternating : List (List Side) :=
  (List.replicate 11 [[Side.left], [Side.right]]).flatten ++ List.replicate 21 []

theorem mergesort_sorts_alternating :
    ∃ c m' tr, (Cmd.machine Cell Int).run (mergesort 4 0 4, fourElements) alternating =
        some ((c, m'), tr) ∧ c = .done ∧
      (slice (arrOf m') 0 4).Pairwise (· ≤ ·) ∧
      (slice (arrOf m') 0 4).Perm (slice (arrOf fourElements) 0 4) := by
  obtain ⟨⟨c, m'⟩, tr, hr, hdone⟩ := (Cmd.machine Cell Int).exists_of_check
    (mergesort 4 0 4, fourElements) alternating (fun s _ => s.1.isDone = true) (by decide +kernel)
  obtain rfl := Cmd.isDone_iff.mp hdone
  obtain ⟨_, hall⟩ := mergesort_sorts 4 (by decide) (by decide) fourElements 4 (by decide)
  obtain ⟨_, _, hsorted, _⟩ := hall alternating .done m' tr hr
  exact ⟨.done, m', tr, hr, rfl, hsorted rfl⟩

end DemosOsLinux.MergeSort
