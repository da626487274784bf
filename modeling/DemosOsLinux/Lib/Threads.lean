/-
  Counting threads by what they are doing.

  `f t` is the place of thread `t` (its program counter, its status); `count f P` is the number
  of threads at a place with `P`.
  * `count_update`: moving one thread changes the count by what it leaves and what it enters;
    `count_update_same`, `_enter` and `_leave` are its three cases.
  * `count_pos`, `count_eq_zero`, `count_le_card`: reading a count back.
  * `total`, `total_update`: the same for a number that each thread has.
  * `update_follows`: a counter for each key, kept equal to a count.
  * `le_count_of_owners`: if each of the slots `0 .. k - 1` has an owner and no thread owns two,
    at least `k` threads own one.
-/
import Mathlib.Algebra.BigOperators.Group.Finset.Piecewise
import Mathlib.Data.Fintype.Card

namespace DemosOsLinux.Lib

open Function

variable {ι α : Type} [Fintype ι] {f : ι → α} {P : α → Bool} {t : ι} {a : α}

/-- The number of threads whose place satisfies `P`. -/
def count (f : ι → α) (P : α → Bool) : Nat := (Finset.univ.filter fun t => P (f t) = true).card

theorem count_pos : 0 < count f P ↔ ∃ t, P (f t) = true := by
  rw [count, Finset.card_pos, Finset.filter_nonempty_iff]
  simp

theorem count_eq_zero : count f P = 0 ↔ ∀ t, P (f t) = false := by
  rw [count, Finset.card_eq_zero, Finset.filter_eq_empty_iff]
  simp

theorem count_le_card (f : ι → α) (P : α → Bool) : count f P ≤ Fintype.card ι :=
  Finset.card_le_univ _

theorem exists_two_of_count (h : 2 ≤ count f P) :
    ∃ t u, t ≠ u ∧ P (f t) = true ∧ P (f u) = true := by
  obtain ⟨t, ht, u, hu, htu⟩ := Finset.one_lt_card.mp h
  rw [Finset.mem_filter] at ht hu
  exact ⟨t, u, htu, ht.2, hu.2⟩

theorem two_le_count {u : ι} (htu : t ≠ u) (ht : P (f t) = true) (hu : P (f u) = true) :
    2 ≤ count f P := by
  refine Finset.one_lt_card.mpr ⟨t, ?_, u, ?_, htu⟩
  · exact Finset.mem_filter.mpr ⟨Finset.mem_univ t, ht⟩
  · exact Finset.mem_filter.mpr ⟨Finset.mem_univ u, hu⟩

omit [Fintype ι] in
/-- What holds of all places and of the place `a` holds of all places when thread `t` is at `a`. -/
theorem forall_update [DecidableEq ι] (P : α → Prop) (h : ∀ t, P (f t)) (ha : P a) :
    ∀ u, P (update f t a u) :=
  (forall_update_iff f fun _ => P).mpr ⟨ha, fun u _ => h u⟩

theorem count_congr {g : ι → α} (h : ∀ t, P (f t) = P (g t)) : count f P = count g P := by
  unfold count
  simp only [h]

/-- Moving thread `t` to the place `a`. -/
theorem count_update [DecidableEq ι] (f : ι → α) (t : ι) (a : α) (P : α → Bool) :
    count (update f t a) P + (P (f t)).toNat = count f P + (P a).toNat := by
  have hsum (g : ι → α) : count g P = ∑ u, (P (g u)).toNat := by
    rw [count, Finset.card_filter]
    apply Finset.sum_congr rfl
    intro u _
    cases P (g u) <;> rfl
  have hupd : (fun u => (P (update f t a u)).toNat) =
      update (fun u => (P (f u)).toNat) t (P a).toNat :=
    funext fun u => apply_update (fun _ x => (P x).toNat) f t a u
  rw [hsum, hsum, hupd, Finset.sum_update_of_mem (Finset.mem_univ t),
    Finset.sum_eq_add_sum_sdiff_singleton_of_mem (Finset.mem_univ t) (fun u => (P (f u)).toNat)]
  omega

/-- The sum of what `g` gives for the places of the threads. -/
def total (f : ι → α) (g : α → Nat) : Nat := ∑ t, g (f t)

theorem total_update [DecidableEq ι] (f : ι → α) (t : ι) (a : α) (g : α → Nat) :
    total (update f t a) g + g (f t) = total f g + g a := by
  have hupd : (fun u => g (update f t a u)) = update (fun u => g (f u)) t (g a) :=
    funext fun u => apply_update (fun _ => g) f t a u
  rw [total, total, hupd, Finset.sum_update_of_mem (Finset.mem_univ t),
    Finset.sum_eq_add_sum_sdiff_singleton_of_mem (Finset.mem_univ t) (fun u => g (f u))]
  omega

theorem count_update_same [DecidableEq ι] (h : P a = P (f t)) :
    count (update f t a) P = count f P := by
  have := count_update f t a P
  rw [h] at this
  omega

theorem count_update_enter [DecidableEq ι] (h : P (f t) = false) (ha : P a = true) :
    count (update f t a) P = count f P + 1 := by
  have := count_update f t a P
  rw [h, ha] at this
  exact this

theorem count_update_leave [DecidableEq ι] (h : P (f t) = true) (ha : P a = false) :
    count (update f t a) P + 1 = count f P := by
  have := count_update f t a P
  rw [h, ha] at this
  exact this

/-- Counters `f` that follow the counts `g`: the counts become `g'`, which differs at `k`. -/
theorem update_follows {κ : Type} [DecidableEq κ] {f g g' : κ → Nat} {k : κ} {x : Nat}
    (hf : ∀ k', f k' = g k') (hk : x = g' k) (hne : ∀ k', k' ≠ k → g' k' = g k') (k' : κ) :
    update f k x k' = g' k' := by
  by_cases e : k' = k
  · rw [e, update_self, hk]
  · rw [update_of_ne e, hf k', hne k' e]

/-- If each of the first `k` slots has an owner among the threads with `P`, there are at least
    `k` of these. -/
theorem le_count_of_owners (own : ι → Option Nat) (k : Nat)
    (h : ∀ i < k, ∃ t, own t = some i ∧ P (f t) = true) : k ≤ count f P := by
  classical
  choose g hg using fun i : Fin k => h i i.isLt
  have hinj : Function.Injective g := by
    intro i j hij
    have hi := (hg i).1
    rw [hij, (hg j).1] at hi
    exact Fin.ext (Option.some.inj hi).symm
  calc k = (Finset.univ.image g).card := by
        rw [Finset.card_image_of_injective _ hinj, Finset.card_univ, Fintype.card_fin]
    _ ≤ count f P := by
        apply Finset.card_le_card
        intro t ht
        obtain ⟨i, _, rfl⟩ := Finset.mem_image.mp ht
        simp only [Finset.mem_filter, Finset.mem_univ, true_and]
        exact (hg i).2

end DemosOsLinux.Lib
