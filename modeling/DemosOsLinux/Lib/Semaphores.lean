/-
  System V semaphore sets: semop(2).

  The operations of one call are tried in order and take effect all together or not at all. The
  call blocks while an operation would make a value negative, or waits for a zero that is not
  there; it fails when a value would exceed `SEMVMX`.
  * `semop_done`, `semop_nonneg`: what a call that returns has done.
  * `semop_enabled`: a call on different semaphores returns if each operation can be done by itself.
  * `semop_ne_outOfRange`: a call that adds nothing does not fail.
-/
import Mathlib.Logic.Function.Basic
import Mathlib.Data.List.Nodup

namespace DemosOsLinux.Lib

open Function

/-- `struct sembuf`, with `sem_flg` 0. -/
structure Sembuf (κ : Type) where
  num : κ
  op : Int

inductive SemopResult (κ : Type) where
  | done (vals : κ → Int)
  | wouldBlock
  | outOfRange

/-- `SEMVMX`. -/
def semvmx : Int := 32767

variable {κ : Type} [DecidableEq κ]

def semop (vals : κ → Int) : List (Sembuf κ) → SemopResult κ
  | [] => .done vals
  | b :: bs =>
      let result := vals b.num + b.op
      if b.op = 0 ∧ vals b.num ≠ 0 then .wouldBlock
      else if result < 0 then .wouldBlock
      else if semvmx < result then .outOfRange
      else semop (update vals b.num result) bs

/-- What the operations add to the value of semaphore `k`. -/
def semChange (k : κ) : List (Sembuf κ) → Int
  | [] => 0
  | b :: bs => (if b.num = k then b.op else 0) + semChange k bs

variable {vals vals' : κ → Int} {b : Sembuf κ} {bs : List (Sembuf κ)}

theorem semop_cons (h : semop vals (b :: bs) = .done vals') :
    0 ≤ vals b.num + b.op ∧
      semop (update vals b.num (vals b.num + b.op)) bs = .done vals' := by
  simp only [semop] at h
  split at h
  · cases h
  · split at h
    · cases h
    · rename_i hneg
      split at h
      · cases h
      · exact ⟨Int.not_lt.mp hneg, h⟩

theorem semop_done (h : semop vals bs = .done vals') (k : κ) :
    vals' k = vals k + semChange k bs := by
  induction bs generalizing vals with
  | nil =>
    cases h
    exact (Int.add_zero _).symm
  | cons b bs ih =>
    rw [ih (semop_cons h).2, semChange]
    by_cases e : b.num = k
    · subst e
      rw [update_self, if_pos rfl, Int.add_assoc]
    · rw [update_of_ne (Ne.symm e), if_neg e, Int.zero_add]

theorem semop_nonneg (h : semop vals bs = .done vals') {k : κ} (hk : 0 ≤ vals k) : 0 ≤ vals' k := by
  induction bs generalizing vals with
  | nil =>
    cases h
    exact hk
  | cons b bs ih =>
    obtain ⟨hpos, hrest⟩ := semop_cons h
    apply ih hrest
    by_cases e : k = b.num
    · rw [e, update_self]
      exact hpos
    · rw [update_of_ne e]
      exact hk

theorem semop_enabled (hnodup : (bs.map Sembuf.num).Nodup)
    (h : ∀ b ∈ bs, b.op ≠ 0 ∧ 0 ≤ vals b.num + b.op ∧ vals b.num + b.op ≤ semvmx) :
    ∃ vals', semop vals bs = .done vals' := by
  induction bs generalizing vals with
  | nil => exact ⟨vals, rfl⟩
  | cons b bs ih =>
    obtain ⟨hop, hpos, hmax⟩ := h b List.mem_cons_self
    rw [List.map_cons, List.nodup_cons] at hnodup
    simp only [semop]
    rw [if_neg fun h => hop h.1, if_neg (Int.not_lt.mpr hpos), if_neg (Int.not_lt.mpr hmax)]
    apply ih hnodup.2
    intro c hc
    -- the operations that follow are on other semaphores
    have hne : c.num ≠ b.num := by
      intro e
      exact hnodup.1 (List.mem_map.mpr ⟨c, hc, e⟩)
    rw [update_of_ne hne]
    exact h c (List.mem_cons_of_mem b hc)

theorem semop_ne_outOfRange (hop : ∀ b ∈ bs, b.op ≤ 0) (hmax : ∀ k, vals k ≤ semvmx) :
    semop vals bs ≠ .outOfRange := by
  induction bs generalizing vals with
  | nil => nofun
  | cons b bs ih =>
    have hle : vals b.num + b.op ≤ semvmx := by
      have := hop b List.mem_cons_self
      have := hmax b.num
      omega
    simp only [semop]
    split
    · nofun
    · split
      · nofun
      · rw [if_neg (Int.not_lt.mpr hle)]
        apply ih fun c hc => hop c (List.mem_cons_of_mem b hc)
        intro k
        by_cases e : k = b.num
        · rw [e, update_self]
          exact hle
        · rw [update_of_ne e]
          exact hmax k

end DemosOsLinux.Lib
