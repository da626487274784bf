/-
  Who is woken in the bounded message queue.

  `pthread_mq_put` broadcasts `cond_empty` when it finds the queue empty, so a consumer never
  sleeps while there is a value (`emptyInv_of_trans`). `pthread_mq_get` on a full queue means to
  wake the producers, but it broadcasts `cond_empty` as well: a producer that sleeps on
  `cond_full` then sleeps on (`get_strands_producer`), and nothing ever wakes it, since no
  section signals `cond_full`.
  * `no_stranded_thread`: in a run in which no value is got from a full queue while a producer
    sleeps, nobody is stranded.
-/
import DemosOsLinux.MessageQueue.Queue

namespace DemosOsLinux.MessageQueue

open Lib Lib.Monitor

variable {n : Nat} {s : State Mq Cond Code Unit n}

/-- Thread `t` sleeps, is not woken, and what it sleeps for is there: a free cell for a producer,
    a value for a consumer. -/
def Stranded (s : State Mq Cond Code Unit n) (t : Fin n) : Prop :=
  (∃ p, s.status t = .asleep .full p ∧ s.shared.stored.length < s.shared.size - 1) ∨
  (∃ p, s.status t = .asleep .empty p ∧ s.shared.stored ≠ [])

/-- If this step gets a value from a full queue, no producer sleeps. -/
def noProducerLeft (s : State Mq Cond Code Unit n) (a : Act Code n) : Bool :=
  match sectionOf program s a with
  | some .get => !s.shared.isFull || decide (∀ u, (s.status u).sleepsOn .full = false)
  | _ => true

/-- Consumers sleep on an empty queue only. -/
def EmptyInv (s : State Mq Cond Code Unit n) : Prop :=
  ∀ t p, s.status t = .asleep .empty p → s.shared.isEmpty = true

/-- Producers sleep on a full queue only. -/
def FullInv (s : State Mq Cond Code Unit n) : Prop :=
  ∀ t p, s.status t = .asleep .full p → s.shared.isFull = true

theorem emptyInv_of_trans {s' : State Mq Cond Code Unit n} {a : Act Code n} {es : List Event}
    (h : Trans program s a es s') (inv : EmptyInv s) : EmptyInv s' := by
  intro u q hu
  cases h with
  | spurious t c p ht => exact inv u q (asleep_of_update_woken hu)
  | run _ t p st ha ht hw =>
    have hafter := hw.asleep_after hu
    cases p with
    | get =>
      simp only [program, get] at hafter ⊢
      split at hafter
      · rename_i hempty
        rw [if_pos hempty]
        exact hempty
      · rename_i hne
        rcases hafter with hx | ⟨_, hbefore⟩
        · cases hx
        · exact absurd (inv u q hbefore) hne
    | put value =>
      simp only [program, put] at hafter hw ⊢
      split at hafter
      · rename_i hfull
        rw [if_pos hfull]
        rcases hafter with hx | ⟨_, hbefore⟩
        · cases hx
        · exact inv u q hbefore
      · -- the sleepers on `cond_empty` have been woken
        rename_i hne
        rcases hafter with hx | ⟨hst, hbefore⟩
        · cases hx
        · rw [if_neg hne] at hw
          simp only [inv u q hbefore, if_true] at hw
          exact absurd hst hw.broadcast_asleep

theorem fullInv_of_trans {s' : State Mq Cond Code Unit n} {a : Act Code n} {es : List Event}
    (h : Trans program s a es s') (hkeep : noProducerLeft s a = true) (inv : FullInv s) :
    FullInv s' := by
  intro u q hu
  cases h with
  | spurious t c p ht => exact inv u q (asleep_of_update_woken hu)
  | run _ t p st ha ht hw =>
    have hafter := hw.asleep_after hu
    cases p with
    | get =>
      simp only [program, get] at hafter ⊢
      split at hafter
      · rename_i hempty
        rw [if_pos hempty]
        rcases hafter with hx | ⟨_, hbefore⟩
        · cases hx
        · exact inv u q hbefore
      · rcases hafter with hx | ⟨_, hbefore⟩
        · cases hx
        · -- the queue is full, so nobody sleeps on `cond_full`
          simp only [noProducerLeft, ha, inv u q hbefore, Bool.not_true, Bool.false_or,
            decide_eq_true_eq] at hkeep
          have hno := hkeep u
          rw [sleepsOn_iff.mpr ⟨q, hbefore⟩] at hno
          cases hno
    | put value =>
      simp only [program, put] at hafter ⊢
      split at hafter
      · rename_i hfull
        rw [if_pos hfull]
        exact hfull
      · rename_i hne
        rcases hafter with hx | ⟨_, hbefore⟩
        · cases hx
        · exact absurd (inv u q hbefore) hne

structure SleepInv (size : Nat) (s : State Mq Cond Code Unit n) (tr : List Event) : Prop where
  fifo : FifoInv size s.shared tr
  empty : EmptyInv s
  full : FullInv s

theorem SleepInv.not_stranded {size : Nat} {tr : List Event} (inv : SleepInv size s tr)
    (t : Fin n) : ¬Stranded s t := by
  obtain ⟨r, w, hat⟩ := inv.fifo.ring
  rintro (⟨p, ht, hfree⟩ | ⟨p, ht, hne⟩)
  · have hfull := hat.isFull_iff.mp (inv.full t p ht)
    rw [hat.length_stored, hat.hsize] at hfree
    omega
  · have hempty := hat.isEmpty_iff.mp (inv.empty t p ht)
    apply hne
    rw [← List.length_eq_zero_iff, hat.length_stored, hempty]

/-- **Nobody is stranded.** Any size from 2 on, any number of threads, any interleaving with
    spurious wake-ups: in every run in which no value is got from a full queue while a producer
    sleeps, no state has a producer asleep beside a free cell or a consumer asleep beside a
    value. -/
theorem no_stranded_thread (size : Int) (hsize : 2 ≤ size) (data : List Int32)
    (hdata : data.length = size) (n : Nat) (acts : List (Act Code n))
    (s : State Mq Cond Code Unit n) (tr : List Event)
    (hkeep : (threads program n).Along (fun s a => noProducerLeft s a = true)
      (initState size data n) acts)
    (hr : (threads program n).run (initState size data n) acts = some (s, tr)) (t : Fin n) :
    ¬Stranded s t := by
  obtain ⟨k, rfl⟩ := Int.eq_ofNat_of_zero_le (Int.le_trans (by decide) hsize)
  have hinit : SleepInv k (initState k data n) [] := by
    refine ⟨fifoInv_init (by omega) (Int.ofNat_inj.mp hdata), ?_, ?_⟩
    · intro t p h
      cases h
    · intro t p h
      cases h
  have inv : SleepInv k s ([] ++ tr) := by
    refine (threads program n).run_induct_along (fun s a => noProducerLeft s a = true)
      (SleepInv k) ?_ acts (initState k data n) [] s tr hkeep hinit hr
    intro s tr a s' es hk inv hs
    have htrans := trans_of_step hs
    exact ⟨fifoInv_of_trans htrans inv.fifo, emptyInv_of_trans htrans inv.empty,
      fullInv_of_trans htrans hk inv.full⟩
  exact inv.not_stranded t

/-- A consumer that sleeps on the empty queue is woken by a put; a producer that finds the queue
    full wakes on its own after a value was got. -/
def fairRun (a b : Fin n) : List (Act Code n) :=
  [.call b .get none, .call a (.put 1) none, .resume b none, .call a (.put 2) none,
    .call a (.put 3) none, .spurious a, .call b .get none]

theorem no_stranded_fairRun :
    ∃ s tr, (threads program 2).run (initState 2 [0, 0] 2) (fairRun 0 1) = some (s, tr) ∧
      s.status 0 = .woken (.put 3) ∧ ∀ t, ¬Stranded s t := by
  obtain ⟨s, tr, hr, hu⟩ := (threads program 2).exists_of_check (initState 2 [0, 0] 2) (fairRun 0 1)
    (fun s _ => s.status 0 = .woken (.put 3)) (by decide +kernel)
  have hkeep := (threads program 2).along_of_check noProducerLeft (fairRun 0 1)
    (initState 2 [0, 0] 2) (by decide +kernel)
  exact ⟨s, tr, hr, hu,
    no_stranded_thread 2 (by decide) [0, 0] rfl 2 (fairRun 0 1) s tr hkeep hr⟩

/-- The producer finds the queue of size 2 full and sleeps; the consumer empties it. -/
def fullRun (a b : Fin n) : List (Act Code n) :=
  [.call a (.put 1) none, .call a (.put 2) none, .call b .get none]

/-- The producer still sleeps, and the queue has a free cell. -/
theorem get_strands_producer :
    ∃ s tr, (threads program 2).run (initState 2 [0, 0] 2) (fullRun 0 1) = some (s, tr) ∧
      s.status 0 = .asleep .full (.put 2) ∧ s.shared.stored = [] ∧ Stranded s 0 := by
  obtain ⟨s, tr, hr, hasleep, hstored, hsize⟩ := (threads program 2).exists_of_check
    (initState 2 [0, 0] 2) (fullRun 0 1)
    (fun s _ => s.status 0 = .asleep .full (.put 2) ∧ s.shared.stored = [] ∧ s.shared.size = 2)
    (by decide +kernel)
  refine ⟨s, tr, hr, hasleep, hstored, Or.inl ⟨_, hasleep, ?_⟩⟩
  rw [hstored, hsize]
  decide

end DemosOsLinux.MessageQueue
