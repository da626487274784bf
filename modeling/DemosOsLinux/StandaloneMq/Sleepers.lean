/-
  Who sleeps in the standalone message queue.

  Producers and consumers sleep on the same condition variable, and every `mq_put` and `mq_get`
  that changes the queue broadcasts it. So whoever sleeps has found the queue as it is now:
  between a thread's wait and the next change of the queue nothing moves, and the change wakes
  all.
  * `Code.blocked`: the condition of the `while` loop of `mq_put` and of `mq_get`.
  * `sleepersInv_of_trans`: a sleeper's loop condition holds.
  * `queue_keeps_messages`: nothing is lost, and nobody sleeps without reason.
-/
import DemosOsLinux.StandaloneMq.Queue

namespace DemosOsLinux.StandaloneMq

open Lib Lib.Monitor

variable {α : Type} {n : Nat}

/-- The thread that runs this function has to wait. -/
def Code.blocked (m : Mq α) : Code α → Prop
  | .put _ => m.size = m.maxsize
  | .get => m.size = 0

/-- Nobody sleeps who would not go to sleep again. -/
def SleepersInv (s : State (Mq α) Unit (Code α) Unit n) : Prop :=
  ∀ t p, s.status t = .asleep () p → p.blocked s.shared

variable [Inhabited α]

/-- A section waits and changes nothing, or goes through and wakes all. -/
theorem section_cases (p : Code α) (m : Mq α) :
    (p.blocked m ∧ program.body p m = ⟨m, .none, .wait () p, []⟩) ∨
      ((program.body p m).wake = .broadcast () ∧ (program.body p m).exit = .leave ()) := by
  cases p with
  | put message =>
    by_cases h : m.size = m.maxsize
    · exact Or.inl ⟨h, if_pos h⟩
    · right
      simp [program, StandaloneMq.put, h]
  | get =>
    by_cases h : m.size = 0
    · exact Or.inl ⟨h, if_pos h⟩
    · right
      simp [program, StandaloneMq.get, h]

theorem sleepersInv_of_trans {s s' : State (Mq α) Unit (Code α) Unit n} {a : Act (Code α) n}
    {es : List (FifoEvent α)} (h : Trans program s a es s') (inv : SleepersInv s) :
    SleepersInv s' := by
  intro u q hu
  cases h with
  | spurious t c p ht => exact inv u q (asleep_of_update_woken hu)
  | run _ t p st ha ht hw =>
    have hafter := hw.asleep_after hu
    rcases section_cases p s.shared with ⟨hblocked, hbody⟩ | ⟨hwake, hexit⟩
    · rw [hbody] at hafter ⊢
      rcases hafter with hx | ⟨_, hbefore⟩
      · cases hx
        exact hblocked
      · exact inv u q hbefore
    · -- the section went through, and nobody is left asleep
      rw [hexit] at hafter
      rw [hwake] at hw
      rcases hafter with hx | ⟨hst, _⟩
      · cases hx
      · exact absurd hst hw.broadcast_asleep

/-- **The queue keeps its messages.** Any size from 1 on, any number of threads that put and get,
    any interleaving, spurious wakeups included: the size stays within the array, each message
    that was put was returned once or is stored, a producer that sleeps finds the array full and
    a consumer that sleeps finds it empty. -/
theorem queue_keeps_messages (maxsize : Int) (hmax : 1 ≤ maxsize) (messages : List α)
    (hlen : messages.length = maxsize) (n : Nat) (acts : List (Act (Code α) n))
    (s : State (Mq α) Unit (Code α) Unit n) (tr : List (FifoEvent α))
    (hr : (threads program n).run (initState maxsize messages n) acts = some (s, tr)) :
    (0 ≤ s.shared.size ∧ s.shared.size ≤ maxsize) ∧
    (putAll tr).Perm (gotAll tr ++ s.shared.messages.take s.shared.size.toNat) ∧
    (∀ t message, s.status t = .asleep () (.put message) → s.shared.size = maxsize) ∧
    (∀ t, s.status t = .asleep () .get → s.shared.size = 0) := by
  obtain ⟨k, rfl⟩ := Int.eq_ofNat_of_zero_le (Int.le_trans (by decide) hmax)
  have hk : messages.length = k := Int.ofNat_inj.mp hlen
  have inv : StackInv k s.shared tr := run_shared program (StackInv k) stackInv_of_section
    (stackInv_init hk) hr
  have hsleep : SleepersInv s := by
    refine (threads program n).run_inv (fun _ => True) SleepersInv ?_ (fun _ _ => trivial) ?_ hr
    · intro s a s' es _ inv hs
      exact sleepersInv_of_trans (trans_of_step hs) inv
    · intro t p ht
      cases ht
  obtain ⟨j, hat⟩ := inv.array
  refine ⟨⟨?_, ?_⟩, inv.once.symm, ?_, ?_⟩
  · rw [hat.hsize]
    exact Int.natCast_nonneg j
  · rw [hat.hsize]
    exact Int.ofNat_le.mpr hat.hj
  · intro t message ht
    exact (hsleep t _ ht).trans hat.hmax
  · intro t ht
    exact hsleep t _ ht

/-- A consumer sleeps and is woken by the first message; before it has the mutex the producer finds
    the array of one cell full, wakes on its own and sleeps again. -/
def fullRun (a b : Fin n) : List (Act (Code Nat) n) :=
  [.call b .get none, .call a (.put 1) none, .call a (.put 2) none, .spurious a, .resume a none]

theorem queue_keeps_messages_fullRun :
    ∃ s tr, (threads program 2).run (initState 1 [0] 2) (fullRun 0 1) = some (s, tr) ∧
      s.status 0 = .asleep () (.put 2) ∧ s.shared.size = 1 := by
  obtain ⟨s, tr, hr, hasleep⟩ := (threads program 2).exists_of_check (initState 1 [0] 2)
    (fullRun 0 1) (fun s _ => s.status 0 = .asleep () (.put 2)) (by decide +kernel)
  exact ⟨s, tr, hr, hasleep,
    (queue_keeps_messages 1 (by decide) [0] rfl 2 (fullRun 0 1) s tr hr).2.2.1 0 2 hasleep⟩

end DemosOsLinux.StandaloneMq
