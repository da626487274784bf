/-
  Kernel wait queues: `wait_event(queue, condition)` and `wake_up(queue)`.

  A waiting task goes round the loop
      join the queue; test the condition; if true leave the queue and return; else sleep
  and `wake_up` takes every task off the queue and makes it runnable (`woken`); a task that is woken
  between its test and its sleep does not go to sleep. (The macro also tests the condition once
  before it joins the queue. That test either ends the wait or changes nothing, and is left out.)
  * `Listed`: a task behind its join is on the queue or woken; `listed_of_waitStep`, `listed_wakeUp`.
  * `waitStep_cases`: what a step of the loop can do.
-/
import Mathlib.Data.Finset.Basic
import Mathlib.Logic.Function.Basic

namespace DemosOsLinux.Lib

/-- Where a task is in the loop. -/
inductive WaitPc where
  | prepare
  | test
  | sleep
  deriving DecidableEq

structure WaitQueue (ι : Type) where
  queue : Finset ι
  woken : Finset ι

namespace WaitQueue

variable {ι : Type} [DecidableEq ι] {condition : Bool} {w' : Option WaitPc} {q q' : WaitQueue ι}
  {w : WaitPc}

def empty : WaitQueue ι := ⟨∅, ∅⟩

/-- `prepare_to_wait`. -/
def prepare (q : WaitQueue ι) (t : ι) : WaitQueue ι := ⟨insert t q.queue, q.woken.erase t⟩

/-- `finish_wait`. -/
def finish (q : WaitQueue ι) (t : ι) : WaitQueue ι := ⟨q.queue.erase t, q.woken.erase t⟩

/-- `wake_up`. -/
def wakeUp (q : WaitQueue ι) : WaitQueue ι := ⟨∅, q.woken ∪ q.queue⟩

/-- A step of task `t` in `wait_event`; the place is `none` when the wait is over. A task that is
    asleep has no step. -/
def waitStep (q : WaitQueue ι) (t : ι) (condition : Bool) :
    WaitPc → Option (WaitQueue ι × Option WaitPc)
  | .prepare => some (q.prepare t, some .test)
  | .test => if condition then some (q.finish t, none) else some (q, some .sleep)
  | .sleep => if t ∈ q.woken then some (q, some .prepare) else none

theorem waitStep_cases {t : ι} (h : q.waitStep t condition w = some (q', w')) :
    (w = .prepare ∧ q' = q.prepare t ∧ w' = some .test) ∨
    (w = .test ∧ condition = true ∧ q' = q.finish t ∧ w' = none) ∨
    (w = .test ∧ condition = false ∧ q' = q ∧ w' = some .sleep) ∨
    (w = .sleep ∧ t ∈ q.woken ∧ q' = q ∧ w' = some .prepare) := by
  cases w with
  | prepare =>
    obtain ⟨rfl, rfl⟩ := Prod.mk.inj (Option.some.inj h)
    exact Or.inl ⟨rfl, rfl, rfl⟩
  | test =>
    right
    cases condition with
    | true =>
      obtain ⟨rfl, rfl⟩ := Prod.mk.inj (Option.some.inj h)
      exact Or.inl ⟨rfl, rfl, rfl, rfl⟩
    | false =>
      obtain ⟨rfl, rfl⟩ := Prod.mk.inj (Option.some.inj h)
      exact Or.inr (Or.inl ⟨rfl, rfl, rfl, rfl⟩)
  | sleep =>
    obtain ⟨hwoken, heq⟩ := Option.ite_none_right_eq_some.mp h
    obtain ⟨rfl, rfl⟩ := Prod.mk.inj (Option.some.inj heq)
    exact Or.inr (Or.inr (Or.inr ⟨rfl, hwoken, rfl, rfl⟩))

/-- No step of the loop wakes another task, or takes its waking back. -/
theorem mem_woken_of_waitStep {t u : ι} (h : q.waitStep t condition w = some (q', w')) (hu : u ≠ t) :
    u ∈ q'.woken ↔ u ∈ q.woken := by
  rcases waitStep_cases h with ⟨_, rfl, _⟩ | ⟨_, _, rfl, _⟩ | ⟨_, _, rfl, _⟩ | ⟨_, _, rfl, _⟩
  · exact Finset.mem_erase.trans (and_iff_right hu)
  · exact Finset.mem_erase.trans (and_iff_right hu)
  · exact Iff.rfl
  · exact Iff.rfl

/-- A task that has joined the queue is on it or has been taken off it by a `wake_up`. -/
def Listed (q : WaitQueue ι) (u : ι) (place : Option WaitPc) : Prop :=
  place = some .test ∨ place = some .sleep → u ∈ q.queue ∨ u ∈ q.woken

theorem listed_wakeUp {u : ι} {place : Option WaitPc} (h : q.Listed u place) :
    q.wakeUp.Listed u place := by
  intro hplace
  right
  rcases h hplace with hu | hu
  · exact Finset.mem_union_right _ hu
  · exact Finset.mem_union_left _ hu

/-- The other tasks. -/
theorem listed_of_waitStep {t u : ι} {place : Option WaitPc}
    (h : q.waitStep t condition w = some (q', w')) (hu : u ≠ t) (hl : q.Listed u place) :
    q'.Listed u place := by
  rcases waitStep_cases h with ⟨_, rfl, _⟩ | ⟨_, _, rfl, _⟩ | ⟨_, _, rfl, _⟩ | ⟨_, _, rfl, _⟩
  · intro hplace
    rcases hl hplace with hq | hq
    · exact Or.inl (Finset.mem_insert_of_mem hq)
    · exact Or.inr (Finset.mem_erase_of_ne_of_mem hu hq)
  · intro hplace
    rcases hl hplace with hq | hq
    · exact Or.inl (Finset.mem_erase_of_ne_of_mem hu hq)
    · exact Or.inr (Finset.mem_erase_of_ne_of_mem hu hq)
  · exact hl
  · exact hl

/-- The task that makes the step. -/
theorem listed_self_of_waitStep {t : ι} (h : q.waitStep t condition w = some (q', w'))
    (hl : q.Listed t (some w)) : q'.Listed t w' := by
  rcases waitStep_cases h with ⟨_, rfl, rfl⟩ | ⟨_, _, _, rfl⟩ | ⟨rfl, _, rfl, rfl⟩ |
    ⟨_, _, _, rfl⟩
  · exact fun _ => Or.inl (Finset.mem_insert_self t _)
  · simp [Listed]
  · exact fun _ => hl (Or.inl rfl)
  · simp [Listed]

end WaitQueue

end DemosOsLinux.Lib
