/-
  The synchronized queue (exercises/cpp/multi_threading/synchronized_queue_cpp/solution.cc).

  A monitor with one condition variable, on which only getters sleep. `put` signals it once, and
  only if `waiters` is not 0; `waiters` counts the getters that sleep and those that have been
  woken alike. The counter is a natural number: it never exceeds the number of threads
  (`Balanced.waiters_le`), and a getter that decrements it is counted in it.
  * `Balanced`: `waiters` counts the threads in `get`, and if a getter sleeps then there are at
    least as many woken getters as elements. A getter that comes in counts as woken until it has
    looked at the list (`Balanced.enter`), so getters that barge in need no case of their own.
  * `sync_queue`: FIFO order, the counter, and no element without a getter on its way.
-/
import DemosOsLinux.Lib.Monitor
import DemosOsLinux.Lib.Fifo

namespace DemosOsLinux.SyncQueue

open Lib Lib.Monitor Function

variable {α : Type} {n : Nat}

/-- `SynchronizedQueue<T>` without its mutex and condition variable. -/
structure Queue (α : Type) where
  mylist : List α
  waiters : Nat

/-- The functions; `loop` is the `while` of `get`, where a getter goes on after its wait. -/
inductive Code (α : Type) where
  | put (t : α)
  | get
  | loop
  deriving DecidableEq

inductive Op (α : Type) where
  | put (t : α)
  | get

abbrev Sec (α : Type) := Section (Queue α) Unit (Code α) Unit (FifoEvent α)

abbrev St (α : Type) := Status Unit (Code α) Unit

def put (t : α) (q : Queue α) : Sec α :=
  ⟨{ q with mylist := q.mylist ++ [t] }, if 0 < q.waiters then .signal () else .none,
    .leave (), [.put [t]]⟩

/-- `get` from its `while` on. -/
def loop (q : Queue α) : Sec α :=
  match q.mylist with
  | [] => ⟨q, .none, .wait () .loop, []⟩
  | t :: rest => ⟨⟨rest, q.waiters - 1⟩, .none, .leave (), [.got [t]]⟩

def get (q : Queue α) : Sec α := loop { q with waiters := q.waiters + 1 }

def program : Program (Queue α) Unit (Code α) Unit (Op α) (FifoEvent α) where
  call
    | _, .put t => some (.put t)
    | _, .get => some .get
  body
    | .put t => put t
    | .get => get
    | .loop => loop

def initState (α : Type) (n : Nat) : State (Queue α) Unit (Code α) Unit n :=
  ⟨⟨[], 0⟩, fun _ => .outside ()⟩

/-! ## FIFO order -/

theorem fifo_of_loop (q : Queue α) :
    gotAll (loop q).events ++ (loop q).shared.mylist = q.mylist ++ putAll (loop q).events := by
  unfold loop
  split
  · simp [gotAll, putAll]
  · rename_i t rest hlist
    simp [gotAll, putAll, hlist]

theorem fifo_of_section (p : Code α) (q : Queue α) :
    gotAll (program.body p q).events ++ (program.body p q).shared.mylist =
      q.mylist ++ putAll (program.body p q).events := by
  cases p with
  | put t => rfl
  | get => exact fifo_of_loop { q with waiters := q.waiters + 1 }
  | loop => exact fifo_of_loop q

variable {s : State (Queue α) Unit (Code α) Unit n} {acts : List (Act (Op α) n)}
  {tr : List (FifoEvent α)}

theorem fifo_of_run (hr : (threads program n).run (initState α n) acts = some (s, tr)) :
    gotAll tr ++ s.shared.mylist = putAll tr := by
  refine run_shared program (fun q tr => gotAll tr ++ q.mylist = putAll tr) ?_ rfl hr
  intro p q tr hq
  rw [gotAll_append, putAll_append, List.append_assoc, fifo_of_section p q, ← List.append_assoc, hq]

/-! ## Elements, sleepers and woken getters -/

/-- Getters sleep in their loop. -/
def Placed : St α → Prop
  | .asleep _ p | .woken p => p = .loop
  | .outside _ => True

structure Balanced (q : Queue α) (status : Fin n → St α) : Prop where
  waiters : q.waiters = count status Status.isInside
  awake : count status Status.isAsleep = 0 ∨ q.mylist.length ≤ count status Status.isWoken
  placed : ∀ t, Placed (status t)

section Balanced

variable {q : Queue α} {status : Fin n → St α} {t : Fin n}

theorem Balanced.waiters_le (inv : Balanced q status) : q.waiters ≤ n := by
  rw [inv.waiters]
  exact (count_le_card _ _).trans_eq (Fintype.card_fin n)

theorem count_wake {c : Unit} {p : Code α} (ht : status t = .asleep c p) :
    count (update status t (.woken p)) Status.isAsleep + 1 =
      count status Status.isAsleep ∧
    count (update status t (.woken p)) Status.isWoken =
      count status Status.isWoken + 1 :=
  ⟨count_update_leave (by rw [ht]; rfl) rfl, count_update_enter (by rw [ht]; rfl) rfl⟩

/-- `waiters++` at the start of `get`: the thread counts as a woken getter. -/
theorem Balanced.enter (inv : Balanced q status) (ht : status t = .outside ()) :
    Balanced { q with waiters := q.waiters + 1 } (update status t (.woken .loop)) := by
  refine ⟨?_, ?_, forall_update Placed inv.placed rfl⟩
  · rw [count_update_enter (by rw [ht]; rfl) rfl, inv.waiters]
  · rw [count_update_same (by rw [ht]; rfl), count_update_enter (by rw [ht]; rfl) rfl]
    rcases inv.awake with h | h
    · exact Or.inl h
    · exact Or.inr (Nat.le_succ_of_le h)

/-- A woken getter looks at the list, and sleeps again or takes an element. -/
theorem Balanced.loop (inv : Balanced q status) (ht : status t = .woken .loop) :
    Balanced (loop q).shared (update status t (loop q).exit.status) := by
  unfold SyncQueue.loop
  split
  · rename_i hlist
    refine ⟨?_, ?_, forall_update Placed inv.placed rfl⟩
    · rw [count_update_same (by rw [ht]; rfl), inv.waiters]
    · right
      rw [hlist]
      exact Nat.zero_le _
  · rename_i x rest hlist
    have hinside := count_update_leave (f := status) (t := t) (a := .outside ())
      (P := Status.isInside) (by rw [ht]; rfl) rfl
    have hwoken := count_update_leave (f := status) (t := t) (a := .outside ())
      (P := Status.isWoken) (by rw [ht]; rfl) rfl
    have hwaiters := inv.waiters
    refine ⟨?_, ?_, forall_update Placed inv.placed trivial⟩
    · simp only [Exit.status]
      omega
    · simp only [Exit.status]
      rw [count_update_same (by rw [ht]; rfl)]
      rcases inv.awake with h | h
      · exact Or.inl h
      · right
        rw [hlist, List.length_cons] at h
        omega

/-- One more element, and one more getter on its way if one slept. -/
theorem Balanced.put (inv : Balanced q status) (x : α) {st : Fin n → St α}
    (hw : Wakes status (put x q).wake st) : Balanced (put x q).shared st := by
  have hplaced (u : Fin n) : Placed (st u) := by
    have hu := inv.placed u
    rcases hw.same_or_woken u with h | ⟨c, p, hc, hp⟩
    · rwa [h]
    · rw [hc] at hu
      rwa [hp]
  have hwaiters : q.waiters = count st Status.isInside := by
    rw [inv.waiters]
    exact (hw.count fun _ _ => rfl).symm
  refine ⟨hwaiters, ?_, hplaced⟩
  by_cases hpos : 0 < q.waiters
  · simp only [SyncQueue.put, if_pos hpos] at hw
    cases hw with
    | signal _ u p hu =>
      obtain ⟨hasleep, hwoken⟩ := count_wake hu
      have hawake := inv.awake
      simp only [SyncQueue.put, List.length_append, List.length_singleton]
      omega
    | lost _ hnone =>
      left
      rw [count_eq_zero]
      intro u
      cases hu : status u with
      | asleep c p => exact absurd hu (hnone u p)
      | _ => rfl
  · -- nobody is in `get`, so nobody sleeps
    left
    have hzero : count st Status.isInside = 0 := by omega
    rw [count_eq_zero] at hzero ⊢
    intro u
    exact (Bool.or_eq_false_iff.mp (hzero u)).1

/-- An element in the list and a getter asleep: another getter is on its way. -/
theorem Balanced.woken_of_asleep (inv : Balanced q status) (hne : q.mylist ≠ [])
    (hs : ∃ t c p, status t = .asleep c p) : ∃ u p, status u = .woken p := by
  obtain ⟨t, c, p, ht⟩ := hs
  have hasleep : 0 < count status Status.isAsleep := count_pos.mpr ⟨t, by rw [ht]; rfl⟩
  have hlen := List.length_pos_iff.mpr hne
  have hawake := inv.awake
  obtain ⟨u, hu⟩ := count_pos.mp (show 0 < count status Status.isWoken by omega)
  cases hst : status u with
  | woken p => exact ⟨u, p, hst⟩
  | _ =>
    rw [hst] at hu
    cases hu

end Balanced

theorem loop_wake (q : Queue α) : (loop q).wake = .none := by
  unfold loop
  split <;> rfl

theorem balanced_of_trans {s' : State (Queue α) Unit (Code α) Unit n} {a : Act (Op α) n}
    {es : List (FifoEvent α)} (h : Trans program s a es s') (inv : Balanced s.shared s.status) :
    Balanced s'.shared s'.status := by
  cases h with
  | spurious t c p ht =>
    obtain ⟨hasleep, hwoken⟩ := count_wake ht
    have hawake := inv.awake
    have hplaced := inv.placed t
    rw [ht] at hplaced
    refine ⟨?_, ?_, forall_update Placed inv.placed hplaced⟩
    · exact inv.waiters.trans (count_update_same (by rw [ht]; rfl)).symm
    · simp only
      omega
  | run _ t p st ha ht hw =>
    have hplaced := inv.placed t
    rcases ht.outside_or_woken with ⟨l, o, hx, hcall⟩ | hx
    · cases p with
      | put x =>
        -- the putter was outside before and is after
        have hst : st t = .outside () := by
          rw [hw.not_asleep (by rw [hx]; simp), hx]
        have hsame : update st t (.outside ()) = st := by
          rw [← hst, update_eq_self]
        simp only [program] at hw ⊢
        rw [show (SyncQueue.put x s.shared).exit.status = .outside () from rfl, hsame]
        exact inv.put x hw
      | get =>
        simp only [program, SyncQueue.get, loop_wake] at hw ⊢
        rw [hw.eq_of_none]
        have h := (inv.enter hx).loop (update_self ..)
        rwa [update_idem] at h
      | loop => cases o <;> cases hcall
    · rw [hx] at hplaced
      obtain rfl : p = .loop := hplaced
      simp only [program, loop_wake] at hw ⊢
      rw [hw.eq_of_none]
      exact inv.loop hx

theorem balanced_of_run (hr : (threads program n).run (initState α n) acts = some (s, tr)) :
    Balanced s.shared s.status := by
  refine (threads program n).run_inv (fun _ => True) (fun s => Balanced s.shared s.status) ?_
    (fun _ _ => trivial) ?_ hr
  · intro s a s' es _ inv hs
    exact balanced_of_trans (trans_of_step hs) inv
  · have hnone : count (initState α n).status Status.isAsleep = 0 :=
      count_eq_zero.mpr fun _ => rfl
    exact ⟨(count_eq_zero.mpr fun _ => rfl).symm, Or.inl hnone, fun _ => trivial⟩

/-- **The synchronized queue.** Any number of threads that put and get, any interleaving with
    spurious wake-ups and barging getters: the values got are the values put, in the order of the
    mutex and each once, and the rest is in the list; `waiters` is the number of threads in `get`;
    no getter sleeps or there are at most as many elements as woken getters, so an element is
    never left with getters asleep and none on its way to take it. -/
theorem sync_queue (n : Nat) (acts : List (Act (Op α) n)) (s : State (Queue α) Unit (Code α) Unit n)
    (tr : List (FifoEvent α)) (hr : (threads program n).run (initState α n) acts = some (s, tr)) :
    gotAll tr ++ s.shared.mylist = putAll tr ∧
    s.shared.waiters = count s.status Status.isInside ∧
    (count s.status Status.isAsleep = 0 ∨
      s.shared.mylist.length ≤ count s.status Status.isWoken) ∧
    (s.shared.mylist ≠ [] → (∃ t c p, s.status t = .asleep c p) →
      ∃ u p, s.status u = .woken p) := by
  have inv := balanced_of_run hr
  exact ⟨fifo_of_run hr, inv.waiters, inv.awake, inv.woken_of_asleep⟩

/-- Two getters sleep; a put wakes the first, and a third getter takes the element before it. The
    first sleeps again, two more elements wake both. -/
def bargeRun (a b c : Fin n) : List (Act (Op Nat) n) :=
  [.call a .get none, .call b .get none, .call c (.put 1) (some a), .call c .get none,
    .resume a none, .call c (.put 2) (some b), .call c (.put 3) (some a), .resume a none]

theorem sync_queue_bargeRun :
    ∃ s tr, (threads program 3).run (initState Nat 3) (bargeRun 0 1 2) = some (s, tr) ∧
      (gotAll tr = [1, 2] ∧ putAll tr = [1, 2, 3] ∧ s.status 1 = .woken .loop) ∧
      s.shared.waiters = count s.status Status.isInside := by
  obtain ⟨s, tr, hr, hu⟩ := (threads program 3).exists_of_check (initState Nat 3) (bargeRun 0 1 2)
    (fun s tr => gotAll tr = [1, 2] ∧ putAll tr = [1, 2, 3] ∧ s.status 1 = .woken .loop)
    (by decide +kernel)
  exact ⟨s, tr, hr, hu, (sync_queue 3 (bargeRun 0 1 2) s tr hr).2.1⟩

end DemosOsLinux.SyncQueue
