/-
  The readers-writer locks with one pthread condition variable
  (exercises/multi_threading/readers_writer_lock/solution.cc and solution2.cc).

  `mypthread_rwlock_t`, the loops and `if(lock->readers)` are those of solution3.cc (`Lock`,
  `lockLoop`, `Lock.dec`), but readers and writers sleep on the same `mycond`. The two files differ
  in one place: `unlock` broadcasts always, or only if a waiting counter is positive
  (`Version.broadcasts`). The counters are natural numbers: the waiting ones, which the guard
  reads, never exceed the number of threads (`Waiting.waiting_le`).
  * `step_eq`: where `Waiting` holds, a broadcast that the guard leaves out would wake nobody.
  * `same_reachable_states`: so both locks have the same reachable states.
-/
import DemosOsLinux.PthreadRwLock.Lock

namespace DemosOsLinux.PthreadRwLock.OneCond

open Lib Lib.Monitor

inductive Version where
  | solution
  | solution2

/-- Does `unlock` reach `pthread_cond_broadcast`? -/
def Version.broadcasts : Version → Lock → Bool
  | .solution, _ => true
  | .solution2, l => 0 < l.writersWaiting || 0 < l.readersWaiting

abbrev Sec := Section Lock Unit Code Local Empty

/-- `mycond`, for both modes. -/
def mycond : Mode → Unit := fun _ => ()

def rdlock (l : Lock) : Sec := lockLoop mycond .rd l
def wrlock (l : Lock) : Sec := lockLoop mycond .wr l

def unlock (v : Version) (l : Lock) : Sec :=
  ⟨l.dec, if v.broadcasts l.dec then .broadcast () else .none, .leave .idle, []⟩

/-- Threads unlock what they hold. -/
def program (v : Version) : Program Lock Unit Code Local Op Empty where
  call
    | .idle, .rdlock => some .rdlock
    | .idle, .wrlock => some .wrlock
    | .holds _, .unlock => some .unlock
    | _, _ => none
  body
    | .rdlock => rdlock
    | .wrlock => wrlock
    | .awake m => awakeLoop mycond m
    | .unlock => unlock v

def initState (n : Nat) : State Lock Unit Code Local n := ⟨Lock.init, fun _ => .outside .idle⟩

/-! ## The waiting counters -/

/-- A sleeper is counted. -/
theorem waiting_of_asleep {n : Nat} {l : Lock} {status : Fin n → Status Unit Code Local} {t : Fin n}
    (inv : Waiting mycond l status) {p : Code} (ht : status t = .asleep () p) :
    0 < l.writersWaiting ∨ 0 < l.readersWaiting := by
  have hplaced := inv.placed t
  rw [ht] at hplaced
  obtain ⟨m, -, rfl⟩ := hplaced
  have hpos : 0 < l.waiting m := by
    rw [inv.waiting m]
    exact count_pos.mpr ⟨t, by simp [ht, inLoop]⟩
  cases m with
  | rd => exact Or.inr hpos
  | wr => exact Or.inl hpos

theorem waiting_of_trans {v : Version} {n : Nat} {s s' : State Lock Unit Code Local n}
    {a : Act Op n} {es : List Empty} (h : Trans (program v) s a es s')
    (inv : Waiting mycond s.shared s.status) : Waiting mycond s'.shared s'.status := by
  cases h with
  | spurious t c p ht => exact inv.wakes (.signal c t p ht)
  | run _ t p st ha ht hw =>
    generalize hx : s.status t = x at ht
    cases ht with
    | call l o p hcall =>
      cases l with
      | idle =>
        cases o with
        | rdlock =>
          obtain rfl := Option.some.inj hcall
          obtain rfl : st = s.status := (lockLoop_wake mycond .rd s.shared ▸ hw).eq_of_none
          exact inv.lockLoop .rd hx
        | wrlock =>
          obtain rfl := Option.some.inj hcall
          obtain rfl : st = s.status := (lockLoop_wake mycond .wr s.shared ▸ hw).eq_of_none
          exact inv.lockLoop .wr hx
        | unlock => cases hcall
      | holds m =>
        cases o with
        | unlock =>
          obtain rfl := Option.some.inj hcall
          have hst : st t = .outside (.holds m) :=
            (hw.not_asleep fun c p => by rw [hx]; simp).trans hx
          exact (inv.wakes hw).outside s.shared.dec rfl hst .idle
        | rdlock => cases hcall
        | wrlock => cases hcall
    | resume p =>
      have hplaced := inv.placed t
      rw [hx] at hplaced
      obtain ⟨m, rfl⟩ := hplaced
      obtain rfl : st = s.status := (lockLoop_wake mycond m _ ▸ hw).eq_of_none
      have hloop := (inv.awake hx).2.lockLoop m (Function.update_self t _ s.status)
      rw [Function.update_idem] at hloop
      exact hloop

/-! ## The two locks -/

section Same

variable {n : Nat} {s : State Lock Unit Code Local n}

/-- A broadcast when nobody sleeps. -/
theorem wakeOn_of_none (hnone : ∀ t p, s.status t ≠ .asleep () p) :
    (fun u => (s.status u).wakeOn ()) = s.status := by
  funext u
  rcases wakeOn_cases () (s.status u) with h | ⟨c, p, hc, _⟩
  · exact h
  · exact absurd hc (hnone u p)

/-- The guard changes nothing: if it is false, nobody sleeps. -/
theorem enter_unlock_eq (inv : Waiting mycond s.shared s.status) (t : Fin n) (u : Option (Fin n)) :
    enter (program .solution) s t .unlock u = enter (program .solution2) s t .unlock u := by
  by_cases hg : Version.solution2.broadcasts s.shared.dec = true
  · simp only [enter, program, unlock, hg]
    rfl
  · have hnone : ∀ t p, s.status t ≠ .asleep () p := by
      intro t p ht
      apply hg
      simp only [Version.broadcasts, Bool.or_eq_true, decide_eq_true_eq]
      exact waiting_of_asleep (l := s.shared) inv ht
    have hbody : (wakeUp s.status (.broadcast ()) u) = wakeUp s.status .none u := by
      cases u with
      | none => simp only [wakeUp, wakeOn_of_none hnone]
      | some u => rfl
    simp only [enter, program, unlock, hg]
    exact congrArg (Option.map _) hbody

theorem enter_eq (inv : Waiting mycond s.shared s.status) (t : Fin n) (p : Code) (u : Option (Fin n)) :
    enter (program .solution) s t p u = enter (program .solution2) s t p u := by
  cases p with
  | unlock => exact enter_unlock_eq inv t u
  | rdlock => rfl
  | wrlock => rfl
  | awake m => rfl

theorem step_eq (inv : Waiting mycond s.shared s.status) (a : Act Op n) :
    (threads (program .solution) n).step s a = (threads (program .solution2) n).step s a := by
  have henter := enter_eq inv
  cases a with
  | call t o u => simp only [threads, step, henter]; rfl
  | resume t u => simp only [threads, step, henter]
  | spurious t => rfl

end Same

theorem waiting_of_run {v : Version} {n : Nat} {s : State Lock Unit Code Local n}
    (hr : (threads (program v) n).Reachable (initState n) s) : Waiting mycond s.shared s.status := by
  obtain ⟨acts, tr, hr⟩ := hr
  exact (threads (program v) n).run_inv (fun _ => True) (fun s => Waiting mycond s.shared s.status)
    (fun _ _ _ _ _ inv hs => waiting_of_trans (trans_of_step hs) inv) (fun _ _ => trivial)
    Waiting.init hr

/-- **The guarded broadcast.** Any number of threads that lock and unlock, any interleaving,
    spurious wake-ups: the lock that broadcasts always and the one that broadcasts only if a
    waiting counter is positive have the same reachable states (the counters, and which threads
    hold the lock, sleep or have been woken); and in each of them, so at every `unlock`, a waiting
    counter is positive if a thread sleeps. -/
theorem same_reachable_states (n : Nat) :
    (∀ s, (threads (program .solution) n).Reachable (initState n) s ↔
      (threads (program .solution2) n).Reachable (initState n) s) ∧
    ∀ v s, (threads (program v) n).Reachable (initState n) s →
      (∃ t p, s.status t = .asleep () p) →
        0 < s.shared.writersWaiting ∨ 0 < s.shared.readersWaiting := by
  refine ⟨?_, ?_⟩
  · intro s
    have hrun (acts : List (Act Op n)) := (threads (program .solution) n).run_congr
      (threads (program .solution2) n) (fun s => Waiting mycond s.shared s.status)
      (fun _ _ _ _ inv hs => waiting_of_trans (trans_of_step hs) inv) (fun _ a inv => step_eq inv a)
      acts (s := initState n) Waiting.init
    simp only [Machine.Reachable, hrun]
  · rintro v s hr ⟨t, p, ht⟩
    exact waiting_of_asleep (waiting_of_run hr) ht

end DemosOsLinux.PthreadRwLock.OneCond
