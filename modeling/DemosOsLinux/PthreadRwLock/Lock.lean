/-
  The readers-writer lock with two pthread condition variables
  (exercises/multi_threading/readers_writer_lock/solution3.cc).

  The lock is a monitor: `mymutex` is its mutex, `mycond_readers` and `mycond_writers` are its
  condition variables, each function is a section, cut at `pthread_cond_wait`. As in the source
  `rdlock` and `wrlock` differ in their loop condition and in the counters they use, so both are
  `lockLoop` at a mode: `locked .rd` is `readers`, `waiting .rd` is `readers_waiting`, and the
  same for writers. The counters are natural numbers: they never exceed the number of threads
  (`Counts.locked_le`, `Waiting.waiting_le`), and one that is decremented is positive.
  The loops and what is known of them (`Waiting`) are for any condition variables, as solution.cc and
  solution2.cc have one for both modes; here each mode has its own.
  * `Waiting`: the waiting counters count the threads in the loops, asleep or woken.
  * `Counts`: in addition `locked` counts the holders, and the modes exclude each other.
  * `rwlock_safe`: every run keeps that, and whenever the lock is free and a thread sleeps, some
    thread has been woken.
-/
import DemosOsLinux.Lib.Monitor
import DemosOsLinux.Lib.ReadersWriter

namespace DemosOsLinux.PthreadRwLock

open Lib Lib.Monitor Function

/-- The counters of `mypthread_rwlock_t`. -/
structure Lock where
  locked : Mode → Nat
  waiting : Mode → Nat

def Lock.readers (l : Lock) : Nat := l.locked .rd
def Lock.writers (l : Lock) : Nat := l.locked .wr
def Lock.readersWaiting (l : Lock) : Nat := l.waiting .rd
def Lock.writersWaiting (l : Lock) : Nat := l.waiting .wr

/-- `mypthread_rwlock_init`. -/
def Lock.init : Lock := ⟨fun _ => 0, fun _ => 0⟩

def Lock.setLocked (l : Lock) (m : Mode) (x : Nat) : Lock :=
  { l with locked := update l.locked m x }

def Lock.setWaiting (l : Lock) (m : Mode) (x : Nat) : Lock :=
  { l with waiting := update l.waiting m x }

/-- The conditions of the `while` loops. -/
def Lock.blocked (l : Lock) : Mode → Bool
  | .rd => 0 < l.writers
  | .wr => 0 < l.readers || 0 < l.writers

/-- Where a thread with the mutex starts. -/
inductive Code where
  | rdlock
  | wrlock
  /-- After `pthread_cond_wait` in the loop of this mode. -/
  | awake (m : Mode)
  | unlock
  deriving DecidableEq

/-- A thread outside the functions. -/
inductive Local where
  | idle
  | holds (m : Mode)
  deriving DecidableEq

inductive Op where
  | rdlock
  | wrlock
  | unlock

section Loop

variable {κ : Type}

/-- The loop of `rdlock` or `wrlock` from its condition on; the threads in it sleep on `cond m`. -/
def lockLoop (cond : Mode → κ) (m : Mode) (l : Lock) : Section Lock κ Code Local Empty :=
  if l.blocked m then ⟨l.setWaiting m (l.waiting m + 1), .none, .wait (cond m) (.awake m), []⟩
  else ⟨l.setLocked m (l.locked m + 1), .none, .leave (.holds m), []⟩

/-- The loop after `pthread_cond_wait` returned. -/
def awakeLoop (cond : Mode → κ) (m : Mode) (l : Lock) : Section Lock κ Code Local Empty :=
  lockLoop cond m (l.setWaiting m (l.waiting m - 1))

theorem lockLoop_wake (cond : Mode → κ) (m : Mode) (l : Lock) : (lockLoop cond m l).wake = .none := by
  unfold lockLoop
  split <;> rfl

end Loop

abbrev Sec := Section Lock Mode Code Local Empty

def rdlock (l : Lock) : Sec := lockLoop id .rd l
def wrlock (l : Lock) : Sec := lockLoop id .wr l

/-- `if(lock->readers)`. -/
def Lock.role (l : Lock) : Mode := if l.readers ≠ 0 then .rd else .wr

/-- Whom `unlock` wakes, the same in both branches. -/
def Lock.wake (l : Lock) : Wake Mode :=
  if 0 < l.writersWaiting ∧ l.readers = 0 then .signal .wr
  else if 0 < l.readersWaiting ∧ l.writers = 0 then .broadcast .rd
  else .none

/-- `readers--` or `writers--`. -/
def Lock.dec (l : Lock) : Lock := l.setLocked l.role (l.locked l.role - 1)

def unlock (l : Lock) : Sec := ⟨l.dec, l.dec.wake, .leave .idle, []⟩

/-- Threads unlock what they hold. -/
def program : Program Lock Mode Code Local Op Empty where
  call
    | .idle, .rdlock => some .rdlock
    | .idle, .wrlock => some .wrlock
    | .holds _, .unlock => some .unlock
    | _, _ => none
  body
    | .rdlock => rdlock
    | .wrlock => wrlock
    | .awake m => awakeLoop id m
    | .unlock => unlock

abbrev St := Status Mode Code Local

def initState (n : Nat) : State Lock Mode Code Local n := ⟨Lock.init, fun _ => .outside .idle⟩

/-! ## The waiting counters -/

variable {m : Mode}

section Waiting

variable {κ : Type} {cond : Mode → κ} {n : Nat} {l : Lock} {status : Fin n → Status κ Code Local}
  {t : Fin n}

/-- In the loop of mode `m`, asleep or woken. -/
def inLoop (m : Mode) : Status κ Code Local → Bool
  | .asleep _ (.awake m') | .woken (.awake m') => m' = m
  | _ => false

/-- Threads sleep where their mode's loop put them. -/
def Placed (cond : Mode → κ) : Status κ Code Local → Prop
  | .asleep c p => ∃ m, c = cond m ∧ p = .awake m
  | .woken p => ∃ m, p = .awake m
  | .outside _ => True

structure Waiting (cond : Mode → κ) (l : Lock) (status : Fin n → Status κ Code Local) : Prop where
  waiting : ∀ m, l.waiting m = count status (inLoop m)
  placed : ∀ t, Placed cond (status t)

theorem Waiting.waiting_le (inv : Waiting cond l status) (m : Mode) : l.waiting m ≤ n := by
  rw [inv.waiting m]
  exact (count_le_card _ _).trans_eq (Fintype.card_fin n)

theorem Waiting.init : Waiting (n := n) cond Lock.init fun _ => .outside .idle :=
  ⟨fun _ => (count_eq_zero.mpr fun _ => rfl).symm, fun _ => trivial⟩

section Waiting

variable (inv : Waiting cond l status)
include inv

theorem Waiting.wakes [DecidableEq κ] {w : Wake κ}
    {st : Fin n → Status κ Code Local} (h : Wakes status w st) : Waiting cond l st := by
  refine ⟨?_, ?_⟩
  · intro m
    rw [inv.waiting m]
    refine (h.count fun c p => ?_).symm
    cases p <;> rfl
  · intro u
    have hu := inv.placed u
    rcases h.same_or_woken u with h | ⟨c, p, hc, hp⟩
    · rwa [h]
    · rw [hc] at hu
      rw [hp]
      exact hu.imp fun _ h => h.2

/-- A thread moves between places outside the loops; `readers` and `writers` may change. -/
theorem Waiting.outside (l' : Lock) (hl : l'.waiting = l.waiting) {x : Local}
    (ht : status t = .outside x) (y : Local) : Waiting cond l' (update status t (.outside y)) := by
  refine ⟨?_, forall_update (Placed cond) inv.placed trivial⟩
  intro m
  rw [count_update_same (by rw [ht]; rfl), hl]
  exact inv.waiting m

/-- `readers_waiting--` or `writers_waiting--` after a wait. -/
theorem Waiting.awake (ht : status t = .woken (.awake m)) :
    0 < l.waiting m ∧
    Waiting cond (l.setWaiting m (l.waiting m - 1)) (update status t (.outside .idle)) := by
  have hleave := count_update_leave (f := status) (t := t) (a := .outside .idle) (P := inLoop m)
    (by simp [ht, inLoop]) rfl
  have hwait := inv.waiting m
  refine ⟨by omega, ?_, forall_update (Placed cond) inv.placed trivial⟩
  apply update_follows inv.waiting
  · omega
  · intro m' e
    apply count_update_same
    simp [ht, inLoop, Ne.symm e]

/-- A thread outside the loop goes through `lockLoop`. -/
theorem Waiting.lockLoop (m : Mode) {x : Local}
    (ht : status t = .outside x) : Waiting cond (lockLoop cond m l).shared
      (update status t (lockLoop cond m l).exit.status) := by
  unfold PthreadRwLock.lockLoop
  split
  · -- it waits
    refine ⟨?_, forall_update (Placed cond) inv.placed ⟨m, rfl, rfl⟩⟩
    apply update_follows inv.waiting
    · rw [count_update_enter (by rw [ht]; rfl) (by simp [Exit.status, inLoop]), inv.waiting m]
    · intro m' e
      apply count_update_same
      simp [ht, Exit.status, inLoop, Ne.symm e]
  · exact inv.outside (l.setLocked m (l.locked m + 1)) rfl ht (.holds m)

end Waiting

end Waiting

/-! ## The counters -/

def holds (m : Mode) : St → Bool
  | .outside (.holds m') => m' = m
  | _ => false

structure Counts {n : Nat} (l : Lock) (status : Fin n → St) : Prop extends Waiting id l status where
  locked : ∀ m, l.locked m = count status (holds m)
  exclusive : Exclusive l.locked

section Counts

variable {n : Nat} {l : Lock} {status : Fin n → St} {t : Fin n}

theorem Counts.locked_le (inv : Counts l status) (m : Mode) : l.locked m ≤ n := by
  rw [inv.locked m]
  exact (count_le_card _ _).trans_eq (Fintype.card_fin n)

theorem Counts.wakes (inv : Counts l status) {w : Wake Mode} {st : Fin n → St}
    (h : Wakes status w st) : Counts l st where
  toWaiting := inv.toWaiting.wakes h
  locked := fun m => (inv.locked m).trans (h.count fun _ _ => rfl).symm
  exclusive := inv.exclusive

theorem Counts.awake (inv : Counts l status) (ht : status t = .woken (.awake m)) :
    Counts (l.setWaiting m (l.waiting m - 1)) (update status t (.outside .idle)) where
  toWaiting := (inv.toWaiting.awake ht).2
  locked := fun m' => (inv.locked m').trans (count_update_same (by rw [ht]; rfl)).symm
  exclusive := inv.exclusive

theorem Lock.blocked_rd : l.blocked .rd = false ↔ l.writers = 0 := by
  simp [Lock.blocked]

theorem Lock.blocked_wr : l.blocked .wr = false ↔ l.readers = 0 ∧ l.writers = 0 := by
  simp [Lock.blocked]

theorem Lock.blocked_of_free (l : Lock) (hr : l.readers = 0) (hw : l.writers = 0) (m : Mode) :
    l.blocked m = false := by
  cases m with
  | rd => exact Lock.blocked_rd.mpr hw
  | wr => exact Lock.blocked_wr.mpr ⟨hr, hw⟩

/-- `readers++` or `writers++` when the loop condition is false. -/
theorem Lock.exclusive_take (hb : l.blocked m = false) :
    Exclusive (l.setLocked m (l.locked m + 1)).locked := by
  cases m with
  | rd => exact .take_rd (Lock.blocked_rd.mp hb) _
  | wr =>
    obtain ⟨hr, hw⟩ := Lock.blocked_wr.mp hb
    simp only [Lock.setLocked, show l.locked .wr = 0 from hw]
    exact .take_wr hr

/-- A thread outside the loop goes through `lockLoop`. -/
theorem Counts.lockLoop (inv : Counts l status) (m : Mode) (ht : status t = .outside .idle) :
    Counts (lockLoop id m l).shared (update status t (lockLoop id m l).exit.status) := by
  refine ⟨inv.toWaiting.lockLoop m ht, ?_, ?_⟩ <;> unfold PthreadRwLock.lockLoop <;> split
  · intro m'
    rw [count_update_same (by rw [ht]; rfl)]
    exact inv.locked m'
  · apply update_follows inv.locked
    · rw [count_update_enter (by rw [ht]; rfl) (by simp [Exit.status, holds]), inv.locked m]
    · intro m' e
      apply count_update_same
      simp [ht, Exit.status, holds, Ne.symm e]
  · exact inv.exclusive
  · next hb => exact Lock.exclusive_take (Bool.eq_false_iff.mpr hb)

/-- `if(lock->readers)` finds the mode of the caller. -/
theorem Counts.role_eq (inv : Counts l status) (ht : status t = .outside (.holds m)) :
    l.role = m ∧ 0 < l.locked m := by
  have hpos : 0 < l.locked m := by
    rw [inv.locked m]
    exact count_pos.mpr ⟨t, by simp [ht, holds]⟩
  exact ⟨inv.exclusive.mode_eq hpos, hpos⟩

theorem Counts.dec (inv : Counts l status) (ht : status t = .outside (.holds m)) :
    Counts l.dec (update status t (.outside .idle)) := by
  obtain ⟨hrole, hpos⟩ := inv.role_eq ht
  have hnone : l.dec.locked .wr = 0 := by
    unfold Lock.dec
    rw [hrole]
    exact inv.exclusive.release (Nat.sub_add_cancel hpos)
  refine ⟨inv.toWaiting.outside l.dec rfl ht .idle, ?_, .of_noWriter hnone⟩
  · have hleave := count_update_leave (f := status) (t := t) (a := .outside .idle) (P := holds m)
      (by simp [ht, holds]) rfl
    have hlocked := inv.locked m
    unfold Lock.dec
    rw [hrole]
    apply update_follows inv.locked
    · omega
    · intro m' e
      apply count_update_same
      simp [ht, holds, Ne.symm e]

end Counts

/-! ## No lost wake-up -/

structure RwInv {n : Nat} (s : State Lock Mode Code Local n) : Prop where
  counts : Counts s.shared s.status
  woken : s.shared.readers = 0 → s.shared.writers = 0 → (∃ t c p, s.status t = .asleep c p) →
    ∃ u p, s.status u = .woken p

section Step

variable {n : Nat} {l : Lock} {status : Fin n → St} {t : Fin n}

/-- The loop leaves the lock not free: it was not when the thread waits, and it is not when the
    thread takes it. -/
theorem not_free_lockLoop (m : Mode) (l : Lock) (hr : (lockLoop id m l).shared.readers = 0)
    (hw : (lockLoop id m l).shared.writers = 0) : False := by
  unfold lockLoop at hr hw
  split at hr
  · rename_i hb
    rw [if_pos hb] at hw
    rw [l.blocked_of_free hr hw m] at hb
    cases hb
  · rename_i hb
    rw [if_neg hb] at hw
    cases m with
    | rd => simp [Lock.readers, Lock.setLocked] at hr
    | wr => simp [Lock.writers, Lock.setLocked] at hw

/-- A thread in the loop of mode `m` sleeps on its condition variable or has been woken. -/
theorem Counts.inLoop_cases (inv : Counts l status) (hpos : 0 < l.waiting m) :
    ∃ u, status u = .asleep m (.awake m) ∨ status u = .woken (.awake m) := by
  rw [inv.waiting m] at hpos
  obtain ⟨u, hu⟩ := count_pos.mp hpos
  have hplaced := inv.placed u
  refine ⟨u, ?_⟩
  unfold inLoop at hu
  split at hu
  · rename_i c m' hs
    rw [hs] at hplaced
    obtain rfl : m' = m := of_decide_eq_true hu
    obtain ⟨_, rfl, hp⟩ := hplaced
    rw [← Code.awake.inj hp] at hs
    exact Or.inl hs
  · rename_i m' hs
    obtain rfl : m' = m := of_decide_eq_true hu
    exact Or.inr hs
  · cases hu

/-- When `unlock` leaves the lock free and a thread sleeps, one has been woken. -/
theorem Counts.woken_of_wake (inv : Counts l status) {st : Fin n → St}
    (h : Wakes status l.wake st) (hr : l.readers = 0) (hw : l.writers = 0)
    (hs : ∃ t c p, st t = .asleep c p) : ∃ u p, st u = .woken p := by
  -- a thread that was woken before still is
  have hkeep {u : Fin n} {p : Code} (hu : status u = .woken p) : ∃ u p, st u = .woken p :=
    ⟨u, p, (h.not_asleep fun c q => by rw [hu]; simp).trans hu⟩
  by_cases hww : 0 < l.writersWaiting
  · have hwake : l.wake = .signal .wr := if_pos ⟨hww, hr⟩
    rw [hwake] at h
    obtain ⟨u, hu | hu⟩ := inv.inLoop_cases hww
    · cases h with
      | signal _ v p hv => exact ⟨v, p, update_self ..⟩
      | lost _ hnone => exact absurd hu (hnone u _)
    · exact hkeep hu
  · by_cases hrw : 0 < l.readersWaiting
    · have hwake : l.wake = .broadcast .rd := by
        unfold Lock.wake
        rw [if_neg fun h => hww h.1, if_pos ⟨hrw, hw⟩]
      rw [hwake] at h
      obtain ⟨u, hu | hu⟩ := inv.inLoop_cases hrw
      · rcases h.same_or_woken u with hsame | ⟨_, p, _, hp⟩
        · exact absurd (hsame.trans hu) h.broadcast_asleep
        · exact ⟨u, p, hp⟩
      · exact hkeep hu
    · -- nobody is in a loop
      obtain ⟨u, c, p, hu⟩ := hs
      have hu := h.asleep_before hu
      have hplaced := inv.placed u
      rw [hu] at hplaced
      obtain ⟨c, rfl, rfl⟩ := hplaced
      have hpos : 0 < l.waiting c := by
        rw [inv.waiting c]
        exact count_pos.mpr ⟨u, by simp [hu, inLoop]⟩
      cases c with
      | rd => exact absurd hpos hrw
      | wr => exact absurd hpos hww

end Step

theorem rwInv_of_trans {n : Nat} {s s' : State Lock Mode Code Local n} {a : Act Op n}
    {es : List Empty} (h : Trans program s a es s') (inv : RwInv s) : RwInv s' := by
  -- a section that ends in `lockLoop`
  have hloop {t : Fin n} {m : Mode} {l : Lock} {st : Fin n → St}
      (hc : Counts l (update st t (.outside .idle))) :
      RwInv ⟨(lockLoop id m l).shared, update st t (lockLoop id m l).exit.status⟩ := by
    have hcounts := hc.lockLoop m (update_self t _ st)
    rw [update_idem] at hcounts
    exact ⟨hcounts, fun hr hw => (not_free_lockLoop m l hr hw).elim⟩
  have hidle {t : Fin n} (ht : s.status t = .outside .idle) :
      Counts s.shared (update s.status t (.outside .idle)) := by
    rw [← ht, update_eq_self]
    exact inv.counts
  cases h with
  | spurious t c p ht =>
    refine ⟨?_, fun _ _ _ => ⟨t, p, update_self ..⟩⟩
    exact inv.counts.wakes (.signal c t p ht)
  | run _ t p st ha ht hw =>
    generalize hx : s.status t = x at ht
    cases ht with
    | call l o p hcall =>
      cases l with
      | idle =>
        cases o with
        | rdlock =>
          obtain rfl := Option.some.inj hcall
          obtain rfl : st = s.status := (lockLoop_wake id .rd s.shared ▸ hw).eq_of_none
          exact hloop (hidle hx)
        | wrlock =>
          obtain rfl := Option.some.inj hcall
          obtain rfl : st = s.status := (lockLoop_wake id .wr s.shared ▸ hw).eq_of_none
          exact hloop (hidle hx)
        | unlock => cases hcall
      | holds m =>
        cases o with
        | unlock =>
          obtain rfl := Option.some.inj hcall
          have hw' : Wakes (update s.status t (.outside .idle)) s.shared.dec.wake
              (update st t (.outside .idle)) :=
            hw.update fun c p => by rw [hx]; simp
          have hcounts := inv.counts.dec hx
          exact ⟨hcounts.wakes hw', hcounts.woken_of_wake hw'⟩
        | rdlock => cases hcall
        | wrlock => cases hcall
    | resume p =>
      have hplaced := inv.counts.placed t
      rw [hx] at hplaced
      obtain ⟨m, rfl⟩ := hplaced
      obtain rfl : st = s.status := (lockLoop_wake id m _ ▸ hw).eq_of_none
      exact hloop (inv.counts.awake hx)

theorem rwInv_initState (n : Nat) : RwInv (initState n) := by
  refine ⟨⟨Waiting.init, ?_, .of_noWriter rfl⟩, ?_⟩
  · intro m
    exact (count_eq_zero.mpr fun t => rfl).symm
  · rintro _ _ ⟨t, c, p, h⟩
    cases h

/-- **Safety and no lost wake-up.** Any number of threads that lock and unlock, any interleaving,
    spurious wake-ups: there is at most one writer, readers exclude it, and whenever the lock is
    free and a thread sleeps, some thread has been woken and has not got the mutex back yet. -/
theorem rwlock_safe (n : Nat) (acts : List (Act Op n)) (s : State Lock Mode Code Local n)
    (tr : List Empty) (hr : (threads program n).run (initState n) acts = some (s, tr)) :
    s.shared.writers ≤ 1 ∧ (0 < s.shared.readers → s.shared.writers = 0) ∧
    (s.shared.readers = 0 → s.shared.writers = 0 → (∃ t c p, s.status t = .asleep c p) →
      ∃ u p, s.status u = .woken p) := by
  have inv : RwInv s := (threads program n).run_inv (fun _ => True) RwInv
    (fun _ _ _ _ _ inv hs => rwInv_of_trans (trans_of_step hs) inv) (fun _ _ => trivial)
    (rwInv_initState n) hr
  exact ⟨inv.counts.exclusive.oneWriter, inv.counts.exclusive.noWriter, inv.woken⟩

/-- Thread `a` writes, the writer `b` and the reader `c` go to sleep; thread `a` unlocks and
    wakes `b`. -/
def handoverRun {n : Nat} (a b c : Fin n) : List (Act Op n) :=
  [.call a .wrlock none, .call b .wrlock none, .call c .rdlock none, .call a .unlock (some b)]

theorem rwlock_safe_handoverRun :
    ∃ s tr, (threads program 3).run (initState 3) (handoverRun 0 1 2) = some (s, tr) ∧
      s.status 2 = .asleep .rd (.awake .rd) ∧ s.shared.writers ≤ 1 ∧
      ∃ u p, s.status u = .woken p := by
  obtain ⟨s, tr, hr, hasleep, hreaders, hwriters⟩ :=
    (threads program 3).exists_of_check (initState 3) (handoverRun 0 1 2)
    (fun s _ => s.status 2 = .asleep .rd (.awake .rd) ∧ s.shared.readers = 0 ∧
      s.shared.writers = 0) (by decide +kernel)
  obtain ⟨hone, _, hwoken⟩ := rwlock_safe 3 (handoverRun 0 1 2) s tr hr
  exact ⟨s, tr, hr, hasleep, hone, hwoken hreaders hwriters ⟨2, _, _, hasleep⟩⟩

end DemosOsLinux.PthreadRwLock
