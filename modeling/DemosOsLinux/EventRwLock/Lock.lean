/-
  The readers-writer lock on the eventfd condition variable
  (exercises/linux_api/condition_using_eventfd/solution.cc): the code.

  `mypthread_rwlock_rdlock` and `mypthread_rwlock_wrlock` have one shape, so both are written
  once, for a mode: `locked .rd` is `readers`, `locked .wr` is `writers`, `waiting` are
  `readers_waiting` and `writers_waiting`, `cond` are `mycond_readers` and `mycond_writers`.
  What differs is the loop condition (`Lock.blocked`), and `unlock`, which has no mode and
  guesses it from the counters.

  One step of a thread is one statement, and inside `mypthread_cond_wait`, `_signal` and
  `_broadcast` one step of these.
-/
import DemosOsLinux.Lib.Machine
import DemosOsLinux.Lib.ReadersWriter
import DemosOsLinux.EventCond.Slots

namespace DemosOsLinux.EventRwLock

open Lib EventCond Function

/-- `mypthread_rwlock_t`; `owner` is the thread that has `mymutex`. -/
structure Lock (n : Nat) where
  cond : Mode → Cond
  owner : Option (Fin n)
  locked : Mode → Nat
  waiting : Mode → Nat

variable {n : Nat} {t : Fin n}

def Lock.readers (l : Lock n) : Nat := l.locked .rd
def Lock.writers (l : Lock n) : Nat := l.locked .wr
def Lock.readersWaiting (l : Lock n) : Nat := l.waiting .rd
def Lock.writersWaiting (l : Lock n) : Nat := l.waiting .wr

/-- `mypthread_rwlock_init`. -/
def Lock.init : Lock n := ⟨fun _ => Cond.init, none, fun _ => 0, fun _ => 0⟩

/-- `x++` and `x--` on an `unsigned int`. -/
def incr (x : Nat) : Nat := (x + 1) % 2 ^ 32
def decr (x : Nat) : Nat := (x + (2 ^ 32 - 1)) % 2 ^ 32

/-- The conditions of the two `while` loops. -/
def Lock.blocked (l : Lock n) : Mode → Bool
  | .rd => decide (0 < l.writers) || decide (0 < l.writersWaiting)
  | .wr => decide (0 < l.readers) || decide (0 < l.writers)

def Lock.setLocked (l : Lock n) (m : Mode) (x : Nat) : Lock n :=
  { l with locked := update l.locked m x }

def Lock.setWaiting (l : Lock n) (m : Mode) (x : Nat) : Lock n :=
  { l with waiting := update l.waiting m x }

theorem Lock.writersWaiting_setWaiting_rd (l : Lock n) (x : Nat) :
    (l.setWaiting .rd x).writersWaiting = l.writersWaiting := by
  simp [Lock.setWaiting, Lock.writersWaiting]

def Lock.setOwner (l : Lock n) (o : Option (Fin n)) : Lock n := { l with owner := o }

/-- Where a thread is. The mode in the places of `unlock` is the one its caller locked in; the
    code does not know it. -/
inductive Place where
  | idle
  /-- In `rdlock` or `wrlock`, before `pthread_mutex_lock`. -/
  | lock (m : Mode)
  /-- `readers_waiting++`, `writers_waiting++`. -/
  | enter (m : Mode)
  /-- The `while`. -/
  | test (m : Mode)
  /-- In a function of a condition variable. -/
  | cond (m : Mode) (p : Pc)
  /-- `readers++`, `writers++`. -/
  | take (m : Mode)
  /-- `readers_waiting--`, `writers_waiting--`. -/
  | leave (m : Mode)
  /-- `pthread_mutex_unlock`. -/
  | give (m : Mode)
  /-- `rdlock` or `wrlock` has returned. -/
  | held (m : Mode)
  /-- In `unlock`, before `pthread_mutex_lock`. -/
  | ulLock (m : Mode)
  /-- `if(lock->readers)`. -/
  | ulRole (m : Mode)
  /-- `readers--` in the first branch, `writers--` in the second. -/
  | ulDec (m branch : Mode)
  /-- The choice of whom to wake, the same in both branches. -/
  | ulTest
  /-- `pthread_mutex_unlock`. -/
  | ulUnlock
  /-- The assertion in `mypthread_cond_wait` failed. -/
  | aborted
  deriving DecidableEq

/-- Where a function of a condition variable returns to: `wait` was called in the loops, the
    others by `unlock`. -/
def retPlace (m : Mode) (p : Pc) : Place := if p.inWait then .test m else .ulUnlock

def nextPlace (m : Mode) (p : Pc) : Next → Place
  | .go q => .cond m q
  | .ret => retPlace m p
  | .abort => .aborted

/-- `pthread_mutex_lock`. -/
def acquire (t : Fin n) (l : Lock n) (x : Place) : Option (Lock n × Place) :=
  if l.owner = none then some (l.setOwner (some t), x) else none

def Lock.test (l : Lock n) (m : Mode) : Place :=
  if l.blocked m then .cond m (.search 0) else .take m

def Lock.role (l : Lock n) : Mode := if l.readers ≠ 0 then .rd else .wr

def Lock.wake (l : Lock n) : Place :=
  if 0 < l.writersWaiting ∧ l.readers = 0 then .cond .wr (.signal 0)
  else if 0 < l.readersWaiting ∧ l.writers = 0 then .cond .rd (.broadcast 0)
  else .ulUnlock

/-- The next step of thread `t`. -/
def Place.step (t : Fin n) (l : Lock n) : Place → Option (Lock n × Place)
  | .lock m => acquire t l (.enter m)
  | .enter m => some (l.setWaiting m (incr (l.waiting m)), .test m)
  | .test m => some (l, l.test m)
  | .cond m p =>
      (p.step t (l.cond m) l.owner).map fun o =>
        ({ l with cond := update l.cond m o.cond, owner := o.owner }, nextPlace m p o.next)
  | .take m => some (l.setLocked m (incr (l.locked m)), .leave m)
  | .leave m => some (l.setWaiting m (decr (l.waiting m)), .give m)
  | .give m => some (l.setOwner none, .held m)
  | .ulLock m => acquire t l (.ulRole m)
  | .ulRole m => some (l, .ulDec m l.role)
  | .ulDec _ b => some (l.setLocked b (decr (l.locked b)), .ulTest)
  | .ulTest => some (l, l.wake)
  | .ulUnlock => some (l.setOwner none, .idle)
  | .idle | .held _ | .aborted => none

structure State (n : Nat) where
  lock : Lock n
  place : Fin n → Place

inductive Act (n : Nat) where
  /-- `t` calls `mypthread_rwlock_rdlock`, `_wrlock`, `_unlock`. -/
  | rdlock (t : Fin n)
  | wrlock (t : Fin n)
  | unlock (t : Fin n)
  /-- The next step in the function that `t` is in. -/
  | run (t : Fin n)
  /-- `t` returns from its read without a wake-up. -/
  | spurious (t : Fin n)

def State.set (s : State n) (t : Fin n) (r : Lock n × Place) : State n :=
  ⟨r.1, update s.place t r.2⟩

def State.call (s : State n) (t : Fin n) (m : Mode) : Option (State n × List Empty) :=
  if s.place t = .idle then some (s.set t (s.lock, .lock m), []) else none

def step (s : State n) : Act n → Option (State n × List Empty)
  | .rdlock t => s.call t .rd
  | .wrlock t => s.call t .wr
  | .unlock t =>
      match s.place t with
      | .held m => some (s.set t (s.lock, .ulLock m), [])
      | _ => none
  | .run t => ((s.place t).step t s.lock).map fun r => (s.set t r, [])
  | .spurious t =>
      match s.place t with
      | .cond m (.read k) => some (s.set t (s.lock, .cond m (.relock k)), [])
      | _ => none

def threads (n : Nat) : Machine (State n) (Act n) Empty := ⟨step⟩

def initState (n : Nat) : State n := ⟨Lock.init, fun _ => .idle⟩

/-! ## What one step can do -/

/-- The lock and the place of thread `t` before and after a step. -/
inductive Moves (t : Fin n) (l : Lock n) : Place → Lock n → Place → Prop
  | call (m : Mode) : Moves t l .idle l (.lock m)
  | lock (m : Mode) (hfree : l.owner = none) :
      Moves t l (.lock m) (l.setOwner (some t)) (.enter m)
  | enter (m : Mode) :
      Moves t l (.enter m) (l.setWaiting m (incr (l.waiting m))) (.test m)
  | testBlocked (m : Mode) (hb : l.blocked m = true) : Moves t l (.test m) l (.cond m (.search 0))
  | testFree (m : Mode) (hb : l.blocked m = false) : Moves t l (.test m) l (.take m)
  | cond (m : Mode) (p : Pc) (o : Outcome (Fin n)) (ho : Steps t (l.cond m) l.owner p o) :
      Moves t l (.cond m p)
        { l with cond := update l.cond m o.cond, owner := o.owner } (nextPlace m p o.next)
  | spurious (m : Mode) (k : Nat) : Moves t l (.cond m (.read k)) l (.cond m (.relock k))
  | take (m : Mode) : Moves t l (.take m) (l.setLocked m (incr (l.locked m))) (.leave m)
  | leave (m : Mode) : Moves t l (.leave m) (l.setWaiting m (decr (l.waiting m))) (.give m)
  | give (m : Mode) : Moves t l (.give m) (l.setOwner none) (.held m)
  | unlock (m : Mode) : Moves t l (.held m) l (.ulLock m)
  | ulLock (m : Mode) (hfree : l.owner = none) :
      Moves t l (.ulLock m) (l.setOwner (some t)) (.ulRole m)
  | ulRole (m : Mode) : Moves t l (.ulRole m) l (.ulDec m l.role)
  | ulDec (m b : Mode) : Moves t l (.ulDec m b) (l.setLocked b (decr (l.locked b))) .ulTest
  | ulSignal (hww : 0 < l.writersWaiting) (hr : l.readers = 0) :
      Moves t l .ulTest l (.cond .wr (.signal 0))
  | ulBroadcast (hno : ¬(0 < l.writersWaiting ∧ l.readers = 0)) (hrw : 0 < l.readersWaiting)
      (hw : l.writers = 0) : Moves t l .ulTest l (.cond .rd (.broadcast 0))
  | ulQuiet (hno : ¬(0 < l.writersWaiting ∧ l.readers = 0))
      (hnone : ¬(0 < l.readersWaiting ∧ l.writers = 0)) : Moves t l .ulTest l .ulUnlock
  | ulUnlock : Moves t l .ulUnlock (l.setOwner none) .idle

theorem acquire_eq_some {l : Lock n} {x : Place} {r : Lock n × Place} (h : acquire t l x = some r) :
    l.owner = none ∧ r = (l.setOwner (some t), x) := by
  unfold acquire at h
  split at h
  · rename_i hfree
    exact ⟨hfree, (Option.some.inj h).symm⟩
  · cases h

theorem moves_of_step {l : Lock n} {x : Place} {r : Lock n × Place} (h : x.step t l = some r) :
    Moves t l x r.1 r.2 := by
  cases x with
  | idle => cases h
  | held m => cases h
  | aborted => cases h
  | lock m =>
    obtain ⟨hfree, rfl⟩ := acquire_eq_some h
    exact .lock m hfree
  | ulLock m =>
    obtain ⟨hfree, rfl⟩ := acquire_eq_some h
    exact .ulLock m hfree
  | cond m p =>
    obtain ⟨o, ho, rfl⟩ := Option.map_eq_some_iff.mp h
    exact .cond m p o (steps_of_step ho)
  | test m =>
    obtain rfl := Option.some.inj h
    simp only [Lock.test]
    split
    · rename_i hb
      exact .testBlocked m hb
    · rename_i hb
      exact .testFree m (Bool.eq_false_iff.mpr hb)
  | ulTest =>
    obtain rfl := Option.some.inj h
    simp only [Lock.wake]
    split
    · rename_i hw
      exact .ulSignal hw.1 hw.2
    · rename_i hno
      split
      · rename_i hr
        exact .ulBroadcast hno hr.1 hr.2
      · rename_i hnone
        exact .ulQuiet hno hnone
  | enter m =>
    obtain rfl := Option.some.inj h
    exact .enter m
  | take m =>
    obtain rfl := Option.some.inj h
    exact .take m
  | leave m =>
    obtain rfl := Option.some.inj h
    exact .leave m
  | give m =>
    obtain rfl := Option.some.inj h
    exact .give m
  | ulRole m =>
    obtain rfl := Option.some.inj h
    exact .ulRole m
  | ulDec m b =>
    obtain rfl := Option.some.inj h
    exact .ulDec m b
  | ulUnlock =>
    obtain rfl := Option.some.inj h
    exact .ulUnlock

theorem moves_of_call {s s' : State n} {m : Mode} {es : List Empty} (h : s.call t m = some (s', es)) :
    ∃ r, Moves t s.lock (s.place t) r.1 r.2 ∧ s' = s.set t r := by
  unfold State.call at h
  obtain ⟨hp, rfl, rfl⟩ := guard_result_inj h
  exact ⟨_, hp ▸ .call m, rfl⟩

/-- Every step of the machine is a step of one thread. -/
theorem exists_moves {s s' : State n} {a : Act n} {es : List Empty}
    (h : (threads n).step s a = some (s', es)) :
    ∃ t r, Moves t s.lock (s.place t) r.1 r.2 ∧ s' = s.set t r := by
  cases a with
  | rdlock t => exact ⟨t, moves_of_call h⟩
  | wrlock t => exact ⟨t, moves_of_call h⟩
  | unlock t =>
    simp only [threads, step] at h
    split at h
    · rename_i m hp
      obtain ⟨rfl, rfl⟩ := result_inj h
      exact ⟨t, _, hp ▸ .unlock m, rfl⟩
    · cases h
  | run t =>
    obtain ⟨r, hr, he⟩ := Option.map_eq_some_iff.mp h
    obtain ⟨rfl, rfl⟩ := Prod.mk.inj he
    exact ⟨t, r, moves_of_step hr, rfl⟩
  | spurious t =>
    simp only [threads, step] at h
    split at h
    · rename_i m k hp
      obtain ⟨rfl, rfl⟩ := result_inj h
      exact ⟨t, _, hp ▸ .spurious m k, rfl⟩
    · cases h

end DemosOsLinux.EventRwLock
