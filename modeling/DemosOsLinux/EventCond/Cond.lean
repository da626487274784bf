/-
  The condition variable built on eventfd(2)
  (exercises/linux_api/condition_using_eventfd/mypthreadcond.h): the code.

  A waiter takes one of `maxFd` slots: the flag `waiting[i]` says that slot `i` is in use, the
  counter of `efd[i]` holds the wake-ups given to it. `Pc` are the places in `wait`, `signal` and
  `broadcast`; one step is one access to the flags, to a counter or to the mutex, so the loops
  of `signal` and `broadcast` interleave with waiters that read their counters.

  A `read` of an eventfd waits for a counter that is not 0 and sets it to 0, a `write` of 1 waits
  while the counter has its greatest value: both are steps that are not enabled meanwhile.
-/
import Mathlib.Algebra.Ring.Nat
import Mathlib.Logic.Function.Basic

namespace DemosOsLinux.EventCond

open Function

/-- `MAX_FD`. -/
def maxFd : Nat := 100

structure Cond where
  /-- The counters of the eventfds. -/
  efd : Nat → Nat
  waiting : Nat → Bool

/-- `mypthread_cond_init`. -/
def Cond.init : Cond := ⟨fun _ => 0, fun _ => false⟩

/-- The greatest value of an eventfd counter. -/
def eventfdMax : Nat := 2 ^ 64 - 2

/-- `write(efd[i], &u, sizeof(u))` with `u == 1`. -/
def Cond.write (c : Cond) (i : Nat) : Option Cond :=
  if c.efd i < eventfdMax then some { c with efd := update c.efd i (c.efd i + 1) }
  else none

/-- `read(efd[i], &u, sizeof(u))`. -/
def Cond.read (c : Cond) (i : Nat) : Option Cond :=
  if c.efd i = 0 then none else some { c with efd := update c.efd i 0 }

def Cond.setWaiting (c : Cond) (i : Nat) (b : Bool) : Cond :=
  { c with waiting := update c.waiting i b }

/-- The places in the three functions; `k` is `mynumber`. -/
inductive Pc where
  /-- `wait`: the search for a free slot, at `i`. -/
  | search (i : Nat)
  /-- `cond->waiting[mynumber]=true`. -/
  | claim (k : Nat)
  /-- `pthread_mutex_unlock(mutex)`. -/
  | release (k : Nat)
  | read (k : Nat)
  /-- `pthread_mutex_lock(mutex)`. -/
  | relock (k : Nat)
  /-- `cond->waiting[mynumber]=false`. -/
  | clear (k : Nat)
  /-- `signal`: the loop, at `i`. -/
  | signal (i : Nat)
  /-- `broadcast`: the loop, at `i`. -/
  | broadcast (i : Nat)
  deriving DecidableEq

/-- Where a step leads. -/
inductive Next where
  | go (p : Pc)
  | ret
  /-- `CHECK_ASSERT(mynumber!=-1)` fails. -/
  | abort

/-- The condition variable, the owner of the mutex and the place after a step. -/
structure Outcome (ι : Type) where
  cond : Cond
  owner : Option ι
  next : Next

variable {ι : Type}

/-- The loop of `signal`, at `i`. -/
def signalStep (c : Cond) (owner : Option ι) (i : Nat) : Option (Outcome ι) :=
  if i < maxFd then
    if c.waiting i then (c.write i).map fun c' => ⟨c', owner, .ret⟩
    else some ⟨c, owner, .go (.signal (i + 1))⟩
  else some ⟨c, owner, .ret⟩

/-- The loop of `broadcast`, at `i`. -/
def broadcastStep (c : Cond) (owner : Option ι) (i : Nat) : Option (Outcome ι) :=
  if i < maxFd then
    if c.waiting i then (c.write i).map fun c' => ⟨c', owner, .go (.broadcast (i + 1))⟩
    else some ⟨c, owner, .go (.broadcast (i + 1))⟩
  else some ⟨c, owner, .ret⟩

/-- The search of `wait`, at `i`. -/
def searchStep (c : Cond) (owner : Option ι) (i : Nat) : Outcome ι :=
  if i < maxFd then
    if c.waiting i then ⟨c, owner, .go (.search (i + 1))⟩ else ⟨c, owner, .go (.claim i)⟩
  else ⟨c, owner, .abort⟩

/-- One step of thread `t` at place `p`. -/
def Pc.step (t : ι) (c : Cond) (owner : Option ι) : Pc → Option (Outcome ι)
  | .search i => some (searchStep c owner i)
  | .claim k => some ⟨c.setWaiting k true, owner, .go (.release k)⟩
  | .release k => some ⟨c, none, .go (.read k)⟩
  | .read k => (c.read k).map fun c' => ⟨c', owner, .go (.relock k)⟩
  | .relock k => if owner = none then some ⟨c, some t, .go (.clear k)⟩ else none
  | .clear k => some ⟨c.setWaiting k false, owner, .ret⟩
  | .signal i => signalStep c owner i
  | .broadcast i => broadcastStep c owner i

/-! ## What one step can do -/

inductive Steps (t : ι) (c : Cond) (owner : Option ι) : Pc → Outcome ι → Prop
  | searchNext (i : Nat) (hi : i < maxFd) (hw : c.waiting i = true) :
      Steps t c owner (.search i) ⟨c, owner, .go (.search (i + 1))⟩
  | searchFound (i : Nat) (hi : i < maxFd) (hw : c.waiting i = false) :
      Steps t c owner (.search i) ⟨c, owner, .go (.claim i)⟩
  | searchFail (i : Nat) (hi : maxFd ≤ i) : Steps t c owner (.search i) ⟨c, owner, .abort⟩
  | claim (k : Nat) : Steps t c owner (.claim k) ⟨c.setWaiting k true, owner, .go (.release k)⟩
  | release (k : Nat) : Steps t c owner (.release k) ⟨c, none, .go (.read k)⟩
  | read (k : Nat) (hk : 0 < c.efd k) :
      Steps t c owner (.read k)
        ⟨{ c with efd := update c.efd k 0 }, owner, .go (.relock k)⟩
  | relock (k : Nat) (hfree : owner = none) :
      Steps t c owner (.relock k) ⟨c, some t, .go (.clear k)⟩
  | clear (k : Nat) : Steps t c owner (.clear k) ⟨c.setWaiting k false, owner, .ret⟩
  | signalNext (i : Nat) (hi : i < maxFd) (hw : c.waiting i = false) :
      Steps t c owner (.signal i) ⟨c, owner, .go (.signal (i + 1))⟩
  | signalWrite (i : Nat) (hi : i < maxFd) (hw : c.waiting i = true) :
      Steps t c owner (.signal i)
        ⟨{ c with efd := update c.efd i (c.efd i + 1) }, owner, .ret⟩
  | signalEnd (i : Nat) (hi : maxFd ≤ i) : Steps t c owner (.signal i) ⟨c, owner, .ret⟩
  | broadcastNext (i : Nat) (hi : i < maxFd) (hw : c.waiting i = false) :
      Steps t c owner (.broadcast i) ⟨c, owner, .go (.broadcast (i + 1))⟩
  | broadcastWrite (i : Nat) (hi : i < maxFd) (hw : c.waiting i = true) :
      Steps t c owner (.broadcast i)
        ⟨{ c with efd := update c.efd i (c.efd i + 1) }, owner,
          .go (.broadcast (i + 1))⟩
  | broadcastEnd (i : Nat) (hi : maxFd ≤ i) : Steps t c owner (.broadcast i) ⟨c, owner, .ret⟩

theorem write_eq_some {c c' : Cond} {i : Nat} (h : c.write i = some c') :
    c' = { c with efd := update c.efd i (c.efd i + 1) } := by
  unfold Cond.write at h
  split at h
  · exact (Option.some.inj h).symm
  · cases h

theorem read_eq_some {c c' : Cond} {i : Nat} (h : c.read i = some c') :
    0 < c.efd i ∧ c' = { c with efd := update c.efd i 0 } := by
  unfold Cond.read at h
  split at h
  · cases h
  · rename_i hne
    exact ⟨Nat.pos_of_ne_zero hne, (Option.some.inj h).symm⟩

theorem steps_of_step {t : ι} {c : Cond} {owner : Option ι} {p : Pc} {o : Outcome ι}
    (h : p.step t c owner = some o) : Steps t c owner p o := by
  cases p with
  | search i =>
    obtain rfl := Option.some.inj h
    unfold searchStep
    split
    · rename_i hi
      split
      · rename_i hw
        exact .searchNext i hi hw
      · rename_i hw
        exact .searchFound i hi (Bool.eq_false_iff.mpr hw)
    · rename_i hi
      exact .searchFail i (Nat.not_lt.mp hi)
  | claim k =>
    obtain rfl := Option.some.inj h
    exact .claim k
  | release k =>
    obtain rfl := Option.some.inj h
    exact .release k
  | read k =>
    obtain ⟨c', hc, rfl⟩ := Option.map_eq_some_iff.mp h
    obtain ⟨hk, rfl⟩ := read_eq_some hc
    exact .read k hk
  | relock k =>
    simp only [Pc.step] at h
    split at h
    · rename_i hfree
      obtain rfl := Option.some.inj h
      exact .relock k hfree
    · cases h
  | clear k =>
    obtain rfl := Option.some.inj h
    exact .clear k
  | signal i =>
    simp only [Pc.step, signalStep] at h
    split at h
    · rename_i hi
      split at h
      · rename_i hw
        obtain ⟨c', hc, rfl⟩ := Option.map_eq_some_iff.mp h
        obtain rfl := write_eq_some hc
        exact .signalWrite i hi hw
      · rename_i hw
        obtain rfl := Option.some.inj h
        exact .signalNext i hi (Bool.eq_false_iff.mpr hw)
    · rename_i hi
      obtain rfl := Option.some.inj h
      exact .signalEnd i (Nat.not_lt.mp hi)
  | broadcast i =>
    simp only [Pc.step, broadcastStep] at h
    split at h
    · rename_i hi
      split at h
      · rename_i hw
        obtain ⟨c', hc, rfl⟩ := Option.map_eq_some_iff.mp h
        obtain rfl := write_eq_some hc
        exact .broadcastWrite i hi hw
      · rename_i hw
        obtain rfl := Option.some.inj h
        exact .broadcastNext i hi (Bool.eq_false_iff.mpr hw)
    · rename_i hi
      obtain rfl := Option.some.inj h
      exact .broadcastEnd i (Nat.not_lt.mp hi)

end DemosOsLinux.EventCond
