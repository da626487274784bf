/-
  The driver that puts tasks to sleep and wakes them (kernel_standalone/sleep_wakeup/main.c).

  One flag serves all sleepers: `IOCTL_SLEEP` clears it and waits until it is 1, `IOCTL_WAKEUP` sets
  it and wakes the queue. Every assignment to the flag, every step of `wait_event_interruptible` and
  `wake_up` is a step of its own; there are no signals.

  `asked w` are the tasks that were asleep when the `IOCTL_WAKEUP` of task `w` started, and `served`
  those of an `IOCTL_WAKEUP` that has done its `wake_up`; a task leaves both when its ioctl returns.
  * `Served`: a served task is not asleep and finds the flag set, as long as nobody clears the flag
    while a wakeup is under way (`Undisturbed`); `served_of_step`.
  * `wakeups_not_lost`: such runs lose no wakeup.
  * `cleared_flag_loses_wakeup`: a third task clears the flag before the woken task tests it.
-/
import DemosOsLinux.Lib.Machine
import DemosOsLinux.Lib.WaitQueue

namespace DemosOsLinux.SleepWakeup

open Lib Function

variable {ι : Type} [DecidableEq ι] {w : WaitPc} {q : WaitQueue ι}

/-- Where a task is: not in an ioctl, in `IOCTL_SLEEP` (before `state = 0`, then in
    `wait_event_interruptible`), or in `IOCTL_WAKEUP` (before `state = 1`, then before `wake_up`). -/
inductive Pc where
  | user
  | clear
  | wait (w : WaitPc)
  | set
  | wake
  deriving DecidableEq

structure State (ι : Type) where
  state : Int
  queue : WaitQueue ι
  pc : ι → Pc
  asked : ι → ι → Bool
  served : ι → Bool

/-- The command of an ioctl. -/
inductive Cmd where
  | sleep
  | wakeup
  | other

inductive Act (ι : Type) where
  | ioctl (t : ι) (cmd : Cmd)
  | step (t : ι)

/-- `-EFAULT`. -/
def eFault : Int := -14

/-- The return of an ioctl. -/
structure Return (ι : Type) where
  task : ι
  ret : Int

def asleep (s : State ι) (u : ι) : Bool :=
  decide (s.pc u = .wait .sleep) && decide (u ∉ s.queue.woken)

def State.goto (s : State ι) (t : ι) (l : Pc) : State ι := { s with pc := update s.pc t l }

/-- The ioctl of `t` returns: no wakeup owes it anything. -/
def State.leave (s : State ι) (t : ι) : State ι :=
  { s.goto t .user with
    asked := fun w => update (s.asked w) t false
    served := update s.served t false }

/-- A step of task `t`. -/
def taskStep (s : State ι) (t : ι) : Option (State ι × List (Return ι)) :=
  match s.pc t with
  | .user => none
  | .clear => some ({ s.goto t (.wait .prepare) with state := 0 }, [])
  | .wait w =>
      match s.queue.waitStep t (decide (s.state = 1)) w with
      | none => none
      | some (q, some w') => some ({ s.goto t (.wait w') with queue := q }, [])
      | some (q, none) => some ({ s.leave t with queue := q }, [⟨t, 0⟩])
  | .set => some ({ s.goto t .wake with state := 1 }, [])
  | .wake =>
      some ({ s.goto t .user with
        queue := s.queue.wakeUp
        asked := update s.asked t fun _ => false
        served := fun u => s.served u || s.asked t u }, [⟨t, 0⟩])

def step (s : State ι) : Act ι → Option (State ι × List (Return ι))
  | .ioctl t cmd =>
      if s.pc t = .user then
        match cmd with
        | .sleep => some (s.goto t .clear, [])
        | .wakeup => some ({ s.goto t .set with asked := update s.asked t (asleep s) }, [])
        | .other => some (s, [⟨t, eFault⟩])
      else none
  | .step t => taskStep s t

def driver : Machine (State ι) (Act ι) (Return ι) := ⟨step⟩

def initState : State ι where
  state := 0
  queue := .empty
  pc := fun _ => .user
  asked := fun _ _ => false
  served := fun _ => false

/-- A task whose wakeup has been done sleeps and has not been woken. -/
def Lost (s : State ι) (t : ι) : Prop := s.served t = true ∧ asleep s t = true

/-- Nobody has been woken who is still in its ioctl, and no `IOCTL_WAKEUP` that found a task asleep
    is between `state = 1` and `wake_up`. -/
def Quiet (s : State ι) : Prop :=
  (∀ u, s.served u = false) ∧ ∀ w, s.pc w = .wake → ∀ u, s.asked w u = false

/-- `state = 0` is executed only when no wakeup is under way. -/
def Undisturbed (s : State ι) : Act ι → Prop
  | .ioctl _ _ => True
  | .step t => s.pc t = .clear → Quiet s

/-! ## One step -/

def Pc.place : Pc → Option WaitPc
  | .wait w => some w
  | _ => none

section Step

variable {s s' : State ι} {t : ι} {es : List (Return ι)}

theorem taskStep_cases (h : taskStep s t = some (s', es)) :
    (s.pc t = .clear ∧ s' = { s.goto t (.wait .prepare) with state := 0 }) ∨
    (∃ w q w', s.pc t = .wait w ∧
      s.queue.waitStep t (decide (s.state = 1)) w = some (q, some w') ∧
      s' = { s.goto t (.wait w') with queue := q }) ∨
    (∃ w q, s.pc t = .wait w ∧ s.queue.waitStep t (decide (s.state = 1)) w = some (q, none) ∧
      s' = { s.leave t with queue := q }) ∨
    (s.pc t = .set ∧ s' = { s.goto t .wake with state := 1 }) ∨
    (s.pc t = .wake ∧ s' = { s.goto t .user with
      queue := s.queue.wakeUp
      asked := update s.asked t fun _ => false
      served := fun u => s.served u || s.asked t u }) := by
  cases hpc : s.pc t with
  | user =>
    simp only [taskStep, hpc] at h
    cases h
  | clear =>
    simp only [taskStep, hpc] at h
    obtain ⟨rfl, _⟩ := result_inj h
    exact Or.inl ⟨rfl, rfl⟩
  | wait w =>
    simp only [taskStep, hpc] at h
    right
    cases hw : s.queue.waitStep t (decide (s.state = 1)) w with
    | none =>
      simp only [hw] at h
      cases h
    | some u =>
      obtain ⟨q, w'⟩ := u
      cases w' with
      | some w' =>
        simp only [hw] at h
        obtain ⟨rfl, _⟩ := result_inj h
        exact Or.inl ⟨w, q, w', rfl, hw, rfl⟩
      | none =>
        simp only [hw] at h
        obtain ⟨rfl, _⟩ := result_inj h
        exact Or.inr (Or.inl ⟨w, q, rfl, hw, rfl⟩)
  | set =>
    simp only [taskStep, hpc] at h
    obtain ⟨rfl, _⟩ := result_inj h
    exact Or.inr (Or.inr (Or.inr (Or.inl ⟨rfl, rfl⟩)))
  | wake =>
    simp only [taskStep, hpc] at h
    obtain ⟨rfl, _⟩ := result_inj h
    exact Or.inr (Or.inr (Or.inr (Or.inr ⟨rfl, rfl⟩)))

/-- What holds in runs in which nobody clears the flag while a wakeup is under way. -/
structure Served (s : State ι) : Prop where
  listed : ∀ u, s.queue.Listed u (s.pc u).place
  waits : ∀ u, s.served u = true → ∃ w, s.pc u = .wait w
  flag : ∀ u, s.served u = true → s.state = 1
  awake : ∀ u, s.served u = true → s.pc u = .wait .sleep → u ∈ s.queue.woken
  askedWaits : ∀ w u, s.asked w u = true → ∃ p, s.pc u = .wait p
  asking : ∀ w u, s.asked w u = true → s.pc w = .set ∨ s.pc w = .wake
  askedFlag : ∀ w u, s.pc w = .wake → s.asked w u = true → s.state = 1

omit [DecidableEq ι] in
theorem served_initState : Served (initState : State ι) where
  listed := fun u h => by rcases h with h | h <;> cases h
  waits := fun u h => by cases h
  flag := fun u h => by cases h
  awake := fun u h => by cases h
  askedWaits := fun w u h => by cases h
  asking := fun w u h => by cases h
  askedFlag := fun w u _ h => by cases h

omit [DecidableEq ι] in
/-- A task that waits is not `t`, if `t` is somewhere else. -/
theorem ne_of_place {l : Pc} {u : ι} (ht : s.pc t = l) (hl : l.place = none)
    (hu : s.pc u = .wait w) : u ≠ t := by
  rintro rfl
  rw [ht] at hu
  rw [hu] at hl
  cases hl

section Served

variable (inv : Served s)
include inv

/-- Task `t` goes from one place outside of the wait to another. The flag, the queue and what is
    owed to whom can change with it. -/
theorem Served.move {l l' : Pc} (ht : s.pc t = l) (hl : l.place = none)
    (hl' : l'.place = none) (hs' : s'.pc = update s.pc t l')
    (hlisted : ∀ u, s.queue.Listed u (s.pc u).place → s'.queue.Listed u (s.pc u).place)
    (hserved : ∀ u, s'.served u = true → (∃ w, s.pc u = .wait w) ∧ s'.state = 1 ∧
      (s.pc u = .wait .sleep → u ∈ s'.queue.woken))
    (hasked : ∀ w u, s'.asked w u = true → (∃ p, s.pc u = .wait p) ∧
      (s'.pc w = .set ∨ s'.pc w = .wake) ∧ (s'.pc w = .wake → s'.state = 1)) : Served s' := by
  have hsame {u : ι} {w : WaitPc} (hu : s.pc u = .wait w) : s'.pc u = .wait w := by
    rw [hs', update_of_ne (ne_of_place ht hl hu)]
    exact hu
  have hback {u : ι} {w : WaitPc} (hu : s'.pc u = .wait w) : s.pc u = .wait w := by
    by_cases e : u = t
    · rw [hs', e, update_self] at hu
      rw [hu] at hl'
      cases hl'
    · rw [hs', update_of_ne e] at hu
      exact hu
  refine ⟨fun u hplace => ?_, ?_, ?_, ?_, ?_, ?_, ?_⟩
  · have hwait : ∃ w, s'.pc u = .wait w := by
      cases hpc : s'.pc u with
      | wait w => exact ⟨w, rfl⟩
      | _ =>
        rw [hpc] at hplace
        rcases hplace with h | h <;> cases h
    obtain ⟨w, hw⟩ := hwait
    have hpc : s.pc u = s'.pc u := (hback hw).trans hw.symm
    exact hlisted u (inv.listed u) (hpc ▸ hplace)
  · intro u hu
    obtain ⟨⟨w, hw⟩, _, _⟩ := hserved u hu
    exact ⟨w, hsame hw⟩
  · intro u hu
    exact (hserved u hu).2.1
  · intro u hu hsleep
    exact (hserved u hu).2.2 (hback hsleep)
  · intro w u hu
    obtain ⟨⟨p, hp⟩, _, _⟩ := hasked w u hu
    exact ⟨p, hsame hp⟩
  · intro w u hu
    exact (hasked w u hu).2.1
  · intro w u hw hu
    exact (hasked w u hu).2.2 hw

omit [DecidableEq ι] in
/-- A task outside of `IOCTL_WAKEUP` has asked for nobody. -/
theorem Served.not_asked {l : Pc} (ht : s.pc t = l) (hset : l ≠ .set)
    (hwake : l ≠ .wake) (u : ι) : s.asked t u = false := by
  by_contra hne
  rcases inv.asking t u (eq_true_of_ne_false hne) with h | h
  · exact hset (ht.symm.trans h)
  · exact hwake (ht.symm.trans h)

/-- What is asked for by another task than the one that moves. -/
theorem Served.asked_of_ne {w u : ι} (hu : s.asked w u = true) (hw : w ≠ t) (l : Pc) :
    (∃ p, s.pc u = .wait p) ∧
    (update s.pc t l w = .set ∨ update s.pc t l w = .wake) ∧
    (update s.pc t l w = .wake → s.state = 1) := by
  rw [update_of_ne hw]
  exact ⟨inv.askedWaits w u hu, inv.asking w u hu, fun h => inv.askedFlag w u h hu⟩

theorem Served.callSleep (ht : s.pc t = .user) : Served (s.goto t .clear) := by
  refine inv.move ht rfl rfl rfl (fun _ h => h) (fun u hu => ?_) (fun w u hu => ?_)
  · exact ⟨inv.waits u hu, inv.flag u hu, inv.awake u hu⟩
  · replace hu : s.asked w u = true := hu
    have hw : w ≠ t := by
      rintro rfl
      rw [inv.not_asked ht (by decide) (by decide) u] at hu
      cases hu
    exact inv.asked_of_ne hu hw .clear

theorem Served.callWakeup (ht : s.pc t = .user) :
    Served { s.goto t .set with asked := update s.asked t (asleep s) } := by
  refine inv.move ht rfl rfl rfl (fun _ h => h) (fun u hu => ?_) (fun w u hu => ?_)
  · exact ⟨inv.waits u hu, inv.flag u hu, inv.awake u hu⟩
  · replace hu : update s.asked t (asleep s) w u = true := hu
    by_cases e : w = t
    · have hpc : ({ s.goto t .set with asked := update s.asked t (asleep s) } :
          State ι).pc w = .set := by
        rw [e]
        exact update_self t .set s.pc
      rw [e, update_self, asleep, Bool.and_eq_true, decide_eq_true_eq] at hu
      rw [hpc]
      exact ⟨⟨.sleep, hu.1⟩, Or.inl rfl, nofun⟩
    · rw [update_of_ne e] at hu
      exact inv.asked_of_ne hu e .set

theorem Served.set (ht : s.pc t = .set) : Served { s.goto t .wake with state := 1 } := by
  refine inv.move ht rfl rfl rfl (fun _ h => h) (fun u hu => ?_) (fun w u hu => ?_)
  · exact ⟨inv.waits u hu, rfl, inv.awake u hu⟩
  · refine ⟨inv.askedWaits w u hu, ?_, fun _ => rfl⟩
    show update s.pc t .wake w = .set ∨ update s.pc t .wake w = .wake
    by_cases e : w = t
    · rw [e, update_self]
      exact Or.inr rfl
    · rw [update_of_ne e]
      exact inv.asking w u hu

theorem Served.wake (ht : s.pc t = .wake) :
    Served { s.goto t .user with
      queue := s.queue.wakeUp
      asked := update s.asked t fun _ => false
      served := fun u => s.served u || s.asked t u } := by
  refine inv.move ht rfl rfl rfl (fun _ => WaitQueue.listed_wakeUp) (fun u hu => ?_)
    (fun w u hu => ?_)
  · have howed : s.served u = true ∨ s.asked t u = true := Bool.or_eq_true _ _ ▸ hu
    refine ⟨?_, ?_, fun hsleep => ?_⟩
    · exact howed.elim (inv.waits u) (inv.askedWaits t u)
    · exact howed.elim (inv.flag u) (inv.askedFlag t u ht)
    · -- everyone on the queue has been woken
      have hlisted := inv.listed u
      rw [hsleep] at hlisted
      rcases hlisted (Or.inr rfl) with h | h
      · exact Finset.mem_union_right _ h
      · exact Finset.mem_union_left _ h
  · replace hu : update s.asked t (fun _ => false) w u = true := hu
    by_cases e : w = t
    · rw [e, update_self] at hu
      cases hu
    · rw [update_of_ne e] at hu
      exact inv.asked_of_ne hu e .user

/-- `state = 0`, when no wakeup is under way. -/
theorem Served.clear (ht : s.pc t = .clear) (hquiet : Quiet s) :
    Served { s.goto t (.wait .prepare) with state := 0 } := by
  have hnone (u : ι) (hu : s.served u = true) : False := by
    rw [hquiet.1 u] at hu
    cases hu
  refine ⟨fun u hplace => ?_, fun u hu => (hnone u hu).elim, fun u hu => (hnone u hu).elim,
    fun u hu => (hnone u hu).elim, fun w u hu => ?_, fun w u hu => ?_, fun w u hw hu => ?_⟩
  · refine (forall_update_iff s.pc fun u l => s.queue.Listed u l.place).mpr
      ⟨fun hprepare => ?_, fun u _ => inv.listed u⟩ u hplace
    rcases hprepare with h | h <;> cases h
  · show ∃ p, update s.pc t (.wait .prepare) u = .wait p
    by_cases e : u = t
    · rw [e, update_self]
      exact ⟨.prepare, rfl⟩
    · rw [update_of_ne e]
      exact inv.askedWaits w u hu
  · show update s.pc t (.wait .prepare) w = .set ∨
      update s.pc t (.wait .prepare) w = .wake
    by_cases e : w = t
    · rw [e] at hu
      exact absurd ((inv.not_asked ht (by decide) (by decide) u).symm.trans hu) (by decide)
    · rw [update_of_ne e]
      exact inv.asking w u hu
  · replace hw : update s.pc t (.wait .prepare) w = .wake := hw
    by_cases e : w = t
    · rw [e, update_self] at hw
      cases hw
    · rw [update_of_ne e] at hw
      exact absurd ((hquiet.2 w hw u).symm.trans hu) (by decide)

/-- A step in the wait. -/
theorem Served.waitGo {w' : WaitPc} (ht : s.pc t = .wait w)
    (h : s.queue.waitStep t (decide (s.state = 1)) w = some (q, some w')) :
    Served { s.goto t (.wait w') with queue := q } := by
  have hpc (u : ι) : ({ s.goto t (.wait w') with queue := q } : State ι).pc u =
      if u = t then .wait w' else s.pc u := update_apply _ _ _ _
  have hwaits {u : ι} (hu : ∃ p, s.pc u = .wait p) :
      ∃ p, ({ s.goto t (.wait w') with queue := q } : State ι).pc u = .wait p := by
    rw [hpc]
    split
    · exact ⟨w', rfl⟩
    · exact hu
  have hothers {v : ι} {l : Pc} (hl : l.place = none) :
      ({ s.goto t (.wait w') with queue := q } : State ι).pc v = l ↔ s.pc v = l := by
    rw [hpc]
    split
    · rename_i e
      rw [e, ht]
      refine iff_of_false ?_ ?_ <;> rintro rfl <;> cases hl
    · exact Iff.rfl
  refine ⟨fun u => ?_, fun u hu => hwaits (inv.waits u hu), inv.flag, fun u hu hsleep => ?_,
    fun v u hu => hwaits (inv.askedWaits v u hu), fun v u hu => ?_, fun v u hv hu => ?_⟩
  · rw [hpc]
    by_cases e : u = t
    · rw [if_pos e, e]
      have hlisted := inv.listed t
      rw [ht] at hlisted
      exact WaitQueue.listed_self_of_waitStep h hlisted
    · rw [if_neg e]
      exact WaitQueue.listed_of_waitStep h e (inv.listed u)
  · rw [hpc] at hsleep
    by_cases e : u = t
    · -- a served task finds the flag set
      rw [if_pos e] at hsleep
      cases hsleep
      rw [e] at hu
      rcases WaitQueue.waitStep_cases h with ⟨_, _, hw⟩ | ⟨_, _, _, hw⟩ | ⟨_, hcond, _⟩ |
        ⟨_, _, _, hw⟩
      · cases hw
      · cases hw
      · exact absurd (inv.flag t hu) (of_decide_eq_false hcond)
      · cases hw
    · rw [if_neg e] at hsleep
      exact (WaitQueue.mem_woken_of_waitStep h e).mpr (inv.awake u hu hsleep)
  · exact (inv.asking v u hu).imp (hothers rfl).mpr (hothers rfl).mpr
  · exact inv.askedFlag v u ((hothers rfl).mp hv) hu

end Served

/-- What is set after `t` has been struck out was set before, for another task. -/
theorem of_update_false {owed : ι → Bool} {u : ι} (h : update owed t false u = true) :
    u ≠ t ∧ owed u = true := by
  by_cases e : u = t
  · rw [e, update_self] at h
    cases h
  · rw [update_of_ne e] at h
    exact ⟨e, h⟩

/-- The return from the wait. -/
theorem Served.waitLeave (inv : Served s) (ht : s.pc t = .wait w)
    (h : s.queue.waitStep t (decide (s.state = 1)) w = some (q, none)) :
    Served { s.leave t with queue := q } := by
  have hpc (u : ι) : ({ s.leave t with queue := q } : State ι).pc u =
      if u = t then .user else s.pc u := update_apply _ _ _ _
  have howed {u : ι} (hu : ({ s.leave t with queue := q } : State ι).served u = true) :
      u ≠ t ∧ s.served u = true := of_update_false hu
  have hasked {v u : ι} (hu : ({ s.leave t with queue := q } : State ι).asked v u = true) :
      u ≠ t ∧ s.asked v u = true := of_update_false hu
  have hasker {v u : ι} (hu : s.asked v u = true) : v ≠ t := by
    rintro rfl
    exact absurd ((inv.not_asked ht (by simp) (by simp) u).symm.trans hu) (by decide)
  refine ⟨fun u => ?_, fun u hu => ?_, fun u hu => inv.flag u (howed hu).2, fun u hu hsleep => ?_,
    fun v u hu => ?_, fun v u hu => ?_, fun v u hv hu => ?_⟩
  · rw [hpc]
    by_cases e : u = t
    · rw [if_pos e]
      intro hplace
      rcases hplace with h | h <;> cases h
    · rw [if_neg e]
      exact WaitQueue.listed_of_waitStep h e (inv.listed u)
  · rw [hpc, if_neg (howed hu).1]
    exact inv.waits u (howed hu).2
  · rw [hpc, if_neg (howed hu).1] at hsleep
    exact (WaitQueue.mem_woken_of_waitStep h (howed hu).1).mpr (inv.awake u (howed hu).2 hsleep)
  · rw [hpc, if_neg (hasked hu).1]
    exact inv.askedWaits v u (hasked hu).2
  · rw [hpc, if_neg (hasker (hasked hu).2)]
    exact inv.asking v u (hasked hu).2
  · rw [hpc, if_neg (hasker (hasked hu).2)] at hv
    exact inv.askedFlag v u hv (hasked hu).2

theorem served_of_step {a : Act ι} (hquiet : Undisturbed s a) (inv : Served s)
    (h : step s a = some (s', es)) : Served s' := by
  cases a with
  | ioctl t cmd =>
    obtain ⟨ht, heq⟩ := Option.ite_none_right_eq_some.mp h
    cases cmd with
    | sleep =>
      obtain ⟨rfl, _⟩ := result_inj heq
      exact inv.callSleep ht
    | wakeup =>
      obtain ⟨rfl, _⟩ := result_inj heq
      exact inv.callWakeup ht
    | other =>
      obtain ⟨rfl, _⟩ := result_inj heq
      exact inv
  | step t =>
    rcases taskStep_cases h with ⟨ht, rfl⟩ | ⟨w, q, w', ht, hw, rfl⟩ | ⟨w, q, ht, hw, rfl⟩ |
      ⟨ht, rfl⟩ | ⟨ht, rfl⟩
    · exact inv.clear ht (hquiet ht)
    · exact inv.waitGo ht hw
    · exact inv.waitLeave ht hw
    · exact inv.set ht
    · exact inv.wake ht

end Step

/-! ## Whole runs -/

section Runs

variable {s : State ι} {t : ι}

theorem taskStep_waitGo {w' : WaitPc} (ht : s.pc t = .wait w)
    (h : s.queue.waitStep t (decide (s.state = 1)) w = some (q, some w')) :
    taskStep s t = some ({ s.goto t (.wait w') with queue := q }, []) := by
  simp only [taskStep, ht, h]

/-- Task `t` comes to a state with `P` by its own steps. -/
def Comes (t : ι) (P : State ι → Prop) : State ι → Prop :=
  driver.CanReach (fun a => a = .step t) fun s' _ => P s'

theorem comes_of_step {P : State ι → Prop} {s₁ : State ι} {es : List (Return ι)}
    (h : taskStep s t = some (s₁, es)) (hP : Comes t P s₁) : Comes t P s :=
  driver.canReach_step rfl h hP

/-- With the flag set, a task that waits and is not asleep returns by itself. -/
theorem comes_user (hflag : s.state = 1) (ht : s.pc t = .wait w)
    (hawake : w = .sleep → t ∈ s.queue.woken) : Comes t (fun s' => s'.pc t = .user) s := by
  have htest {s : State ι} (hflag : s.state = 1) (ht : s.pc t = .wait .test) :
      Comes t (fun s' => s'.pc t = .user) s := by
    have hstep : taskStep s t = some ({ s.leave t with queue := s.queue.finish t }, [⟨t, 0⟩]) := by
      simp [taskStep, ht, hflag, WaitQueue.waitStep]
    refine comes_of_step hstep (driver.canReach_here ?_)
    exact update_self t .user s.pc
  have hprepare {s : State ι} (hflag : s.state = 1) (ht : s.pc t = .wait .prepare) :
      Comes t (fun s' => s'.pc t = .user) s :=
    comes_of_step (taskStep_waitGo ht rfl) (htest hflag (update_self t _ s.pc))
  cases w with
  | prepare => exact hprepare hflag ht
  | test => exact htest hflag ht
  | sleep =>
    exact comes_of_step (taskStep_waitGo ht (if_pos (hawake rfl)))
      (hprepare hflag (update_self t _ s.pc))

/-- With the flag cleared, a task that waits goes to sleep. -/
theorem comes_lost (hflag : s.state ≠ 1) (ht : s.pc t = .wait w) (hserved : s.served t = true) :
    Comes t (fun s' => Lost s' t) s := by
  have htest {s : State ι} (hflag : s.state ≠ 1) {q : WaitQueue ι} :
      q.waitStep t (decide (s.state = 1)) .test = some (q, some .sleep) := by
    rw [decide_eq_false hflag]
    rfl
  have hasleep {s : State ι} (ht : s.pc t = .wait .sleep) (hwoken : t ∉ s.queue.woken)
      (hserved : s.served t = true) : Lost s t :=
    ⟨hserved, by simp [asleep, ht, hwoken]⟩
  have hprepare {s : State ι} (hflag : s.state ≠ 1) (ht : s.pc t = .wait .prepare)
      (hserved : s.served t = true) : Comes t (fun s' => Lost s' t) s := by
    refine comes_of_step (taskStep_waitGo ht rfl) ?_
    refine comes_of_step (taskStep_waitGo (update_self t _ s.pc) (htest (s := s) hflag))
      (driver.canReach_here ?_)
    exact hasleep (update_self t _ _) (Finset.notMem_erase t s.queue.woken) hserved
  have hsleep {s : State ι} (hflag : s.state ≠ 1) (ht : s.pc t = .wait .sleep)
      (hserved : s.served t = true) : Comes t (fun s' => Lost s' t) s := by
    by_cases hwoken : t ∈ s.queue.woken
    · exact comes_of_step (taskStep_waitGo ht (if_pos hwoken))
        (hprepare hflag (update_self t _ s.pc) hserved)
    · exact driver.canReach_here (hasleep ht hwoken hserved)
  cases w with
  | prepare => exact hprepare hflag ht hserved
  | test =>
    exact comes_of_step (taskStep_waitGo ht (htest hflag))
      (hsleep hflag (update_self t _ s.pc) hserved)
  | sleep => exact hsleep hflag ht hserved

/-- If the flag is cleared while a wakeup is under way, the wakeup can be lost. -/
theorem Served.lost_of_clear (inv : Served s) (ht : s.pc t = .clear) (hdisturbed : ¬Quiet s) :
    ∃ acts s' tr u, driver.run s (.step t :: acts) = some (s', tr) ∧ Lost s' u := by
  set s₁ : State ι := { s.goto t (.wait .prepare) with state := 0 } with hs₁
  have hclear : taskStep s t = some (s₁, []) := by
    simp only [taskStep, ht, hs₁]
  have hne (l : Pc) (hl : l ≠ .clear) {u : ι} (hu : s.pc u = l) : s₁.pc u = l := by
    have hut : u ≠ t := by
      rintro rfl
      exact hl (hu.symm.trans ht)
    exact (update_of_ne hut _ _).trans hu
  have hfirst {u : ι} {acts : List (Act ι)} {s' : State ι} {tr : List (Return ι)}
      (hr : driver.run s₁ acts = some (s', tr)) (hlost : Lost s' u) :
      ∃ acts s' tr u, driver.run s (.step t :: acts) = some (s', tr) ∧ Lost s' u :=
    ⟨acts, s', tr, u, (driver.run_cons_eq_some _ _ _ _ _).mpr ⟨s₁, [], tr, hclear, hr, rfl⟩, hlost⟩
  by_cases hserved : ∀ u, s.served u = false
  · -- somebody is before its `wake_up`, which will find the flag cleared
    have hasked : ∃ w, s.pc w = .wake ∧ ∃ u, s.asked w u = true := by
      by_contra hnone
      push Not at hnone
      exact hdisturbed ⟨hserved, fun w hw u => eq_false_of_ne_true (hnone w hw u)⟩
    obtain ⟨w, hw, u, hu⟩ := hasked
    obtain ⟨p, hp⟩ := inv.askedWaits w u hu
    have huw : u ≠ w := by
      rintro rfl
      rw [hw] at hp
      cases hp
    have hwake := hne .wake (by decide) hw
    obtain ⟨acts, s', tr, _, hr, hlost⟩ := comes_lost (s := { s₁.goto w .user with
        queue := s₁.queue.wakeUp
        asked := update s₁.asked w fun _ => false
        served := fun u => s₁.served u || s₁.asked w u }) (t := u) (w := p)
      (show (0 : Int) ≠ 1 by decide)
      ((update_of_ne huw _ _).trans (hne _ (by simp) hp)) (by simp [hs₁, State.goto, hu])
    have hstep : taskStep s₁ w = some ({ s₁.goto w .user with
        queue := s₁.queue.wakeUp
        asked := update s₁.asked w fun _ => false
        served := fun u => s₁.served u || s₁.asked w u }, [⟨w, 0⟩]) := by
      simp only [taskStep, hwake]
    have hrun : driver.run s₁ (.step w :: acts) = some (s', [⟨w, 0⟩] ++ tr) :=
      (driver.run_cons_eq_some _ _ _ _ _).mpr ⟨_, [⟨w, 0⟩], tr, hstep, hr, rfl⟩
    exact hfirst hrun hlost
  · -- somebody is on its way to the test of the flag
    push Not at hserved
    obtain ⟨u, hu⟩ := hserved
    obtain ⟨p, hp⟩ := inv.waits u (eq_true_of_ne_false hu)
    obtain ⟨acts, s', tr, _, hr, hlost⟩ := comes_lost (s := s₁)
      (show (0 : Int) ≠ 1 by decide) (hne _ (by simp) hp) (eq_true_of_ne_false hu)
    exact hfirst hr hlost

/-- **Wakeups.** Any tasks, any interleaving of their ioctls, in which `state = 0` is executed only
    when no task found asleep by an `IOCTL_WAKEUP` is still to return and no such `IOCTL_WAKEUP` is
    between `state = 1` and `wake_up`: no task sleeps on after its wakeup, and each one returns by
    its own steps. The first `state = 0` at another moment can lose a wakeup. -/
theorem wakeups_not_lost (acts : List (Act ι)) (s : State ι) (tr : List (Return ι))
    (hr : driver.run initState acts = some (s, tr))
    (halong : driver.Along Undisturbed initState acts) :
    (∀ t, ¬Lost s t) ∧
    (∀ t, s.served t = true → Comes t (fun s' => s'.pc t = .user) s) ∧
    (∀ t, s.pc t = .clear → ¬Quiet s →
      ∃ acts' s' tr' u, driver.run s (.step t :: acts') = some (s', tr') ∧ Lost s' u) := by
  have inv : Served s := driver.run_induct_along Undisturbed (fun s _ => Served s)
    (fun _ _ _ _ _ hP inv h => served_of_step hP inv h) acts initState [] s tr halong
    served_initState hr
  refine ⟨fun t hlost => ?_, fun t ht => ?_, fun t ht hdisturbed => inv.lost_of_clear ht hdisturbed⟩
  · obtain ⟨hserved, hasleep⟩ := hlost
    rw [asleep, Bool.and_eq_true, decide_eq_true_eq, decide_eq_true_eq] at hasleep
    exact hasleep.2 (inv.awake t hserved hasleep.1)
  · obtain ⟨w, hw⟩ := inv.waits t ht
    refine comes_user (inv.flag t ht) hw ?_
    rintro rfl
    exact inv.awake t ht hw

end Runs

/-- Task 0 sleeps and task 1 wakes it. -/
def wokenRun : List (Act (Fin 3)) :=
  [.ioctl 0 .sleep, .step 0, .step 0, .step 0, .ioctl 1 .wakeup, .step 1, .step 1]

instance (s : State (Fin 3)) (a : Act (Fin 3)) : Decidable (Undisturbed s a) :=
  match a with
  | .ioctl _ _ => inferInstanceAs (Decidable True)
  | .step t => inferInstanceAs (Decidable (s.pc t = .clear → (∀ u, s.served u = false) ∧
      ∀ w, s.pc w = .wake → ∀ u, s.asked w u = false))

theorem wakeups_not_lost_wokenRun :
    ∃ s tr, driver.run initState wokenRun = some (s, tr) ∧
      (s.served 0 = true ∧ s.pc 0 = .wait .sleep) ∧
      ¬Lost s 0 ∧ Comes 0 (fun s' => s'.pc 0 = .user) s := by
  obtain ⟨s, tr, hr, hs⟩ := driver.exists_of_check initState wokenRun
    (fun s _ => s.served 0 = true ∧ s.pc 0 = .wait .sleep) (by decide +kernel)
  have halong := driver.along_of_check (fun s a => decide (Undisturbed s a)) wokenRun initState
    (by decide +kernel)
  simp only [decide_eq_true_eq] at halong
  obtain ⟨hlost, hcomes, _⟩ := wakeups_not_lost wokenRun s tr hr halong
  exact ⟨s, tr, hr, hs, hlost 0, hcomes 0 hs.1⟩

/-- Before task 0 runs again, task 2 calls `IOCTL_SLEEP` and clears the flag: task 0 goes back to
    sleep, and nobody will wake it for the wakeup it was found asleep by. -/
theorem cleared_flag_loses_wakeup :
    ∃ s tr, driver.run initState (wokenRun ++
        [.ioctl 2 .sleep, .step 2, .step 0, .step 0, .step 0]) = some (s, tr) ∧
      (s.served 0 = true ∧ asleep s 0 = true) := by
  exact driver.exists_of_check initState _ (fun s _ => s.served 0 = true ∧ asleep s 0 = true)
    (by decide +kernel)

end DemosOsLinux.SleepWakeup
