/-
  The restart watchdog (`exercises/c/watchdog/watchdog.c`).

  `main` forks a child and waits in pause(2). The `SIGCHLD` handler reaps the child and sets
  `fork_again` if a signal killed it; `main` tests `fork_again` when pause(2) has returned. The
  signal is not blocked anywhere, so the handler can run between any two steps of `main` and
  `fork_a_child`. Three of the gaps lose a child:
  * between fork(2) and the assignment of `child_pid`: waitpid(2) is called with the old value (0
    or -1, any child) and the check of its result fails;
  * between the assignment and `fork_again=false`: the assignment clears the handler's `true`;
  * between `fork_again=false` and pause(2): pause(2) blocks, and no signal is left to end it.
  The run is the interleaving: a step of the parent, the end of a child, the delivery of the signal.
  * `Watches`: what holds as long as every delivery is timely; `Lost`: what one untimely delivery
    leaves for ever.
  * `restarts_iff_timely`: the parent can go on without a failed check and without blocking on a
    killed child if and only if every delivery was timely.
-/
import DemosOsLinux.Lib.Machine
import DemosOsLinux.Lib.Processes

namespace DemosOsLinux.ForkWatchdog

open Lib

/-- The next step of the parent. -/
inductive Pc where
  | fork
  | assign (pid : Int)
  | ifChild
  | clear
  | execv
  | loop
  | paused
  | check (ret : Int) (eintr : Bool)
  | ifAgain
  deriving DecidableEq

/-- The check that ended the parent; `uninitialized` is the handler's use of a `status` that
    waitpid(2) has not written. -/
inductive Failure where
  | checkNotM1
  | checkAssert
  | uninitialized
  deriving DecidableEq

structure State where
  pc : Pc
  forkAgain : Bool
  childPid : Int
  procs : List Proc
  /-- A `SIGCHLD` is pending. -/
  pending : Bool
  failed : Option Failure

inductive Act where
  | main
  | die (pid : Int) (c : Cause)
  | sigchld

def initState : State := ⟨.fork, false, 0, [], false, none⟩

/-- The `SIGCHLD` handler. -/
def handler (s : State) : State :=
  match waitpid s.procs s.childPid with
  | .echild => { s with failed := some .checkNotM1 }
  | .none =>
      -- waitpid(2) returned 0
      { s with failed := some (if s.childPid = 0 then .uninitialized else .checkAssert) }
  | .child childThatDied status t =>
      if childThatDied = s.childPid then
        { s with
          procs := t
          childPid := -1
          forkAgain := if status = .signaled then true else s.forkAgain }
      else { s with procs := t, failed := some .checkAssert }

/-- `main` and `fork_a_child`, one step; `none` when the parent is blocked in pause(2). -/
def mainStep (s : State) : Option State :=
  match s.pc with
  | .fork => some { s with procs := (fork s.procs).1, pc := .assign (fork s.procs).2 }
  | .assign pid => some { s with childPid := pid, pc := .ifChild }
  | .ifChild => some { s with pc := if s.childPid ≠ 0 then .clear else .execv }
  | .clear => some { s with forkAgain := false, pc := .loop }
  | .execv => none
  | .loop => some { s with pc := .paused }
  | .paused => none
  | .check ret eintr =>
      if ret = -1 ∧ eintr = true then some { s with pc := .ifAgain }
      else some { s with failed := some .checkAssert }
  | .ifAgain => some { s with pc := if s.forkAgain then .fork else .loop }

/-- pause(2) returns -1 with `EINTR` after a handler has run. -/
def Pc.interrupted : Pc → Pc
  | .paused => .check (-1) true
  | pc => pc

def step (s : State) (a : Act) : Option (State × List Empty) :=
  if s.failed.isSome then none
  else
    match a with
    | .main => (mainStep s).map fun s' => (s', [])
    | .die pid c => (die s.procs pid c).map fun t => ({ s with procs := t, pending := true }, [])
    | .sigchld =>
        if s.pending then some (handler { s with pending := false, pc := s.pc.interrupted }, [])
        else none

def machine : Machine State Act Empty := ⟨step⟩

/-- A signal killed this child. -/
def killed : Proc → Bool
  | .zombie .signaled | .reaped .signaled => true
  | _ => false

/-- The parent is blocked in pause(2), no child is live, no `SIGCHLD` is pending and a signal killed
    the last child. -/
def stuck (s : State) : Bool :=
  s.pc = .paused && !s.procs.any Proc.isLive && !s.pending && s.procs.getLast?.any killed

def Safe (s : State) : Prop := s.failed = none ∧ stuck s = false

/-- The `SIGCHLD` of a killed child is delivered in pause(2); that of a child that exited anywhere
    but between fork(2) and the assignment of its pid. -/
def timely (s : State) : Act → Bool
  | .sigchld =>
      match s.pc with
      | .paused => true
      | .assign _ => false
      | _ => s.procs.getLast? = some (.zombie .exited)
  | _ => true

/-! ## One step -/

/-- The parent has assigned the pid and has not left pause(2) since; from `fork_again=false` on the
    flag is false. -/
inductive Waiting : Pc → Bool → Prop
  | ifChild (fa : Bool) : Waiting .ifChild fa
  | clear (fa : Bool) : Waiting .clear fa
  | loop : Waiting .loop false
  | paused : Waiting .paused false

/-- All children but the last are reaped, and a `SIGCHLD` is pending if and only if the last one is a
    zombie. -/
inductive Watches : State → Prop
  | fork (fa : Bool) (k : Int) (t : List Proc) (hk : k = 0 ∨ k = -1) (ht : Settled t) :
      Watches ⟨.fork, fa, k, t, false, none⟩
  | assign (fa : Bool) (k : Int) (t : List Proc) (p : Proc) (hk : k = 0 ∨ k = -1)
      (ht : Settled t) (hp : ∀ c, p ≠ .reaped c) :
      Watches ⟨.assign (t.length + 1), fa, k, t ++ [p], p.isZombie, none⟩
  | child (pc : Pc) (fa : Bool) (t : List Proc) (p : Proc) (hpc : Waiting pc fa)
      (ht : Settled t) (hp : ∀ c, p ≠ .reaped c) :
      Watches ⟨pc, fa, t.length + 1, t ++ [p], p.isZombie, none⟩
  | exited (pc : Pc) (fa : Bool) (t : List Proc) (hpc : Waiting pc fa) (ht : Settled t) :
      Watches ⟨pc, fa, -1, t ++ [.reaped .exited], false, none⟩
  | check (t : List Proc) (c : Cause) (ht : Settled t) :
      Watches ⟨.check (-1) true, c = .signaled, -1, t ++ [.reaped c], false, none⟩
  | ifAgain (t : List Proc) (c : Cause) (ht : Settled t) :
      Watches ⟨.ifAgain, c = .signaled, -1, t ++ [.reaped c], false, none⟩

/-- A check has failed, or the parent is on its way into pause(2) and will not learn that its child
    was killed. -/
inductive Lost : State → Prop
  | failed (s : State) (h : s.failed.isSome = true) : Lost s
  | killed (pc : Pc) (fa fa' : Bool) (t : List Proc) (hpc : Waiting pc fa') (ht : Settled t) :
      Lost ⟨pc, fa, -1, t ++ [.reaped .signaled], false, none⟩

section Step

variable {s s' : State} {a : Act} {es : List Empty} {pc : Pc} {fa : Bool} {t : List Proc}

/-- What one step can do. -/
inductive Steps (s : State) : Act → State → Prop
  | main (s' : State) (h : mainStep s = some s') : Steps s .main s'
  | die (pid : Int) (c : Cause) (t : List Proc) (h : Lib.die s.procs pid c = some t) :
      Steps s (.die pid c) { s with procs := t, pending := true }
  | sigchld (h : s.pending = true) :
      Steps s .sigchld (handler { s with pending := false, pc := s.pc.interrupted })

theorem steps_of_step (h : machine.step s a = some (s', es)) :
    s.failed.isSome = false ∧ Steps s a s' := by
  simp only [machine, step] at h
  split at h
  · cases h
  · rename_i hf
    refine ⟨Bool.eq_false_iff.mpr hf, ?_⟩
    cases a with
    | main =>
      obtain ⟨s₁, hs₁, he⟩ := Option.map_eq_some_iff.mp h
      cases he
      exact .main s' hs₁
    | die pid c =>
      obtain ⟨t, ht, he⟩ := Option.map_eq_some_iff.mp h
      cases he
      exact .die pid c t ht
    | sigchld =>
      simp only at h
      split at h
      · cases h
        exact .sigchld (by assumption)
      · cases h

/-- `child_pid` is the pid of the zombie. -/
theorem handler_child (t : List Proc) (c : Cause) :
    handler ⟨pc, fa, t.length + 1, t ++ [.zombie c], false, none⟩ =
      ⟨pc, if c = .signaled then true else fa, -1, t ++ [.reaped c], false, none⟩ := by
  rw [handler, waitpid_last]
  simp only [if_true]

/-- `child_pid` is still 0 or -1: any child is reaped, and the check of its pid fails. -/
theorem handler_any {k : Int} (hk : k = 0 ∨ k = -1) (ht : Settled t) (c : Cause) :
    (handler ⟨pc, fa, k, t ++ [.zombie c], false, none⟩).failed = some .checkAssert := by
  have hne : ((t.length : Int) + 1) ≠ k := by omega
  rw [handler, waitpid, if_pos hk, wait3_last ht]
  simp only [if_neg hne]

/-- On its way into pause(2) the parent touches `fork_again` only, and leaves it false. `fa` is its
    value, `fa₀` the one that `Waiting` expects. -/
theorem Waiting.main {fa₀ b : Bool} {k : Int} (hpc : Waiting pc fa₀) (hk : k ≠ 0)
    (h : mainStep ⟨pc, fa, k, t, b, none⟩ = some s') :
    ∃ pc' fa' fa₁, s' = ⟨pc', fa', k, t, b, none⟩ ∧ Waiting pc' fa₁ ∧ (fa = fa₀ → fa' = fa₁) := by
  cases hpc with
  | ifChild =>
    simp only [mainStep, if_pos hk] at h
    cases h
    exact ⟨.clear, fa, fa₀, rfl, .clear fa₀, id⟩
  | clear =>
    cases h
    exact ⟨.loop, false, false, rfl, .loop, fun _ => rfl⟩
  | loop =>
    cases h
    exact ⟨.paused, fa, false, rfl, .paused, id⟩
  | paused => cases h

/-- The step of the parent. -/
theorem watches_main (hw : Watches s) (h : mainStep s = some s') : Watches s' := by
  cases hw with
  | fork fa k t hk ht =>
    cases h
    exact .assign fa k t .live hk ht (by simp)
  | assign fa k t p hk ht hp =>
    cases h
    exact .child .ifChild fa t p (.ifChild fa) ht hp
  | child pc fa t p hpc ht hp =>
    obtain ⟨pc', fa', _, rfl, hpc', he⟩ := hpc.main (by omega) h
    obtain rfl := he rfl
    exact .child pc' fa' t p hpc' ht hp
  | exited pc fa t hpc ht =>
    obtain ⟨pc', fa', _, rfl, hpc', he⟩ := hpc.main (by omega) h
    obtain rfl := he rfl
    exact .exited pc' fa' t hpc' ht
  | check t c ht =>
    cases h
    exact .ifAgain t c ht
  | ifAgain t c ht =>
    cases h
    cases c with
    | signaled => exact .fork true (-1) _ (Or.inr rfl) (settled_append ht .signaled)
    | exited => exact .exited .loop false t .loop ht

/-- The end of the child. -/
theorem watches_die {pid : Int} {c : Cause} {t' : List Proc} (hw : Watches s)
    (h : Lib.die s.procs pid c = some t') : Watches { s with procs := t', pending := true } := by
  cases hw with
  | fork fa k t hk ht =>
    rw [die_settled ht] at h
    cases h
  | assign fa k t p hk ht hp =>
    obtain ⟨rfl, rfl⟩ := die_last ht h
    exact .assign fa k t (.zombie c) hk ht (by simp)
  | child pc fa t p hpc ht hp =>
    obtain ⟨rfl, rfl⟩ := die_last ht h
    exact .child pc fa t (.zombie c) hpc ht (by simp)
  | exited pc fa t hpc ht =>
    rw [die_settled (settled_append ht _)] at h
    cases h
  | check t c ht =>
    rw [die_settled (settled_append ht _)] at h
    cases h
  | ifAgain t c ht =>
    rw [die_settled (settled_append ht _)] at h
    cases h

/-- Before pause(2) blocks, only the signal of a child that exited is timely. -/
theorem timely_before_pause {b : Bool} {k : Int} {c : Cause} (hpc : Waiting pc fa)
    (h : pc ≠ .paused) :
    pc.interrupted = pc ∧
      timely ⟨pc, fa, k, t ++ [.zombie c], b, none⟩ .sigchld = decide (c = .exited) := by
  cases hpc with
  | paused => exact absurd rfl h
  | _ =>
    refine ⟨rfl, ?_⟩
    simp only [timely, List.getLast?_concat, Option.some.injEq, Proc.zombie.injEq]

/-- The delivery of the `SIGCHLD` when the pid is assigned. -/
theorem deliver_child (hpc : Waiting pc fa) (ht : Settled t) (c : Cause) :
    (timely ⟨pc, fa, t.length + 1, t ++ [.zombie c], true, none⟩ .sigchld = true ∧
      Watches (handler ⟨pc.interrupted, fa, t.length + 1, t ++ [.zombie c], false, none⟩)) ∨
    (timely ⟨pc, fa, t.length + 1, t ++ [.zombie c], true, none⟩ .sigchld = false ∧
      Lost (handler ⟨pc.interrupted, fa, t.length + 1, t ++ [.zombie c], false, none⟩)) := by
  rw [handler_child]
  by_cases hp : pc = .paused
  · subst hp
    cases hpc
    left
    refine ⟨rfl, ?_⟩
    cases c with
    | exited => exact .check t .exited ht
    | signaled => exact .check t .signaled ht
  · obtain ⟨hint, htimely⟩ := timely_before_pause hpc hp
    rw [hint, htimely]
    cases c with
    | exited => exact Or.inl ⟨rfl, .exited pc fa t hpc ht⟩
    | signaled => exact Or.inr ⟨rfl, .killed pc true fa t hpc ht⟩

/-- The delivery of the `SIGCHLD`. -/
theorem deliver (hw : Watches s) (h : s.pending = true) :
    (timely s .sigchld = true ∧
      Watches (handler { s with pending := false, pc := s.pc.interrupted })) ∨
    (timely s .sigchld = false ∧
      Lost (handler { s with pending := false, pc := s.pc.interrupted })) := by
  cases hw with
  | fork fa k t hk ht => cases h
  | assign fa k t p hk ht hp =>
    cases p with
    | live => cases h
    | reaped c => exact absurd rfl (hp c)
    | zombie c =>
      right
      refine ⟨rfl, .failed _ ?_⟩
      simp only [Pc.interrupted]
      rw [handler_any hk ht]
      rfl
  | child pc fa t p hpc ht hp =>
    cases p with
    | live => cases h
    | reaped c => exact absurd rfl (hp c)
    | zombie c => exact deliver_child hpc ht c
  | exited pc fa t hpc ht => cases h
  | check t c ht => cases h
  | ifAgain t c ht => cases h

/-- A timely step keeps watch over the child; an untimely one loses it. -/
theorem watches_or_lost (hw : Watches s) (h : Steps s a s') :
    (timely s a = true ∧ Watches s') ∨ (timely s a = false ∧ Lost s') := by
  cases h with
  | main s' h => exact Or.inl ⟨rfl, watches_main hw h⟩
  | die pid c t h => exact Or.inl ⟨rfl, watches_die hw h⟩
  | sigchld h => exact deliver hw h

theorem watches_of_timely (hw : Watches s) (hs : machine.step s a = some (s', es))
    (ht : timely s a = true) : Watches s' := by
  rcases watches_or_lost hw (steps_of_step hs).2 with ⟨_, hw'⟩ | ⟨hf, _⟩
  · exact hw'
  · rw [ht] at hf
    cases hf

theorem lost_of_not_timely (hw : Watches s) (hs : machine.step s a = some (s', es))
    (ht : ¬timely s a = true) : Lost s' := by
  rcases watches_or_lost hw (steps_of_step hs).2 with ⟨h, _⟩ | ⟨_, hl⟩
  · exact absurd h ht
  · exact hl

/-- A lost child stays lost. -/
theorem lost_of_step (hl : Lost s) (hs : machine.step s a = some (s', es)) : Lost s' := by
  obtain ⟨hf, h⟩ := steps_of_step hs
  cases hl with
  | failed s hs =>
    rw [hf] at hs
    cases hs
  | killed pc fa fa' t hpc ht =>
    cases h with
    | main s' h =>
      obtain ⟨pc', fa₁, fa₂, rfl, hpc', _⟩ := hpc.main (by omega) h
      exact .killed pc' fa₁ fa₂ t hpc' ht
    | die pid c t' h =>
      rw [die_settled (settled_append ht _)] at h
      cases h
    | sigchld h => cases h

end Step

/-! ## All runs -/

theorem watches_init : Watches initState :=
  .fork false 0 [] (Or.inl rfl) fun p hp => by cases hp

theorem safe_of_watches {s : State} (hw : Watches s) : Safe s := by
  cases hw with
  | child pc fa t p hpc ht hp =>
    refine ⟨rfl, ?_⟩
    cases p with
    | live => simp [stuck, Proc.isLive]
    | zombie c => simp [stuck, Proc.isZombie]
    | reaped c => exact absurd rfl (hp c)
  | exited pc fa t hpc ht =>
    refine ⟨rfl, ?_⟩
    simp [stuck, killed]
  | _ => exact ⟨rfl, rfl⟩

/-- The parent walks into pause(2) and stays there. -/
theorem not_safe_of_lost {s : State} (hl : Lost s) :
    ∃ n s' tr, machine.run s (List.replicate n .main) = some (s', tr) ∧ ¬Safe s' := by
  cases hl with
  | failed s h =>
    refine ⟨0, s, [], rfl, fun hs => ?_⟩
    rw [hs.1] at h
    cases h
  | killed pc fa fa' t hpc ht =>
    have hstuck (fa : Bool) : ¬Safe ⟨.paused, fa, -1, t ++ [.reaped .signaled], false, none⟩ := by
      rintro ⟨_, h⟩
      have hlive := any_isLive_settled (settled_append ht .signaled)
      simp [stuck, hlive, killed] at h
    cases hpc with
    | ifChild => exact ⟨3, _, _, rfl, hstuck false⟩
    | clear => exact ⟨2, _, _, rfl, hstuck false⟩
    | loop => exact ⟨1, _, _, rfl, hstuck fa⟩
    | paused => exact ⟨0, _, _, rfl, hstuck fa⟩

/-- **Restart.** In every run, with terminations of the child and deliveries of `SIGCHLD` between any
    two steps: every delivery was timely if and only if no check fails and the parent does not
    block on a killed child, now or after any further steps of its own. -/
theorem restarts_iff_timely (acts : List Act) (s : State) (tr : List Empty)
    (hr : machine.run initState acts = some (s, tr)) :
    machine.Along (fun s a => timely s a = true) initState acts ↔
      ∀ n s' tr', machine.run s (List.replicate n .main) = some (s', tr') → Safe s' := by
  symm
  refine machine.run_along_iff (fun s a => timely s a = true) (fun s _ => Watches s)
    (fun s _ => Lost s) (fun s _ a s₁ es hp hw hs => watches_of_timely hw hs hp)
    (fun s _ a s₁ es hp hw hs => lost_of_not_timely hw hs hp)
    (fun s _ a s₁ es hl hs => lost_of_step hl hs) watches_init hr ?_ ?_
  · intro hw n s' tr' hr'
    refine safe_of_watches (machine.run_inv (· = .main) Watches ?_ ?_ hw hr')
    · rintro s a s₁ es rfl hw hs
      exact watches_of_timely hw hs rfl
    · exact fun a ha => List.eq_of_mem_replicate ha
  · intro hl hsafe
    obtain ⟨n, s', tr', hr', hns⟩ := not_safe_of_lost hl
    exact absurd (hsafe n s' tr' hr') hns

/-- The first child is killed while the parent waits, and a second one is forked. -/
def replacedRun : List Act :=
  List.replicate 5 .main ++ [.die 1 .signaled, .sigchld] ++ List.replicate 7 .main

theorem restarts_iff_timely_replacedRun :
    ∃ s tr, machine.run initState replacedRun = some (s, tr) ∧
      s.procs = [.reaped .signaled, .live] ∧
      ∀ n s' tr', machine.run s (List.replicate n .main) = some (s', tr') → Safe s' := by
  obtain ⟨s, tr, hr, hu⟩ := machine.exists_of_check initState replacedRun
    (fun s _ => s.procs = [.reaped .signaled, .live]) (by decide +kernel)
  have htimely := machine.along_of_check timely replacedRun initState (by decide +kernel)
  exact ⟨s, tr, hr, hu, (restarts_iff_timely replacedRun s tr hr).mp htimely⟩

/-- The child is killed and its signal delivered after `n` steps of the parent, which then makes `m`
    more. -/
def killedRun (n m : Nat) : List Act :=
  List.replicate n .main ++ [.die 1 .signaled, .sigchld] ++ List.replicate m .main

/-- After fork(2), the check of the handler fails; after the assignment of `child_pid` or after
    `fork_again=false`, the parent blocks. -/
theorem killed_child_not_restarted :
    (∃ s tr, machine.run initState (killedRun 1 0) = some (s, tr) ∧
      s.failed = some .checkAssert) ∧
    (∃ s tr, machine.run initState (killedRun 2 3) = some (s, tr) ∧ stuck s = true) ∧
    (∃ s tr, machine.run initState (killedRun 4 1) = some (s, tr) ∧ stuck s = true) := by
  refine ⟨?_, ?_, ?_⟩
  · exact machine.exists_of_check _ _ (fun s _ => s.failed = some .checkAssert) (by decide +kernel)
  · exact machine.exists_of_check _ _ (fun s _ => stuck s = true) (by decide +kernel)
  · exact machine.exists_of_check _ _ (fun s _ => stuck s = true) (by decide +kernel)

end DemosOsLinux.ForkWatchdog
