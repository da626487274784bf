/-
  The watchdog and its children's ends, call by call.

  `main` registers its handlers, starts both children and pauses. A handler interrupts `main` or
  another handler anywhere (`sa_mask` is empty), but not the handler of the same signal. So there
  is a stack of handlers, the innermost one runs, and a step is one system call or one access to a
  variable; children terminate between any two steps. fork(2) and setitimer(2) succeed.

  A child that terminates is reaped by the `SIGCHLD` handler, and the watchdog starts it again only
  at a timeout, after a kill(2) of its old pid. So a timeout that finds a silent child reaped ends
  the watchdog, also if it is reaped while the timeout handler runs. And the loop of the `SIGCHLD`
  handler ends with a failed wait3(2) when no live child is left.
  * `needs`: the processes that the timeout handler, from where it is, kills or leaves in its
    variables.
  * `Inv`: these are not reaped; while the `SIGCHLD` handler runs a child is live, and if it has
    interrupted the timeout handler, these are live.
  * `Inv.step`: a step that is `safe` keeps it, and the watchdog survives it.
-/
import DemosOsLinux.Watchdog.Handlers

namespace DemosOsLinux.Watchdog.Children

open Lib Function

inductive Signal where
  | usr (i : Child)
  | alrm
  | chld
  deriving DecidableEq

/-- Within `watchsigHandler`. -/
inductive UsrAt where
  /-- Before `gotusr1=1` or `gotusr2=1`. -/
  | set
  /-- At `gotusr1` of the condition, then at `gotusr2`. -/
  | one
  | two
  | timer
  /-- Before `gotusr2=0`, then before `gotusr1=0`. -/
  | clearTwo
  | clearOne
  deriving DecidableEq

/-- Within `timeoutsigHandler`. -/
inductive AlrmAt where
  | test (i : Child)
  | kill (i : Child)
  | fork (i : Child)
  /-- Before fork's result goes to `child1pid` or `child2pid`. -/
  | assign (i : Child) (pid : Int)
  | ret
  deriving DecidableEq

/-- A handler that has been called; `sigchildHandler` is at its wait3(2). -/
inductive Frame where
  | usr (i : Child) (pc : UsrAt)
  | alrm (pc : AlrmAt)
  | chld
  deriving DecidableEq

def Frame.signal : Frame → Signal
  | .usr i _ => .usr i
  | .alrm _ => .alrm
  | .chld => .chld

/-- The handler that `main` registers for a signal, at its start. -/
def handler : Signal → Frame
  | .usr i => .usr i .set
  | .alrm => .alrm (.test .one)
  | .chld => .chld

/-- Within `main`, after `setitimer`. -/
inductive MainAt where
  | fork (i : Child)
  | assign (i : Child) (pid : Int)
  | pause

/-- A failed check, or `kill(0, SIGKILL)`: the watchdog is in its own process group. -/
inductive End where
  | failed (f : Failure)
  | killed
  deriving DecidableEq

/-- What a step of a handler comes to. -/
inductive Next where
  | go (d : Dog) (f : Frame)
  | ret (d : Dog)
  | ends (e : End)

def watchsigHandler (i : Child) (d : Dog) : UsrAt → Next
  | .set => .go { d with got := update d.got i true } (.usr i .one)
  | .one => if d.got .one then .go d (.usr i .two) else .ret d
  | .two => if d.got .two then .go d (.usr i .timer) else .ret d
  | .timer => .go d (.usr i .clearTwo)
  | .clearTwo => .go { d with got := update d.got .two false } (.usr i .clearOne)
  | .clearOne => .ret { d with got := update d.got .one false }

/-- After the `if` of a child. -/
def nextTest : Child → AlrmAt
  | .one => .test .two
  | .two => .ret

def timeoutsigHandler (d : Dog) : AlrmAt → Next
  | .test i => .go d (.alrm (if d.got i then nextTest i else .kill i))
  | .kill i =>
      if d.pid i = 0 then .ends .killed
      else if present d.procs (d.pid i) then .go d (.alrm (.fork i))
      else .ends (.failed .esrch)
  | .fork i => .go { d with procs := (fork d.procs).1 } (.alrm (.assign i (fork d.procs).2))
  | .assign i pid => .go { d with pid := update d.pid i pid } (.alrm (nextTest i))
  | .ret => .ret d

def sigchildHandler (d : Dog) : Next :=
  match wait3 d.procs with
  | .child _ _ t => .go { d with procs := t } .chld
  | .none => .ret d
  | .echild => .ends (.failed .echild)

def Frame.next (d : Dog) : Frame → Next
  | .usr i pc => watchsigHandler i d pc
  | .alrm pc => timeoutsigHandler d pc
  | .chld => sigchildHandler d

def main (d : Dog) : MainAt → Option (Dog × MainAt)
  | .fork i => some ({ d with procs := (fork d.procs).1 }, .assign i (fork d.procs).2)
  | .assign i pid => some ({ d with pid := update d.pid i pid },
      if i = .one then .fork .two else .pause)
  | .pause => none

structure State where
  dog : Dog
  main : MainAt
  /-- The innermost handler first. -/
  handlers : List Frame
  ended : Option End

inductive Act where
  /-- The innermost handler, or `main`. -/
  | run
  | deliver (g : Signal)
  /-- The child with this pid terminates. -/
  | die (pid : Int) (c : Cause)

def State.run (s : State) : Option State :=
  match s.handlers with
  | [] => (Children.main s.dog s.main).map fun r => { s with dog := r.1, main := r.2 }
  | f :: fs =>
      match f.next s.dog with
      | .go d f' => some { s with dog := d, handlers := f' :: fs }
      | .ret d => some { s with dog := d, handlers := fs }
      | .ends e => some { s with ended := some e }

def State.step (s : State) (a : Act) : Option State :=
  if s.ended.isSome then none
  else match a with
    | .run => s.run
    | .deliver g =>
        if g ∈ s.handlers.map Frame.signal then none
        else some { s with handlers := handler g :: s.handlers }
    | .die pid c =>
        (die s.dog.procs pid c).map fun t => { s with dog := { s.dog with procs := t } }

def watchdog : Machine State Act Event := ⟨fun s a => (s.step a).map fun s' => (s', [])⟩

def initState : State := ⟨⟨fun _ => false, fun _ => 0, []⟩, .fork .one, [], none⟩

/-- After this step the watchdog has not ended, and if the timeout handler has returned, neither
    child is reaped. -/
def Survives (s : State) (a : Act) : Prop :=
  ∀ s' es, watchdog.step s a = some (s', es) → s'.ended = none ∧
    (a = .run → s.handlers.head? = some (.alrm .ret) → ∀ i, s'.dog.has i = true)

/-! ## The condition -/

/-- The processes that the timeout handler has yet to kill, or leaves in `child1pid` and
    `child2pid`. -/
def needs (pid : Child → Int) : AlrmAt → List Int
  | .fork .one => [pid .two]
  | .fork .two => [pid .one]
  | .assign .one p => [p, pid .two]
  | .assign .two p => [pid .one, p]
  | _ => [pid .one, pid .two]

/-- Where the timeout handler is, if it has been called. -/
def timeoutIn : List Frame → Option AlrmAt
  | [] => none
  | .alrm pc :: _ => some pc
  | .usr _ _ :: fs => timeoutIn fs
  | .chld :: fs => timeoutIn fs

/-- Where the timeout handler is, if the `SIGCHLD` handler has interrupted it. -/
def interrupted : List Frame → Option AlrmAt
  | [] => none
  | .alrm _ :: _ => none
  | .usr _ _ :: fs => interrupted fs
  | .chld :: fs => timeoutIn fs

/-- `needs` of a timeout handler that may not be there. -/
def needed (pid : Child → Int) : Option AlrmAt → List Int
  | some pc => needs pid pc
  | none => []

/-- A `SIGALRM` finds neither child reaped; a `SIGCHLD` finds a live child, and what an interrupted
    timeout handler needs live; and while the `SIGCHLD` handler runs, neither the last live child
    terminates nor what a timeout handler interrupted by it needs. -/
def safe (s : State) : Act → Bool
  | .deliver .alrm => s.dog.has .one && s.dog.has .two
  | .deliver .chld => s.dog.procs.any Proc.isLive &&
      (needed s.dog.pid (timeoutIn s.handlers)).all fun p => proc s.dog.procs p = some .live
  | .die pid _ => (!s.handlers.contains .chld || decide (1 < s.dog.procs.countP Proc.isLive)) &&
      !(needed s.dog.pid (interrupted s.handlers)).contains pid
  | _ => true

/-! ## The handlers -/

section Frames

variable {fs : List Frame} {d d' : Dog} {f f' : Frame} {pc : AlrmAt} {i : Child}

theorem timeoutIn_eq_none (h : Signal.alrm ∉ fs.map Frame.signal) : timeoutIn fs = none := by
  induction fs with
  | nil => rfl
  | cons f fs ih =>
    rw [List.map_cons, List.mem_cons, not_or] at h
    cases f with
    | alrm pc => exact absurd rfl h.1
    | usr i pc => exact ih h.2
    | chld => exact ih h.2

/-- Only a `SIGCHLD` handler interrupts, and only a timeout handler is interrupted. -/
theorem interrupted_eq_none
    (h : Signal.chld ∉ fs.map Frame.signal ∨ Signal.alrm ∉ fs.map Frame.signal) :
    interrupted fs = none := by
  induction fs with
  | nil => rfl
  | cons f fs ih =>
    simp only [List.map_cons, List.mem_cons, not_or] at h
    cases f with
    | alrm pc => rfl
    | usr i pc => exact ih (h.imp And.right And.right)
    | chld => exact timeoutIn_eq_none (h.resolve_left fun h => h.1 rfl).2

theorem watchsigHandler_spec (i : Child) (d : Dog) (pc : UsrAt) : ∃ got,
    watchsigHandler i d pc = .ret { d with got := got } ∨
    ∃ pc', watchsigHandler i d pc = .go { d with got := got } (.usr i pc') := by
  cases pc with
  | set => exact ⟨_, Or.inr ⟨_, rfl⟩⟩
  | one =>
    refine ⟨d.got, ?_⟩
    unfold watchsigHandler
    cases d.got .one with
    | true => exact Or.inr ⟨_, rfl⟩
    | false => exact Or.inl rfl
  | two =>
    refine ⟨d.got, ?_⟩
    unfold watchsigHandler
    cases d.got .two with
    | true => exact Or.inr ⟨_, rfl⟩
    | false => exact Or.inl rfl
  | timer => exact ⟨_, Or.inr ⟨_, rfl⟩⟩
  | clearTwo => exact ⟨_, Or.inr ⟨_, rfl⟩⟩
  | clearOne => exact ⟨_, Or.inl rfl⟩

/-- The timeout handler with both children there goes on, and has what it needs again. -/
theorem timeoutsigHandler_spec (hpc : pc ≠ .ret)
    (h : ∀ p ∈ needs d.pid pc, present d.procs p = true) :
    ∃ d' pc', timeoutsigHandler d pc = .go d' (.alrm pc') ∧
      (∀ p ∈ needs d'.pid pc', present d'.procs p = true) ∧
      (d.procs.any Proc.isLive = true → d'.procs.any Proc.isLive = true) := by
  cases pc with
  | test i =>
    refine ⟨d, _, rfl, ?_, id⟩
    cases i <;> cases d.got _ <;> exact h
  | kill i =>
    have hboth : present d.procs (d.pid .one) = true ∧ present d.procs (d.pid .two) = true := by
      simpa [needs] using h
    have hi : present d.procs (d.pid i) = true := by
      cases i
      · exact hboth.1
      · exact hboth.2
    have hne : d.pid i ≠ 0 := fun h0 => Int.lt_irrefl 0 (h0 ▸ pos_of_present hi)
    refine ⟨d, .fork i, by rw [timeoutsigHandler, if_neg hne, if_pos hi], ?_, id⟩
    cases i <;> simp [needs, hboth]
  | fork i =>
    refine ⟨_, _, rfl, ?_, fun _ => any_isLive_fork d.procs⟩
    cases i <;> simp only [needs, List.forall_mem_cons] at h ⊢
    · exact ⟨present_fork_new d.procs, present_fork h.1, nofun⟩
    · exact ⟨present_fork h.1, present_fork_new d.procs, nofun⟩
  | assign i p =>
    refine ⟨_, _, rfl, ?_, id⟩
    cases i <;> simpa [needs, nextTest] using h
  | ret => exact absurd rfl hpc

/-- The `SIGCHLD` handler with a live child. -/
theorem sigchildHandler_spec (h : d.procs.any Proc.isLive = true) :
    sigchildHandler d = .ret d ∨
    ∃ t, sigchildHandler d = .go { d with procs := t } .chld ∧ t.any Proc.isLive = true ∧
      ∀ p, proc d.procs p = some .live → proc t p = some .live := by
  unfold sigchildHandler
  cases hw : wait3 d.procs with
  | child pid c t =>
    obtain ⟨hmap, hlive⟩ := wait3_child hw
    exact Or.inr ⟨t, rfl, hlive.trans h, fun p => proc_live_of_map_reap hmap⟩
  | none => exact Or.inl rfl
  | echild =>
    rw [wait3_echild hw] at h
    cases h

end Frames

/-! ## One step -/

structure Inv (s : State) : Prop where
  nodup : (s.handlers.map Frame.signal).Nodup
  unreaped : ∀ p ∈ needed s.dog.pid (timeoutIn s.handlers), present s.dog.procs p = true
  live : Frame.chld ∈ s.handlers → s.dog.procs.any Proc.isLive = true
  inner : ∀ p ∈ needed s.dog.pid (interrupted s.handlers), proc s.dog.procs p = some .live

section Step

variable {s s' : State} {a : Act}

theorem Inv.run (inv : Inv s) (hs : s.run = some s') (hended : s.ended = none) :
    Inv s' ∧ s'.ended = none ∧
      (s.handlers.head? = some (.alrm .ret) → ∀ i, s'.dog.has i = true) := by
  obtain ⟨dog, pc, handlers, ended⟩ := s
  obtain ⟨nodup, unreaped, live, inner⟩ := inv
  dsimp only at nodup unreaped live inner hended ⊢
  unfold State.run at hs
  cases handlers with
  | nil =>
    obtain ⟨r, -, rfl⟩ := Option.map_eq_some_iff.mp hs
    exact ⟨⟨List.nodup_nil, nofun, nofun, nofun⟩, hended, nofun⟩
  | cons f fs =>
    rw [List.map_cons, List.nodup_cons] at nodup
    cases f with
    | usr i pc =>
      obtain ⟨got, hret | ⟨pc', hgo⟩⟩ := watchsigHandler_spec i dog pc
      · simp only [Frame.next, hret, Option.some.injEq] at hs
        subst hs
        exact ⟨⟨nodup.2, unreaped, fun h => live (List.mem_cons_of_mem _ h), inner⟩, hended, nofun⟩
      · simp only [Frame.next, hgo, Option.some.injEq] at hs
        subst hs
        refine ⟨⟨List.nodup_cons.mpr nodup, unreaped, fun h => live ?_, inner⟩, hended, nofun⟩
        exact List.mem_cons_of_mem _ (List.mem_of_ne_of_mem (y := .usr i pc') nofun h)
    | alrm pc =>
      have hnone : Signal.alrm ∉ fs.map Frame.signal := nodup.1
      by_cases hpc : pc = .ret
      · subst hpc
        obtain rfl : _ = s' := Option.some.inj hs
        refine ⟨⟨nodup.2, ?_, fun h => live (List.mem_cons_of_mem _ h), ?_⟩, hended, fun _ i => ?_⟩
        · rw [timeoutIn_eq_none hnone]
          nofun
        · rw [interrupted_eq_none (Or.inr hnone)]
          nofun
        · refine unreaped (dog.pid i) ?_
          cases i <;> simp [timeoutIn, needed, needs]
      · obtain ⟨d', pc', hgo, hneeds, hlive⟩ := timeoutsigHandler_spec hpc unreaped
        simp only [Frame.next, hgo, Option.some.injEq] at hs
        subst hs
        refine ⟨⟨List.nodup_cons.mpr nodup, hneeds, fun h => hlive (live ?_), nofun⟩, hended, ?_⟩
        · exact List.mem_cons_of_mem _ (List.mem_of_ne_of_mem (y := .alrm pc') nofun h)
        · exact fun h => absurd (Frame.alrm.inj (Option.some.inj h)) hpc
    | chld =>
      rcases sigchildHandler_spec (live List.mem_cons_self) with hret | ⟨t, hgo, hlive, hkeep⟩
      · simp only [Frame.next, hret, Option.some.injEq] at hs
        subst hs
        refine ⟨⟨nodup.2, unreaped, fun h => live (List.mem_cons_of_mem _ h), ?_⟩, hended, nofun⟩
        rw [interrupted_eq_none (Or.inl nodup.1)]
        nofun
      · simp only [Frame.next, hgo, Option.some.injEq] at hs
        subst hs
        refine ⟨⟨List.nodup_cons.mpr nodup, fun p hp => ?_, fun _ => hlive, fun p hp => ?_⟩, hended,
          nofun⟩
        · exact present_of_proc_live (hkeep p (inner p hp))
        · exact hkeep p (inner p hp)

theorem Inv.deliver (inv : Inv s) {g : Signal} (hsafe : safe s (.deliver g) = true)
    (hnew : g ∉ s.handlers.map Frame.signal) :
    Inv { s with handlers := handler g :: s.handlers } := by
  have hnodup : ((handler g :: s.handlers).map Frame.signal).Nodup := by
    rw [List.map_cons, List.nodup_cons]
    exact ⟨by cases g <;> exact hnew, inv.nodup⟩
  cases g with
  | usr i =>
    refine ⟨hnodup, inv.unreaped, fun h => inv.live ?_, inv.inner⟩
    exact List.mem_of_ne_of_mem (y := .usr i .set) nofun h
  | alrm =>
    obtain ⟨hone, htwo⟩ := Bool.and_eq_true_iff.mp hsafe
    refine ⟨hnodup, ?_, fun h => inv.live ?_, nofun⟩
    · simp only [handler, timeoutIn, needed, needs, List.forall_mem_cons]
      exact ⟨hone, htwo, nofun⟩
    · exact List.mem_of_ne_of_mem (y := .alrm (.test .one)) nofun h
  | chld =>
    obtain ⟨hlive, hneeds⟩ := Bool.and_eq_true_iff.mp hsafe
    exact ⟨hnodup, inv.unreaped, fun _ => hlive,
      fun p hp => of_decide_eq_true (List.all_eq_true.mp hneeds p hp)⟩

theorem Inv.die (inv : Inv s) {pid : Int} {c : Cause} {t : List Proc}
    (hsafe : safe s (.die pid c) = true) (hdie : Lib.die s.dog.procs pid c = some t) :
    Inv { s with dog := { s.dog with procs := t } } := by
  obtain ⟨htwo, hneeds⟩ := Bool.and_eq_true_iff.mp hsafe
  refine ⟨inv.nodup, fun p hp => present_die hdie (inv.unreaped p hp), fun h => ?_, fun p hp => ?_⟩
  · refine any_isLive_die hdie ?_
    simpa [h] using htwo
  · have hne : p ≠ pid := by
      rintro rfl
      simp [hp] at hneeds
    rw [proc_die hdie, if_neg hne]
    exact inv.inner p hp

theorem Inv.step (inv : Inv s) (hsafe : safe s a = true) (hs : s.step a = some s') :
    Inv s' ∧ s'.ended = none ∧
      (a = .run → s.handlers.head? = some (.alrm .ret) → ∀ i, s'.dog.has i = true) := by
  unfold State.step at hs
  split at hs
  · cases hs
  · next hended =>
    have hended : s.ended = none := Option.not_isSome_iff_eq_none.mp hended
    cases a with
    | run =>
      obtain ⟨hinv, hnot, hret⟩ := inv.run hs hended
      exact ⟨hinv, hnot, fun _ => hret⟩
    | deliver g =>
      dsimp only at hs
      split at hs
      · cases hs
      · next hnew =>
        obtain rfl := Option.some.inj hs
        exact ⟨inv.deliver hsafe hnew, hended, nofun⟩
    | die pid c =>
      obtain ⟨t, hdie, rfl⟩ := Option.map_eq_some_iff.mp hs
      exact ⟨inv.die hsafe hdie, hended, nofun⟩

end Step

/-! ## All runs -/

/-- **Survival.** In every run of the watchdog, with any terminations of its children and any
    `SIGCHLD`, `SIGUSR1`, `SIGUSR2` and `SIGALRM` between any two of its steps, that meets `safe` at
    every step: after every step no check has failed, and when the timeout handler returns both pids
    name children that have not been reaped. -/
theorem watchdog_survives (acts : List Act)
    (hsafe : watchdog.Along (fun s a => safe s a = true) initState acts) :
    watchdog.Along Survives initState acts := by
  refine watchdog.along_imp Inv ?_ ?_ ⟨List.nodup_nil, nofun, nofun, nofun⟩ hsafe
  · intro s a s' es inv hsafe hs
    exact (inv.step hsafe (Machine.quiet_step hs).1).1
  · intro s a inv hsafe s' es hs
    exact (inv.step hsafe (Machine.quiet_step hs).1).2

/-- Both children are started; child 1 stays silent and is killed at the timeout; it is reaped while
    the timeout handler starts it again, and child 2 terminates before the handler returns. -/
def nestedRun : List Act :=
  [.run, .run, .run, .run, .deliver (.usr .two), .run, .run, .deliver .alrm, .run, .run,
    .die 1 .signaled, .deliver .chld, .run, .run, .run, .run, .die 2 .exited, .run, .run]

theorem watchdog_survives_nestedRun :
    ∃ s tr, watchdog.run initState nestedRun = some (s, tr) ∧
      s.dog.procs = [.reaped .signaled, .zombie .exited, .live] ∧ s.dog.pid .one = 3 ∧
      s.handlers = [] ∧ watchdog.Along Survives initState nestedRun := by
  obtain ⟨s, tr, hr, hprocs, hpid, hdone⟩ := watchdog.exists_of_check initState nestedRun
    (fun s _ => s.dog.procs = [.reaped .signaled, .zombie .exited, .live] ∧ s.dog.pid .one = 3 ∧
      s.handlers = []) (by decide +kernel)
  have hsafe := watchdog.along_of_check safe nestedRun initState (by decide +kernel)
  exact ⟨s, tr, hr, hprocs, hpid, hdone, watchdog_survives nestedRun hsafe⟩

/-- After the start of both children. Child 1 terminates and is reaped before the timeout: kill(2)
    fails. Both terminate before the `SIGCHLD`, or the second one while its handler runs: wait3(2)
    fails. Child 2 terminates and is reaped while the timeout handler restarts child 1: kill(2)
    fails. -/
theorem watchdog_ends :
    (∃ s tr, watchdog.run initState [.run, .run, .run, .run, .die 1 .signaled, .deliver .chld, .run,
      .run, .deliver .alrm, .run, .run] = some (s, tr) ∧ s.ended = some (.failed .esrch)) ∧
    (∃ s tr, watchdog.run initState [.run, .run, .run, .run, .die 1 .exited, .die 2 .exited,
      .deliver .chld, .run, .run, .run] = some (s, tr) ∧ s.ended = some (.failed .echild)) ∧
    (∃ s tr, watchdog.run initState [.run, .run, .run, .run, .die 1 .exited, .deliver .chld, .run,
      .die 2 .exited, .run, .run] = some (s, tr) ∧ s.ended = some (.failed .echild)) ∧
    (∃ s tr, watchdog.run initState [.run, .run, .run, .run, .deliver .alrm, .run, .run,
      .die 2 .exited, .deliver .chld, .run, .run, .run, .run, .run, .run] = some (s, tr) ∧
      s.ended = some (.failed .esrch)) := by
  refine ⟨?_, ?_, ?_, ?_⟩ <;>
    exact watchdog.exists_of_check _ _ (fun s _ => s.ended = some (.failed _)) (by decide +kernel)

end DemosOsLinux.Watchdog.Children
