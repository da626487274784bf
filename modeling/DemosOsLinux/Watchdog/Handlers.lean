/-
  The watchdog of two children (exercises/multi_processing/watchdog/solution.cc) and the one whose
  children share a pipe (exercises/pipe/pipe_watchdog/solution.cc).

  The handlers after `main` has started both children, each as one step; `Watchdog.Children` takes
  them apart. What the two programs do at a heartbeat, at a timeout and when a child terminates is
  the same, under other names: `heartbeat`, `timeout` and `reapChildren` are written once. `gotusr1`
  and `gotusr2` are `got` of the two children, `child1pid` and `child2pid` are `pid`.
  A check in a handler that fails ends the program (`State.ended`). The loop of `main` is left out.
  In the pipe watchdog it does not last: `CHECK_NOT_M1(sigsuspend(&emptyset))` ends the program when
  the first handler returns. What is said of later signals there is what its handlers would do.
  * `timeout_eq_ok`: what the timeout handler does when no silent child has been reaped.
-/
import Mathlib.Logic.Function.Basic
import DemosOsLinux.Lib.Machine
import DemosOsLinux.Lib.Processes

namespace DemosOsLinux.Watchdog

open Lib Function

inductive Child where
  | one
  | two
  deriving DecidableEq

/-- The check that failed: `CHECK_NOT_M1` of kill(2) or of wait3(2). -/
inductive Failure where
  | esrch
  | echild
  deriving DecidableEq

inductive Event where
  /-- `setitimer`. -/
  | timer
  /-- The child was killed and started again. -/
  | restarted (i : Child)
  deriving DecidableEq

/-- The variables of the watchdog, and its children. -/
structure Dog where
  got : Child → Bool
  pid : Child → Int
  procs : List Proc

/-- `watchsigHandler`, `sigUsrxHandler`: a heartbeat of child `i`. -/
def heartbeat (i : Child) (d : Dog) : Dog × List Event :=
  let got := update d.got i true
  if got .one && got .two then ({ d with got := fun _ => false }, [.timer])
  else ({ d with got := got }, [])

/-- `startChild1`, `startChild2`. -/
def startChild (i : Child) (d : Dog) : Dog :=
  { d with procs := (fork d.procs).1, pid := update d.pid i (fork d.procs).2 }

def startChild1 : Dog → Dog := startChild .one
def startChild2 : Dog → Dog := startChild .two

/-- `CHECK_NOT_M1(kill(pid, SIGKILL))`. The child terminates later, as any child may. -/
def kill (pid : Int) (d : Dog) : Except Failure Unit :=
  if present d.procs pid then .ok () else .error .esrch

/-- One `if` of the timeout handler. -/
def checkChild (i : Child) (start : Dog → Dog) (d : Dog) : Except Failure (Dog × List Event) :=
  if d.got i = false then do
    kill (d.pid i) d
    .ok (start d, [.restarted i])
  else .ok (d, [])

/-- `timeoutsigHandler`, `sigAlrmHandler`. -/
def timeout (d : Dog) : Except Failure (Dog × List Event) := do
  let r ← checkChild .one startChild1 d
  let q ← checkChild .two startChild2 r.1
  .ok (q.1, r.2 ++ q.2)

/-- `sigchildHandler`, `sigChildHandler`; there are at most as many turns as children, and one
    more. -/
def reapChildren (d : Dog) : Except Failure Dog :=
  match reapLoop (d.procs.length + 1) d.procs with
  | some t => .ok { d with procs := t }
  | none => .error .echild

def watchsigHandler : Child → Dog → Dog × List Event := heartbeat
def timeoutsigHandler : Dog → Except Failure (Dog × List Event) := timeout
def sigchildHandler : Dog → Except Failure Dog := reapChildren

def sigUsrxHandler : Child → Dog → Dog × List Event := heartbeat
def sigAlrmHandler : Dog → Except Failure (Dog × List Event) := timeout
def sigChildHandler : Dog → Except Failure Dog := reapChildren

/-- The handlers that a program registers. -/
structure Handlers where
  usr : Child → Dog → Dog × List Event
  alrm : Dog → Except Failure (Dog × List Event)
  chld : Dog → Except Failure Dog

inductive Exercise where
  | watchdog
  | pipeWatchdog

def handlers : Exercise → Handlers
  | .watchdog => ⟨watchsigHandler, timeoutsigHandler, sigchildHandler⟩
  | .pipeWatchdog => ⟨sigUsrxHandler, sigAlrmHandler, sigChildHandler⟩

/-- `ended` is the check that failed. -/
structure State where
  dog : Dog
  ended : Option Failure

inductive Act where
  | usr (i : Child)
  | alrm
  | chld
  /-- The child with this pid terminates. -/
  | die (pid : Int) (c : Cause)

def step (e : Exercise) (s : State) : Act → Option (State × List Event)
  | .usr i =>
      if s.ended.isSome then none
      else
        let r := (handlers e).usr i s.dog
        some (⟨r.1, none⟩, r.2)
  | .alrm =>
      if s.ended.isSome then none
      else
        match (handlers e).alrm s.dog with
        | .ok r => some (⟨r.1, none⟩, r.2)
        | .error f => some (⟨s.dog, some f⟩, [])
  | .chld =>
      if s.ended.isSome then none
      else
        match (handlers e).chld s.dog with
        | .ok d => some (⟨d, none⟩, [])
        | .error f => some (⟨s.dog, some f⟩, [])
  | .die pid c =>
      if s.ended.isSome then none
      else (die s.dog.procs pid c).map fun t => (⟨{ s.dog with procs := t }, none⟩, [])

def machine (e : Exercise) : Machine State Act Event := ⟨step e⟩

/-- `main` after both children have been started. -/
def initState : State :=
  ⟨startChild2 (startChild1 ⟨fun _ => false, fun _ => 0, []⟩), none⟩

/-! ## The handlers -/

/-- A heartbeat sets its flag, or completes the pair and resets both. -/
theorem heartbeat_dog (j : Child) (d : Dog) :
    (heartbeat j d).1 = { d with
      got := if update d.got j true .one && update d.got j true .two
        then fun _ => false else update d.got j true } := by
  simp only [heartbeat]
  cases update d.got j true .one && update d.got j true .two <;> rfl

/-- The child `i` has not been reaped. -/
def Dog.has (d : Dog) (i : Child) : Bool := present d.procs (d.pid i)

/-- Both pids are those of children in the table. -/
def Dog.Known (d : Dog) : Prop := ∀ i, ∃ p, proc d.procs (d.pid i) = some p

section Start

variable {d : Dog} {i j : Child}

theorem has_startChild_self : (startChild i d).has i = true := by
  rw [Dog.has, startChild]
  simp only [update_self]
  exact present_fork_new d.procs

theorem has_startChild_of_ne (hk : d.Known) (hne : j ≠ i) : (startChild i d).has j = d.has j := by
  obtain ⟨p, hp⟩ := hk j
  simp only [Dog.has, startChild, update_of_ne hne, present, proc_fork hp, hp]

theorem known_startChild (hk : d.Known) : (startChild i d).Known := by
  intro j
  by_cases e : j = i
  · refine ⟨.live, ?_⟩
    simp only [e, startChild, update_self]
    exact proc_fork_new d.procs
  · obtain ⟨p, hp⟩ := hk j
    refine ⟨p, ?_⟩
    simp only [startChild, update_of_ne e]
    exact proc_fork hp

end Start

/-- One `if` of the timeout handler: it fails if the silent child has been reaped. -/
theorem checkChild_eq (i : Child) (d : Dog) :
    checkChild i (startChild i) d =
      if d.got i = true then .ok (d, [])
      else if d.has i = true then .ok (startChild i d, [.restarted i]) else .error .esrch := by
  unfold checkChild kill Dog.has
  cases d.got i with
  | true => rfl
  | false => cases present d.procs (d.pid i) <;> rfl

/-- The children without a heartbeat, in the order in which the handler looks at them. -/
def Dog.silent (d : Dog) : List Child := [.one, .two].filter fun i => !d.got i

theorem mem_silent {d : Dog} {i : Child} : i ∈ d.silent ↔ d.got i = false := by
  rw [Dog.silent, List.mem_filter, Bool.not_eq_true']
  constructor
  · exact fun h => h.2
  · intro h
    refine ⟨?_, h⟩
    cases i <;> simp

/-- Start some children again, one after the other. -/
def startAll (is : List Child) (d : Dog) : Dog := is.foldl (fun d i => startChild i d) d

theorem startAll_spec (is : List Child) {d : Dog} (hk : d.Known) :
    (startAll is d).got = d.got ∧ (startAll is d).Known ∧
      ∀ i, (startAll is d).has i = true ↔ i ∈ is ∨ d.has i = true := by
  induction is generalizing d with
  | nil => exact ⟨rfl, hk, fun i => by simp [startAll]⟩
  | cons j is ih =>
    obtain ⟨hgot, hknown, hhas⟩ := ih (known_startChild (i := j) hk)
    refine ⟨hgot, hknown, fun i => (hhas i).trans ?_⟩
    by_cases e : i = j
    · simp [e, has_startChild_self]
    · simp [e, has_startChild_of_ne hk e]

/-- The timeout handler when no silent child has been reaped. -/
theorem timeout_eq_ok {d : Dog} (hk : d.Known) (h : ∀ i, d.got i = false → d.has i = true) :
    timeout d = .ok (startAll d.silent d, d.silent.map .restarted) := by
  have hgot : (startChild .one d).got = d.got := rfl
  have htwo : (startChild .one d).has .two = d.has .two := has_startChild_of_ne hk (by decide)
  unfold timeout startChild1 startChild2
  rw [checkChild_eq]
  cases h1 : d.got .one with
  | true =>
    cases h2 : d.got .two with
    | true => simp [Dog.silent, h1, h2, startAll, checkChild_eq, bind, Except.bind]
    | false => simp [Dog.silent, h1, h2, startAll, checkChild_eq, bind, Except.bind, h .two h2]
  | false =>
    cases h2 : d.got .two with
    | true =>
      simp [Dog.silent, h1, h2, startAll, checkChild_eq, bind, Except.bind, h .one h1, hgot]
    | false =>
      simp [Dog.silent, h1, h2, startAll, checkChild_eq, bind, Except.bind, h .one h1, hgot, htwo,
        h .two h2]

end DemosOsLinux.Watchdog
