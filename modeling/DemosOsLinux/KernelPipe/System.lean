/-
  The named pipe driver under concurrency: tasks, the pipe mutex and the two wait queues.

  Granularity. A task takes the mutex in one step (`lock`). What it then does up to and
  including the next `pipe_unlock` is one step (`critical`, `test`): nobody else can look at
  the pipe meanwhile. Everything outside the mutex is a step of its own: joining a wait queue,
  going to sleep, being resumed, the `wake_up_all` after the unlock, the return.

  `wait_event_interruptible(queue, condition)` is the loop
      enqueue; evaluate the condition; if true leave the queue and return 0; else sleep
  where the condition of `pipe_wait_read` and `pipe_wait_write` takes the mutex and keeps it
  exactly when it is true. (The macro also evaluates the condition once before it joins the
  queue; that evaluation either ends the wait or changes nothing, and is left out.)
  `wake_up_all` marks every queued task runnable (`woken`). A signal
  may end a sleep, and it may make the wait return -ERESTARTSYS right after the condition
  evaluated to false (`interrupt`).

  The mutex records its holder. `mutex_unlock` frees it whoever calls it; the event
  `unlock t o` records the caller `t` and the holder `o` at that moment.

  Files. `files` are the open files of the device: a file is in it from the critical section
  of its `pipe_open` to the one of its `pipe_release`. A release is called once for each file.
  A read or write needs an open file of the right mode when it is called; that the file stays
  open until the call returns (the VFS guarantees it) is not needed and not assumed.

  A task that hits a `BUG_ON` is `dead` and keeps the mutex.
-/
import Mathlib.Data.Finset.Basic
import DemosOsLinux.Lib.Machine
import DemosOsLinux.KernelPipe.Pipe

namespace DemosOsLinux.KernelPipe

open Lib Function

abbrev Tid := Nat

/-- `-EFAULT` and `-ERESTARTSYS` as the driver returns them. -/
def eFault : Int := -14

def eRestartSys : Int := -512

/-- The access mode of a file: `FMODE_READ` and `FMODE_WRITE` in `f_mode`. -/
inductive Mode where
  | rdOnly
  | wrOnly
  | rdWr
  deriving DecidableEq

def Mode.canRead : Mode → Bool
  | .rdOnly | .rdWr => true
  | .wrOnly => false

def Mode.canWrite : Mode → Bool
  | .wrOnly | .rdWr => true
  | .rdOnly => false

/-- `struct file`: its identity and its mode. -/
structure File where
  id : Nat
  mode : Mode
  deriving DecidableEq

/-- A transfer call. The length of `buf` is the count of a write. -/
inductive Io where
  | read (x : File) (count : Nat)
  | write (x : File) (buf : List UInt8)
  deriving DecidableEq

/-- A file operation. -/
inductive Call where
  | open (m : Mode)
  | release (x : File)
  | io (o : Io)
  deriving DecidableEq

/-- The two sides of the pipe: readers wait on `read_queue`, writers on `write_queue`. -/
inductive Side where
  | reader
  | writer
  deriving DecidableEq

/-- The side a transfer waits on. -/
def Io.side : Io → Side
  | .read _ _ => .reader
  | .write _ _ => .writer

/-- The side a transfer wakes at its end. -/
def Io.wakes : Io → Side
  | .read _ _ => .writer
  | .write _ _ => .reader

/-- The wait condition of a side, as evaluated under the mutex. -/
def shouldWakeUp : Side → Pipe → Bool
  | .reader, p => readerShouldWakeUp p
  | .writer, p => writerShouldWakeUp p

/-- Where a task is. -/
inductive Pc where
  /-- Outside the driver. -/
  | user
  /-- At the `pipe_lock` that starts the operation. -/
  | locking (c : Call)
  /-- Holds the mutex, at the start of the operation's body or at the head of its wait loop. -/
  | locked (c : Call)
  /-- In `wait_event_interruptible`, about to join the wait queue. -/
  | waitEnter (o : Io)
  /-- On the wait queue, at the `pipe_lock` of the wait condition. -/
  | queued (o : Io)
  /-- On the wait queue, evaluating the wait condition with the mutex held. -/
  | testing (o : Io)
  /-- On the wait queue, the condition was false and the mutex is dropped. -/
  | refused (o : Io)
  /-- Asleep on the wait queue. -/
  | asleep (o : Io)
  /-- The wait returned -ERESTARTSYS; at the `pipe_unlock` of the error return. -/
  | interrupted (o : Io)
  /-- The transfer is done and the mutex dropped; at the wake-up of the other side. -/
  | waking (o : Io) (ret : Int)
  /-- Died in a `BUG_ON`. -/
  | dead
  deriving DecidableEq

structure State where
  pipe : Pipe
  owner : Option Tid
  pc : Tid → Pc
  queue : Side → Finset Tid
  woken : Finset Tid
  files : List File
  closing : Finset File
  nextId : Nat

/-- The state after `pipe_ctor`: no file, no task in the driver. -/
def initState (pipeSize : Int32) (mem : Nat → UInt8) : State where
  pipe := pipeCtor pipeSize mem
  owner := none
  pc := fun _ => .user
  queue := fun _ => ∅
  woken := ∅
  files := []
  closing := ∅
  nextId := 0

inductive Event where
  /-- `pipe_unlock` by `t` while `owner` holds the mutex. -/
  | unlock (t : Tid) (owner : Option Tid)
  /-- The operation `c` of `t` returns `v` while `owner` holds the mutex. -/
  | ret (t : Tid) (c : Call) (v : Int) (owner : Option Tid)
  /-- A write of `buf` found `room` and returned `n`. -/
  | accepted (t : Tid) (buf : List UInt8) (room : Nat) (n : Int)
  /-- A read of `count` bytes found `data` and put `bytes` into the user's buffer. -/
  | delivered (t : Tid) (count data : Nat) (bytes : List UInt8)
  | copyTo (c : Copy)
  | copyFrom (c : Copy)
  | bug (t : Tid)

/-- What the scheduler and the environment choose. -/
inductive Act where
  | call (t : Tid) (c : Call)
  /-- `access_ok` fails. -/
  | badAccess (t : Tid) (o : Io)
  | lock (t : Tid)
  /-- The critical section of the operation, with the faults of its user copies. -/
  | critical (t : Tid) (f : Faults)
  | enqueue (t : Tid)
  | test (t : Tid)
  | sleep (t : Tid)
  | resume (t : Tid)
  /-- A signal ends the sleep; the wait loop goes round once more. -/
  | signal (t : Tid)
  /-- The wait returns -ERESTARTSYS after its condition evaluated to false. -/
  | interrupt (t : Tid)
  /-- The error return of an interrupted wait. -/
  | bail (t : Tid)
  | wake (t : Tid)

/-! ## The operations -/

def State.goto (s : State) (t : Tid) (l : Pc) : State := { s with pc := update s.pc t l }

/-- `wake_up_all`: mark every task of the queue runnable. -/
def State.wakeUpAll (s : State) (d : Side) : State := { s with woken := s.woken ∪ s.queue d }

/-- May this call be made now? -/
def State.admits (s : State) : Call → Bool
  | .open _ => true
  | .release x => decide (x ∈ s.files) && decide (x ∉ s.closing)
  | .io (.read x _) => decide (x ∈ s.files) && x.mode.canRead
  | .io (.write x _) => decide (x ∈ s.files) && x.mode.canWrite

/-- Enter the driver; a release takes the file away from further releases. -/
def State.enter (s : State) (t : Tid) : Call → State
  | .release x => { s.goto t (.locking (.release x)) with closing := insert x s.closing }
  | c => s.goto t (.locking c)

/-- `pipe_open`, with the mutex held. -/
def pipeOpen (s : State) (t : Tid) (m : Mode) : State × List Event :=
  let p := s.pipe
  let p := if m.canRead then { p with readers := p.readers + 1 } else p
  let p := if m.canWrite then { p with writers := p.writers + 1 } else p
  ({ s.goto t .user with
      pipe := p
      owner := none
      files := ⟨s.nextId, m⟩ :: s.files
      nextId := s.nextId + 1 },
    [.unlock t s.owner, .ret t (.open m) 0 none])

/-- `pipe_release`, with the mutex held: the wake-up comes before the unlock. -/
def pipeRelease (s : State) (t : Tid) (x : File) : State × List Event :=
  let p := s.pipe
  let p := if x.mode.canRead then { p with readers := p.readers - 1 } else p
  let p := if x.mode.canWrite then { p with writers := p.writers - 1 } else p
  let s₁ := if x.mode.canWrite ∧ p.writers = 0 then s.wakeUpAll .reader else s
  ({ s₁.goto t .user with
      pipe := p
      owner := none
      files := s.files.erase x
      closing := s.closing.erase x },
    [.unlock t s.owner, .ret t (.release x) 0 none])

/-- The `pipe_unlock` with which `pipe_wait_read` and `pipe_wait_write` start. -/
def waitStart (s : State) (t : Tid) (o : Io) : State × List Event :=
  ({ s.goto t (.waitEnter o) with owner := none }, [.unlock t s.owner])

/-- The end of a transfer that had the pipe locked with data (or room): unlock, then go and
    wake the other side, or return the residue of the copy that failed. -/
def transferEnd (s : State) (t : Tid) (o : Io) (r : Transfer) (copies : List Event)
    (moved : Event) : State × List Event :=
  if r.finished then
    ({ s.goto t (.waking o r.ret) with pipe := r.pipe, owner := none },
      copies ++ [moved, .unlock t s.owner])
  else
    ({ s.goto t .user with pipe := r.pipe, owner := none },
      copies ++ [.unlock t s.owner, .ret t (.io o) r.ret none])

/-- `pipe_read` from the head of its wait loop on, with the mutex held. -/
def pipeRead (s : State) (t : Tid) (x : File) (count : Nat) (f : Faults) :
    State × List Event :=
  if pipeData s.pipe = 0 ∧ 0 < s.pipe.writers then
    waitStart s t (.read x count)
  else if pipeData s.pipe = 0 ∧ s.pipe.writers = 0 then
    ({ s.goto t .user with owner := none },
      [.unlock t s.owner, .ret t (.io (.read x count)) 0 none])
  else
    match pipeReadCopy s.pipe count f with
    | none => (s.goto t .dead, [.bug t])
    | some r =>
        transferEnd s t (.read x count) r (r.copies.map .copyTo)
          (.delivered t count (pipeData s.pipe) r.bytes)

/-- `pipe_write` from the head of its wait loop on, with the mutex held. -/
def pipeWrite (s : State) (t : Tid) (x : File) (buf : List UInt8) (f : Faults) :
    State × List Event :=
  if pipeRoom s.pipe = 0 then
    waitStart s t (.write x buf)
  else
    match pipeWriteCopy s.pipe buf f with
    | none => (s.goto t .dead, [.bug t])
    | some r =>
        transferEnd s t (.write x buf) r (r.copies.map .copyFrom)
          (.accepted t buf (pipeRoom s.pipe) r.ret)

/-- Join the wait queue of the call's side. -/
def joinQueue (s : State) (t : Tid) (o : Io) : State :=
  { s.goto t (.queued o) with
    queue := update s.queue o.side (insert t (s.queue o.side))
    woken := s.woken.erase t }

/-- Leave the wait queue of the call's side. -/
def leaveQueue (s : State) (t : Tid) (o : Io) : State :=
  { s with queue := update s.queue o.side ((s.queue o.side).erase t) }

/-- `pipe_reader_should_i_wake_up` and `pipe_writer_should_i_wake_up` with the mutex held: when
    the condition is true the mutex is kept and the wait loop of the call is entered again. -/
def testCondition (s : State) (t : Tid) (o : Io) : State × List Event :=
  if shouldWakeUp o.side s.pipe then
    ((leaveQueue s t o).goto t (.locked (.io o)), [])
  else
    ({ s.goto t (.refused o) with owner := none }, [.unlock t s.owner])

def step (s : State) : Act → Option (State × List Event)
  | .call t c =>
      if s.pc t = .user ∧ s.admits c = true then some (s.enter t c, []) else none
  | .badAccess t o =>
      if s.pc t = .user ∧ s.admits (.io o) = true then
        some (s, [.ret t (.io o) eFault s.owner])
      else none
  | .lock t =>
      if s.owner = none then
        match s.pc t with
        | .locking c => some ({ s.goto t (.locked c) with owner := some t }, [])
        | .queued o => some ({ s.goto t (.testing o) with owner := some t }, [])
        | _ => none
      else none
  | .critical t f =>
      match s.pc t with
      | .locked (.open m) => some (pipeOpen s t m)
      | .locked (.release x) => some (pipeRelease s t x)
      | .locked (.io (.read x count)) => some (pipeRead s t x count f)
      | .locked (.io (.write x buf)) => some (pipeWrite s t x buf f)
      | _ => none
  | .enqueue t =>
      match s.pc t with
      | .waitEnter o => some (joinQueue s t o, [])
      | _ => none
  | .test t =>
      match s.pc t with
      | .testing o => some (testCondition s t o)
      | _ => none
  | .sleep t =>
      match s.pc t with
      | .refused o => some (s.goto t (.asleep o), [])
      | _ => none
  | .resume t =>
      match s.pc t with
      | .asleep o => if t ∈ s.woken then some (s.goto t (.waitEnter o), []) else none
      | _ => none
  | .signal t =>
      match s.pc t with
      | .asleep o => some (s.goto t (.waitEnter o), [])
      | _ => none
  | .interrupt t =>
      match s.pc t with
      | .refused o => some ((leaveQueue s t o).goto t (.interrupted o), [])
      | _ => none
  | .bail t =>
      match s.pc t with
      | .interrupted o =>
          some ({ s.goto t .user with owner := none },
            [.unlock t s.owner, .ret t (.io o) eRestartSys none])
      | _ => none
  | .wake t =>
      match s.pc t with
      | .waking o v =>
          some ((s.wakeUpAll o.wakes).goto t .user, [.ret t (.io o) v s.owner])
      | _ => none

/-- The driver as a machine. -/
def driver : Machine State Act Event := ⟨step⟩

end DemosOsLinux.KernelPipe
