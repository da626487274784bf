/-
  The event loop of the echo server with its pointers (solution_full.cc, lines 109 to 184).

  `Server.lean` keeps the pipes themselves in `fdbuffermap`. Here the map holds `CircularPipe*`
  as in the source: `new` makes an object on the heap, `delete` frees it, and every
  `find(...)->second` is a lookup that may hit `end()`. A branch ends in
  * new tables and what it did with descriptors and objects (`LedgerEvent`),
  * `stop`: a system call failed or cannot return what the choice says; there is no step,
  * a fault: `end()` was dereferenced, or a pointer to a deleted object was used.
  `accept4` and `timerfd_create` may return any number that is not open.

  `Memory.view` reads the tables of `Server.lean` off the memory; the system calls are those of
  `Server.lean`, applied to the view.
-/
import DemosOsLinux.EchoServer.Connections

namespace DemosOsLinux.EchoServer

open Lib Function

/-- A `CircularPipe*`: the number of the `new` that made the object. -/
abbrev Ptr := Nat

structure Memory where
  sockfd : Fd
  fds : Fd → Option Obj
  interest : Fd → Option Mask
  fdbuffermap : Fd → Option Ptr
  fdmap : Fd → Option Fd
  timermap : Fd → Option Fd
  heap : Ptr → Option CircularPipe
  nextConn : ConnId
  nextPtr : Ptr

inductive Fault where
  | stop
  | derefEnd
  | dangling
  deriving DecidableEq

inductive LedgerEvent where
  /-- Connection `c` was accepted, with the pipe `p`. -/
  | accepted (c : ConnId) (p : Ptr)
  /-- `close(2)` on the descriptor of `o`. -/
  | closed (o : Obj)
  | deleted (p : Ptr)
  | fault (f : Fault)
  deriving DecidableEq

/-- The tables with the pipes in the place of the pointers. -/
def Memory.view (m : Memory) : Tables where
  sockfd := m.sockfd
  fds := m.fds
  interest := m.interest
  fdbuffermap := fun fd => (m.fdbuffermap fd).bind m.heap
  fdmap := m.fdmap
  timermap := m.timermap
  nextConn := m.nextConn

/-! ## Calls and lookups -/

/-- A checked system call: what it did to the kernel's tables. -/
def Memory.checked (m : Memory) (r : Option Tables) : Except Fault Memory :=
  match r with
  | none => .error .stop
  | some t => .ok { m with fds := t.fds, interest := t.interest }

def orStop {α : Type} (r : Option α) : Except Fault α :=
  match r with
  | none => .error .stop
  | some a => .ok a

/-- `find(...)->second`. -/
def findSecond {α : Type} (r : Option α) : Except Fault α :=
  match r with
  | none => .error .derefEnd
  | some a => .ok a

/-- The object behind a pointer. -/
def Memory.object (m : Memory) (p : Ptr) : Except Fault CircularPipe :=
  match m.heap p with
  | none => .error .dangling
  | some cp => .ok cp

/-- `accept4` returns `fd`. -/
def Memory.accept4 (m : Memory) (fd : Fd) : Except Fault Memory :=
  if m.fds fd = none then
    .ok { m with
      fds := update m.fds fd (some (.sock m.nextConn))
      nextConn := m.nextConn + 1 }
  else .error .stop

/-- `timerfd_create` returns `fd`, the timer of connection `c`. -/
def Memory.timerfdCreate (m : Memory) (fd : Fd) (c : ConnId) : Except Fault Memory :=
  if m.fds fd = none then .ok { m with fds := update m.fds fd (some (.timer c)) }
  else .error .stop

/-- `fdbuffermap[fd] = new CircularPipe(...)`. -/
def Memory.newPipe (m : Memory) (fd : Fd) (cp : CircularPipe) : Memory :=
  { m with
    heap := update m.heap m.nextPtr (some cp)
    nextPtr := m.nextPtr + 1
    fdbuffermap := update m.fdbuffermap fd (some m.nextPtr) }

/-- `*p` after a `push` or a `pull`. -/
def Memory.setPipe (m : Memory) (p : Ptr) (cp : CircularPipe) : Memory :=
  { m with heap := update m.heap p (some cp) }

/-- The event of a `close` on `fd`. -/
def Memory.closedAt (m : Memory) (fd : Fd) : List LedgerEvent :=
  (m.fds fd).toList.map .closed

/-! ## The branches -/

namespace Mem

def connect (cfg : Config) (m : Memory) (k : Choice) :
    Except Fault (Memory × List LedgerEvent) := do
  let m₁ ← m.accept4 k.realfd
  let cp := CircularPipe.ctor cfg.bufsize.toNat k.mem
  let m₂ := m₁.newPipe k.realfd cp
  let m₃ ← m₂.checked (registerFd m₂.view k.realfd cp .add)
  let m₄ ← m₃.timerfdCreate k.timerfd m.nextConn
  let m₅ ← m₄.checked (epollCtl m₄.view .add k.timerfd inputOnly)
  let m₆ ← m₅.checked (setupTimer m₅.view k.timerfd)
  .ok ({ m₆ with
      fdmap := update m₆.fdmap k.realfd (some k.timerfd)
      timermap := update m₆.timermap k.timerfd (some k.realfd) },
    [.accepted m.nextConn m.nextPtr])

def canRead (m : Memory) (realfd : Fd) (k : Choice) :
    Except Fault (Memory × List LedgerEvent) := do
  let timerfd ← findSecond (m.fdmap realfd)
  let p ← findSecond (m.fdbuffermap realfd)
  let cp ← m.object p
  let _ ← orStop (m.view.connAt realfd)
  let cp' ← orStop (readInto cp k.bytes)
  let m₁ := m.setPipe p cp'
  let m₂ ← m₁.checked (registerFd m₁.view realfd cp' .mod)
  let m₃ ← m₂.checked (setupTimer m₂.view timerfd)
  .ok (m₃, [])

def canWrite (m : Memory) (realfd : Fd) (k : Choice) :
    Except Fault (Memory × List LedgerEvent) := do
  let p ← findSecond (m.fdbuffermap realfd)
  let cp ← m.object p
  let _ ← orStop (m.view.connAt realfd)
  let r ← orStop (writeFrom cp k.len)
  let m₁ := m.setPipe p r.1
  let m₂ ← m₁.checked (registerFd m₁.view realfd r.1 .mod)
  .ok (m₂, [])

/-- The common part of the disconnect and the timeout branch. -/
def closeConnection (m : Memory) (realfd timerfd : Fd) :
    Except Fault (Memory × List LedgerEvent) := do
  let m₁ ← m.checked (epollCtl m.view .del realfd inputOnly)
  let m₂ ← m₁.checked (epollCtl m₁.view .del timerfd inputOnly)
  let m₃ ← m₂.checked (close m₂.view realfd)
  let m₄ ← m₃.checked (close m₃.view timerfd)
  let p ← findSecond (m₄.fdbuffermap realfd)
  let _ ← m₄.object p
  .ok ({ m₄ with
      heap := update m₄.heap p none
      fdbuffermap := update m₄.fdbuffermap realfd none
      fdmap := update m₄.fdmap realfd none
      timermap := update m₄.timermap timerfd none },
    m₂.closedAt realfd ++ m₃.closedAt timerfd ++ [.deleted p])

def disconnect (m : Memory) (realfd : Fd) : Except Fault (Memory × List LedgerEvent) := do
  let timerfd ← findSecond (m.fdmap realfd)
  closeConnection m realfd timerfd

def timeout (m : Memory) (timerfd : Fd) : Except Fault (Memory × List LedgerEvent) := do
  let realfd ← findSecond (m.timermap timerfd)
  closeConnection m realfd timerfd

/-- The five branches for the entry `e`, each with its test. -/
def branch (cfg : Config) (m : Memory) (e : Entry) (b : Branch) (k : Choice) :
    Except Fault (Memory × List LedgerEvent) :=
  match b with
  | .connect => if e.fd = m.sockfd then connect cfg m k else .ok (m, [])
  | .canRead =>
      if m.fdbuffermap e.fd ≠ none ∧ e.events.epollIn = true then canRead m e.fd k
      else .ok (m, [])
  | .canWrite =>
      if m.fdbuffermap e.fd ≠ none ∧ e.events.epollOut = true then canWrite m e.fd k
      else .ok (m, [])
  | .disconnect =>
      if m.fdbuffermap e.fd ≠ none ∧ e.events.epollRdHup = true then disconnect m e.fd
      else .ok (m, [])
  | .timeout => if m.timermap e.fd ≠ none then timeout m e.fd else .ok (m, [])

end Mem

/-! ## The loop -/

structure MemServer where
  memory : Memory
  phase : Phase
  /-- The program did something undefined. -/
  faulted : Bool

/-- The state and the events after branch `b` of the entry `e`. -/
def MemServer.after (s : MemServer) (e : Entry) (b : Branch) (rest : List Entry) :
    Except Fault (Memory × List LedgerEvent) → Option (MemServer × List LedgerEvent)
  | .ok r => some (⟨r.1, nextPhase e b rest, false⟩, r.2)
  | .error .stop => none
  | .error f => some ({ s with faulted := true }, [.fault f])

def memStep (cfg : Config) (s : MemServer) (a : Act) : Option (MemServer × List LedgerEvent) :=
  if s.faulted then none
  else
    match a, s.phase with
    | .wait batch, .waiting =>
        if batchOk cfg s.memory.view batch then
          some ({ s with phase := startEntry (entries s.memory.view batch) }, [])
        else none
    | .handle k, .handling e b rest => s.after e b rest (Mem.branch cfg s.memory e b k)
    | _, _ => none

def memServer (cfg : Config) : Machine MemServer Act LedgerEvent := ⟨memStep cfg⟩

/-- The state at the first `epoll_wait`. -/
def initMem (b : Boot) : MemServer where
  memory :=
    { sockfd := b.sockfd
      fds := (initServer b).tables.fds
      interest := (initServer b).tables.interest
      fdbuffermap := fun _ => none
      fdmap := fun _ => none
      timermap := fun _ => none
      heap := fun _ => none
      nextConn := 0
      nextPtr := 0 }
  phase := .waiting
  faulted := false

end DemosOsLinux.EchoServer
