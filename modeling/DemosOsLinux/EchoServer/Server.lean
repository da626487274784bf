/-
  The epoll echo server (exercises/server_design/epoll_echo_server/solution_full.cc).
  exercises/server_design/epoll_web_server/solution.cc has the same event loop.

  The kernel side is the descriptor table (what each open number stands for) and the interest
  list of the epoll descriptor. The program side is the three maps. Connections get ghost
  identities in the order in which they are accepted, so that a descriptor number that is
  closed and handed out again stands for another object.

  `main` is the loop over the branches of the entries of one batch after the other: a step is
  one `epoll_wait`, or one branch (`if`) of the current entry. The choices of the kernel are
  the actions: the batch, the descriptors, what `read(2)` and `write(2)` transferred. A system
  call that fails ends the program (`CHECK_NOT_M1`), so it is a step that is not enabled.
  `accept4` and `timerfd_create` return the lowest free number. A batch lists registered
  descriptors, each once, with events they are registered for; an entry may have none of the
  three events (EPOLLERR and EPOLLHUP are reported without being asked for).
  When a timer expires is left to the kernel: arming it changes no table.
-/
import Mathlib.Data.Finset.Basic
import DemosOsLinux.Lib.Machine
import DemosOsLinux.CircularPipe.Fifo

namespace DemosOsLinux.EchoServer

open Lib Function

abbrev Fd := Nat

abbrev ConnId := Nat

/-- What a descriptor stands for. -/
inductive Obj where
  /-- Open before the program started. -/
  | inherited
  | listener
  | epoll
  | sock (c : ConnId)
  | timer (c : ConnId)
  deriving DecidableEq

/-- `ev.events`, the three bits that the program uses. -/
structure Mask where
  epollIn : Bool
  epollOut : Bool
  epollRdHup : Bool
  deriving DecidableEq

/-- The tables of the kernel and the maps of the program. -/
structure Tables where
  sockfd : Fd
  fds : Fd → Option Obj
  interest : Fd → Option Mask
  fdbuffermap : Fd → Option CircularPipe
  fdmap : Fd → Option Fd
  timermap : Fd → Option Fd
  nextConn : ConnId

/-- An element of `events[]`. `source` is the object the event was generated for. -/
structure Entry where
  fd : Fd
  events : Mask
  source : Obj
  deriving DecidableEq

/-- The five `if`s of the loop body, in order. -/
inductive Branch where
  | connect
  | canRead
  | canWrite
  | disconnect
  | timeout
  deriving DecidableEq

inductive Phase where
  /-- At `epoll_wait`. -/
  | waiting
  /-- At branch `b` for the entry `e`; `rest` is what is left of the batch. -/
  | handling (e : Entry) (b : Branch) (rest : List Entry)
  deriving DecidableEq

structure Server where
  tables : Tables
  phase : Phase

/-- The command line parameters that the loop uses. -/
structure Config where
  bufsize : UInt32
  maxevents : UInt32

/-- `EP_MAX_EVENTS` of the kernel: `INT_MAX / sizeof(struct epoll_event)`. -/
def epMaxEvents : Nat := (2 ^ 31 - 1) / 12

/-- How many entries `epoll_wait` returns at most. It takes `maxevents` as an `int`, which is negative
    from `2 ^ 31` on; then, and above the kernel's limit, the call fails with `EINVAL` and
    `CHECK_NOT_M1` ends the program. -/
def Config.batchMax (cfg : Config) : Nat :=
  if cfg.maxevents.toNat < 2 ^ 31 ∧ cfg.maxevents.toNat ≤ epMaxEvents then cfg.maxevents.toNat else 0

/-- What the kernel chooses in a branch. -/
structure Choice where
  realfd : Fd
  timerfd : Fd
  /-- What `malloc` returned to the new `CircularPipe`. -/
  mem : Nat → UInt8
  /-- What `read(2)` returned. -/
  bytes : List UInt8
  /-- What `write(2)` returned. -/
  len : Nat

inductive Act where
  /-- `epoll_wait` returns these descriptors and events. -/
  | wait (batch : List (Fd × Mask))
  | handle (k : Choice)

inductive Event where
  | accepted (c : ConnId)
  /-- `read(2)` on connection `c` returned `bs`. -/
  | read (c : ConnId) (bs : List UInt8)
  /-- `write(2)` on connection `c` took `bs`. -/
  | wrote (c : ConnId) (bs : List UInt8)
  | closed (c : ConnId)
  /-- An entry generated for `source` makes the program act on `target`: accept from the
      listener, read, write or close a connection, close a connection by its timer. -/
  | applied (source target : Obj)
  deriving DecidableEq

/-! ## The system calls -/

def lowestFree (fds : Fd → Option Obj) (fd : Fd) : Prop :=
  fds fd = none ∧ ∀ g < fd, fds g ≠ none

instance (fds : Fd → Option Obj) (fd : Fd) : Decidable (lowestFree fds fd) := by
  unfold lowestFree
  infer_instance

/-- `accept4` returns `fd`. -/
def accept4 (t : Tables) (fd : Fd) : Option Tables :=
  if lowestFree t.fds fd then
    some { t with
      fds := update t.fds fd (some (.sock t.nextConn))
      nextConn := t.nextConn + 1 }
  else none

/-- `timerfd_create` returns `fd`, the timer of connection `c`. -/
def timerfdCreate (t : Tables) (fd : Fd) (c : ConnId) : Option Tables :=
  if lowestFree t.fds fd then
    some { t with fds := update t.fds fd (some (.timer c)) }
  else none

inductive CtlOp where
  | add
  | mod
  | del

/-- `epoll_ctl`: EPOLL_CTL_ADD needs an open descriptor that is not on the list yet, the other
    two one that is on it. -/
def epollCtl (t : Tables) (op : CtlOp) (fd : Fd) (m : Mask) : Option Tables :=
  match op with
  | .add =>
      if t.fds fd ≠ none ∧ t.interest fd = none then
        some { t with interest := update t.interest fd (some m) }
      else none
  | .mod =>
      if t.interest fd ≠ none then
        some { t with interest := update t.interest fd (some m) }
      else none
  | .del =>
      if t.interest fd ≠ none then
        some { t with interest := update t.interest fd none }
      else none

/-- `close`: the number is free again, and off the interest list. -/
def close (t : Tables) (fd : Fd) : Option Tables :=
  if t.fds fd ≠ none then
    some { t with
      fds := update t.fds fd none
      interest := update t.interest fd none }
  else none

/-! ## The program -/

/-- The events that `register_fd` asks for. -/
def wanted (cp : CircularPipe) : Mask where
  epollIn := cp.haveRoom
  epollOut := cp.haveData
  epollRdHup := true

def registerFd (t : Tables) (realfd : Fd) (cp : CircularPipe) (op : CtlOp) : Option Tables :=
  epollCtl t op realfd (wanted cp)

/-- `setup_timer`: `timerfd_settime` on an open descriptor. -/
def setupTimer (t : Tables) (timerfd : Fd) : Option Tables :=
  if t.fds timerfd ≠ none then some t else none

/-- The `ev` with which a timer and the listening socket are registered. -/
def inputOnly : Mask := ⟨true, false, false⟩

/-- The connection open at a descriptor. -/
def Tables.connAt (t : Tables) (fd : Fd) : Option ConnId :=
  match t.fds fd with
  | some (.sock c) => some c
  | _ => none

def connect (cfg : Config) (t : Tables) (e : Entry) (k : Choice) :
    Option (Tables × List Event) := do
  let t₁ ← accept4 t k.realfd
  let cp := CircularPipe.ctor cfg.bufsize.toNat k.mem
  let t₂ := { t₁ with fdbuffermap := update t₁.fdbuffermap k.realfd (some cp) }
  let t₃ ← registerFd t₂ k.realfd cp .add
  let t₄ ← timerfdCreate t₃ k.timerfd t.nextConn
  let t₅ ← epollCtl t₄ .add k.timerfd inputOnly
  let t₆ ← setupTimer t₅ k.timerfd
  some ({ t₆ with
      fdmap := update t₆.fdmap k.realfd (some k.timerfd)
      timermap := update t₆.timermap k.timerfd (some k.realfd) },
    [.applied e.source .listener, .accepted t.nextConn])

/-- `cp->push(realfd)` when `read(2)` returns `bs`. -/
def readInto (cp : CircularPipe) (bs : List UInt8) : Option CircularPipe :=
  if bs.length ≤ cp.pushCount then some (cp.push bs).1 else none

/-- `cp->pull(realfd)` when `write(2)` returns `n`; with the bytes it took. -/
def writeFrom (cp : CircularPipe) (n : Nat) : Option (CircularPipe × List UInt8) :=
  if n ≤ cp.pullCount then some (cp.pull n) else none

def canRead (t : Tables) (e : Entry) (cp : CircularPipe) (k : Choice) :
    Option (Tables × List Event) := do
  let timerfd ← t.fdmap e.fd
  let c ← t.connAt e.fd
  let cp' ← readInto cp k.bytes
  let t₁ := { t with fdbuffermap := update t.fdbuffermap e.fd (some cp') }
  let t₂ ← registerFd t₁ e.fd cp' .mod
  let t₃ ← setupTimer t₂ timerfd
  some (t₃, [.applied e.source (.sock c), .read c k.bytes])

def canWrite (t : Tables) (e : Entry) (cp : CircularPipe) (k : Choice) :
    Option (Tables × List Event) := do
  let c ← t.connAt e.fd
  let r ← writeFrom cp k.len
  let t₁ := { t with fdbuffermap := update t.fdbuffermap e.fd (some r.1) }
  let t₂ ← registerFd t₁ e.fd r.1 .mod
  some (t₂, [.applied e.source (.sock c), .wrote c r.2])

/-- The common part of the disconnect and the timeout branch. -/
def closeConnection (t : Tables) (realfd timerfd : Fd) : Option Tables := do
  let t₁ ← epollCtl t .del realfd inputOnly
  let t₂ ← epollCtl t₁ .del timerfd inputOnly
  let t₃ ← close t₂ realfd
  let t₄ ← close t₃ timerfd
  some { t₄ with
    fdbuffermap := update t₄.fdbuffermap realfd none
    fdmap := update t₄.fdmap realfd none
    timermap := update t₄.timermap timerfd none }

def disconnect (t : Tables) (e : Entry) : Option (Tables × List Event) := do
  let timerfd ← t.fdmap e.fd
  let c ← t.connAt e.fd
  let t₁ ← closeConnection t e.fd timerfd
  some (t₁, [.applied e.source (.sock c), .closed c])

def timeout (t : Tables) (e : Entry) (realfd : Fd) : Option (Tables × List Event) := do
  let c ← t.connAt realfd
  let t₁ ← closeConnection t realfd e.fd
  some (t₁, [.applied e.source (.timer c), .closed c])

/-- The five branches for the entry `e`, each with its test. -/
def branch (cfg : Config) (t : Tables) (e : Entry) (b : Branch) (k : Choice) :
    Option (Tables × List Event) :=
  match b with
  | .connect => if e.fd = t.sockfd then connect cfg t e k else some (t, [])
  | .canRead =>
      match t.fdbuffermap e.fd, e.events.epollIn with
      | some cp, true => canRead t e cp k
      | _, _ => some (t, [])
  | .canWrite =>
      match t.fdbuffermap e.fd, e.events.epollOut with
      | some cp, true => canWrite t e cp k
      | _, _ => some (t, [])
  | .disconnect =>
      match t.fdbuffermap e.fd, e.events.epollRdHup with
      | some _, true => disconnect t e
      | _, _ => some (t, [])
  | .timeout =>
      match t.timermap e.fd with
      | some realfd => timeout t e realfd
      | none => some (t, [])

/-- The next entry of the batch, or back to `epoll_wait`. -/
def startEntry : List Entry → Phase
  | [] => .waiting
  | e :: rest => .handling e .connect rest

/-- What follows branch `b` of the entry `e`. -/
def nextPhase (e : Entry) (b : Branch) (rest : List Entry) : Phase :=
  match b with
  | .connect => .handling e .canRead rest
  | .canRead => .handling e .canWrite rest
  | .canWrite => .handling e .disconnect rest
  | .disconnect => .handling e .timeout rest
  | .timeout => startEntry rest

def Mask.le (m n : Mask) : Bool :=
  (!m.epollIn || n.epollIn) && (!m.epollOut || n.epollOut) && (!m.epollRdHup || n.epollRdHup)

/-- May `epoll_wait` report these events for this descriptor now? -/
def reportable (t : Tables) (r : Fd × Mask) : Bool :=
  match t.fds r.1, t.interest r.1 with
  | some _, some m => r.2.le m
  | _, _ => false

/-- A batch that `epoll_wait` may return. -/
def batchOk (cfg : Config) (t : Tables) (batch : List (Fd × Mask)) : Prop :=
  batch ≠ [] ∧ batch.length ≤ cfg.batchMax ∧ (batch.map Prod.fst).Nodup ∧
    ∀ r ∈ batch, reportable t r = true

instance (cfg : Config) (t : Tables) (batch : List (Fd × Mask)) :
    Decidable (batchOk cfg t batch) := by
  unfold batchOk
  infer_instance

/-- The entries of a batch, with the objects that were open when it was made. -/
def entries (t : Tables) (batch : List (Fd × Mask)) : List Entry :=
  batch.map fun r => ⟨r.1, r.2, (t.fds r.1).getD .inherited⟩

def step (cfg : Config) (s : Server) : Act → Option (Server × List Event)
  | .wait batch =>
      if s.phase = .waiting ∧ batchOk cfg s.tables batch then
        some ({ s with phase := startEntry (entries s.tables batch) }, [])
      else none
  | .handle k =>
      match s.phase with
      | .waiting => none
      | .handling e b rest =>
          (branch cfg s.tables e b k).map fun r => (⟨r.1, nextPhase e b rest⟩, r.2)

/-- The server as a machine. -/
def server (cfg : Config) : Machine Server Act Event := ⟨step cfg⟩

/-- The descriptors at the start of the loop. -/
structure Boot where
  inherited : Finset Fd
  sockfd : Fd
  epollfd : Fd
  sockNew : sockfd ∉ inherited
  epollNew : epollfd ≠ sockfd ∧ epollfd ∉ inherited

/-- The state at the first `epoll_wait`. -/
def initServer (b : Boot) : Server where
  tables :=
    { sockfd := b.sockfd
      fds := fun fd =>
        if fd = b.sockfd then some .listener
        else if fd = b.epollfd then some .epoll
        else if fd ∈ b.inherited then some .inherited
        else none
      interest := fun fd => if fd = b.sockfd then some inputOnly else none
      fdbuffermap := fun _ => none
      fdmap := fun _ => none
      timermap := fun _ => none
      nextConn := 0 }
  phase := .waiting

end DemosOsLinux.EchoServer
