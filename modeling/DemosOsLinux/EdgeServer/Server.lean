/-
  The edge-triggered echo server (examples/io/epoll_echo_tcp_server.cc).

  Connections are registered with EPOLLET: `epoll_wait` reports one only when new data arrived
  since its last report. `edge` is that flag; an arrival (data or the end of the stream) sets
  it, a report clears it. The listening socket and the signal descriptor are level triggered.

  A step is one `epoll_wait`, or one of the three parts of the loop body for the current entry:
  the two `continue` cases, `if (EPOLLIN)`, `if (EPOLLRDHUP)`; or an arrival on a connection,
  at any time. A system call that fails ends the program (`CHECK_NOT_M1`, `CHECK_INT`), so it is
  a step that is not enabled: reading an empty open socket (EAGAIN), a short write. `read(2)`
  on a stream socket returns what is there, up to the size of the buffer.
-/
import Mathlib.Data.Finset.Basic
import Mathlib.Logic.Function.Basic
import DemosOsLinux.Lib.Machine

namespace DemosOsLinux.EdgeServer

open Lib Function

abbrev Fd := Nat

abbrev ConnId := Nat

/-- What a descriptor stands for. -/
inductive Obj where
  | inherited
  | listener
  | epoll
  | signal
  | sock (c : ConnId)
  deriving DecidableEq

/-- A connection as the kernel has it. -/
structure Peer where
  /-- Arrived and not read. -/
  unread : List UInt8
  /-- The client has shut down its sending side. -/
  shut : Bool
  /-- Something arrived since the last report. -/
  edge : Bool

/-- New data arrives. -/
def Peer.arrive (p : Peer) (bs : List UInt8) : Peer :=
  { p with unread := p.unread ++ bs, edge := true }

/-- The end of the stream arrives. -/
def Peer.shutdown (p : Peer) : Peer := { p with shut := true, edge := true }

/-- `n` bytes are read. -/
def Peer.consume (p : Peer) (n : Nat) : Peer := { p with unread := p.unread.drop n }

/-- An element of `events[]`, with the two events that the program looks at. -/
structure Entry where
  fd : Fd
  epollIn : Bool
  epollRdHup : Bool
  deriving DecidableEq

/-- The parts of the loop body. -/
inductive Part where
  | dispatch
  | canRead
  | disconnect
  deriving DecidableEq

inductive Phase where
  /-- At `epoll_wait`. -/
  | waiting
  | handling (e : Entry) (p : Part) (rest : List Entry)
  /-- After the loop. -/
  | done
  deriving DecidableEq

structure State where
  sockfd : Fd
  sigfd : Fd
  fds : Fd → Option Obj
  /-- The descriptors in the epoll set. -/
  registered : Fd → Bool
  peers : ConnId → Peer
  nextConn : ConnId
  /-- `over`. -/
  isOver : Bool
  phase : Phase

inductive Act where
  | wait (batch : List Entry)
  /-- The next part of the loop body; `accept4` would return `fd`. -/
  | handle (fd : Fd)
  /-- Data arrives on a connection. -/
  | arrive (c : ConnId) (bs : List UInt8)
  /-- The end of the stream arrives. -/
  | shutdown (c : ConnId)

inductive Event where
  | accepted (c : ConnId)
  | read (c : ConnId) (bs : List UInt8)
  | wrote (c : ConnId) (bs : List UInt8)
  | closed (c : ConnId)

def maxEvents : Nat := 10

def buflen : Nat := 1024

/-- May `epoll_wait` report this entry? -/
def State.reportable (s : State) (e : Entry) : Bool :=
  s.registered e.fd &&
    match s.fds e.fd with
    | some .listener | some .signal => e.epollIn && !e.epollRdHup
    | some (.sock c) =>
        (s.peers c).edge &&
          (e.epollIn == (!(s.peers c).unread.isEmpty || (s.peers c).shut)) &&
          (e.epollRdHup == (s.peers c).shut)
    | _ => false

def batchOk (s : State) (batch : List Entry) : Prop :=
  batch ≠ [] ∧ batch.length ≤ maxEvents ∧ (batch.map Entry.fd).Nodup ∧
    ∀ e ∈ batch, s.reportable e = true

instance (s : State) (batch : List Entry) : Decidable (batchOk s batch) := by
  unfold batchOk
  infer_instance

/-- The connection open at a descriptor. -/
def State.connAt (s : State) (fd : Fd) : Option ConnId :=
  match s.fds fd with
  | some (.sock c) => some c
  | _ => none

/-- The connections after a report of the batch: a reported edge is spent. -/
def State.reported (s : State) (batch : List Entry) (c : ConnId) : Peer :=
  if ∃ e ∈ batch, s.connAt e.fd = some c then { s.peers c with edge := false } else s.peers c

/-- The next entry, or the test of the loop. -/
def nextEntry (isOver : Bool) : List Entry → Phase
  | [] => if isOver then .done else .waiting
  | e :: rest => .handling e .dispatch rest

/-- The two cases that end in `continue`, and the way on. -/
def dispatch (s : State) (e : Entry) (rest : List Entry) (fd : Fd) :
    Option (State × List Event) :=
  if e.fd = s.sockfd then
    if s.fds fd = none then
      some ({ s with
        fds := update s.fds fd (some (.sock s.nextConn))
        registered := update s.registered fd true
        nextConn := s.nextConn + 1
        phase := nextEntry s.isOver rest }, [.accepted s.nextConn])
    else none
  else if e.fd = s.sigfd then
    some ({ s with isOver := true, phase := nextEntry true rest }, [])
  else some ({ s with phase := .handling e .canRead rest }, [])

/-- `read(fd, buffer, buflen)` and `write(fd, buffer, len)`. -/
def canRead (s : State) (e : Entry) (rest : List Entry) : Option (State × List Event) :=
  if e.epollIn then
    match s.connAt e.fd with
    | none => none
    | some c =>
        if (s.peers c).unread = [] ∧ (s.peers c).shut = false then none
        else
          some ({ s with
            peers := update s.peers c ((s.peers c).consume buflen)
            phase := .handling e .disconnect rest },
            [.read c ((s.peers c).unread.take buflen), .wrote c ((s.peers c).unread.take buflen)])
  else some ({ s with phase := .handling e .disconnect rest }, [])

/-- EPOLL_CTL_DEL and `close`. -/
def disconnect (s : State) (e : Entry) (rest : List Entry) : Option (State × List Event) :=
  if e.epollRdHup then
    match s.connAt e.fd with
    | none => none
    | some c =>
        if s.registered e.fd then
          some ({ s with
            fds := update s.fds e.fd none
            registered := update s.registered e.fd false
            phase := nextEntry s.isOver rest }, [.closed c])
        else none
  else some ({ s with phase := nextEntry s.isOver rest }, [])

def step (s : State) : Act → Option (State × List Event)
  | .wait batch =>
      if s.phase = .waiting ∧ batchOk s batch then
        some ({ s with peers := s.reported batch, phase := nextEntry s.isOver batch }, [])
      else none
  | .handle fd =>
      match s.phase with
      | .handling e .dispatch rest => dispatch s e rest fd
      | .handling e .canRead rest => canRead s e rest
      | .handling e .disconnect rest => disconnect s e rest
      | _ => none
  | .arrive c bs =>
      if bs = [] ∨ (s.peers c).shut = true then none
      else
        some ({ s with peers := update s.peers c ((s.peers c).arrive bs) }, [])
  | .shutdown c =>
      if (s.peers c).shut then none
      else
        some ({ s with peers := update s.peers c (s.peers c).shutdown }, [])

def server : Machine State Act Event := ⟨step⟩

/-- The descriptors at the start of the loop. -/
structure Boot where
  inherited : Finset Fd
  sockfd : Fd
  epollfd : Fd
  sigfd : Fd
  distinct : [sockfd, epollfd, sigfd].Nodup
  fresh : ∀ fd ∈ [sockfd, epollfd, sigfd], fd ∉ inherited

/-- The state at the first `epoll_wait`. -/
def initState (b : Boot) : State where
  sockfd := b.sockfd
  sigfd := b.sigfd
  fds := fun fd =>
    if fd = b.sockfd then some .listener
    else if fd = b.sigfd then some .signal
    else if fd = b.epollfd then some .epoll
    else if fd ∈ b.inherited then some .inherited
    else none
  registered := fun fd => fd = b.sockfd || fd = b.sigfd
  peers := fun _ => ⟨[], false, false⟩
  nextConn := 0
  isOver := false
  phase := .waiting

end DemosOsLinux.EdgeServer
