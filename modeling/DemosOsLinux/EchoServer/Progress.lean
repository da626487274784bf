/-
  The echo server's bookkeeping of descriptors never makes a call fail.

  Every system call of the loop is checked, and a failed one ends the program; in the model such
  a branch has no result. What `accept4`, `timerfd_create`, `read` and `write` return is the
  kernel's choice, here a success. The other calls, `epoll_ctl`, `close` and `timerfd_settime`,
  depend on what the program keeps in its maps: `branch_isSome` shows that in tables with
  `TablesInv` none of them is applied to a descriptor that is closed, not registered, or
  registered already. `run_not_stuck` says so for the states of a run, so that the statements
  about all runs are not true for want of runs.
-/
import DemosOsLinux.EchoServer.Echo

namespace DemosOsLinux.EchoServer

open Lib Function

/-- What the kernel may choose in a branch: the lowest free descriptors, and no more bytes than
    the pipe asked for. -/
structure Choice.Allowed (k : Choice) (t : Tables) (e : Entry) : Prop where
  realfd : lowestFree t.fds k.realfd
  timerfd : lowestFree (update t.fds k.realfd (some (.sock t.nextConn))) k.timerfd
  bytes : ∀ cp, t.fdbuffermap e.fd = some cp → k.bytes.length ≤ cp.pushCount
  len : ∀ cp, t.fdbuffermap e.fd = some cp → k.len ≤ cp.pullCount

/-! ## The system calls -/

theorem isSome_bind {α β : Type} {x : Option α} {a : α} {f : α → Option β} (h : x = some a)
    (hf : (f a).isSome = true) : (x >>= f).isSome = true := by
  rw [h]
  exact hf

variable {c : ConnId}

section Calls

variable {t : Tables} {fd : Fd} {m n : Mask} {o : Obj}

theorem epollCtl_add (ho : t.fds fd = some o) (hi : t.interest fd = none) :
    epollCtl t .add fd m =
      some { t with interest := update t.interest fd (some m) } :=
  if_pos ⟨Option.ne_none_iff_exists'.mpr ⟨o, ho⟩, hi⟩

theorem epollCtl_mod (hi : t.interest fd = some n) :
    epollCtl t .mod fd m =
      some { t with interest := update t.interest fd (some m) } :=
  if_pos (Option.ne_none_iff_exists'.mpr ⟨n, hi⟩)

theorem epollCtl_del (hi : t.interest fd = some n) :
    epollCtl t .del fd m = some { t with interest := update t.interest fd none } :=
  if_pos (Option.ne_none_iff_exists'.mpr ⟨n, hi⟩)

theorem close_open (ho : t.fds fd = some o) :
    close t fd = some { t with
      fds := update t.fds fd none
      interest := update t.interest fd none } :=
  if_pos (Option.ne_none_iff_exists'.mpr ⟨o, ho⟩)

theorem setupTimer_open (ho : t.fds fd = some o) : setupTimer t fd = some t :=
  if_pos (Option.ne_none_iff_exists'.mpr ⟨o, ho⟩)

theorem connAt_sock (h : t.fds fd = some (.sock c)) : t.connAt fd = some c := by
  unfold Tables.connAt
  rw [h]

end Calls

/-! ## The branches -/

section Branches

variable {cfg : Config} {t : Tables} {e : Entry} {k : Choice} {cp : CircularPipe} {tfd : Fd}

theorem connect_isSome (tabs : TablesInv t) (hreal : lowestFree t.fds k.realfd)
    (htimer : lowestFree (update t.fds k.realfd (some (.sock t.nextConn))) k.timerfd) :
    (connect cfg t e k).isSome = true := by
  have hfree := htimer.1
  have hne : k.timerfd ≠ k.realfd := by
    intro he
    rw [he, update_self] at hfree
    cases hfree
  rw [update_of_ne hne] at hfree
  refine isSome_bind (if_pos hreal) ?_
  refine isSome_bind (epollCtl_add (update_self ..) (tabs.registered _ hreal.1)) ?_
  refine isSome_bind (if_pos htimer) ?_
  -- the timer's number is free, so nothing is registered under it
  refine isSome_bind (epollCtl_add (update_self ..) ?_) ?_
  · exact (update_of_ne hne ..).trans (tabs.registered _ hfree)
  refine isSome_bind (setupTimer_open (update_self ..)) ?_
  rfl

theorem canRead_isSome (h : Conn t c e.fd tfd cp) (hlen : k.bytes.length ≤ cp.pushCount) :
    (canRead t e cp k).isSome = true := by
  refine isSome_bind h.map ?_
  refine isSome_bind (connAt_sock h.sock) ?_
  refine isSome_bind (if_pos hlen) ?_
  refine isSome_bind (epollCtl_mod h.registered) ?_
  refine isSome_bind (setupTimer_open h.timer) ?_
  rfl

theorem canWrite_isSome (h : Conn t c e.fd tfd cp) (hlen : k.len ≤ cp.pullCount) :
    (canWrite t e cp k).isSome = true := by
  refine isSome_bind (connAt_sock h.sock) ?_
  refine isSome_bind (if_pos hlen) ?_
  refine isSome_bind (epollCtl_mod h.registered) ?_
  rfl

/-- A live connection can be closed: both its descriptors are open and registered. -/
theorem closeConnection_isSome {fd : Fd} {p : CircularPipe} (h : Conn t c fd tfd p) :
    (closeConnection t fd tfd).isSome = true := by
  have hne := h.ne.symm
  refine isSome_bind (epollCtl_del h.registered) ?_
  refine isSome_bind (epollCtl_del ((update_of_ne hne ..).trans h.timerRegistered)) ?_
  refine isSome_bind (close_open h.sock) ?_
  refine isSome_bind (close_open ((update_of_ne hne ..).trans h.timer)) ?_
  rfl

theorem closeConnection_dropped {fd : Fd} {p : CircularPipe} (h : Conn t c fd tfd p) :
    closeConnection t fd tfd = some (t.dropped fd tfd) := by
  obtain ⟨t', ht'⟩ := Option.isSome_iff_exists.mp (closeConnection_isSome h)
  rw [ht', closeConnection_eq_some ht']

/-- The live connection of a descriptor that has a pipe. -/
theorem conn_of_buffer (tabs : TablesInv t) {fd : Fd} (hcp : t.fdbuffermap fd = some cp) :
    ∃ c tfd, Conn t c fd tfd cp := by
  obtain ⟨c, hc⟩ := tabs.ofBuffer fd cp hcp
  obtain ⟨tfd, p, h⟩ := tabs.ofSock fd c hc
  obtain rfl := Option.some.inj (h.buffer.symm.trans hcp)
  exact ⟨c, tfd, h⟩

theorem branch_isSome (tabs : TablesInv t) (hk : k.Allowed t e) (b : Branch) :
    (branch cfg t e b k).isSome = true := by
  cases b with
  | connect =>
    simp only [branch]
    split
    · exact connect_isSome tabs hk.realfd hk.timerfd
    · rfl
  | canRead =>
    simp only [branch]
    split
    · rename_i cp hcp hev
      obtain ⟨c, tfd, h⟩ := conn_of_buffer tabs hcp
      exact canRead_isSome h (hk.bytes cp hcp)
    · rfl
  | canWrite =>
    simp only [branch]
    split
    · rename_i cp hcp hev
      obtain ⟨c, tfd, h⟩ := conn_of_buffer tabs hcp
      exact canWrite_isSome h (hk.len cp hcp)
    · rfl
  | disconnect =>
    simp only [branch]
    split
    · rename_i cp hcp hev
      obtain ⟨c, tfd, h⟩ := conn_of_buffer tabs hcp
      refine isSome_bind h.map ?_
      refine isSome_bind (connAt_sock h.sock) ?_
      exact isSome_bind (closeConnection_dropped h) rfl
    · rfl
  | timeout =>
    simp only [branch]
    split
    · rename_i realfd hreal
      obtain ⟨c, p, h⟩ := conn_of_expire tabs hreal
      refine isSome_bind (connAt_sock h.sock) ?_
      exact isSome_bind (closeConnection_dropped h) rfl
    · rfl

end Branches

/-- **No call fails.** In every state of every run, for every branch of every entry and whatever the
    kernel may choose there, the server goes on: no `epoll_ctl`, `close` or `timerfd_settime` is made that
    the descriptor tables refuse. -/
theorem run_not_stuck {cfg : Config} {b : Boot} {acts : List Act} {s : Server}
    {tr : List Event} (hr : (server cfg).run (initServer b) acts = some (s, tr)) {e : Entry}
    {br : Branch} {rest : List Entry} (hp : s.phase = .handling e br rest) {k : Choice}
    (hk : k.Allowed s.tables e) : (step cfg s (.handle k)).isSome = true := by
  simp only [step, hp, Option.isSome_map]
  exact branch_isSome (run_tables hr) hk br

theorem run_not_stuck_connect :
    ∃ s tr, (server ⟨4, 8⟩).run (initServer standardBoot) [.wait [(3, inputOnly)]] = some (s, tr) ∧
      (step ⟨4, 8⟩ s (.handle ⟨5, 6, fun _ => 0, [], 0⟩)).isSome = true := by
  have hr : (server ⟨4, 8⟩).run (initServer standardBoot) [.wait [(3, inputOnly)]] =
      some (⟨(initServer standardBoot).tables, .handling ⟨3, inputOnly, .listener⟩ .connect []⟩, []) := rfl
  refine ⟨_, _, hr, run_not_stuck hr rfl ⟨?_, ?_, nofun, nofun⟩⟩
  · decide
  · decide

end DemosOsLinux.EchoServer
