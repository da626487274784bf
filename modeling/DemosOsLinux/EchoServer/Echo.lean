/-
  Echo correctness: what is written back on a connection is what was received on it.

  `receivedOn c tr` and `writtenOn c tr` are the bytes of connection `c` in a trace. On a live
  connection the bytes received are the bytes written back followed by those in its pipe
  (`EchoInv`); what a closed connection has got was echoed before. This does not need the
  entries of a batch to be fresh: an entry that outlived its connection acts on the connection
  that has the descriptor now, with that connection's own pipe.
-/
import DemosOsLinux.EchoServer.Connections

namespace DemosOsLinux.EchoServer

open Lib Function

/-- The bytes that one event receives on connection `c`. -/
def Event.receivedOn (c : ConnId) : Event → List UInt8
  | .read c' bs => if c' = c then bs else []
  | _ => []

/-- The bytes that one event writes back on connection `c`. -/
def Event.writtenOn (c : ConnId) : Event → List UInt8
  | .wrote c' bs => if c' = c then bs else []
  | _ => []

def receivedOn (c : ConnId) (tr : List Event) : List UInt8 := tr.flatMap (Event.receivedOn c)

def writtenOn (c : ConnId) (tr : List Event) : List UInt8 := tr.flatMap (Event.writtenOn c)

theorem receivedOn_append (c : ConnId) (tr es : List Event) :
    receivedOn c (tr ++ es) = receivedOn c tr ++ receivedOn c es := by
  simp only [receivedOn, List.flatMap_append]

theorem writtenOn_append (c : ConnId) (tr es : List Event) :
    writtenOn c (tr ++ es) = writtenOn c tr ++ writtenOn c es := by
  simp only [writtenOn, List.flatMap_append]

structure EchoInv (t : Tables) (tr : List Event) : Prop where
  new : ∀ c, t.nextConn ≤ c → receivedOn c tr = [] ∧ writtenOn c tr = []
  live : ∀ c fd tfd p, Conn t c fd tfd p → receivedOn c tr = writtenOn c tr ++ p.stored
  echoed : ∀ c, writtenOn c tr <+: receivedOn c tr

/-! ## One step -/

section Step

variable {t t' : Tables} {tr es : List Event}

/-- A step that transfers nothing and after which the live connections are old ones. -/
theorem EchoInv.quiet (inv : EchoInv t tr) (hr : ∀ c, receivedOn c es = [])
    (hw : ∀ c, writtenOn c es = []) (hn : t.nextConn ≤ t'.nextConn)
    (hl : ∀ c fd tfd p, Conn t' c fd tfd p →
      Conn t c fd tfd p ∨ (t.nextConn ≤ c ∧ p.stored = [])) : EchoInv t' (tr ++ es) := by
  have hr' (c : ConnId) : receivedOn c (tr ++ es) = receivedOn c tr := by
    rw [receivedOn_append, hr, List.append_nil]
  have hw' (c : ConnId) : writtenOn c (tr ++ es) = writtenOn c tr := by
    rw [writtenOn_append, hw, List.append_nil]
  refine ⟨?_, ?_, ?_⟩
  · intro c hc
    rw [hr', hw']
    exact inv.new c (Nat.le_trans hn hc)
  · intro c fd tfd p h
    rw [hr', hw']
    rcases hl c fd tfd p h with h | ⟨hc, hp⟩
    · exact inv.live c fd tfd p h
    · rw [(inv.new c hc).1, (inv.new c hc).2, hp]
      rfl
  · intro c
    rw [hr', hw']
    exact inv.echoed c

/-- A transfer on the connection `c`, which leaves the pipe `q`. -/
theorem EchoInv.transfer {c : ConnId} {fd tfd : Fd} {p q : CircularPipe} (inv : EchoInv t tr)
    (tabs : TablesInv t) (h : Conn t c fd tfd p) (hr : ∀ c', c' ≠ c → receivedOn c' es = [])
    (hw : ∀ c', c' ≠ c → writtenOn c' es = [])
    (hq : receivedOn c tr ++ receivedOn c es = writtenOn c tr ++ writtenOn c es ++ q.stored) :
    EchoInv (t.withPipe fd q) (tr ++ es) := by
  have hr' (c' : ConnId) (hc : c' ≠ c) : receivedOn c' (tr ++ es) = receivedOn c' tr := by
    rw [receivedOn_append, hr c' hc, List.append_nil]
  have hw' (c' : ConnId) (hc : c' ≠ c) : writtenOn c' (tr ++ es) = writtenOn c' tr := by
    rw [writtenOn_append, hw c' hc, List.append_nil]
  refine ⟨?_, ?_, ?_⟩
  · intro c' hc
    have hne : c' ≠ c := by
      rintro rfl
      exact absurd h.known (Nat.not_lt.mpr hc)
    rw [hr' c' hne, hw' c' hne]
    exact inv.new c' hc
  · intro c' fd' tfd' p' h'
    rcases conn_of_withPipe tabs h h' with ⟨rfl, rfl⟩ | ⟨hne, hc⟩
    · rw [receivedOn_append, writtenOn_append]
      exact hq
    · rw [hr' c' hne, hw' c' hne]
      exact inv.live c' fd' tfd' p' hc
  · intro c'
    by_cases hc : c' = c
    · subst hc
      rw [receivedOn_append, writtenOn_append, hq]
      exact List.prefix_append _ _
    · rw [hr' c' hc, hw' c' hc]
      exact inv.echoed c'

end Step

/-- Every pipe of the tables keeps the invariant of its class. -/
def PipesWf (t : Tables) : Prop := ∀ fd p, t.fdbuffermap fd = some p → p.Wf

variable {t : Tables} {cfg : Config}

theorem PipesWf.update (h : PipesWf t) {fd : Fd} {q : CircularPipe} (wf : q.Wf) :
    ∀ fd' p, Function.update t.fdbuffermap fd (some q) fd' = some p → p.Wf := by
  intro fd' p hp
  by_cases e : fd' = fd
  · rw [e, Function.update_self] at hp
    rw [← Option.some.inj hp]
    exact wf
  · rw [Function.update_of_ne e] at hp
    exact h fd' p hp

theorem PipesWf.dropped (h : PipesWf t) (fd tfd : Fd) : PipesWf (t.dropped fd tfd) := by
  intro fd' p hp
  by_cases e : fd' = fd
  · simp only [Tables.dropped, e, update_self] at hp
    cases hp
  · simp only [Tables.dropped, update_of_ne e] at hp
    exact h fd' p hp

theorem works_pipes (hbuf : 1 ≤ cfg.bufsize.toNat) {t' : Tables} {e : Entry} {k : Choice}
    {b : Branch} {es : List Event} (h : Works cfg t e k b es t') (pipes : PipesWf t) :
    PipesWf t' := by
  have h64 : cfg.bufsize.toNat < 2 ^ 64 := Nat.lt_trans cfg.bufsize.toNat_lt (by decide)
  cases h with
  | accept hfd hreal htimer hne => exact pipes.update (CircularPipe.wf_ctor k.mem hbuf h64)
  | read c cp hev hcp hc hlen => exact pipes.update (CircularPipe.wf_push (pipes _ _ hcp) hlen)
  | write c cp hev hcp hc hlen => exact pipes.update (CircularPipe.wf_pull (pipes _ _ hcp) k.len)
  | hangup c timerfd hev hc htimer => exact pipes.dropped e.fd timerfd
  | expire c realfd hreal hc => exact pipes.dropped realfd e.fd

theorem works_echo (hbuf : 1 ≤ cfg.bufsize.toNat) {t' : Tables} {e : Entry} {k : Choice}
    {b : Branch} {es tr : List Event} (h : Works cfg t e k b es t') (tabs : TablesInv t)
    (pipes : PipesWf t) (inv : EchoInv t tr) : EchoInv t' (tr ++ es) := by
  have h64 : cfg.bufsize.toNat < 2 ^ 64 := Nat.lt_trans cfg.bufsize.toNat_lt (by decide)
  cases h with
  | accept hfd hreal htimer hne =>
    refine inv.quiet (fun _ => rfl) (fun _ => rfl) (Nat.le_succ _) ?_
    intro c fd tfd p hconn
    rcases conn_of_opened hreal htimer hne tabs hconn with ⟨rfl, rfl⟩ | hold
    · exact Or.inr ⟨Nat.le_refl _, CircularPipe.stored_ctor k.mem hbuf h64⟩
    · exact Or.inl hold
  | read c cp hev hcp hc hlen =>
    obtain ⟨tfd, p, hconn⟩ := tabs.ofSock e.fd c hc
    obtain rfl := Option.some.inj (hconn.buffer.symm.trans hcp)
    have wf := pipes e.fd p hcp
    refine inv.transfer tabs hconn ?_ (fun _ _ => rfl) ?_
    · intro c' hne
      simp [receivedOn, Event.receivedOn, hne.symm]
    · have hlive := inv.live c e.fd tfd p hconn
      rw [CircularPipe.stored_push wf hlen, hlive]
      simp [receivedOn, writtenOn, Event.receivedOn, Event.writtenOn]
  | write c cp hev hcp hc hlen =>
    obtain ⟨tfd, p, hconn⟩ := tabs.ofSock e.fd c hc
    obtain rfl := Option.some.inj (hconn.buffer.symm.trans hcp)
    have wf := pipes e.fd p hcp
    refine inv.transfer tabs hconn (fun _ _ => rfl) ?_ ?_
    · intro c' hne
      simp [writtenOn, Event.writtenOn, hne.symm]
    · have hlive := inv.live c e.fd tfd p hconn
      rw [CircularPipe.stored_pull wf hlen, CircularPipe.pull_bytes wf hlen, hlive]
      simp [receivedOn, writtenOn, Event.receivedOn, Event.writtenOn]
  | hangup c timerfd hev hc htimer =>
    obtain ⟨p, hconn⟩ := conn_of_hangup tabs hc htimer
    exact inv.quiet (fun _ => rfl) (fun _ => rfl) (Nat.le_refl _)
      (fun _ _ _ _ h => Or.inl (conn_of_dropped tabs hconn h))
  | expire c realfd hreal hc =>
    obtain ⟨c', p, hconn⟩ := conn_of_expire tabs hreal
    exact inv.quiet (fun _ => rfl) (fun _ => rfl) (Nat.le_refl _)
      (fun _ _ _ _ h => Or.inl (conn_of_dropped tabs hconn h))

/-! ## Whole runs -/

/-- What holds of the tables and the trace at every step. -/
structure RunInv (t : Tables) (tr : List Event) : Prop where
  tabs : TablesInv t
  pipes : PipesWf t
  echo : EchoInv t tr

theorem step_echo (hbuf : 1 ≤ cfg.bufsize.toNat) {s s' : Server} {a : Act} {es tr : List Event}
    (inv : RunInv s.tables tr) (h : (server cfg).step s a = some (s', es)) :
    RunInv s'.tables (tr ++ es) := by
  have htrans : Trans cfg s a es s' := trans_of_step h
  cases htrans with
  | wait batch hp hb =>
    rw [List.append_nil]
    exact ⟨inv.tabs, inv.pipes, inv.echo⟩
  | skip e b rest k hp =>
    rw [List.append_nil]
    exact ⟨inv.tabs, inv.pipes, inv.echo⟩
  | work e b rest k es t hp hw =>
    exact ⟨works_tables hw inv.tabs, works_pipes hbuf hw inv.pipes,
      works_echo hbuf hw inv.tabs inv.pipes inv.echo⟩

theorem run_echo (hbuf : 1 ≤ cfg.bufsize.toNat) {b : Boot} {acts : List Act} {s : Server}
    {tr : List Event} (hr : (server cfg).run (initServer b) acts = some (s, tr)) :
    RunInv s.tables tr := by
  refine (server cfg).run_induct (fun _ => True) (fun s tr => RunInv s.tables tr) ?_
    (fun _ _ => trivial) ?_ hr
  · intro s tr a s' es _ hi hs
    exact step_echo hbuf hi hs
  · refine ⟨tablesInv_initServer b, ?_, fun _ _ => ⟨rfl, rfl⟩, ?_,
      fun _ => List.prefix_rfl⟩
    · intro fd p h
      cases h
    · intro c fd tfd p h
      exact absurd h.known (Nat.not_lt_zero c)

/-- **Echo correctness.** In every run of the event loop, on every connection the bytes written
    back are a prefix of the bytes received; and at `epoll_wait` every live connection has a
    pipe and is registered for EPOLLIN exactly when that has room and for EPOLLOUT exactly when
    it has data. -/
theorem echo_correct (cfg : Config) (hbuf : 2 ≤ cfg.bufsize.toNat) (b : Boot) (acts : List Act)
    (s : Server) (tr : List Event) (hr : (server cfg).run (initServer b) acts = some (s, tr)) :
    (∀ c, writtenOn c tr <+: receivedOn c tr) ∧
    (s.phase = .waiting → ∀ fd c, s.tables.fds fd = some (.sock c) →
      ∃ p m, s.tables.fdbuffermap fd = some p ∧ s.tables.interest fd = some m ∧
        (m.epollIn = true ↔ 0 < p.room) ∧ (m.epollOut = true ↔ 0 < p.data)) := by
  have inv := run_echo (by omega) hr
  refine ⟨inv.echo.echoed, ?_⟩
  intro _ fd c hfd
  obtain ⟨tfd, p, hconn⟩ := inv.tabs.ofSock fd c hfd
  exact ⟨p, wanted p, hconn.buffer, hconn.registered, CircularPipe.canPush_iff p,
    CircularPipe.canPull_iff p⟩

/-- The program started with the three standard descriptors. -/
def standardBoot : Boot where
  inherited := {0, 1, 2}
  sockfd := 3
  epollfd := 4
  sockNew := by decide
  epollNew := by decide

/-- A branch in which the kernel has nothing to choose. -/
def idle : Choice := ⟨0, 0, fun _ => 0, [], 0⟩

/-- One connection: accepted at 5 with its timer at 6, three bytes received, two echoed. -/
def oneConnectionRun : List Act :=
  [.wait [(3, inputOnly)], .handle ⟨5, 6, fun _ => 0, [], 0⟩, .handle idle, .handle idle,
      .handle idle, .handle idle,
    .wait [(5, ⟨true, false, false⟩)], .handle idle, .handle ⟨0, 0, fun _ => 0, [1, 2, 3], 0⟩,
      .handle idle, .handle idle, .handle idle,
    .wait [(5, ⟨false, true, false⟩)], .handle idle, .handle idle,
      .handle ⟨0, 0, fun _ => 0, [], 2⟩, .handle idle, .handle idle]

theorem echo_correct_oneConnectionRun :
    ∃ s tr, (server ⟨4, 8⟩).run (initServer standardBoot) oneConnectionRun = some (s, tr) ∧
      writtenOn 0 tr <+: receivedOn 0 tr ∧ receivedOn 0 tr = [1, 2, 3] ∧
      ∃ p m, s.tables.fdbuffermap 5 = some p ∧ s.tables.interest 5 = some m ∧
        (m.epollIn = true ↔ 0 < p.room) ∧ (m.epollOut = true ↔ 0 < p.data) := by
  obtain ⟨s, tr, hr, hrecv, hphase, hfd⟩ :=
    (server ⟨4, 8⟩).exists_of_check (initServer standardBoot) oneConnectionRun
    (fun s tr => receivedOn 0 tr = [1, 2, 3] ∧ s.phase = .waiting ∧
      s.tables.fds 5 = some (.sock 0)) (by decide +kernel)
  have hc := echo_correct ⟨4, 8⟩ (by decide) standardBoot oneConnectionRun s tr hr
  exact ⟨s, tr, hr, hc.1 0, hrecv, hc.2 hphase 5 0 hfd⟩

end DemosOsLinux.EchoServer
