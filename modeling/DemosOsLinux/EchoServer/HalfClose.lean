/-
  Half-close: what becomes of the bytes a client sent before it shut down its sending side?

  `Net` is the server of `Server.lean` with the clients: `unread` are the bytes of a connection
  that wait in the kernel, `shut` says that the client has shut down its sending side. The
  clients send and shut down at any time; the kernel reports EPOLLIN when there is something to
  read (bytes or the end of the stream) and EPOLLRDHUP after the shutdown, and `read(2)` returns
  a front part of the unread bytes.

  The disconnect branch closes the connection at once. Bytes that are still unread or still in
  the pipe are lost (`halfClose_drops_pipe`). They are lost only there: on every connection the
  bytes sent are the bytes written back, the bytes in the pipe and the unread bytes, in this
  order (`NetInv`), so a run in which the disconnect branch always finds pipe and socket empty
  loses nothing (`halfClose_of_drained`). The program copy_file_select.cc, which uses the same
  pipe, goes on until the pipe is empty.
-/
import DemosOsLinux.EchoServer.Echo

namespace DemosOsLinux.EchoServer

open Lib Function

/-- The client's side of a connection, as the kernel has it. -/
structure Peer where
  unread : List UInt8
  shut : Bool

structure Net where
  server : Server
  peers : ConnId → Peer

inductive NetAct where
  | send (c : ConnId) (bs : List UInt8)
  | shutdown (c : ConnId)
  | server (a : Act)

inductive NetEvent where
  | sent (c : ConnId) (bs : List UInt8)
  | shut (c : ConnId)
  | server (ev : Event)
  deriving DecidableEq

/-- May `epoll_wait` report these events now? -/
def Net.mayReport (n : Net) (r : Fd × Mask) : Bool :=
  match n.server.tables.connAt r.1 with
  | none => true
  | some c =>
      (!r.2.epollIn || !(n.peers c).unread.isEmpty || (n.peers c).shut) &&
        (!r.2.epollRdHup || (n.peers c).shut)

/-- May `read(2)` for `count` bytes return `bs`? It blocks while there is nothing to read. -/
def Peer.mayRead (p : Peer) (count : Nat) (bs : List UInt8) : Bool :=
  bs.isPrefixOf p.unread && (!bs.isEmpty || count == 0 || (p.unread.isEmpty && p.shut))

/-- Do the clients and the kernel allow this step of the server? -/
def Net.allows (n : Net) : Act → Bool
  | .wait batch => batch.all n.mayReport
  | .handle k =>
      match n.server.phase with
      | .handling e .canRead _ =>
          match n.server.tables.fdbuffermap e.fd, e.events.epollIn,
            n.server.tables.connAt e.fd with
          | some cp, true, some c => (n.peers c).mayRead cp.pushCount k.bytes
          | _, _, _ => true
      | _ => true

/-- The clients after the server's events: what was read is no longer unread. -/
def consumed (peers : ConnId → Peer) (es : List Event) (c : ConnId) : Peer :=
  { peers c with unread := (peers c).unread.drop (receivedOn c es).length }

def Peer.sends (p : Peer) (bs : List UInt8) : Peer := { p with unread := p.unread ++ bs }

def Peer.shutsDown (p : Peer) : Peer := { p with shut := true }

def netStep (cfg : Config) (n : Net) : NetAct → Option (Net × List NetEvent)
  | .send c bs =>
      if (n.peers c).shut then none
      else
        some ({ n with peers := update n.peers c ((n.peers c).sends bs) }, [.sent c bs])
  | .shutdown c =>
      if (n.peers c).shut then none
      else
        some ({ n with peers := update n.peers c (n.peers c).shutsDown }, [.shut c])
  | .server a =>
      if n.allows a then
        (step cfg n.server a).map fun r => (⟨r.1, consumed n.peers r.2⟩, r.2.map .server)
      else none

def net (cfg : Config) : Machine Net NetAct NetEvent := ⟨netStep cfg⟩

def initNet (b : Boot) : Net := ⟨initServer b, fun _ => ⟨[], false⟩⟩

/-! ## What is observed -/

/-- The bytes that the client of connection `c` sent. -/
def sentOn (c : ConnId) (tr : List NetEvent) : List UInt8 :=
  tr.flatMap fun
    | .sent c' bs => if c' = c then bs else []
    | _ => []

/-- The events of the server. -/
def serverEvents (tr : List NetEvent) : List Event :=
  tr.filterMap fun
    | .server ev => some ev
    | _ => none

/-- If the client shut down its sending side, the server closed the connection and that was not
    a timeout, then all that the client sent was written back. -/
def NothingLost (c : ConnId) (tr : List NetEvent) : Prop :=
  (∀ o, Event.applied o (.timer c) ∉ serverEvents tr) → NetEvent.shut c ∈ tr →
    Event.closed c ∈ serverEvents tr → writtenOn c (serverEvents tr) = sentOn c tr

/-- If this step takes the disconnect branch, the client has shut down, nothing it sent is
    unread and the pipe is empty. -/
def drained (n : Net) : NetAct → Bool
  | .server (.handle _) =>
      match n.server.phase with
      | .handling e .disconnect _ =>
          match n.server.tables.fdbuffermap e.fd, e.events.epollRdHup,
            n.server.tables.connAt e.fd with
          | some cp, true, some c =>
              (n.peers c).shut && (n.peers c).unread.isEmpty && !cp.haveData
          | _, _, _ => true
      | _ => true
  | _ => true

theorem sentOn_append (c : ConnId) (tr es : List NetEvent) :
    sentOn c (tr ++ es) = sentOn c tr ++ sentOn c es := by
  simp only [sentOn, List.flatMap_append]

theorem serverEvents_append (tr es : List NetEvent) :
    serverEvents (tr ++ es) = serverEvents tr ++ serverEvents es := by
  simp only [serverEvents, List.filterMap_append]

theorem serverEvents_map (es : List Event) : serverEvents (es.map .server) = es := by
  induction es with
  | nil => rfl
  | cons e es ih =>
    show e :: serverEvents (es.map .server) = e :: es
    rw [ih]

theorem sentOn_map (c : ConnId) (es : List Event) : sentOn c (es.map .server) = [] := by
  simp [sentOn]

/-! ## The conservation law -/

structure NetInv (n : Net) (tr : List NetEvent) : Prop where
  run : RunInv n.server.tables (serverEvents tr)
  sent : ∀ c, sentOn c tr = receivedOn c (serverEvents tr) ++ (n.peers c).unread
  closed : ∀ c, Event.closed c ∈ serverEvents tr →
    c < n.server.tables.nextConn ∧ ∀ fd, n.server.tables.fds fd ≠ some (.sock c)
  echoed : ∀ c, (∀ o, Event.applied o (.timer c) ∉ serverEvents tr) →
    Event.closed c ∈ serverEvents tr →
    (n.peers c).shut = true ∧ writtenOn c (serverEvents tr) = sentOn c tr

section Clients

variable {n : Net} {tr : List NetEvent} {c : ConnId} {bs : List UInt8}

theorem NetInv.sends (inv : NetInv n tr) (hopen : (n.peers c).shut = false) :
    NetInv { n with peers := update n.peers c ((n.peers c).sends bs) }
      (tr ++ [.sent c bs]) := by
  have hserver : serverEvents (tr ++ [.sent c bs]) = serverEvents tr := by
    simp [serverEvents]
  refine ⟨?_, ?_, ?_, ?_⟩
  · rw [hserver]
    exact inv.run
  · intro c'
    rw [hserver, sentOn_append, inv.sent c']
    by_cases e : c' = c
    · subst e
      simp [sentOn, Peer.sends]
    · simp [sentOn, Ne.symm e, update_of_ne e]
  · intro c' h
    rw [hserver] at h
    exact inv.closed c' h
  · intro c' hno hcl
    rw [hserver] at hno hcl ⊢
    obtain ⟨h1, h2⟩ := inv.echoed c' hno hcl
    have e : c' ≠ c := by
      rintro rfl
      rw [hopen] at h1
      cases h1
    refine ⟨?_, ?_⟩
    · simp only [update_of_ne e]
      exact h1
    · rw [sentOn_append, h2]
      simp [sentOn, Ne.symm e]

theorem NetInv.shutsDown (inv : NetInv n tr) :
    NetInv { n with peers := update n.peers c (n.peers c).shutsDown }
      (tr ++ [.shut c]) := by
  have hserver : serverEvents (tr ++ [.shut c]) = serverEvents tr := by
    simp [serverEvents]
  have hsent (c' : ConnId) : sentOn c' (tr ++ [.shut c]) = sentOn c' tr := by
    simp [sentOn]
  refine ⟨?_, ?_, ?_, ?_⟩
  · rw [hserver]
    exact inv.run
  · intro c'
    rw [hserver, hsent, inv.sent c']
    by_cases e : c' = c
    · simp only [e, update_self, Peer.shutsDown]
    · simp only [update_of_ne e]
  · intro c' h
    rw [hserver] at h
    exact inv.closed c' h
  · intro c' hno hcl
    rw [hserver] at hno hcl ⊢
    obtain ⟨h1, h2⟩ := inv.echoed c' hno hcl
    refine ⟨?_, by rw [hsent, h2]⟩
    by_cases e : c' = c
    · simp only [e, update_self, Peer.shutsDown]
    · simp only [update_of_ne e]
      exact h1

end Clients

/-! ## The server's steps -/

section Steps

variable {cfg : Config} {n : Net} {tr : List NetEvent} {e : Entry} {rest : List Entry} {k : Choice}
  {b : Branch} {es : List Event} {t' : Tables} {c : ConnId}

section Works

variable (hw : Works cfg n.server.tables e k b es t')
include hw

/-- What a branch receives was unread. -/
theorem works_received
    (hp : n.server.phase = .handling e b rest) (hallow : n.allows (.handle k) = true) (c : ConnId) :
    receivedOn c es <+: (n.peers c).unread := by
  cases hw with
  | accept => exact List.nil_prefix
  | read c' cp hev hcp hc hlen =>
    have hconn : n.server.tables.connAt e.fd = some c' := by
      simp only [Tables.connAt, hc]
    simp only [Net.allows, hp, hcp, hev, hconn, Peer.mayRead, Bool.and_eq_true] at hallow
    by_cases h : c' = c
    · subst h
      simpa [receivedOn, Event.receivedOn] using List.isPrefixOf_iff_prefix.mp hallow.1
    · simp [receivedOn, Event.receivedOn, h]
  | write => exact List.nil_prefix
  | hangup => exact List.nil_prefix
  | expire => exact List.nil_prefix

/-- Only an open connection is written to. -/
theorem works_written
    (hno : ∀ fd, n.server.tables.fds fd ≠ some (.sock c)) : writtenOn c es = [] := by
  cases hw with
  | accept => rfl
  | read => rfl
  | write c' cp hev hcp hc hlen =>
    have h : c' ≠ c := by
      rintro rfl
      exact hno e.fd hc
    simp [writtenOn, Event.writtenOn, h]
  | hangup => rfl
  | expire => rfl

/-- A closed connection is not open, and its number is not used again. -/
theorem works_closed (tabs : TablesInv n.server.tables)
    (h : (c < n.server.tables.nextConn ∧ ∀ fd, n.server.tables.fds fd ≠ some (.sock c)) ∨
      Event.closed c ∈ es) : c < t'.nextConn ∧ ∀ fd, t'.fds fd ≠ some (.sock c) := by
  have hdrop {c' : ConnId} {fd tfd : Fd} {p : CircularPipe}
      (hconn : Conn n.server.tables c' fd tfd p)
      (h : (c < n.server.tables.nextConn ∧ ∀ fd, n.server.tables.fds fd ≠ some (.sock c)) ∨
        c = c') :
      c < n.server.tables.nextConn ∧
        ∀ g, (n.server.tables.dropped fd tfd).fds g ≠ some (.sock c) := by
    rcases h with h | rfl
    · exact ⟨h.1, fun g hg => h.2 g (dropped_fds hg).2.2⟩
    · refine ⟨hconn.known, fun g hg => ?_⟩
      obtain ⟨h1, _, h2⟩ := dropped_fds hg
      exact h1 (tabs.unique g fd c h2 hconn.sock)
  cases hw with
  | accept hfd hreal htimer hne =>
    rcases h with h | h
    · refine ⟨Nat.lt_succ_of_lt h.1, fun g hg => ?_⟩
      rcases opened_fds hg with ⟨_, ho⟩ | ⟨_, ho⟩ | ho
      · cases ho
      · exact absurd (Obj.sock.inj ho) (Nat.ne_of_lt h.1)
      · exact h.2 g ho
    · simp at h
  | read c' cp hev hcp hc hlen =>
    rcases h with h | h
    · exact h
    · simp at h
  | write c' cp hev hcp hc hlen =>
    rcases h with h | h
    · exact h
    · simp at h
  | hangup c' timerfd hev hc htimer =>
    obtain ⟨p, hconn⟩ := conn_of_hangup tabs hc htimer
    exact hdrop hconn (h.imp_right fun h => by simpa using h)
  | expire c' realfd hreal hc =>
    obtain ⟨c'', p, hconn⟩ := conn_of_expire tabs hreal
    obtain rfl := Obj.sock.inj (Option.some.inj (hconn.sock.symm.trans hc))
    exact hdrop hconn (h.imp_right fun h => by simpa using h)

/-- A connection that a drained disconnect branch closes has been echoed. -/
theorem works_drained (inv : NetInv n tr)
    (hp : n.server.phase = .handling e b rest) (hd : drained n (.server (.handle k)) = true)
    (hcl : Event.closed c ∈ es) (hno : ∀ o, Event.applied o (.timer c) ∉ es) :
    (n.peers c).shut = true ∧ writtenOn c (serverEvents tr) = sentOn c tr := by
  cases hw with
  | accept => simp at hcl
  | read => simp at hcl
  | write => simp at hcl
  | hangup c' timerfd hev hc htimer =>
    obtain rfl : c = c' := by simpa using hcl
    obtain ⟨p, hconn⟩ := conn_of_hangup inv.run.tabs hc htimer
    have hat : n.server.tables.connAt e.fd = some c := by
      simp only [Tables.connAt, hc]
    simp only [drained, hp, hconn.buffer, hev, hat, Bool.and_eq_true] at hd
    obtain ⟨⟨hshut, hunread⟩, hdata⟩ := hd
    have hpipe : p.stored = [] := by
      have hlen := CircularPipe.length_stored (inv.run.pipes e.fd p hconn.buffer)
      have hzero : p.data = 0 := by simpa [CircularPipe.haveData] using hdata
      exact List.length_eq_zero_iff.mp (hlen.trans hzero)
    refine ⟨hshut, ?_⟩
    rw [inv.sent c, inv.run.echo.live c e.fd timerfd p hconn, hpipe,
      List.isEmpty_iff.mp hunread, List.append_nil, List.append_nil]
  | expire c' realfd hreal hc =>
    obtain rfl : c = c' := by simpa using hcl
    exact absurd (List.mem_cons_self) (hno e.source)

end Works

end Steps

/-- A step of the server that does not touch the tables. -/
theorem NetInv.idle {n : Net} {tr : List NetEvent} (inv : NetInv n tr) {s' : Server}
    (ht : s'.tables = n.server.tables) :
    NetInv ⟨s', consumed n.peers []⟩ (tr ++ ([] : List Event).map .server) := by
  rw [List.map_nil, List.append_nil]
  refine ⟨?_, ?_, ?_, ?_⟩
  · rw [ht]
    exact inv.run
  · exact inv.sent
  · rw [ht]
    exact inv.closed
  · exact inv.echoed

theorem step_net {cfg : Config} (hbuf : 1 ≤ cfg.bufsize.toNat) {n n' : Net} {a : NetAct}
    {tr es : List NetEvent} (inv : NetInv n tr) (hd : drained n a = true)
    (h : (net cfg).step n a = some (n', es)) : NetInv n' (tr ++ es) := by
  cases a with
  | send c bs =>
    simp only [net, netStep] at h
    split at h
    · cases h
    · rename_i hs
      obtain ⟨rfl, rfl⟩ := result_inj h
      exact inv.sends (Bool.eq_false_iff.mpr hs)
  | shutdown c =>
    simp only [net, netStep] at h
    split at h
    · cases h
    · obtain ⟨rfl, rfl⟩ := result_inj h
      exact inv.shutsDown
  | server a =>
    simp only [net, netStep] at h
    split at h
    · rename_i hallow
      obtain ⟨⟨s', es'⟩, hs, he⟩ := Option.map_eq_some_iff.mp h
      obtain ⟨rfl, rfl⟩ := Prod.mk.inj he
      have hrun := step_echo hbuf inv.run hs
      have htrans : Trans cfg n.server a es' s' := trans_of_step hs
      cases htrans with
      | wait batch hp hb => exact inv.idle rfl
      | skip e b rest k hp => exact inv.idle rfl
      | work e b rest k _ t hp hw =>
        have hev : serverEvents (tr ++ es'.map .server) = serverEvents tr ++ es' := by
          rw [serverEvents_append, serverEvents_map]
        have hsent (c : ConnId) : sentOn c (tr ++ es'.map .server) = sentOn c tr := by
          rw [sentOn_append, sentOn_map, List.append_nil]
        refine ⟨?_, ?_, ?_, ?_⟩
        · rw [hev]
          exact hrun
        · intro c
          obtain ⟨rest', hrest⟩ := works_received hw hp hallow c
          rw [hsent, hev, receivedOn_append, inv.sent c, List.append_assoc]
          simp only [consumed, ← hrest, List.drop_left]
        · intro c hcl
          rw [hev, List.mem_append] at hcl
          exact works_closed hw inv.run.tabs (hcl.imp_left (inv.closed c))
        · intro c hno hcl
          rw [hev] at hno hcl ⊢
          have hno₁ (o : Obj) : Event.applied o (.timer c) ∉ serverEvents tr := fun h =>
            hno o (List.mem_append_left _ h)
          have hno₂ (o : Obj) : Event.applied o (.timer c) ∉ es' := fun h =>
            hno o (List.mem_append_right _ h)
          -- closed before this step, or by it; in both cases this step writes nothing on it
          rcases List.mem_append.mp hcl with hold | hnew
          · obtain ⟨h1, h2⟩ := inv.echoed c hno₁ hold
            refine ⟨h1, ?_⟩
            rw [hsent, writtenOn_append, works_written hw (inv.closed c hold).2, List.append_nil,
              h2]
          · obtain ⟨h1, h2⟩ := works_drained hw inv hp hd hnew hno₂
            refine ⟨h1, ?_⟩
            have hw0 : writtenOn c es' = [] := by
              cases hw with
              | write => simp at hnew
              | _ => rfl
            rw [hsent, writtenOn_append, hw0, List.append_nil, h2]
    · cases h

theorem netInv_initNet (cfg : Config) (hbuf : 1 ≤ cfg.bufsize.toNat) (b : Boot) :
    NetInv (initNet b) [] := by
  refine ⟨?_, ?_, ?_, ?_⟩
  · exact run_echo hbuf ((server cfg).run_nil (initServer b))
  · intro c
    rfl
  · intro c h
    cases h
  · intro c _ h
    cases h

/-! ## Whole runs -/

/-- **No data loss on half-close.** In every run in which each disconnect branch finds the
    client's sending side shut down, the socket read to its end and the pipe empty, a client
    that shuts down its sending side has got back all it sent when the server closes. -/
theorem halfClose_of_drained (cfg : Config) (hbuf : 1 ≤ cfg.bufsize.toNat) (b : Boot)
    (acts : List NetAct) (n : Net) (tr : List NetEvent)
    (hd : (net cfg).Along (fun n a => drained n a = true) (initNet b) acts)
    (hr : (net cfg).run (initNet b) acts = some (n, tr)) (c : ConnId) : NothingLost c tr := by
  have inv := (net cfg).run_induct_along (fun n a => drained n a = true) NetInv
    (fun _ _ _ _ _ hd inv hs => step_net hbuf inv hd hs) acts (initNet b) [] n tr hd
    (netInv_initNet cfg hbuf b) hr
  intro hno _ hcl
  exact (inv.echoed c hno hcl).2

/-- Connection 0 sends three bytes and shuts down after the server has read them: the report
    that follows has EPOLLOUT beside EPOLLIN and EPOLLRDHUP, so they are written back before the
    close. -/
def drainedRun : List NetAct :=
  [.server (.wait [(3, inputOnly)]), .server (.handle ⟨5, 6, fun _ => 0, [], 0⟩),
      .server (.handle idle), .server (.handle idle), .server (.handle idle),
      .server (.handle idle),
    .send 0 [1, 2, 3], .server (.wait [(5, ⟨true, false, false⟩)]), .server (.handle idle),
      .server (.handle ⟨0, 0, fun _ => 0, [1, 2, 3], 0⟩), .server (.handle idle),
      .server (.handle idle), .server (.handle idle),
    .shutdown 0, .server (.wait [(5, ⟨true, true, true⟩)]), .server (.handle idle),
      .server (.handle idle), .server (.handle ⟨0, 0, fun _ => 0, [], 3⟩), .server (.handle idle),
      .server (.handle idle)]

theorem halfClose_drainedRun :
    ∃ n tr, (net ⟨8, 8⟩).run (initNet standardBoot) drainedRun = some (n, tr) ∧
      NothingLost 0 tr ∧ NetEvent.shut 0 ∈ tr ∧ Event.closed 0 ∈ serverEvents tr := by
  obtain ⟨n, tr, hr, hu⟩ := (net ⟨8, 8⟩).exists_of_check (initNet standardBoot) drainedRun
    (fun _ tr => NetEvent.shut 0 ∈ tr ∧ Event.closed 0 ∈ serverEvents tr) (by decide +kernel)
  have hd := (net ⟨8, 8⟩).along_of_check drained drainedRun (initNet standardBoot)
    (by decide +kernel)
  have h := halfClose_of_drained ⟨8, 8⟩ (by decide) standardBoot drainedRun n tr hd hr 0
  exact ⟨n, tr, hr, h, hu⟩

/-- Connection 0 sends three bytes and shuts down; one report has EPOLLIN and EPOLLRDHUP. -/
def halfCloseRun : List NetAct :=
  [.server (.wait [(3, inputOnly)]), .server (.handle ⟨5, 6, fun _ => 0, [], 0⟩),
      .server (.handle idle), .server (.handle idle), .server (.handle idle),
      .server (.handle idle),
    .send 0 [1, 2, 3], .shutdown 0, .server (.wait [(5, ⟨true, false, true⟩)]),
      .server (.handle idle), .server (.handle ⟨0, 0, fun _ => 0, [1, 2, 3], 0⟩),
      .server (.handle idle), .server (.handle idle), .server (.handle idle)]

/-- The three bytes are read into the pipe and the connection is closed with them in it. -/
theorem halfClose_drops_pipe :
    ∃ n tr, (net ⟨8, 8⟩).run (initNet standardBoot) halfCloseRun = some (n, tr) ∧
      ¬ NothingLost 0 tr ∧ sentOn 0 tr = [1, 2, 3] ∧ writtenOn 0 (serverEvents tr) = [] := by
  have hrun : ((net ⟨8, 8⟩).run (initNet standardBoot) halfCloseRun).map Prod.snd =
      some [.server (.applied .listener .listener), .server (.accepted 0), .sent 0 [1, 2, 3],
        .shut 0, .server (.applied (.sock 0) (.sock 0)), .server (.read 0 [1, 2, 3]),
        .server (.applied (.sock 0) (.sock 0)), .server (.closed 0)] := by
    decide +kernel
  obtain ⟨⟨n, tr⟩, hr, rfl⟩ := Option.map_eq_some_iff.mp hrun
  refine ⟨n, _, hr, ?_, by decide, by decide⟩
  intro h
  have := h (by simp [serverEvents]) (by simp) (by simp [serverEvents])
  revert this
  decide

end DemosOsLinux.EchoServer
