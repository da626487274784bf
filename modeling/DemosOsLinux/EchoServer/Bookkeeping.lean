/-
  The bookkeeping of the echo server: descriptors, maps and pipes never get out of step.

  Read through `Memory.view` each step of `MemTrans.lean` is a step of `Trans.lean`
  (`MemWorks.works`), so the invariant of `Connections.lean` carries over. `PtrInv` is what the
  pointers add, and `Ledger` accounts for every accepted connection: it is live and nothing of it
  has been closed or deleted, or it is gone and its socket, its timer and its pipe were given
  back once each. `bookkeeping` puts them together; it needs no assumption on the batches, so
  stale entries are included.
-/
import DemosOsLinux.EchoServer.MemTrans
import DemosOsLinux.EchoServer.Attribution

namespace DemosOsLinux.EchoServer

open Lib Function

/-! ## The pointers -/

structure PtrInv (m : Memory) : Prop where
  inj : ∀ fd fd' p, m.fdbuffermap fd = some p → m.fdbuffermap fd' = some p → fd = fd'
  bound : ∀ fd p, m.fdbuffermap fd = some p → p < m.nextPtr
  alive : ∀ fd p, m.fdbuffermap fd = some p → ∃ cp, m.heap p = some cp

section Pointers

variable {m : Memory} {fd tfd realfd timerfd : Fd} {p : Ptr} {cp : CircularPipe}

theorem PtrInv.opened (inv : PtrInv m) : PtrInv (m.opened cp realfd timerfd) := by
  have hold {fd : Fd} {p : Ptr} (hne : fd ≠ realfd)
      (h : update m.fdbuffermap realfd (some m.nextPtr) fd = some p) :
      m.fdbuffermap fd = some p := by
    rwa [update_of_ne hne] at h
  have hnew {fd : Fd} {p : Ptr} (he : fd = realfd)
      (h : update m.fdbuffermap realfd (some m.nextPtr) fd = some p) :
      p = m.nextPtr := by
    rw [he, update_self] at h
    exact (Option.some.inj h).symm
  refine ⟨?_, ?_, ?_⟩
  · intro fd fd' p h h'
    by_cases e : fd = realfd
    · by_cases e' : fd' = realfd
      · rw [e, e']
      · have hb := inv.bound fd' p (hold e' h')
        rw [hnew e h] at hb
        exact absurd hb (Nat.lt_irrefl _)
    · by_cases e' : fd' = realfd
      · have hb := inv.bound fd p (hold e h)
        rw [hnew e' h'] at hb
        exact absurd hb (Nat.lt_irrefl _)
      · exact inv.inj fd fd' p (hold e h) (hold e' h')
  · intro fd p h
    by_cases e : fd = realfd
    · rw [hnew e h]
      exact Nat.lt_succ_self _
    · exact Nat.lt_succ_of_lt (inv.bound fd p (hold e h))
  · intro fd p h
    by_cases e : fd = realfd
    · rw [hnew e h]
      exact ⟨cp, update_self ..⟩
    · obtain ⟨cp', hcp⟩ := inv.alive fd p (hold e h)
      have hne : p ≠ m.nextPtr := Nat.ne_of_lt (inv.bound fd p (hold e h))
      exact ⟨cp', (update_of_ne hne ..).trans hcp⟩

theorem PtrInv.ptr_ne (inv : PtrInv m) {fd' : Fd} {p' : Ptr} (hp : m.fdbuffermap fd = some p)
    (h : m.fdbuffermap fd' = some p') (hne : fd' ≠ fd) : p' ≠ p := by
  rintro rfl
  exact hne (inv.inj fd' fd p' h hp)

theorem PtrInv.withPipe (inv : PtrInv m) : PtrInv (m.withPipe fd p cp) := by
  refine ⟨inv.inj, inv.bound, ?_⟩
  intro fd' p' h
  by_cases e : p' = p
  · exact ⟨cp, by simp only [Memory.withPipe, e, update_self]⟩
  · obtain ⟨cp', hcp⟩ := inv.alive fd' p' h
    exact ⟨cp', (update_of_ne e ..).trans hcp⟩

/-- The pointer of a descriptor that keeps its entry is another one. -/
theorem PtrInv.dropped (inv : PtrInv m) (hp : m.fdbuffermap fd = some p) :
    PtrInv (m.dropped fd tfd p) := by
  have hold {fd' : Fd} {p' : Ptr} (h : update m.fdbuffermap fd none fd' = some p') :
      fd' ≠ fd ∧ m.fdbuffermap fd' = some p' := by
    by_cases e : fd' = fd
    · rw [e, update_self] at h
      cases h
    · rw [update_of_ne e] at h
      exact ⟨e, h⟩
  refine ⟨?_, ?_, ?_⟩
  · intro fd₁ fd₂ p' h₁ h₂
    exact inv.inj fd₁ fd₂ p' (hold h₁).2 (hold h₂).2
  · intro fd' p' h
    exact inv.bound fd' p' (hold h).2
  · intro fd' p' h
    obtain ⟨hne, h⟩ := hold h
    obtain ⟨cp', hcp⟩ := inv.alive fd' p' h
    exact ⟨cp', (update_of_ne (inv.ptr_ne hp h hne) ..).trans hcp⟩

/-- The pipe that the view has at a descriptor. -/
theorem view_buffer (hp : m.fdbuffermap fd = some p) (hcp : m.heap p = some cp) :
    m.view.fdbuffermap fd = some cp := by
  simp only [Memory.view, hp, Option.bind_some, hcp]

theorem view_opened (inv : PtrInv m) :
    (m.opened cp realfd timerfd).view = m.view.opened cp realfd timerfd := by
  simp only [Memory.view, Memory.opened, Tables.opened, Tables.mk.injEq, true_and, and_true]
  funext fd
  by_cases e : fd = realfd
  · rw [e, update_self, update_self, Option.bind_some, update_self]
  · rw [update_of_ne e, update_of_ne e]
    cases h : m.fdbuffermap fd with
    | none => rfl
    | some p =>
      have hne : p ≠ m.nextPtr := Nat.ne_of_lt (inv.bound fd p h)
      rw [Option.bind_some, Option.bind_some, update_of_ne hne]

theorem view_withPipe (inv : PtrInv m) (hp : m.fdbuffermap fd = some p) :
    (m.withPipe fd p cp).view = m.view.withPipe fd cp := by
  simp only [Memory.view, Memory.withPipe, Tables.withPipe, Tables.mk.injEq, true_and, and_true]
  funext fd'
  by_cases e : fd' = fd
  · rw [e, update_self, hp, Option.bind_some, update_self]
  · rw [update_of_ne e]
    cases h : m.fdbuffermap fd' with
    | none => rfl
    | some p' =>
      rw [Option.bind_some, Option.bind_some, update_of_ne (inv.ptr_ne hp h e)]

theorem view_dropped (inv : PtrInv m) (hp : m.fdbuffermap fd = some p) :
    (m.dropped fd tfd p).view = m.view.dropped fd tfd := by
  simp only [Memory.view, Memory.dropped, Tables.dropped, Tables.mk.injEq, true_and, and_true]
  funext fd'
  by_cases e : fd' = fd
  · rw [e, update_self, update_self, Option.bind_none]
  · rw [update_of_ne e, update_of_ne e]
    cases h : m.fdbuffermap fd' with
    | none => rfl
    | some p' =>
      rw [Option.bind_some, Option.bind_some, update_of_ne (inv.ptr_ne hp h e)]

end Pointers

variable {es : List LedgerEvent} {cfg : Config} {k : Choice} {b : Branch} {e : Entry}
  {m m' : Memory}

theorem MemWorks.ptrs (h : MemWorks cfg m e k b es m') (inv : PtrInv m) : PtrInv m' := by
  cases h with
  | accept hfd hreal htimer hne => exact inv.opened
  | read c p cp hev hp hcp hc hlen => exact inv.withPipe
  | write c p cp hev hp hcp hc hlen => exact inv.withPipe
  | hangup timerfd p cp hev htimer hp hcp => exact inv.dropped hp
  | expire realfd p cp hreal hp hcp => exact inv.dropped hp

/-- Read through the view, a branch of the pointer model is a branch of `Server.lean`. -/
theorem MemWorks.works (h : MemWorks cfg m e k b es m') (inv : PtrInv m) (tabs : TablesInv m.view) :
    ∃ es', Works cfg m.view e k b es' m'.view := by
  cases h with
  | accept hfd hreal htimer hne =>
    rw [view_opened inv]
    exact ⟨_, Works.accept hfd hreal htimer hne⟩
  | read c p cp hev hp hcp hc hlen =>
    rw [view_withPipe inv hp]
    exact ⟨_, Works.read c cp hev (view_buffer hp hcp) hc hlen⟩
  | write c p cp hev hp hcp hc hlen =>
    rw [view_withPipe inv hp]
    exact ⟨_, Works.write c cp hev (view_buffer hp hcp) hc hlen⟩
  | hangup timerfd p cp hev htimer hp hcp =>
    obtain ⟨c, hc⟩ := tabs.ofBuffer e.fd cp (view_buffer hp hcp)
    rw [view_dropped inv hp]
    exact ⟨_, Works.hangup c timerfd hev hc htimer⟩
  | expire realfd p cp hreal hp hcp =>
    obtain ⟨c, q, hconn⟩ := conn_of_expire tabs hreal
    rw [view_dropped inv hp]
    exact ⟨_, Works.expire c realfd hreal hconn.sock⟩

/-! ## The maps -/

structure MemInv (m : Memory) : Prop where
  tabs : TablesInv m.view
  ptrs : PtrInv m
  ofFdmap : ∀ fd tfd, m.fdmap fd = some tfd → ∃ c, m.fds fd = some (.sock c)
  /-- The pipes are made in the order in which the connections are accepted. -/
  pair : ∀ fd c, m.fds fd = some (.sock c) → m.fdbuffermap fd = some c
  counters : m.nextPtr = m.nextConn

section Maps

variable {m : Memory} {c : ConnId} {fd tfd realfd timerfd : Fd} {p : Ptr} {cp : CircularPipe}

section Conns

variable (inv : MemInv m)
include inv

theorem MemInv.conn_of_fdmap (h : m.fdmap fd = some tfd) : ∃ c cp, Conn m.view c fd tfd cp := by
  obtain ⟨c, hc⟩ := inv.ofFdmap fd tfd h
  obtain ⟨tfd', cp, hconn⟩ := inv.tabs.ofSock fd c hc
  obtain rfl := Option.some.inj (hconn.map.symm.trans h)
  exact ⟨c, cp, hconn⟩

theorem MemInv.conn_of_timermap (h : m.timermap tfd = some fd) : ∃ c cp, Conn m.view c fd tfd cp :=
  conn_of_expire inv.tabs h

theorem MemInv.conn_of_pointer (h : m.fdbuffermap fd = some p) :
    ∃ c tfd cp, m.heap p = some cp ∧ Conn m.view c fd tfd cp := by
  obtain ⟨cp, hcp⟩ := inv.ptrs.alive fd p h
  obtain ⟨c, hc⟩ := inv.tabs.ofBuffer fd cp (view_buffer h hcp)
  obtain ⟨tfd, cp', hconn⟩ := inv.tabs.ofSock fd c hc
  obtain rfl := Option.some.inj (hconn.buffer.symm.trans (view_buffer h hcp))
  exact ⟨c, tfd, _, hcp, hconn⟩

theorem ofFdmap_opened (htimer : m.fds timerfd = none) (hne : timerfd ≠ realfd) :
    ∀ fd tfd, (m.opened cp realfd timerfd).fdmap fd = some tfd →
      ∃ c, (m.opened cp realfd timerfd).fds fd = some (.sock c) := by
  intro fd tfd h
  by_cases e : fd = realfd
  · refine ⟨m.nextConn, ?_⟩
    simp only [Memory.opened, e, update_of_ne hne.symm, update_self]
  · simp only [Memory.opened, update_of_ne e] at h
    obtain ⟨c, hc⟩ := inv.ofFdmap fd tfd h
    have ht : fd ≠ timerfd := by
      intro he
      rw [he, htimer] at hc
      cases hc
    exact ⟨c, by simp only [Memory.opened, update_of_ne ht, update_of_ne e, hc]⟩

theorem ofFdmap_dropped (hconn : Conn m.view c fd tfd cp) :
    ∀ g tg, (m.dropped fd tfd p).fdmap g = some tg →
      ∃ c, (m.dropped fd tfd p).fds g = some (.sock c) := by
  intro g tg h
  by_cases e : g = fd
  · simp only [Memory.dropped, e, update_self] at h
    cases h
  · simp only [Memory.dropped, update_of_ne e] at h
    obtain ⟨c', hc⟩ := inv.ofFdmap g tg h
    have ht : g ≠ tfd := by
      intro he
      rw [he] at hc
      have := hconn.timer.symm.trans hc
      cases this
    exact ⟨c', by simp only [Memory.dropped, update_of_ne ht, update_of_ne e, hc]⟩

theorem pair_opened (hne : timerfd ≠ realfd) :
    ∀ fd c, (m.opened cp realfd timerfd).fds fd = some (.sock c) →
      (m.opened cp realfd timerfd).fdbuffermap fd = some c := by
  intro fd c h
  by_cases e : fd = realfd
  · simp only [Memory.opened, e, update_of_ne hne.symm, update_self] at h ⊢
    rw [inv.counters]
    exact congrArg some (Obj.sock.inj (Option.some.inj h))
  · have hview : (m.view.opened cp realfd timerfd).fds fd = some (.sock c) := h
    simp only [Memory.opened, update_of_ne e]
    rcases opened_fds hview with ⟨_, ho⟩ | ⟨he, _⟩ | ho
    · cases ho
    · exact absurd he e
    · exact inv.pair fd c ho

theorem pair_dropped :
    ∀ g c, (m.dropped fd tfd p).fds g = some (.sock c) →
      (m.dropped fd tfd p).fdbuffermap g = some c := by
  intro g c h
  have hview : (m.view.dropped fd tfd).fds g = some (.sock c) := h
  obtain ⟨hne, _, hs⟩ := dropped_fds hview
  simp only [Memory.dropped, update_of_ne hne]
  exact inv.pair g c hs

end Conns

end Maps

theorem MemWorks.inv (h : MemWorks cfg m e k b es m') (inv : MemInv m) : MemInv m' := by
  obtain ⟨es', hw⟩ := h.works inv.ptrs inv.tabs
  have tabs' := works_tables hw inv.tabs
  have ptrs' := h.ptrs inv.ptrs
  cases h with
  | accept hfd hreal htimer hne =>
    refine ⟨tabs', ptrs', ofFdmap_opened inv htimer hne, pair_opened inv hne, ?_⟩
    simp only [Memory.opened, inv.counters]
  | read c p cp hev hp hcp hc hlen => exact ⟨tabs', ptrs', inv.ofFdmap, inv.pair, inv.counters⟩
  | write c p cp hev hp hcp hc hlen => exact ⟨tabs', ptrs', inv.ofFdmap, inv.pair, inv.counters⟩
  | hangup timerfd p cp hev htimer hp hcp =>
    obtain ⟨c, cp', hconn⟩ := inv.conn_of_fdmap htimer
    exact ⟨tabs', ptrs', ofFdmap_dropped inv hconn, pair_dropped inv, inv.counters⟩
  | expire realfd p cp hreal hp hcp =>
    obtain ⟨c, cp', hconn⟩ := inv.conn_of_timermap hreal
    exact ⟨tabs', ptrs', ofFdmap_dropped inv hconn, pair_dropped inv, inv.counters⟩

/-! ## The ledger -/

/-- The socket, the timer and the pipe of connection `c` were given back `n` times each. -/
def GivenBack (tr : List LedgerEvent) (c : ConnId) (p : Ptr) (n : Nat) : Prop :=
  tr.count (.closed (.sock c)) = n ∧ tr.count (.closed (.timer c)) = n ∧
    tr.count (.deleted p) = n

structure Ledger (m : Memory) (tr : List LedgerEvent) : Prop where
  known : ∀ c p, LedgerEvent.accepted c p ∈ tr → c < m.nextConn ∧ p = c
  future : ∀ c, m.nextConn ≤ c → GivenBack tr c c 0
  live : ∀ fd c, m.fds fd = some (.sock c) → GivenBack tr c c 0
  gone : ∀ c, c < m.nextConn → (∀ fd, m.fds fd ≠ some (.sock c)) → GivenBack tr c c 1

section LedgerSteps

variable {m : Memory} {tr : List LedgerEvent} {c : ConnId} {fd tfd realfd timerfd : Fd}
  {p : Ptr} {cp : CircularPipe}

theorem givenBack_accepted {n : Nat} (c' : ConnId) (p' : Ptr) (h : GivenBack tr c p n) :
    GivenBack (tr ++ [.accepted c' p']) c p n := by
  unfold GivenBack at h ⊢
  simp only [List.count_append]
  simpa using h

theorem Ledger.opened (inv : MemInv m) (led : Ledger m tr) (hreal : m.fds realfd = none)
    (htimer : m.fds timerfd = none) (hne : timerfd ≠ realfd) :
    Ledger (m.opened cp realfd timerfd) (tr ++ [.accepted m.nextConn m.nextPtr]) := by
  refine ⟨?_, ?_, ?_, ?_⟩
  · intro c p h
    rcases List.mem_append.mp h with h | h
    · obtain ⟨h1, h2⟩ := led.known c p h
      exact ⟨Nat.lt_succ_of_lt h1, h2⟩
    · obtain ⟨rfl, rfl⟩ := LedgerEvent.accepted.inj (List.mem_singleton.mp h)
      exact ⟨Nat.lt_succ_self _, inv.counters⟩
  · intro c hc
    exact givenBack_accepted _ _ (led.future c (Nat.le_of_succ_le hc))
  · intro fd c h
    have h : (m.view.opened cp realfd timerfd).fds fd = some (.sock c) := h
    rcases opened_fds h with ⟨_, ho⟩ | ⟨_, ho⟩ | ho
    · cases ho
    · rw [Obj.sock.inj ho]
      exact givenBack_accepted _ _ (led.future m.nextConn (Nat.le_refl _))
    · exact givenBack_accepted _ _ (led.live fd c ho)
  · intro c hc hno
    have hnew : (m.opened cp realfd timerfd).fds realfd = some (.sock m.nextConn) := by
      simp only [Memory.opened, update_of_ne hne.symm, update_self]
    have hcn : c ≠ m.nextConn := by
      rintro rfl
      exact hno realfd hnew
    refine givenBack_accepted _ _ (led.gone c (Nat.lt_of_le_of_ne (Nat.le_of_lt_succ hc) hcn) ?_)
    intro fd h
    have h1 : fd ≠ realfd := ne_of_open (t := m.view) h hreal
    have h2 : fd ≠ timerfd := ne_of_open (t := m.view) h htimer
    apply hno fd
    simp only [Memory.opened, update_of_ne h2, update_of_ne h1, h]

/-- What closing a live connection gives back. -/
theorem givenBack_eq (inv : MemInv m) (hconn : Conn m.view c fd tfd cp)
    (hp : m.fdbuffermap fd = some p) :
    m.givenBack fd tfd p = [.closed (.sock c), .closed (.timer c), .deleted c] := by
  have hs : m.fds fd = some (.sock c) := hconn.sock
  have ht : m.fds tfd = some (.timer c) := hconn.timer
  have hpc : p = c := Option.some.inj (hp.symm.trans (inv.pair fd c hs))
  simp only [Memory.givenBack, Memory.closedAt, update_of_ne hconn.ne.symm, hs, ht, hpc,
    Option.toList_some, List.map_cons, List.map_nil, List.cons_append, List.nil_append]

theorem Ledger.dropped (inv : MemInv m) (led : Ledger m tr) (hconn : Conn m.view c fd tfd cp)
    (hp : m.fdbuffermap fd = some p) :
    Ledger (m.dropped fd tfd p) (tr ++ m.givenBack fd tfd p) := by
  rw [givenBack_eq inv hconn hp]
  have hs : m.fds fd = some (.sock c) := hconn.sock
  have hself : GivenBack (tr ++ [.closed (.sock c), .closed (.timer c), .deleted c]) c c 1 := by
    obtain ⟨h1, h2, h3⟩ := led.live fd c hs
    simp [GivenBack, List.count_append, h1, h2, h3]
  have hother {c' : ConnId} {n : Nat} (hne : c' ≠ c) (h : GivenBack tr c' c' n) :
      GivenBack (tr ++ [.closed (.sock c), .closed (.timer c), .deleted c]) c' c' n := by
    obtain ⟨h1, h2, h3⟩ := h
    simp [GivenBack, List.count_append, h1, h2, h3, hne.symm]
  refine ⟨?_, ?_, ?_, ?_⟩
  · intro c' p' h
    exact led.known c' p' (by simpa using h)
  · intro c' hc
    have hne : c' ≠ c := by
      rintro rfl
      exact absurd hconn.known (Nat.not_lt.mpr hc)
    exact hother hne (led.future c' hc)
  · intro g c' h
    have h : (m.view.dropped fd tfd).fds g = some (.sock c') := h
    obtain ⟨hg, _, h⟩ := dropped_fds h
    have hne : c' ≠ c := by
      rintro rfl
      exact hg (inv.tabs.unique g fd c' h hs)
    exact hother hne (led.live g c' h)
  · intro c' hc hno
    by_cases e : c' = c
    · rw [e]
      exact hself
    · refine hother e (led.gone c' hc ?_)
      intro g h
      have h1 : g ≠ fd := by
        rintro rfl
        exact e (Obj.sock.inj (Option.some.inj (h.symm.trans hs)))
      have h2 : g ≠ tfd := by
        rintro rfl
        have := h.symm.trans hconn.timer
        cases this
      apply hno g
      simp only [Memory.dropped, update_of_ne h2, update_of_ne h1, h]

end LedgerSteps

theorem MemWorks.ledger {tr : List LedgerEvent} (h : MemWorks cfg m e k b es m') (inv : MemInv m)
    (led : Ledger m tr) : Ledger m' (tr ++ es) := by
  cases h with
  | accept hfd hreal htimer hne => exact led.opened inv hreal htimer hne
  | read c p cp hev hp hcp hc hlen =>
    rw [List.append_nil]
    exact ⟨led.known, led.future, led.live, led.gone⟩
  | write c p cp hev hp hcp hc hlen =>
    rw [List.append_nil]
    exact ⟨led.known, led.future, led.live, led.gone⟩
  | hangup timerfd p cp hev htimer hp hcp =>
    obtain ⟨c, cp', hconn⟩ := inv.conn_of_fdmap htimer
    exact led.dropped inv hconn hp
  | expire realfd p cp hreal hp hcp =>
    obtain ⟨c, cp', hconn⟩ := inv.conn_of_timermap hreal
    exact led.dropped inv hconn hp

/-! ## No fault -/

section NoFault

variable {cfg : Config} {m m' : Memory} {e : Entry} {k : Choice}

/-- `x` has no fault: it goes on, or the program stops at a call. -/
abbrev NoFault {α : Type} (x : Except Fault α) : Prop := Only (fun f => f = .stop) x

theorem noFault_checked (m : Memory) (r : Option Tables) : NoFault (m.checked r) := by
  cases r with
  | none => exact Only.error rfl
  | some t => exact Only.ok _

theorem noFault_orStop {α : Type} (r : Option α) : NoFault (orStop r) := by
  cases r with
  | none => exact Only.error rfl
  | some a => exact Only.ok a

theorem noFault_findSecond {α : Type} {r : Option α} {a : α} (h : r = some a) :
    NoFault (findSecond r) := by
  subst h
  exact Only.ok a

theorem noFault_object {p : Ptr} {cp : CircularPipe} (h : m.heap p = some cp) :
    NoFault (m.object p) := by
  unfold Memory.object
  rw [h]
  exact Only.ok cp

theorem noFault_accept4 (m : Memory) (fd : Fd) : NoFault (m.accept4 fd) := by
  unfold Memory.accept4
  split
  · exact Only.ok _
  · exact Only.error rfl

theorem noFault_timerfdCreate (m : Memory) (fd : Fd) (c : ConnId) :
    NoFault (m.timerfdCreate fd c) := by
  unfold Memory.timerfdCreate
  split
  · exact Only.ok _
  · exact Only.error rfl

/-- A system call leaves the maps and the heap alone. -/
theorem checked_maps {r : Option Tables} (h : m.checked r = .ok m') :
    m'.fdbuffermap = m.fdbuffermap ∧ m'.heap = m.heap := by
  obtain ⟨t, _, rfl⟩ := checked_eq_ok h
  exact ⟨rfl, rfl⟩

theorem noFault_connect : NoFault (Mem.connect cfg m k) := by
  refine (noFault_accept4 _ _).bind fun m₁ _ => ?_
  refine (noFault_checked _ _).bind fun m₃ _ => ?_
  refine (noFault_timerfdCreate _ _ _).bind fun m₄ _ => ?_
  refine (noFault_checked _ _).bind fun m₅ _ => ?_
  refine (noFault_checked _ _).bind fun m₆ _ => ?_
  exact Only.ok _

section Live

variable {c : ConnId} {fd tfd : Fd} {p : Ptr} {cp : CircularPipe}
  (hp : m.fdbuffermap fd = some p) (hcp : m.heap p = some cp)

include hp hcp

theorem noFault_canRead (hconn : Conn m.view c fd tfd cp) : NoFault (Mem.canRead m fd k) := by
  refine (noFault_findSecond hconn.map).bind fun timerfd _ => ?_
  refine (noFault_findSecond hp).bind fun p' hp' => ?_
  obtain rfl := Option.some.inj (hp.symm.trans (findSecond_eq_ok hp'))
  refine (noFault_object hcp).bind fun _ _ => ?_
  refine (noFault_orStop _).bind fun _ _ => ?_
  refine (noFault_orStop _).bind fun _ _ => ?_
  refine (noFault_checked _ _).bind fun _ _ => ?_
  refine (noFault_checked _ _).bind fun _ _ => ?_
  exact Only.ok _

theorem noFault_canWrite : NoFault (Mem.canWrite m fd k) := by
  refine (noFault_findSecond hp).bind fun p' hp' => ?_
  obtain rfl := Option.some.inj (hp.symm.trans (findSecond_eq_ok hp'))
  refine (noFault_object hcp).bind fun _ _ => ?_
  refine (noFault_orStop _).bind fun _ _ => ?_
  refine (noFault_orStop _).bind fun _ _ => ?_
  refine (noFault_checked _ _).bind fun _ _ => ?_
  exact Only.ok _

theorem noFault_closeConnection : NoFault (Mem.closeConnection m fd tfd) := by
  refine (noFault_checked _ _).bind fun m₁ h₁ => ?_
  refine (noFault_checked _ _).bind fun m₂ h₂ => ?_
  refine (noFault_checked _ _).bind fun m₃ h₃ => ?_
  refine (noFault_checked _ _).bind fun m₄ h₄ => ?_
  -- the lookup and the `delete` come after the calls, in the maps as they were
  have hmaps : m₄.fdbuffermap = m.fdbuffermap := by
    rw [(checked_maps h₄).1, (checked_maps h₃).1, (checked_maps h₂).1, (checked_maps h₁).1]
  have hheap : m₄.heap = m.heap := by
    rw [(checked_maps h₄).2, (checked_maps h₃).2, (checked_maps h₂).2, (checked_maps h₁).2]
  rw [← hmaps] at hp
  rw [← hheap] at hcp
  refine (noFault_findSecond hp).bind fun p' hp' => ?_
  obtain rfl := Option.some.inj (hp.symm.trans (findSecond_eq_ok hp'))
  refine (noFault_object hcp).bind fun _ _ => ?_
  exact Only.ok _

end Live

theorem noFault_branch (inv : MemInv m) (b : Branch) : NoFault (Mem.branch cfg m e b k) := by
  cases b with
  | connect =>
    simp only [Mem.branch]
    split
    · exact noFault_connect
    · exact Only.ok _
  | canRead =>
    simp only [Mem.branch]
    split
    · rename_i h
      obtain ⟨p, hp⟩ := Option.ne_none_iff_exists'.mp h.1
      obtain ⟨c, tfd, cp, hcp, hconn⟩ := inv.conn_of_pointer hp
      exact noFault_canRead hp hcp hconn
    · exact Only.ok _
  | canWrite =>
    simp only [Mem.branch]
    split
    · rename_i h
      obtain ⟨p, hp⟩ := Option.ne_none_iff_exists'.mp h.1
      obtain ⟨c, tfd, cp, hcp, hconn⟩ := inv.conn_of_pointer hp
      exact noFault_canWrite hp hcp
    · exact Only.ok _
  | disconnect =>
    simp only [Mem.branch]
    split
    · rename_i h
      obtain ⟨p, hp⟩ := Option.ne_none_iff_exists'.mp h.1
      obtain ⟨c, tfd, cp, hcp, hconn⟩ := inv.conn_of_pointer hp
      refine (noFault_findSecond hconn.map).bind fun timerfd _ => ?_
      exact noFault_closeConnection hp hcp
    · exact Only.ok _
  | timeout =>
    simp only [Mem.branch]
    split
    · rename_i h
      obtain ⟨realfd, hreal⟩ := Option.ne_none_iff_exists'.mp h
      refine (noFault_findSecond hreal).bind fun fd hfd => ?_
      obtain rfl := Option.some.inj (hreal.symm.trans (findSecond_eq_ok hfd))
      obtain ⟨c, cp, hconn⟩ := inv.conn_of_timermap hreal
      have hp := inv.pair realfd c hconn.sock
      obtain ⟨cp', hcp⟩ := inv.ptrs.alive realfd c hp
      exact noFault_closeConnection hp hcp
    · exact Only.ok _

end NoFault

/-! ## Whole runs -/

structure BooksInv (s : MemServer) (tr : List LedgerEvent) : Prop where
  mem : MemInv s.memory
  ledger : Ledger s.memory tr
  running : s.faulted = false
  noFault : ∀ f, LedgerEvent.fault f ∉ tr

theorem MemWorks.noFault (h : MemWorks cfg m e k b es m') : ∀ f, LedgerEvent.fault f ∉ es := by
  intro f
  cases h with
  | accept => simp
  | read => simp
  | write => simp
  | hangup => simp [Memory.givenBack, Memory.closedAt]
  | expire => simp [Memory.givenBack, Memory.closedAt]

theorem step_books {s s' : MemServer} {a : Act} {tr : List LedgerEvent} (inv : BooksInv s tr)
    (h : (memServer cfg).step s a = some (s', es)) : BooksInv s' (tr ++ es) := by
  have hrun : ¬ s.faulted = true := by simp [inv.running]
  simp only [memServer, memStep, if_neg hrun] at h
  split at h
  · -- `epoll_wait`
    obtain ⟨_, rfl, rfl⟩ := guard_result_inj h
    rw [List.append_nil]
    exact ⟨inv.mem, inv.ledger, inv.running, inv.noFault⟩
  · rename_i k e b rest hp
    cases hb : Mem.branch cfg s.memory e b k with
    | error f =>
      rw [hb, noFault_branch inv.mem b f hb] at h
      cases h
    | ok r =>
      rw [hb] at h
      obtain ⟨rfl, rfl⟩ := result_inj h
      rcases mem_branch_works hb with ⟨hm, he⟩ | hw
      · rw [he, List.append_nil]
        simp only [hm]
        exact ⟨inv.mem, inv.ledger, rfl, inv.noFault⟩
      · refine ⟨hw.inv inv.mem, hw.ledger inv.mem inv.ledger, rfl, ?_⟩
        intro f hf
        rcases List.mem_append.mp hf with hf | hf
        · exact inv.noFault f hf
        · exact hw.noFault f hf
  · cases h

theorem booksInv_initMem (b : Boot) : BooksInv (initMem b) [] := by
  have hview : (initMem b).memory.view = (initServer b).tables := rfl
  have tabs : TablesInv (initMem b).memory.view := hview ▸ tablesInv_initServer b
  have nosock (fd : Fd) (c : ConnId) : (initMem b).memory.fds fd ≠ some (.sock c) := by
    intro h
    obtain ⟨tfd, p, hconn⟩ := tabs.ofSock fd c h
    cases hconn.map
  refine ⟨⟨tabs, ⟨nofun, nofun, nofun⟩, nofun, fun fd c h => absurd h (nosock fd c), rfl⟩,
    ⟨nofun, fun c _ => ⟨rfl, rfl, rfl⟩, fun fd c h => absurd h (nosock fd c), fun c hc => ?_⟩, rfl,
    nofun⟩
  exact absurd hc (Nat.not_lt_zero c)

/-- What the maps and the kernel's tables have to do with each other. -/
structure MapsConsistent (m : Memory) : Prop where
  keys : ∀ fd, m.fdbuffermap fd = none ↔ m.fdmap fd = none
  inverse : ∀ fd tfd, m.timermap tfd = some fd ↔ m.fdmap fd = some tfd
  distinct : ∀ fd tfd fd' tfd', m.fdmap fd = some tfd → m.fdmap fd' = some tfd' →
    fd ≠ tfd' ∧ (tfd = tfd' → fd = fd')
  isOpen : ∀ fd tfd, m.fdmap fd = some tfd →
    ∃ c, m.fds fd = some (.sock c) ∧ m.fds tfd = some (.timer c)
  registered : ∀ fd tfd, m.fdmap fd = some tfd → m.interest fd ≠ none ∧ m.interest tfd ≠ none

theorem MemInv.consistent (inv : MemInv m) : MapsConsistent m := by
  refine ⟨?_, ?_, ?_, ?_, ?_⟩
  · intro fd
    constructor
    · intro h
      by_contra hm
      obtain ⟨tfd, hm⟩ := Option.ne_none_iff_exists'.mp hm
      obtain ⟨c, hc⟩ := inv.ofFdmap fd tfd hm
      rw [inv.pair fd c hc] at h
      cases h
    · intro h
      by_contra hb
      obtain ⟨p, hb⟩ := Option.ne_none_iff_exists'.mp hb
      obtain ⟨c, tfd, cp, _, hconn⟩ := inv.conn_of_pointer hb
      have hmap : m.fdmap fd = some tfd := hconn.map
      rw [h] at hmap
      cases hmap
  · intro fd tfd
    constructor
    · intro h
      obtain ⟨c, cp, hconn⟩ := inv.conn_of_timermap h
      exact hconn.map
    · intro h
      obtain ⟨c, cp, hconn⟩ := inv.conn_of_fdmap h
      exact hconn.back
  · intro fd tfd fd' tfd' h h'
    obtain ⟨c, cp, hconn⟩ := inv.conn_of_fdmap h
    obtain ⟨c', cp', hconn'⟩ := inv.conn_of_fdmap h'
    by_cases e : fd = fd'
    · subst e
      exact ⟨hconn'.ne, fun _ => rfl⟩
    · obtain ⟨h1, _, h3⟩ := hconn'.disjoint hconn e
      exact ⟨h1, fun ht => absurd ht h3⟩
  · intro fd tfd h
    obtain ⟨c, cp, hconn⟩ := inv.conn_of_fdmap h
    exact ⟨c, hconn.sock, hconn.timer⟩
  · intro fd tfd h
    obtain ⟨c, cp, hconn⟩ := inv.conn_of_fdmap h
    exact ⟨Option.ne_none_iff_exists'.mpr ⟨_, hconn.registered⟩,
      Option.ne_none_iff_exists'.mpr ⟨_, hconn.timerRegistered⟩⟩

/-- Connection `c` is in the maps: its descriptor is a key. -/
def InMaps (m : Memory) (c : ConnId) : Prop :=
  ∃ fd, m.fds fd = some (.sock c) ∧ m.fdbuffermap fd ≠ none

/-- **Bookkeeping.** After every step of every run the three maps, the descriptor table and the
    interest list fit together; every accepted connection that is not in the maps has had its
    socket closed, its timer closed and its pipe deleted once each, and one that is in the maps
    has had none of it; and no `find(...)->second` met `end()` nor was a deleted pipe used. -/
theorem bookkeeping (cfg : Config) (b : Boot) (acts : List Act) (s : MemServer)
    (tr : List LedgerEvent) (hr : (memServer cfg).run (initMem b) acts = some (s, tr)) :
    MapsConsistent s.memory ∧
    (∀ c p, LedgerEvent.accepted c p ∈ tr → ¬ InMaps s.memory c → GivenBack tr c p 1) ∧
    (∀ c p, LedgerEvent.accepted c p ∈ tr → InMaps s.memory c → GivenBack tr c p 0) ∧
    ∀ f, LedgerEvent.fault f ∉ tr := by
  have inv : BooksInv s tr :=
    (memServer cfg).run_induct (fun _ => True) BooksInv
      (fun _ _ _ _ _ _ inv hs => step_books inv hs) (fun _ _ => trivial) (booksInv_initMem b) hr
  refine ⟨inv.mem.consistent, ?_, ?_, inv.noFault⟩
  · intro c p hacc hno
    obtain ⟨hc, rfl⟩ := inv.ledger.known c p hacc
    apply inv.ledger.gone p hc
    intro fd hfd
    refine hno ⟨fd, hfd, ?_⟩
    rw [inv.mem.pair fd p hfd]
    exact Option.some_ne_none p
  · rintro c p hacc ⟨fd, hfd, _⟩
    obtain ⟨_, rfl⟩ := inv.ledger.known c p hacc
    exact inv.ledger.live fd p hfd

/-- A run with a stale entry: connection 0 is gone and connection 1 has its numbers. -/
theorem bookkeeping_staleRun :
    ∃ s tr, (memServer ⟨4, 8⟩).run (initMem standardBoot) staleRun = some (s, tr) ∧
      MapsConsistent s.memory ∧ GivenBack tr 0 0 1 ∧ GivenBack tr 1 1 0 ∧
      ∀ f, LedgerEvent.fault f ∉ tr := by
  obtain ⟨s, _, hr, rfl, h5, hbuf⟩ :=
    (memServer ⟨4, 8⟩).exists_of_check (initMem standardBoot) staleRun
    (fun s tr => tr = [.accepted 0 0, .closed (.sock 0), .closed (.timer 0), .deleted 0,
        .accepted 1 1] ∧
      s.memory.fds 5 = some (.sock 1) ∧ s.memory.fdbuffermap 5 ≠ none) (by decide +kernel)
  obtain ⟨h1, _, h3, h4⟩ := bookkeeping ⟨4, 8⟩ standardBoot staleRun s _ hr
  exact ⟨s, _, hr, h1, ⟨by decide, by decide, by decide⟩, h3 1 1 (by simp) ⟨5, h5, hbuf⟩, h4⟩

end DemosOsLinux.EchoServer
