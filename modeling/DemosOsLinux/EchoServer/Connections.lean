/-
  The connections of the echo server: how the kernel's tables and the three maps fit together.

  `Conn t c fd tfd p` says that connection `c` is live in the tables `t`: it is open at `fd`
  with its timer at `tfd` and its pipe `p`, all three maps know it, and it is registered for
  what its pipe wants. `TablesInv` says that every socket, timer, map entry of the tables
  belongs to such a connection. The lemmas say what each change of the tables
  (`opened`, `withPipe`, `dropped`) does to the live connections.
-/
import DemosOsLinux.EchoServer.Trans

namespace DemosOsLinux.EchoServer

open Lib Function

structure Conn (t : Tables) (c : ConnId) (fd tfd : Fd) (p : CircularPipe) : Prop where
  sock : t.fds fd = some (.sock c)
  timer : t.fds tfd = some (.timer c)
  buffer : t.fdbuffermap fd = some p
  map : t.fdmap fd = some tfd
  back : t.timermap tfd = some fd
  registered : t.interest fd = some (wanted p)
  timerRegistered : t.interest tfd = some inputOnly
  known : c < t.nextConn

structure TablesInv (t : Tables) : Prop where
  ofSock : ∀ fd c, t.fds fd = some (.sock c) → ∃ tfd p, Conn t c fd tfd p
  ofTimer : ∀ tfd c, t.fds tfd = some (.timer c) → ∃ fd p, Conn t c fd tfd p
  ofBuffer : ∀ fd p, t.fdbuffermap fd = some p → ∃ c, t.fds fd = some (.sock c)
  ofTimermap : ∀ tfd fd, t.timermap tfd = some fd → ∃ c, t.fds tfd = some (.timer c)
  unique : ∀ fd fd' c, t.fds fd = some (.sock c) → t.fds fd' = some (.sock c) → fd = fd'
  listener : t.fds t.sockfd = some .listener
  registered : ∀ fd, t.fds fd = none → t.interest fd = none

variable {t : Tables} {fd : Fd} {o : Obj}

theorem ne_of_open {g : Fd} (h : t.fds fd = some o) (hg : t.fds g = none) : fd ≠ g := by
  intro e
  rw [e, hg] at h
  cases h

theorem ne_of_free {g : Fd} (h : t.fds fd = none) (hg : t.fds g = some o) : fd ≠ g :=
  (ne_of_open hg h).symm

section Frame

variable {t : Tables} {c c' : ConnId} {fd fd' tfd tfd' : Fd} {p p' : CircularPipe}

theorem Conn.ne (h : Conn t c fd tfd p) : fd ≠ tfd := by
  intro e
  have hs := h.sock
  rw [e, h.timer] at hs
  cases hs

/-- A live connection depends on the tables at its two descriptors only. -/
theorem Conn.congr {t' : Tables} (h : Conn t c fd tfd p) (h1 : t'.fds fd = t.fds fd)
    (h2 : t'.fds tfd = t.fds tfd) (h3 : t'.fdbuffermap fd = t.fdbuffermap fd)
    (h4 : t'.fdmap fd = t.fdmap fd) (h5 : t'.timermap tfd = t.timermap tfd)
    (h6 : t'.interest fd = t.interest fd) (h7 : t'.interest tfd = t.interest tfd)
    (h8 : t.nextConn ≤ t'.nextConn) : Conn t' c fd tfd p :=
  ⟨h1.trans h.sock, h2.trans h.timer, h3.trans h.buffer, h4.trans h.map, h5.trans h.back,
    h6.trans h.registered, h7.trans h.timerRegistered, Nat.lt_of_lt_of_le h.known h8⟩

/-- The connection at a descriptor is determined by it. -/
theorem Conn.same (h : Conn t c fd tfd p) (h' : Conn t c' fd tfd' p') :
    c' = c ∧ tfd' = tfd ∧ p' = p := by
  have hc := h'.sock.symm.trans h.sock
  have ht := h'.map.symm.trans h.map
  have hp := h'.buffer.symm.trans h.buffer
  exact ⟨Obj.sock.inj (Option.some.inj hc), Option.some.inj ht, Option.some.inj hp⟩

/-- Two connections at different descriptors have nothing in common. -/
theorem Conn.disjoint (h : Conn t c fd tfd p) (h' : Conn t c' fd' tfd' p') (hne : fd' ≠ fd) :
    fd' ≠ tfd ∧ tfd' ≠ fd ∧ tfd' ≠ tfd := by
  refine ⟨?_, ?_, ?_⟩
  · intro e
    have hs := h'.sock
    rw [e, h.timer] at hs
    cases hs
  · intro e
    have hs := h'.timer
    rw [e, h.sock] at hs
    cases hs
  · intro e
    have hb := h'.back
    rw [e, h.back] at hb
    exact hne (Option.some.inj hb).symm

end Frame

/-! ## A new connection -/

variable {c c' : ConnId} {p' : CircularPipe} {cfg : Config}

section Opened

variable {t : Tables} {realfd timerfd : Fd} {cp : CircularPipe}
  (hreal : t.fds realfd = none) (htimer : t.fds timerfd = none) (hne : timerfd ≠ realfd)

include hreal htimer

theorem Conn.opened {tfd : Fd} {p : CircularPipe} (h : Conn t c fd tfd p) :
    Conn (t.opened cp realfd timerfd) c fd tfd p := by
  have h1 := ne_of_open h.sock hreal
  have h2 := ne_of_open h.sock htimer
  have h3 := ne_of_open h.timer hreal
  have h4 := ne_of_open h.timer htimer
  refine h.congr ?_ ?_ ?_ ?_ ?_ ?_ ?_ (Nat.le_succ _)
  · simp only [Tables.opened, update_of_ne h2, update_of_ne h1]
  · simp only [Tables.opened, update_of_ne h4, update_of_ne h3]
  · simp only [Tables.opened, update_of_ne h1]
  · simp only [Tables.opened, update_of_ne h1]
  · simp only [Tables.opened, update_of_ne h4]
  · simp only [Tables.opened, update_of_ne h2, update_of_ne h1]
  · simp only [Tables.opened, update_of_ne h4, update_of_ne h3]

omit hreal htimer in
include hne in
theorem conn_opened_new :
    Conn (t.opened cp realfd timerfd) t.nextConn realfd timerfd cp := by
  have hne' := hne.symm
  refine ⟨?_, ?_, ?_, ?_, ?_, ?_, ?_, Nat.lt_succ_self _⟩
  · simp only [Tables.opened, update_of_ne hne', update_self]
  · simp only [Tables.opened, update_self]
  · simp only [Tables.opened, update_self]
  · simp only [Tables.opened, update_self]
  · simp only [Tables.opened, update_self]
  · simp only [Tables.opened, update_of_ne hne', update_self]
  · simp only [Tables.opened, update_self]

omit hreal htimer in
/-- What is open afterwards: the new socket, the new timer, or what was open before. -/
theorem opened_fds (h : (t.opened cp realfd timerfd).fds fd = some o) :
    (fd = timerfd ∧ o = .timer t.nextConn) ∨
      (fd = realfd ∧ o = .sock t.nextConn) ∨ t.fds fd = some o := by
  simp only [Tables.opened] at h
  by_cases h1 : fd = timerfd
  · rw [h1, update_self] at h
    exact Or.inl ⟨h1, (Option.some.inj h).symm⟩
  · rw [update_of_ne h1] at h
    by_cases h2 : fd = realfd
    · rw [h2, update_self] at h
      exact Or.inr (Or.inl ⟨h2, (Option.some.inj h).symm⟩)
    · rw [update_of_ne h2] at h
      exact Or.inr (Or.inr h)

include hne in
theorem TablesInv.opened (inv : TablesInv t) : TablesInv (t.opened cp realfd timerfd) := by
  have hnew : Conn (t.opened cp realfd timerfd) t.nextConn realfd timerfd cp :=
    conn_opened_new hne
  have known {fd : Fd} {c : ConnId} (h : t.fds fd = some (.sock c)) : c < t.nextConn := by
    obtain ⟨_, _, hc⟩ := inv.ofSock fd c h
    exact hc.known
  refine ⟨?_, ?_, ?_, ?_, ?_, ?_, ?_⟩
  · intro fd c h
    rcases opened_fds h with ⟨_, ho⟩ | ⟨rfl, ho⟩ | h
    · cases ho
    · obtain rfl := Obj.sock.inj ho
      exact ⟨timerfd, cp, hnew⟩
    · obtain ⟨tfd, p, hc⟩ := inv.ofSock fd c h
      exact ⟨tfd, p, hc.opened hreal htimer⟩
  · intro tfd c h
    rcases opened_fds h with ⟨rfl, ho⟩ | ⟨_, ho⟩ | h
    · obtain rfl := Obj.timer.inj ho
      exact ⟨realfd, cp, hnew⟩
    · cases ho
    · obtain ⟨fd, p, hc⟩ := inv.ofTimer tfd c h
      exact ⟨fd, p, hc.opened hreal htimer⟩
  · intro fd p h
    by_cases hfd : fd = realfd
    · rw [hfd]
      exact ⟨_, hnew.sock⟩
    · simp only [Tables.opened, update_of_ne hfd] at h
      obtain ⟨c, hc⟩ := inv.ofBuffer fd p h
      obtain ⟨tfd, p', hc'⟩ := inv.ofSock fd c hc
      exact ⟨c, (hc'.opened hreal htimer).sock⟩
  · intro tfd fd h
    by_cases htfd : tfd = timerfd
    · rw [htfd]
      exact ⟨_, hnew.timer⟩
    · simp only [Tables.opened, update_of_ne htfd] at h
      obtain ⟨c, hc⟩ := inv.ofTimermap tfd fd h
      obtain ⟨fd', p', hc'⟩ := inv.ofTimer tfd c hc
      exact ⟨c, (hc'.opened hreal htimer).timer⟩
  · -- the new connection has a new identity
    intro fd fd' c h h'
    rcases opened_fds h with ⟨_, ho⟩ | ⟨e, ho⟩ | h
    · cases ho
    · obtain rfl := Obj.sock.inj ho
      rcases opened_fds h' with ⟨_, ho'⟩ | ⟨e', _⟩ | h'
      · cases ho'
      · rw [e, e']
      · exact absurd (known h') (Nat.lt_irrefl _)
    · rcases opened_fds h' with ⟨_, ho'⟩ | ⟨_, ho'⟩ | h'
      · cases ho'
      · obtain rfl := Obj.sock.inj ho'
        exact absurd (known h) (Nat.lt_irrefl _)
      · exact inv.unique fd fd' c h h'
  · have h1 := ne_of_open inv.listener hreal
    have h2 := ne_of_open inv.listener htimer
    simp only [Tables.opened, update_of_ne h2, update_of_ne h1]
    exact inv.listener
  · intro fd hfd
    have h1 : fd ≠ realfd := ne_of_free hfd hnew.sock
    have h2 : fd ≠ timerfd := ne_of_free hfd hnew.timer
    simp only [Tables.opened, update_of_ne h2, update_of_ne h1] at hfd ⊢
    exact inv.registered fd hfd

include hne in
/-- The live connections afterwards are the old ones and the new one. -/
theorem conn_of_opened (inv : TablesInv t) {tfd : Fd} {p : CircularPipe}
    (h : Conn (t.opened cp realfd timerfd) c fd tfd p) :
    (c = t.nextConn ∧ p = cp) ∨ Conn t c fd tfd p := by
  rcases opened_fds h.sock with ⟨_, ho⟩ | ⟨e, _⟩ | hs
  · cases ho
  · subst e
    obtain ⟨rfl, _, rfl⟩ := (conn_opened_new (t := t) hne).same h
    exact Or.inl ⟨rfl, rfl⟩
  · obtain ⟨tfd', p', hc⟩ := inv.ofSock fd c hs
    have hc' : Conn (t.opened cp realfd timerfd) c fd tfd' p' := hc.opened hreal htimer
    obtain ⟨_, rfl, rfl⟩ := hc'.same h
    exact Or.inr hc

end Opened

/-! ## Another pipe at a connection -/

section WithPipe

variable {t : Tables} {c : ConnId} {fd tfd : Fd} {p q : CircularPipe}

theorem Conn.withPipe (h : Conn t c fd tfd p) : Conn (t.withPipe fd q) c fd tfd q := by
  have hne := h.ne.symm
  refine ⟨h.sock, h.timer, ?_, h.map, h.back, ?_, ?_, h.known⟩
  · simp only [Tables.withPipe, update_self]
  · simp only [Tables.withPipe, update_self]
  · simp only [Tables.withPipe, update_of_ne hne]
    exact h.timerRegistered

theorem Conn.withPipe_other (h : Conn t c fd tfd p) {fd' tfd' : Fd} (h' : Conn t c' fd' tfd' p')
    (hne : fd' ≠ fd) : Conn (t.withPipe fd q) c' fd' tfd' p' := by
  obtain ⟨_, h1, _⟩ := h.disjoint h' hne
  refine h'.congr rfl rfl ?_ rfl rfl ?_ ?_ (Nat.le_refl _)
  · simp only [Tables.withPipe, update_of_ne hne]
  · simp only [Tables.withPipe, update_of_ne hne]
  · simp only [Tables.withPipe, update_of_ne h1]

theorem TablesInv.withPipe (inv : TablesInv t) (h : Conn t c fd tfd p) :
    TablesInv (t.withPipe fd q) := by
  refine ⟨?_, ?_, ?_, inv.ofTimermap, inv.unique, inv.listener, ?_⟩
  · intro fd' c' hs
    obtain ⟨tfd', p', hc⟩ := inv.ofSock fd' c' hs
    by_cases e : fd' = fd
    · subst e
      obtain ⟨rfl, _, _⟩ := h.same hc
      exact ⟨tfd, q, h.withPipe⟩
    · exact ⟨tfd', p', h.withPipe_other hc e⟩
  · intro tfd' c' ht
    obtain ⟨fd', p', hc⟩ := inv.ofTimer tfd' c' ht
    by_cases e : fd' = fd
    · subst e
      obtain ⟨rfl, rfl, _⟩ := h.same hc
      exact ⟨fd', q, h.withPipe⟩
    · exact ⟨fd', p', h.withPipe_other hc e⟩
  · intro fd' p' hb
    by_cases e : fd' = fd
    · rw [e]
      exact ⟨c, h.sock⟩
    · simp only [Tables.withPipe, update_of_ne e] at hb
      exact inv.ofBuffer fd' p' hb
  · intro fd' hfd
    have hne : fd' ≠ fd := ne_of_free hfd h.sock
    simp only [Tables.withPipe, update_of_ne hne]
    exact inv.registered fd' hfd

theorem conn_of_withPipe (inv : TablesInv t) (h : Conn t c fd tfd p) {fd' tfd' : Fd}
    (h' : Conn (t.withPipe fd q) c' fd' tfd' p') :
    (c' = c ∧ p' = q) ∨ (c' ≠ c ∧ Conn t c' fd' tfd' p') := by
  by_cases e : fd' = fd
  · subst e
    obtain ⟨rfl, _, rfl⟩ := (h.withPipe (q := q)).same h'
    exact Or.inl ⟨rfl, rfl⟩
  · obtain ⟨tfd'', p'', hc⟩ := inv.ofSock fd' c' h'.sock
    obtain ⟨_, rfl, rfl⟩ := (h.withPipe_other hc e (q := q)).same h'
    refine Or.inr ⟨?_, hc⟩
    rintro rfl
    exact e (inv.unique fd' fd c' hc.sock h.sock)

end WithPipe

/-! ## A connection taken out -/

section Dropped

variable {t : Tables} {c : ConnId} {fd tfd : Fd} {p : CircularPipe}

theorem Conn.dropped_other (h : Conn t c fd tfd p) {fd' tfd' : Fd} (h' : Conn t c' fd' tfd' p')
    (hne : fd' ≠ fd) : Conn (t.dropped fd tfd) c' fd' tfd' p' := by
  obtain ⟨h1, h2, h3⟩ := h.disjoint h' hne
  refine h'.congr ?_ ?_ ?_ ?_ ?_ ?_ ?_ (Nat.le_refl _)
  · simp only [Tables.dropped, update_of_ne h1, update_of_ne hne]
  · simp only [Tables.dropped, update_of_ne h3, update_of_ne h2]
  · simp only [Tables.dropped, update_of_ne hne]
  · simp only [Tables.dropped, update_of_ne hne]
  · simp only [Tables.dropped, update_of_ne h3]
  · simp only [Tables.dropped, update_of_ne h1, update_of_ne hne]
  · simp only [Tables.dropped, update_of_ne h3, update_of_ne h2]

theorem dropped_fds {g : Fd} (h : (t.dropped fd tfd).fds g = some o) :
    g ≠ fd ∧ g ≠ tfd ∧ t.fds g = some o := by
  simp only [Tables.dropped] at h
  by_cases h1 : g = tfd
  · rw [h1, update_self] at h
    cases h
  · rw [update_of_ne h1] at h
    by_cases h2 : g = fd
    · rw [h2, update_self] at h
      cases h
    · rw [update_of_ne h2] at h
      exact ⟨h2, h1, h⟩

theorem TablesInv.dropped (inv : TablesInv t) (h : Conn t c fd tfd p) :
    TablesInv (t.dropped fd tfd) := by
  refine ⟨?_, ?_, ?_, ?_, ?_, ?_, ?_⟩
  · intro fd' c' hs
    obtain ⟨hne, _, hs⟩ := dropped_fds hs
    obtain ⟨tfd', p', hc⟩ := inv.ofSock fd' c' hs
    exact ⟨tfd', p', h.dropped_other hc hne⟩
  · intro tfd' c' ht
    obtain ⟨_, hne, ht⟩ := dropped_fds ht
    obtain ⟨fd', p', hc⟩ := inv.ofTimer tfd' c' ht
    have hne' : fd' ≠ fd := by
      rintro rfl
      exact hne (h.same hc).2.1
    exact ⟨fd', p', h.dropped_other hc hne'⟩
  · intro fd' p' hb
    by_cases e : fd' = fd
    · simp only [Tables.dropped, e, update_self] at hb
      cases hb
    · simp only [Tables.dropped, update_of_ne e] at hb
      obtain ⟨c', hs⟩ := inv.ofBuffer fd' p' hb
      obtain ⟨tfd', p'', hc⟩ := inv.ofSock fd' c' hs
      exact ⟨c', (h.dropped_other hc e).sock⟩
  · intro tfd' fd' hb
    by_cases e : tfd' = tfd
    · simp only [Tables.dropped, e, update_self] at hb
      cases hb
    · simp only [Tables.dropped, update_of_ne e] at hb
      obtain ⟨c', ht⟩ := inv.ofTimermap tfd' fd' hb
      obtain ⟨fd'', p'', hc⟩ := inv.ofTimer tfd' c' ht
      have hne' : fd'' ≠ fd := by
        rintro rfl
        exact e (h.same hc).2.1
      exact ⟨c', (h.dropped_other hc hne').timer⟩
  · intro g g' c' hg hg'
    exact inv.unique g g' c' (dropped_fds hg).2.2 (dropped_fds hg').2.2
  · have h1 : t.sockfd ≠ fd := by
      intro e
      have hl := inv.listener
      rw [e, h.sock] at hl
      cases hl
    have h2 : t.sockfd ≠ tfd := by
      intro e
      have hl := inv.listener
      rw [e, h.timer] at hl
      cases hl
    simp only [Tables.dropped, update_of_ne h2, update_of_ne h1]
    exact inv.listener
  · intro g hg
    simp only [Tables.dropped, update_apply] at hg ⊢
    split
    · rfl
    · rename_i h1
      rw [if_neg h1] at hg
      split
      · rfl
      · rename_i h2
        rw [if_neg h2] at hg
        exact inv.registered g hg

theorem conn_of_dropped (inv : TablesInv t) (h : Conn t c fd tfd p) {fd' tfd' : Fd}
    (h' : Conn (t.dropped fd tfd) c' fd' tfd' p') : Conn t c' fd' tfd' p' := by
  obtain ⟨hne, _, hs⟩ := dropped_fds h'.sock
  obtain ⟨tfd'', p'', hc⟩ := inv.ofSock fd' c' hs
  obtain ⟨_, rfl, rfl⟩ := (h.dropped_other hc hne).same h'
  exact hc

end Dropped

/-! ## Every step and every run -/

/-- The connection that a hang-up closes. -/
theorem conn_of_hangup (tabs : TablesInv t) {tfd : Fd} (hc : t.fds fd = some (.sock c))
    (hm : t.fdmap fd = some tfd) : ∃ p, Conn t c fd tfd p := by
  obtain ⟨tfd', p, h⟩ := tabs.ofSock fd c hc
  obtain rfl := Option.some.inj (h.map.symm.trans hm)
  exact ⟨p, h⟩

/-- The connection that a timeout closes: the one whose timer it is. -/
theorem conn_of_expire (tabs : TablesInv t) {tfd : Fd} (hm : t.timermap tfd = some fd) :
    ∃ c p, Conn t c fd tfd p := by
  obtain ⟨c, hc⟩ := tabs.ofTimermap tfd fd hm
  obtain ⟨fd', p, h⟩ := tabs.ofTimer tfd c hc
  obtain rfl := Option.some.inj (h.back.symm.trans hm)
  exact ⟨c, p, h⟩

theorem works_tables {t' : Tables} {e : Entry} {k : Choice} {b : Branch} {es : List Event}
    (h : Works cfg t e k b es t') (tabs : TablesInv t) : TablesInv t' := by
  cases h with
  | accept hfd hreal htimer hne => exact tabs.opened hreal htimer hne
  | read c cp hev hcp hc hlen =>
    obtain ⟨tfd, p, hconn⟩ := tabs.ofSock e.fd c hc
    exact tabs.withPipe hconn
  | write c cp hev hcp hc hlen =>
    obtain ⟨tfd, p, hconn⟩ := tabs.ofSock e.fd c hc
    exact tabs.withPipe hconn
  | hangup c timerfd hev hc htimer =>
    obtain ⟨p, hconn⟩ := conn_of_hangup tabs hc htimer
    exact tabs.dropped hconn
  | expire c realfd hreal hc =>
    obtain ⟨c', p, hconn⟩ := conn_of_expire tabs hreal
    exact tabs.dropped hconn

theorem trans_tables {s s' : Server} {a : Act} {es : List Event} (h : Trans cfg s a es s')
    (tabs : TablesInv s.tables) : TablesInv s'.tables := by
  cases h with
  | wait batch hp hb => exact tabs
  | skip e b rest k hp => exact tabs
  | work e b rest k es t hp hw => exact works_tables hw tabs

theorem tablesInv_initServer (b : Boot) : TablesInv (initServer b).tables := by
  have hinit {fd : Fd} {o : Obj} (h : (initServer b).tables.fds fd = some o) :
      o = .listener ∨ o = .epoll ∨ o = .inherited := by
    simp only [initServer] at h
    split at h
    · exact Or.inl (Option.some.inj h).symm
    · split at h
      · exact Or.inr (Or.inl (Option.some.inj h).symm)
      · split at h
        · exact Or.inr (Or.inr (Option.some.inj h).symm)
        · cases h
  refine ⟨?_, ?_, ?_, ?_, ?_, ?_, ?_⟩
  · intro fd c h
    rcases hinit h with h | h | h <;> cases h
  · intro fd c h
    rcases hinit h with h | h | h <;> cases h
  · intro fd p h
    cases h
  · intro tfd fd h
    cases h
  · intro fd fd' c h
    rcases hinit h with h | h | h <;> cases h
  · exact if_pos rfl
  · intro fd h
    have hne : fd ≠ b.sockfd := by
      intro e
      simp only [initServer, e, if_true] at h
      cases h
    exact if_neg hne

theorem run_tables {b : Boot} {acts : List Act} {s : Server} {tr : List Event}
    (hr : (server cfg).run (initServer b) acts = some (s, tr)) : TablesInv s.tables :=
  (server cfg).run_inv (fun _ => True) (fun s => TablesInv s.tables)
    (fun _ _ _ _ _ inv hs => trans_tables (trans_of_step hs) inv) (fun _ _ => trivial)
    (tablesInv_initServer b) hr

end DemosOsLinux.EchoServer
