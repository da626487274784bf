/-
  Does the edge-triggered echo server ever leave a connection behind?

  One report makes the program read once, at most `buflen` bytes. If more had arrived, the rest
  stays in the socket, and with no new arrival there is no new report: the server is back at
  `epoll_wait` and the connection is stalled (`read_leaves_connection_stalled`).
  * `EdgeInv`: unread data has an unspent edge, or the report of it is still to be handled.
  * `no_stall_of_drains`: this survives every read that empties the socket or is overtaken by a
    new arrival; in a run of such reads no connection is stalled at `epoll_wait`.
-/
import DemosOsLinux.EdgeServer.Server

namespace DemosOsLinux.EdgeServer

open Lib Function

/-- At `epoll_wait`, every open connection with unread data has an edge that was not reported. -/
def NoStall (s : State) : Prop :=
  s.phase = .waiting → ∀ fd c, s.fds fd = some (.sock c) → (s.peers c).unread ≠ [] →
    (s.peers c).edge = true

/-- If this step reads from a connection, the buffer takes all that is unread, or new data
    arrived after the report. -/
def drains (s : State) : Act → Bool
  | .handle _ =>
      match s.phase with
      | .handling e .canRead _ =>
          match e.epollIn, s.connAt e.fd with
          | true, some c => decide ((s.peers c).unread.length ≤ buflen) || (s.peers c).edge
          | _, _ => true
      | _ => true
  | _ => true

/-- The entries of the batch whose `if (EPOLLIN)` is still to come. -/
def toRead : Phase → List Entry
  | .handling _ .disconnect rest => rest
  | .handling e _ rest => e :: rest
  | _ => []

structure EdgeInv (s : State) : Prop where
  listener : s.fds s.sockfd = some .listener
  signal : s.fds s.sigfd = some .signal
  known : ∀ fd c, s.fds fd = some (.sock c) → c < s.nextConn
  unique : ∀ fd fd' c, s.fds fd = some (.sock c) → s.fds fd' = some (.sock c) → fd = fd'
  future : ∀ c, s.nextConn ≤ c → (s.peers c).unread ≠ [] → (s.peers c).edge = true
  edge : ∀ fd c, s.fds fd = some (.sock c) → (s.peers c).unread ≠ [] →
    (s.peers c).edge = true ∨ ∃ e ∈ toRead s.phase, e.fd = fd ∧ e.epollIn = true

variable {fd : Fd} {es : List Event} {s' : State}

theorem connAt_eq_some {s : State} {c : ConnId} (h : s.connAt fd = some c) :
    s.fds fd = some (.sock c) := by
  unfold State.connAt at h
  split at h
  · rename_i c' hc
    rw [hc, Option.some.inj h]
  · cases h

theorem toRead_nextEntry (isOver : Bool) (es : List Entry) : toRead (nextEntry isOver es) = es := by
  cases es with
  | nil => cases isOver <;> rfl
  | cons e es => rfl

/-! ## One step -/

section Steps

variable {s : State} {e : Entry} {rest : List Entry}

/-- A step to another phase that leaves no report of a connection unread. -/
theorem EdgeInv.skip (inv : EdgeInv s) {isOver : Bool} {ph : Phase}
    (h : ∀ fd c, s.fds fd = some (.sock c) →
      (∃ e ∈ toRead s.phase, e.fd = fd ∧ e.epollIn = true) →
      ∃ e ∈ toRead ph, e.fd = fd ∧ e.epollIn = true) :
    EdgeInv { s with isOver := isOver, phase := ph } := by
  refine ⟨inv.listener, inv.signal, inv.known, inv.unique, inv.future, ?_⟩
  intro fd c hfd hun
  exact (inv.edge fd c hfd hun).imp_right (h fd c hfd)

/-- Dropping from the batch an entry that is not about the connection. -/
theorem exists_of_cons {es : List Entry} (h : ∃ e' ∈ e :: es, e'.fd = fd ∧
    e'.epollIn = true) (hne : e.fd = fd → e.epollIn = true → False) :
    ∃ e' ∈ es, e'.fd = fd ∧ e'.epollIn = true := by
  obtain ⟨e', hmem, h1, h2⟩ := h
  rcases List.mem_cons.mp hmem with rfl | hmem
  · exact absurd h2 (hne h1)
  · exact ⟨e', hmem, h1, h2⟩

theorem dispatch_edge (inv : EdgeInv s) (hp : s.phase = .handling e .dispatch rest)
    (h : dispatch s e rest fd = some (s', es)) : EdgeInv s' := by
  have hnext (hobj : ∀ c, s.fds e.fd ≠ some (.sock c)) (g : Fd) (c : ConnId)
      (hg : s.fds g = some (.sock c)) (hex : ∃ e' ∈ toRead s.phase, e'.fd = g ∧ e'.epollIn = true) :
      ∃ e' ∈ rest, e'.fd = g ∧ e'.epollIn = true := by
    rw [hp] at hex
    refine exists_of_cons hex ?_
    rintro rfl _
    exact hobj c hg
  unfold dispatch at h
  split at h
  · rename_i hsock
    obtain ⟨hfree, rfl, rfl⟩ := guard_result_inj h
    have hobj (c : ConnId) : s.fds e.fd ≠ some (.sock c) := by
      rw [hsock, inv.listener]
      simp
    have hold {g : Fd} {o : Obj} (hg : s.fds g = some o) :
        update s.fds fd (some (.sock s.nextConn)) g = some o := by
      rw [update_of_ne]
      · exact hg
      · rintro rfl
        rw [hfree] at hg
        cases hg
    have hcases {g : Fd} {c : ConnId}
        (hg : update s.fds fd (some (.sock s.nextConn)) g = some (.sock c)) :
        (g = fd ∧ c = s.nextConn) ∨ s.fds g = some (.sock c) := by
      by_cases hgf : g = fd
      · rw [hgf, update_self] at hg
        exact Or.inl ⟨hgf, (Obj.sock.inj (Option.some.inj hg)).symm⟩
      · rw [update_of_ne hgf] at hg
        exact Or.inr hg
    refine ⟨hold inv.listener, hold inv.signal, ?_, ?_, ?_, ?_⟩
    · intro g c hg
      rcases hcases hg with ⟨_, rfl⟩ | hg
      · exact Nat.lt_succ_self _
      · exact Nat.lt_succ_of_lt (inv.known g c hg)
    · intro g g' c hg hg'
      rcases hcases hg with ⟨h1, hc⟩ | h1
      · rcases hcases hg' with ⟨h2, _⟩ | h2
        · rw [h1, h2]
        · exact absurd hc (Nat.ne_of_lt (inv.known g' c h2))
      · rcases hcases hg' with ⟨_, hc⟩ | h2
        · exact absurd hc (Nat.ne_of_lt (inv.known g c h1))
        · exact inv.unique g g' c h1 h2
    · intro c hc
      exact inv.future c (Nat.le_of_succ_le hc)
    · intro g c hg hun
      rw [toRead_nextEntry]
      rcases hcases hg with ⟨_, rfl⟩ | hg
      · -- nothing of the new connection was reported yet
        exact Or.inl (inv.future s.nextConn (Nat.le_refl _) hun)
      · exact (inv.edge g c hg hun).imp_right (hnext hobj g c hg)
  · split at h
    · rename_i hsig
      obtain ⟨rfl, rfl⟩ := result_inj h
      have hobj (c : ConnId) : s.fds e.fd ≠ some (.sock c) := by
        rw [hsig, inv.signal]
        simp
      refine inv.skip ?_
      rw [toRead_nextEntry]
      exact hnext hobj
    · obtain ⟨rfl, rfl⟩ := result_inj h
      refine inv.skip ?_
      rw [hp]
      exact fun _ _ _ hex => hex

/-- A read that empties the socket, or that a new arrival overtook. -/
theorem canRead_edge (inv : EdgeInv s) (hp : s.phase = .handling e .canRead rest)
    (hd : drains s (.handle fd) = true) (h : canRead s e rest = some (s', es)) : EdgeInv s' := by
  unfold canRead at h
  split at h
  · rename_i hin
    split at h
    · cases h
    · rename_i c hc
      split at h
      · cases h
      · obtain ⟨rfl, rfl⟩ := result_inj h
        have hfd := connAt_eq_some hc
        have hother {c' : ConnId} (hne : c' ≠ c) :
            update s.peers c ((s.peers c).consume buflen) c' = s.peers c' :=
          update_of_ne hne _ _
        refine ⟨inv.listener, inv.signal, inv.known, inv.unique, ?_, ?_⟩
        · intro c' hc' hun
          have hne : c' ≠ c := by
            rintro rfl
            exact absurd (inv.known e.fd c' hfd) (Nat.not_lt.mpr hc')
          simp only [hother hne] at hun ⊢
          exact inv.future c' hc' hun
        · intro g c' hg hun
          by_cases hcc : c' = c
          · subst hcc
            simp only [update_self, Peer.consume, ne_eq, List.drop_eq_nil_iff] at hun ⊢
            simp only [drains, hp, hin, hc, Bool.or_eq_true, decide_eq_true_eq] at hd
            exact Or.inl (hd.resolve_left hun)
          · simp only [hother hcc] at hun ⊢
            refine (inv.edge g c' hg hun).imp_right fun hex => ?_
            rw [hp] at hex
            refine exists_of_cons hex ?_
            rintro rfl _
            exact hcc (Obj.sock.inj (Option.some.inj (hg.symm.trans hfd)))
  · rename_i hin
    obtain ⟨rfl, rfl⟩ := result_inj h
    refine inv.skip ?_
    intro g c _ hex
    rw [hp] at hex
    exact exists_of_cons hex fun _ h => hin h

theorem disconnect_edge (inv : EdgeInv s) (hp : s.phase = .handling e .disconnect rest)
    (h : disconnect s e rest = some (s', es)) : EdgeInv s' := by
  unfold disconnect at h
  split at h
  · split at h
    · cases h
    · rename_i c hc
      obtain ⟨_, rfl, rfl⟩ := guard_result_inj h
      have hfd := connAt_eq_some hc
      have hold {g : Fd} {c' : ConnId}
          (hg : update s.fds e.fd none g = some (.sock c')) :
          s.fds g = some (.sock c') := by
        by_cases hge : g = e.fd
        · rw [hge, update_self] at hg
          cases hg
        · rwa [update_of_ne hge] at hg
      have hkeep {g : Fd} {o : Obj} (hg : s.fds g = some o) (ho : o ≠ .sock c) :
          update s.fds e.fd none g = some o := by
        rw [update_of_ne]
        · exact hg
        · rintro rfl
          exact ho (Option.some.inj (hg.symm.trans hfd))
      refine ⟨hkeep inv.listener (by simp), hkeep inv.signal (by simp), ?_, ?_, inv.future, ?_⟩
      · intro g c' hg
        exact inv.known g c' (hold hg)
      · intro g g' c' hg hg'
        exact inv.unique g g' c' (hold hg) (hold hg')
      · intro g c' hg hun
        rw [toRead_nextEntry]
        have hedge := inv.edge g c' (hold hg) hun
        rw [hp] at hedge
        exact hedge
  · obtain ⟨rfl, rfl⟩ := result_inj h
    refine inv.skip ?_
    rw [toRead_nextEntry, hp]
    exact fun _ _ _ hex => hex

/-- A report that spends an edge of a connection with unread data has EPOLLIN. -/
theorem wait_edge (inv : EdgeInv s) (hp : s.phase = .waiting) {batch : List Entry}
    (hb : batchOk s batch) :
    EdgeInv { s with peers := s.reported batch, phase := nextEntry s.isOver batch } := by
  have hun {c : ConnId} (h : (s.reported batch c).unread ≠ []) : (s.peers c).unread ≠ [] := by
    unfold State.reported at h
    split at h <;> exact h
  refine ⟨inv.listener, inv.signal, inv.known, inv.unique, ?_, ?_⟩
  · intro c hc hne
    have hno : ¬ ∃ e ∈ batch, s.connAt e.fd = some c := by
      rintro ⟨e, _, hce⟩
      exact absurd (inv.known e.fd c (connAt_eq_some hce)) (Nat.not_lt.mpr hc)
    simp only [State.reported, if_neg hno] at hne ⊢
    exact inv.future c hc hne
  · intro g c hg hne
    rw [toRead_nextEntry]
    by_cases hrep : ∃ e ∈ batch, s.connAt e.fd = some c
    · right
      obtain ⟨e, he, hce⟩ := hrep
      have hfd := connAt_eq_some hce
      refine ⟨e, he, inv.unique e.fd g c hfd hg, ?_⟩
      have hr := hb.2.2.2 e he
      have hpos : (s.peers c).unread.isEmpty = false := by simpa using hun hne
      simp only [State.reportable, hfd, Bool.and_eq_true, beq_iff_eq, hpos] at hr
      exact hr.2.1.2
    · left
      simp only [State.reported, if_neg hrep] at hne ⊢
      rcases inv.edge g c hg hne with h | ⟨e, he, _⟩
      · exact h
      · rw [hp] at he
        cases he

/-- An arrival, after which the connection has an unspent edge. -/
theorem arrive_edge (inv : EdgeInv s) {c : ConnId} {p : Peer} (hp : p.edge = true) :
    EdgeInv { s with peers := update s.peers c p } := by
  have hcases (c' : ConnId) : (update s.peers c p c').edge = true ∨
      update s.peers c p c' = s.peers c' := by
    by_cases h : c' = c
    · rw [h, update_self]
      exact Or.inl hp
    · exact Or.inr (update_of_ne h _ _)
  refine ⟨inv.listener, inv.signal, inv.known, inv.unique, ?_, ?_⟩
  · intro c' hc' hun
    rcases hcases c' with h | h
    · exact h
    · simp only [h] at hun ⊢
      exact inv.future c' hc' hun
  · intro g c' hg hun
    rcases hcases c' with h | h
    · exact Or.inl h
    · simp only [h] at hun ⊢
      exact inv.edge g c' hg hun

end Steps

theorem step_edge {s : State} {a : Act} (inv : EdgeInv s) (hd : drains s a = true)
    (h : server.step s a = some (s', es)) : EdgeInv s' := by
  cases a with
  | wait batch =>
    simp only [server, step] at h
    obtain ⟨hg, rfl, rfl⟩ := guard_result_inj h
    exact wait_edge inv hg.1 hg.2
  | handle fd =>
    simp only [server, step] at h
    split at h
    · rename_i e rest hp
      exact dispatch_edge inv hp h
    · rename_i e rest hp
      exact canRead_edge inv hp hd h
    · rename_i e rest hp
      exact disconnect_edge inv hp h
    · cases h
  | arrive c bs =>
    simp only [server, step] at h
    split at h
    · cases h
    · obtain ⟨rfl, rfl⟩ := result_inj h
      exact arrive_edge inv rfl
  | shutdown c =>
    simp only [server, step] at h
    split at h
    · cases h
    · obtain ⟨rfl, rfl⟩ := result_inj h
      exact arrive_edge inv rfl

theorem edgeInv_initState (b : Boot) : EdgeInv (initState b) := by
  have hne : b.sigfd ≠ b.sockfd := by
    have h := b.distinct
    simp only [List.nodup_cons, List.mem_cons, not_or] at h
    exact Ne.symm h.1.2.1
  have hnosock {fd : Fd} {c : ConnId} (h : (initState b).fds fd = some (.sock c)) : False := by
    simp only [initState] at h
    split at h
    · cases h
    · split at h
      · cases h
      · split at h
        · cases h
        · split at h <;> cases h
  refine ⟨if_pos rfl, ?_, ?_, ?_, ?_, ?_⟩
  · simp only [initState, if_neg hne, if_true]
  · intro fd c h
    exact (hnosock h).elim
  · intro fd fd' c h
    exact (hnosock h).elim
  · intro c _ h
    exact absurd rfl h
  · intro fd c h
    exact (hnosock h).elim

/-! ## Whole runs -/

/-- **No stalled connection.** In every run in which each read finds at most `buflen` unread
    bytes or an arrival after the report, whenever the server is at `epoll_wait` every open
    connection with unread data has an edge that was not reported. -/
theorem no_stall_of_drains (b : Boot) (acts : List Act) (s : State) (tr : List Event)
    (hd : server.Along (fun s a => drains s a = true) (initState b) acts)
    (hr : server.run (initState b) acts = some (s, tr)) : NoStall s := by
  have inv : EdgeInv s := server.run_induct_along (fun s a => drains s a = true)
    (fun s _ => EdgeInv s) (fun _ _ _ _ _ hd inv hs => step_edge inv hd hs) acts (initState b) []
    s tr hd (edgeInv_initState b) hr
  intro hp fd c hfd hun
  rcases inv.edge fd c hfd hun with h | ⟨e, he, _⟩
  · exact h
  · rw [hp] at he
    cases he

/-- The program started with the three standard descriptors. -/
def standardBoot : Boot where
  inherited := {0, 1, 2}
  sockfd := 3
  epollfd := 4
  sigfd := 5
  distinct := by decide
  fresh := by decide

/-- Connection 0 is accepted at 6, `bs` arrives on it at once and is reported; `more` arrives
    before the report is handled. -/
def arrivalRun (bs more : List UInt8) : List Act :=
  [.wait [⟨3, true, false⟩], .handle 6, .arrive 0 bs, .wait [⟨6, true, false⟩], .handle 0] ++
    (if more = [] then [] else [.arrive 0 more]) ++ [.handle 0, .handle 0]

/-- 1024 of the 1026 bytes are read; the rest has the edge of the late arrival. -/
theorem no_stall_arrivalRun :
    ∃ s tr, server.run (initState standardBoot) (arrivalRun (.replicate 1025 7) [8]) =
        some (s, tr) ∧
      s.phase = .waiting ∧ (s.peers 0).unread ≠ [] ∧ NoStall s := by
  obtain ⟨s, tr, hr, hp, hun⟩ := server.exists_of_check (initState standardBoot)
    (arrivalRun (.replicate 1025 7) [8]) (fun s _ => s.phase = .waiting ∧ (s.peers 0).unread ≠ [])
    (by decide +kernel)
  have hd := server.along_of_check drains (arrivalRun (.replicate 1025 7) [8])
    (initState standardBoot) (by decide +kernel)
  exact ⟨s, tr, hr, hp, hun, no_stall_of_drains standardBoot _ s tr hd hr⟩

/-- 1025 bytes arrive at once: the last one is left in the socket, and no edge is pending. -/
theorem read_leaves_connection_stalled :
    ∃ s tr, server.run (initState standardBoot) (arrivalRun (.replicate 1025 7) []) =
        some (s, tr) ∧
      s.phase = .waiting ∧ s.fds 6 = some (.sock 0) ∧ (s.peers 0).unread = [7] ∧
      (s.peers 0).edge = false ∧ ¬ NoStall s := by
  obtain ⟨s, tr, hr, hp, hfd, hun, hedge⟩ := server.exists_of_check (initState standardBoot)
    (arrivalRun (.replicate 1025 7) [])
    (fun s _ => s.phase = .waiting ∧ s.fds 6 = some (.sock 0) ∧ (s.peers 0).unread = [7] ∧
      (s.peers 0).edge = false) (by decide +kernel)
  refine ⟨s, tr, hr, hp, hfd, hun, hedge, ?_⟩
  intro h
  have := h hp 6 0 hfd (by rw [hun]; simp)
  rw [hedge] at this
  cases this

end DemosOsLinux.EdgeServer
