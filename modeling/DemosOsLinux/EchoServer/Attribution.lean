/-
  Event attribution: does an entry of a batch act on the object it was generated for?

  The program looks an entry up by its descriptor number only. A number that was closed by an
  earlier entry of the same batch is found in no map, so the entry is ignored; but if an entry
  between the two makes the program accept a connection, the kernel hands out the lowest free
  number, which is the one just closed, and the stale entry acts on the new connection.
  * `stale_entry_reads_new_connection`: a run in which this happens.
  * `attribution_of_noReuse`: it is the only way. In a run in which no accept gets a number
    under which a pending entry of the batch reports something, every entry acts on its own
    object.
-/
import DemosOsLinux.EchoServer.Echo

namespace DemosOsLinux.EchoServer

open Lib

/-- The entries of the batch that are not finished. -/
def pending : Phase → List Entry
  | .waiting => []
  | .handling e _ rest => e :: rest

/-- Does the entry report one of the three events? -/
def Mask.reports (m : Mask) : Bool := m.epollIn || m.epollOut || m.epollRdHup

/-- The object of the entry is still open at its number, or the number is free, or a socket
    is open there and the entry reports nothing that the program looks at. -/
def Fresh (t : Tables) (e : Entry) : Prop :=
  t.fds e.fd = some e.source ∨ t.fds e.fd = none ∨
    (e.events.reports = false ∧ ∃ c, t.fds e.fd = some (.sock c))

def AttributionOk : Event → Prop
  | .applied source target => source = target
  | _ => True

/-- Of the entries that come later in the batch, none has the number of the timer `k.timerfd`,
    and none that reports something has the number `k.realfd`. -/
def Unused (k : Choice) (rest : List Entry) : Prop :=
  ∀ e ∈ rest, (e.fd = k.realfd → e.events.reports = false) ∧ e.fd ≠ k.timerfd

instance (k : Choice) (rest : List Entry) : Decidable (Unused k rest) := by
  unfold Unused
  infer_instance

/-- If this step accepts a connection, its two descriptors are unused in the batch. -/
def noReuse (s : Server) (a : Act) : Bool :=
  match s.phase, a with
  | .handling e .connect rest, .handle k =>
      decide (e.fd = s.tables.sockfd → Unused k rest)
  | _, _ => true

/-! ## One step -/

theorem pending_startEntry (es : List Entry) : pending (startEntry es) = es := by
  cases es <;> rfl

variable {e : Entry} {t : Tables} {cfg : Config}

theorem mem_of_mem_pending_nextPhase {e' : Entry} {b : Branch} {rest : List Entry}
    (h : e' ∈ pending (nextPhase e b rest)) : e' ∈ e :: rest := by
  cases b with
  | timeout =>
    rw [nextPhase, pending_startEntry] at h
    exact List.mem_cons_of_mem e h
  | _ => exact h

theorem fresh_entries {batch : List (Fd × Mask)} (hb : batchOk cfg t batch) :
    ∀ e ∈ entries t batch, Fresh t e := by
  intro e he
  obtain ⟨r, hr, rfl⟩ := List.mem_map.mp he
  have hrep := hb.2.2.2 r hr
  unfold reportable at hrep
  split at hrep
  · rename_i o m ho _
    left
    show t.fds r.1 = some ((t.fds r.1).getD .inherited)
    rw [ho]
    rfl
  · cases hrep

theorem fresh_dropped (fd tfd : Fd) (h : Fresh t e) : Fresh (t.dropped fd tfd) e := by
  cases hd : (t.dropped fd tfd).fds e.fd with
  | none => exact Or.inr (Or.inl hd)
  | some o =>
    have hsame : (t.dropped fd tfd).fds e.fd = t.fds e.fd := by
      rw [hd, (dropped_fds hd).2.2]
    unfold Fresh
    rw [hsame]
    exact h

/-- An entry stays fresh when its number is not reused, and also when it is reused for a
    socket and the entry reports nothing. -/
theorem fresh_opened {cp : CircularPipe} {realfd timerfd : Fd} (hne : timerfd ≠ realfd)
    (h1 : e.fd = realfd → e.events.reports = false) (h2 : e.fd ≠ timerfd) (h : Fresh t e) :
    Fresh (t.opened cp realfd timerfd) e := by
  by_cases hr : e.fd = realfd
  · refine Or.inr (Or.inr ⟨h1 hr, t.nextConn, ?_⟩)
    rw [hr]
    exact (conn_opened_new hne).sock
  · have hsame : (t.opened cp realfd timerfd).fds e.fd = t.fds e.fd := by
      simp only [Tables.opened, Function.update_of_ne h2, Function.update_of_ne hr]
    unfold Fresh
    rw [hsame]
    exact h

/-- A fresh entry whose number is open, and that reports something unless that is not a
    socket, is about the object open there. -/
theorem Fresh.source_eq {o : Obj} (h : Fresh t e) (ho : t.fds e.fd = some o)
    (hr : e.events.reports = true ∨ ∀ c, o ≠ .sock c) : e.source = o := by
  rcases h with h | h | ⟨hnone, c, hc⟩
  · exact Option.some.inj (h.symm.trans ho)
  · rw [h] at ho
    cases ho
  · rcases hr with hr | hr
    · rw [hnone] at hr
      cases hr
    · exact absurd (Option.some.inj (ho.symm.trans hc)) (hr c)

/-- A branch that works acts on the object of its entry, and keeps the pending entries fresh
    unless it accepts a connection at one of their numbers. -/
theorem works_attribution {t' : Tables} {k : Choice} {b : Branch} {es : List Event}
    {rest : List Entry} (h : Works cfg t e k b es t') (tabs : TablesInv t)
    (hno : b = .connect → e.fd = t.sockfd → Unused k rest) (hf : ∀ e' ∈ e :: rest, Fresh t e') :
    (∀ e' ∈ e :: rest, Fresh t' e') ∧ ∀ ev ∈ es, AttributionOk ev := by
  have he : Fresh t e := hf e List.mem_cons_self
  cases h with
  | accept hfd hreal htimer hne =>
    have hl := tabs.listener
    rw [← hfd] at hl
    have hsrc := he.source_eq hl (Or.inr fun c => by simp)
    refine ⟨?_, by simp [AttributionOk, hsrc]⟩
    intro e' he'
    rcases List.mem_cons.mp he' with rfl | hmem
    · have h1 := ne_of_open hl hreal
      exact fresh_opened hne (fun h => absurd h h1) (ne_of_open hl htimer) he
    · obtain ⟨h1, h2⟩ := hno rfl hfd e' hmem
      exact fresh_opened hne h1 h2 (hf e' he')
  | read c cp hev hcp hc hlen =>
    have hsrc := he.source_eq hc (Or.inl (by simp [Mask.reports, hev]))
    exact ⟨hf, by simp [AttributionOk, hsrc]⟩
  | write c cp hev hcp hc hlen =>
    have hsrc := he.source_eq hc (Or.inl (by simp [Mask.reports, hev]))
    exact ⟨hf, by simp [AttributionOk, hsrc]⟩
  | hangup c timerfd hev hc htimer =>
    have hsrc := he.source_eq hc (Or.inl (by simp [Mask.reports, hev]))
    exact ⟨fun e' he' => fresh_dropped _ _ (hf e' he'), by simp [AttributionOk, hsrc]⟩
  | expire c realfd hreal hc =>
    -- the connection that is closed is the one whose timer the entry names
    obtain ⟨c', p, hconn⟩ := conn_of_expire tabs hreal
    obtain rfl := Obj.sock.inj (Option.some.inj (hconn.sock.symm.trans hc))
    have hsrc := he.source_eq hconn.timer (Or.inr fun c => by simp)
    exact ⟨fun e' he' => fresh_dropped _ _ (hf e' he'), by simp [AttributionOk, hsrc]⟩

theorem step_attribution {s s' : Server} {a : Act} {es : List Event} (tabs : TablesInv s.tables)
    (hno : noReuse s a = true) (hf : ∀ e ∈ pending s.phase, Fresh s.tables e)
    (h : (server cfg).step s a = some (s', es)) :
    (∀ e ∈ pending s'.phase, Fresh s'.tables e) ∧ ∀ ev ∈ es, AttributionOk ev := by
  have htrans : Trans cfg s a es s' := trans_of_step h
  cases htrans with
  | wait batch hp hb =>
    refine ⟨?_, by simp⟩
    intro e he
    rw [pending_startEntry] at he
    exact fresh_entries hb e he
  | skip e b rest k hp =>
    rw [hp] at hf
    refine ⟨?_, by simp⟩
    intro e' he'
    exact hf e' (mem_of_mem_pending_nextPhase he')
  | work e b rest k es t hp hw =>
    rw [hp] at hf
    have hno' : b = .connect → e.fd = s.tables.sockfd → Unused k rest := by
      rintro rfl
      unfold noReuse at hno
      rw [hp] at hno
      exact of_decide_eq_true hno
    obtain ⟨h1, h2⟩ := works_attribution hw tabs hno' hf
    exact ⟨fun e' he' => h1 e' (mem_of_mem_pending_nextPhase he'), h2⟩

/-! ## Whole runs -/

/-- **Event attribution.** In every run of the event loop in which no accept returns, for the
    connection or for its timer, a number under which an entry that is still pending in the
    current batch reports something, every entry acts only on the object for which it was
    generated. -/
theorem attribution_of_noReuse (cfg : Config) (b : Boot) (acts : List Act) (s : Server)
    (tr : List Event) (hno : (server cfg).Along (fun s a => noReuse s a = true) (initServer b) acts)
    (hr : (server cfg).run (initServer b) acts = some (s, tr)) :
    ∀ source target, Event.applied source target ∈ tr → source = target := by
  have hrun := (server cfg).run_induct_along (fun s a => noReuse s a = true)
    (fun s tr => (TablesInv s.tables ∧ ∀ e ∈ pending s.phase, Fresh s.tables e) ∧
      ∀ ev ∈ tr, AttributionOk ev) ?_ acts (initServer b) [] s tr hno ?_ hr
  · intro source target h
    exact hrun.2 _ h
  · rintro s tr a s' es hn ⟨⟨tabs, hf⟩, hok⟩ hs
    obtain ⟨h1, h2⟩ := step_attribution tabs hn hf hs
    refine ⟨⟨trans_tables (trans_of_step hs) tabs, h1⟩, ?_⟩
    intro ev hev
    rcases List.mem_append.mp hev with hev | hev
    · exact hok ev hev
    · exact h2 ev hev
  · exact ⟨⟨tablesInv_initServer b, by simp [initServer, pending]⟩, by simp⟩

/-- Connection 0 is open at 5 with its timer at 6. One batch then has a new connection, accepted at 7
    with its timer at 8, and input and the hang-up of connection 0, which is read and closed. -/
def closingRun : List Act :=
  [.wait [(3, inputOnly)], .handle ⟨5, 6, fun _ => 0, [], 0⟩, .handle idle, .handle idle,
      .handle idle, .handle idle,
    .wait [(3, inputOnly), (5, ⟨true, false, true⟩)],
      .handle ⟨7, 8, fun _ => 0, [], 0⟩, .handle idle, .handle idle, .handle idle, .handle idle,
      .handle idle, .handle ⟨0, 0, fun _ => 0, [9], 0⟩, .handle idle, .handle idle, .handle idle]

theorem attribution_closingRun :
    ∃ s tr, (server ⟨4, 8⟩).run (initServer standardBoot) closingRun = some (s, tr) ∧
      (Event.read 0 [9] ∈ tr ∧ Event.closed 0 ∈ tr ∧ Event.applied (.sock 0) (.sock 0) ∈ tr) ∧
      ∀ source target, Event.applied source target ∈ tr → source = target := by
  obtain ⟨s, tr, hr, hmem⟩ := (server ⟨4, 8⟩).exists_of_check (initServer standardBoot) closingRun
    (fun _ tr => Event.read 0 [9] ∈ tr ∧ Event.closed 0 ∈ tr ∧
      Event.applied (.sock 0) (.sock 0) ∈ tr) (by decide +kernel)
  have hno := (server ⟨4, 8⟩).along_of_check noReuse closingRun (initServer standardBoot)
    (by decide +kernel)
  exact ⟨s, tr, hr, hmem, attribution_of_noReuse ⟨4, 8⟩ standardBoot closingRun s tr hno hr⟩

/-- Connection 0 is open at 5 with its timer at 6. One batch then has its expired timer, a new
    connection and input on connection 0, in this order. -/
def staleRun : List Act :=
  [.wait [(3, inputOnly)], .handle ⟨5, 6, fun _ => 0, [], 0⟩, .handle idle, .handle idle,
      .handle idle, .handle idle,
    .wait [(6, inputOnly), (3, inputOnly), (5, ⟨true, false, false⟩)],
      .handle idle, .handle idle, .handle idle, .handle idle, .handle idle,
      .handle ⟨5, 6, fun _ => 0, [], 0⟩, .handle idle, .handle idle, .handle idle, .handle idle,
      .handle idle, .handle ⟨0, 0, fun _ => 0, [9], 0⟩]

/-- The entry that was generated for connection 0 makes the program read connection 1. -/
theorem stale_entry_reads_new_connection :
    ∃ s tr, (server ⟨4, 8⟩).run (initServer standardBoot) staleRun = some (s, tr) ∧
      Event.closed 0 ∈ tr ∧ Event.applied (.sock 0) (.sock 1) ∈ tr ∧
      Event.read 1 [9] ∈ tr := by
  exact (server ⟨4, 8⟩).exists_of_check (initServer standardBoot) staleRun
    (fun _ tr => Event.closed 0 ∈ tr ∧ Event.applied (.sock 0) (.sock 1) ∈ tr ∧
      Event.read 1 [9] ∈ tr) (by decide +kernel)

end DemosOsLinux.EchoServer
