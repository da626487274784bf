/-
  How large a batch must be for a stale entry.

  A stale entry needs two others before it in its batch: one that closes its connection, and one that
  accepts a connection at the same number. With `maxevents` at most 2 there is no room for all three;
  with one that `epoll_wait` does not accept there is no batch at all.
  * `Short`: when an accept is next, what is left of the batch is about descriptors that are open, so the
    kernel does not return their numbers.
  * `attribution_iff`: the entries act on their own objects in all runs if and only if `maxevents` is one
    of these, for any `bufsize`.
-/
import DemosOsLinux.EchoServer.Attribution

namespace DemosOsLinux.EchoServer

open Lib

/-! ## Batches of two -/

structure Short (s : Server) : Prop where
  length : ∀ e b rest, s.phase = .handling e b rest → rest.length ≤ 1
  isOpen : ∀ e rest, s.phase = .handling e .connect rest → ∀ e' ∈ rest, s.tables.fds e'.fd ≠ none

/-- An entry begins: if there is one after it, nothing has been closed yet. -/
theorem short_startEntry {t : Tables} {es : List Entry} (hlen : es.length ≤ 2)
    (hopen : es.length = 2 → ∀ e ∈ es, t.fds e.fd ≠ none) : Short ⟨t, startEntry es⟩ := by
  cases es with
  | nil => exact ⟨nofun, nofun⟩
  | cons e rest =>
    have hle : rest.length ≤ 1 := Nat.le_of_succ_le_succ hlen
    constructor
    · intro e' b rest' h
      obtain ⟨_, _, rfl⟩ := Phase.handling.inj h
      exact hle
    · intro e' rest' h e'' hmem
      obtain ⟨_, _, rfl⟩ := Phase.handling.inj h
      have hpos := List.length_pos_of_mem hmem
      rw [List.length_cons] at hopen
      exact hopen (by omega) e'' (List.mem_cons_of_mem e hmem)

theorem short_nextPhase (t : Tables) (e : Entry) (b : Branch) {rest : List Entry}
    (hlen : rest.length ≤ 1) : Short ⟨t, nextPhase e b rest⟩ := by
  have hother : ∀ b', b' ≠ .connect → Short ⟨t, .handling e b' rest⟩ := by
    intro b' hb'
    constructor
    · intro e' b₁ rest' h
      obtain ⟨_, _, rfl⟩ := Phase.handling.inj h
      exact hlen
    · intro e' rest' h
      exact absurd (Phase.handling.inj h).2.1 hb'
  cases b with
  | connect => exact hother .canRead (by decide)
  | canRead => exact hother .canWrite (by decide)
  | canWrite => exact hother .disconnect (by decide)
  | disconnect => exact hother .timeout (by decide)
  | timeout => exact short_startEntry (by omega) (by omega)

theorem reportable_open {t : Tables} {r : Fd × Mask} (h : reportable t r = true) :
    t.fds r.1 ≠ none := by
  intro hnone
  unfold reportable at h
  rw [hnone] at h
  cases h

variable {cfg : Config} {s : Server}

theorem trans_short {s' : Server} {a : Act} {es : List Event} (hmax : cfg.batchMax ≤ 2)
    (h : Trans cfg s a es s') (inv : Short s) : Short s' := by
  cases h with
  | wait batch hp hb =>
    obtain ⟨_, hlen, _, hrep⟩ := hb
    refine short_startEntry ?_ fun _ e he => ?_
    · rw [entries, List.length_map]
      exact hlen.trans hmax
    · obtain ⟨r, hr, rfl⟩ := List.mem_map.mp he
      exact reportable_open (hrep r hr)
  | skip e b rest k hp => exact short_nextPhase _ e b (inv.length e b rest hp)
  | work e b rest k es t hp hw => exact short_nextPhase t e b (inv.length e b rest hp)

/-- So an accept does not get the number of an entry that is still to come. -/
theorem noReuse_of_short {s' : Server} {a : Act} {es : List Event} (inv : Short s)
    (h : step cfg s a = some (s', es)) : noReuse s a = true := by
  unfold noReuse
  split
  · rename_i e rest k hp
    refine decide_eq_true fun hfd => ?_
    simp only [step, hp, branch, if_pos hfd] at h
    obtain ⟨⟨t, evs⟩, hr, _⟩ := Option.map_eq_some_iff.mp h
    cases connect_works hfd hr with
    | accept _ hreal htimer _ =>
      intro e' he'
      have hopen := inv.isOpen e rest hp e' he'
      exact ⟨fun h => absurd (h ▸ hreal) hopen, fun h => hopen (h ▸ htimer)⟩
  · rfl

theorem run_attribution {b : Boot} {acts : List Act} {tr : List Event} (hmax : cfg.batchMax ≤ 2)
    (hr : (server cfg).run (initServer b) acts = some (s, tr)) : ∀ ev ∈ tr, AttributionOk ev := by
  have hrun := (server cfg).run_induct (fun _ => True)
    (fun s tr => (TablesInv s.tables ∧ Short s ∧ ∀ e ∈ pending s.phase, Fresh s.tables e) ∧
      ∀ ev ∈ tr, AttributionOk ev) ?_ (fun _ _ => trivial) ?_ hr
  · exact hrun.2
  · rintro s tr a s' es - ⟨⟨tabs, hshort, hf⟩, hok⟩ hs
    have htrans : Trans cfg s a es s' := trans_of_step hs
    obtain ⟨hf', hok'⟩ := step_attribution tabs (noReuse_of_short hshort hs) hf hs
    refine ⟨⟨trans_tables htrans tabs, trans_short hmax htrans hshort, hf'⟩, fun ev hev => ?_⟩
    exact (List.mem_append.mp hev).elim (hok ev) (hok' ev)
  · exact ⟨⟨tablesInv_initServer b, ⟨nofun, nofun⟩, nofun⟩, nofun⟩

/-! ## Batches of three -/

/-- Connection 0 is open at 5 with its timer at 6. One batch then has its hang-up, a new connection and
    its expired timer, in this order. -/
def staleTimerRun : List Act :=
  [.wait [(3, inputOnly)], .handle ⟨5, 6, fun _ => 0, [], 0⟩, .handle idle, .handle idle,
    .handle idle, .handle idle,
    .wait [(5, ⟨false, false, true⟩), (3, inputOnly), (6, inputOnly)],
    .handle idle, .handle idle, .handle idle, .handle idle, .handle idle,
    .handle ⟨5, 6, fun _ => 0, [], 0⟩, .handle idle, .handle idle, .handle idle, .handle idle,
    .handle idle, .handle idle, .handle idle, .handle idle, .handle idle]

theorem staleTimerRun_applied (bufsize : UInt32) :
    ∃ s tr, (server ⟨bufsize, 3⟩).run (initServer standardBoot) staleTimerRun = some (s, tr) ∧
      Event.applied (.timer 0) (.timer 1) ∈ tr :=
  (server ⟨bufsize, 3⟩).exists_of_check (initServer standardBoot) staleTimerRun
    (fun _ tr => Event.applied (.timer 0) (.timer 1) ∈ tr) (by rfl)

theorem batchMax_eq (cfg : Config) : cfg.batchMax =
    if cfg.maxevents.toNat ≤ epMaxEvents then cfg.maxevents.toNat else 0 := by
  have hlimit : epMaxEvents = 178956970 := rfl
  unfold Config.batchMax
  split <;> split <;> omega

/-- What the server does with smaller batches it does with larger ones. -/
theorem run_maxevents {bufsize m m' : UInt32}
    (hle : Config.batchMax ⟨bufsize, m⟩ ≤ Config.batchMax ⟨bufsize, m'⟩) {s' : Server}
    {acts : List Act} {tr : List Event} (hr : (server ⟨bufsize, m⟩).run s acts = some (s', tr)) :
    (server ⟨bufsize, m'⟩).run s acts = some (s', tr) := by
  induction acts generalizing s tr with
  | nil => exact hr
  | cons a acts ih =>
    obtain ⟨s₁, es, es₂, hs, hr₁, rfl⟩ := (Machine.run_cons_eq_some _ s a acts s' tr).mp hr
    refine (Machine.run_cons_eq_some _ s a acts s' _).mpr ⟨s₁, es, es₂, ?_, ih hr₁, rfl⟩
    cases a with
    | wait batch =>
      obtain ⟨⟨hp, hne, hlen, hb⟩, h⟩ := Option.ite_none_right_eq_some.mp hs
      exact Option.ite_none_right_eq_some.mpr ⟨⟨hp, hne, hlen.trans hle, hb⟩, h⟩
    | handle k => exact hs

/-- **When entries are stale.** In all runs of the event loop every entry acts only on the object for
    which it was generated, if and only if `epoll_wait` is asked for at most two events, or for more
    than the kernel accepts, so that the program ends at the first call. -/
theorem attribution_iff (cfg : Config) :
    (∀ b acts s tr, (server cfg).run (initServer b) acts = some (s, tr) →
      ∀ source target, Event.applied source target ∈ tr → source = target) ↔
    cfg.maxevents.toNat ≤ 2 ∨ epMaxEvents < cfg.maxevents.toNat := by
  have hsmall : cfg.batchMax ≤ 2 ↔ cfg.maxevents.toNat ≤ 2 ∨ epMaxEvents < cfg.maxevents.toNat := by
    rw [batchMax_eq]
    split <;> omega
  rw [← hsmall]
  constructor
  · intro h
    by_contra hmax
    obtain ⟨s, tr, hr, hmem⟩ := staleTimerRun_applied cfg.bufsize
    have hle : Config.batchMax ⟨cfg.bufsize, 3⟩ ≤ cfg.batchMax := Nat.lt_of_not_le hmax
    have hlift : (server cfg).run (initServer standardBoot) staleTimerRun = some (s, tr) :=
      run_maxevents hle hr
    exact absurd (h standardBoot staleTimerRun s tr hlift _ _ hmem) (by decide)
  · intro hmax b acts s tr hr source target hmem
    exact run_attribution hmax hr _ hmem

end DemosOsLinux.EchoServer
