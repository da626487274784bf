/-
  Counting the signals of a child (examples/signals/lose_signals.cc).

  The child sends `num_signals` signals and exits; the parent counts in its handler and prints the count
  when SIGCHLD has told it that the child is gone. One handler runs at a time for the signal (`sa_flags`
  is 0), and SIGCHLD may come within it. A standard signal that is sent while it is pending is lost, a
  real-time signal is queued up to a limit. Before the parent goes on from the kernel, all that is pending
  is delivered; outside of the kernel a signal may interrupt it between any two steps. What is asked of
  the signal and of the limit is in `Config`. `usleep` is any other step in between, and `got_signals`, at
  most `num_signals`, does not wrap.
  * `Inv`: what is counted, what is pending and what has been sent; the parent sees that the child is gone
    only when nothing is pending.
  * `got_iff`: the counts that the parent can print.
-/
import DemosOsLinux.Lib.Machine

namespace DemosOsLinux.LoseSignals

open Lib

inductive Kind where
  | standard
  | realTime

structure Config where
  /-- From 1 to 64, as numbered on x86. -/
  theSignal : Nat
  /-- The parent can catch it (not SIGKILL, SIGSTOP, nor 32 and 33, which the C library keeps), it is not
      SIGCHLD, and without a handler it ends the process (not SIGCONT, SIGTSTP, SIGTTIN, SIGTTOU, SIGURG,
      SIGWINCH). -/
  ends : theSignal ∉ [9, 19, 32, 33, 17, 18, 20, 21, 22, 23, 28]
  numSignals : Nat
  /-- How many signals can be queued for the parent (`RLIMIT_SIGPENDING`). -/
  limit : Nat
  fits : numSignals ≤ limit

def Config.kind (C : Config) : Kind := if C.theSignal < 32 then .standard else .realTime

/-- One more signal is sent while `p` are pending. Beyond the limit kill(2) leaves no more than the mark
    that the signal is pending. -/
def Config.raise (C : Config) (p : Nat) : Nat :=
  match C.kind with
  | .standard => 1
  | .realTime => if p < C.limit then p + 1 else max p 1

/-- Where the parent is. -/
inductive Pc where
  /-- At the two calls of `signal_register_handler_sigaction`. -/
  | registerSignal
  | registerChld
  /-- At `got_signals=0`. -/
  | reset
  /-- At the condition of the loop. -/
  | loop
  /-- At the call of `pause`, and in it. -/
  | pause
  | asleep
  | ended
  /-- By the default action of the signal. -/
  | killed
  deriving DecidableEq

/-- The handler is registered for the signal. -/
def Pc.catchesSignal : Pc → Bool
  | .registerSignal | .killed => false
  | _ => true

/-- The handler is registered for SIGCHLD, which is ignored until then. -/
def Pc.catchesChld : Pc → Bool
  | .registerSignal | .registerChld | .killed => false
  | _ => true

structure State where
  pc : Pc
  /-- In the kernel, on the way back. -/
  kernel : Bool
  childAlive : Bool
  gotSignals : Nat
  /-- How many signals the child has sent. -/
  sent : Nat
  exited : Bool
  pending : Nat
  chldPending : Bool
  /-- In the handler for the signal. -/
  inHandler : Bool

inductive Act where
  | main
  | send
  | exit
  /-- The handler for the signal begins, and ends. -/
  | enter
  | leave
  /-- The handler for SIGCHLD. -/
  | chld
  | kill
  /-- Back from the kernel. -/
  | resume

/-- A handler runs: `pause` will return. -/
def State.interrupted (s : State) : State :=
  { s with kernel := true, pc := if s.pc = .asleep then .loop else s.pc }

def mainStep (s : State) : Option State :=
  match s.pc with
  | .registerSignal => some { s with pc := .registerChld, kernel := true }
  | .registerChld => some { s with pc := .reset, kernel := true }
  | .reset => some { s with pc := .loop, gotSignals := 0 }
  | .loop => some { s with pc := if s.childAlive then .pause else .ended }
  | .pause => some { s with pc := .asleep, kernel := true }
  | .asleep | .ended | .killed => none

def step (C : Config) (s : State) : Act → Option State
  | .main => if s.kernel = false then mainStep s else none
  | .send =>
    if s.sent < C.numSignals ∧ s.pc ≠ .killed then
      some { s with sent := s.sent + 1, pending := C.raise s.pending }
    else none
  | .exit =>
    if s.sent = C.numSignals ∧ s.exited = false then
      some { s with exited := true, chldPending := s.pc.catchesChld }
    else none
  | .enter =>
    if 0 < s.pending ∧ s.inHandler = false ∧ s.pc.catchesSignal then
      some { s.interrupted with
        pending := s.pending - 1, gotSignals := s.gotSignals + 1, inHandler := true }
    else none
  | .leave => if s.inHandler then some { s with inHandler := false } else none
  | .chld =>
    if s.chldPending then some { s.interrupted with chldPending := false, childAlive := false }
    else none
  | .kill =>
    if 0 < s.pending ∧ s.pc.catchesSignal = false then some { s with pc := .killed } else none
  | .resume =>
    if s.kernel = true ∧ s.pc ≠ .asleep ∧ s.inHandler = false ∧ s.pending = 0 ∧
        s.chldPending = false then
      some { s with kernel := false }
    else none

def machine (C : Config) : Machine State Act Empty := ⟨fun s a => (step C s a).map fun s' => (s', [])⟩

/-- At `pc`, with nothing pending; the child has sent `n` signals. -/
def calm (pc : Pc) (got n : Nat) : State := ⟨pc, false, true, got, n, false, 0, false, false⟩

/-- The parent comes back from `fork`. -/
def initState : State := { calm .registerSignal 0 0 with kernel := true }

/-! ## What is counted -/

/-- Kept when a signal is sent and when a handler begins. -/
structure Kept (C : Config) (R : Nat → Nat → Nat → Prop) : Prop where
  send : ∀ g p n, n < C.numSignals → R g p n → R g (C.raise p) (n + 1)
  enter : ∀ g p n, R g (p + 1) n → R (g + 1) p n

structure Inv (C : Config) (R : Nat → Nat → Nat → Prop) (s : State) : Prop where
  le : s.sent ≤ C.numSignals
  exited : s.exited = true → s.sent = C.numSignals
  chld : s.chldPending = true → s.exited = true
  gone : s.childAlive = false → s.exited = true ∧ s.chldPending = false
  drained : s.childAlive = false → s.kernel = false → s.pending = 0
  ended : s.pc = .ended → s.childAlive = false ∧ s.kernel = false
  counted : R s.gotSignals s.pending s.sent
  reset : s.pc = .registerSignal ∨ s.pc = .registerChld ∨ s.pc = .reset →
    ∀ g p n, R g p n → R 0 p n

section Inv

variable {C : Config} {R : Nat → Nat → Nat → Prop} {s s' : State} {a : Act}

theorem Inv.main (inv : Inv C R s) (hk : s.kernel = false) (h : mainStep s = some s') : Inv C R s' := by
  have hreset := inv.reset
  unfold mainStep at h
  split at h
  · rename_i hpc
    obtain rfl := Option.some.inj h
    exact ⟨inv.le, inv.exited, inv.chld, inv.gone, nofun, nofun, inv.counted, fun _ => hreset (Or.inl hpc)⟩
  · rename_i hpc
    obtain rfl := Option.some.inj h
    exact ⟨inv.le, inv.exited, inv.chld, inv.gone, nofun, nofun, inv.counted,
      fun _ => hreset (Or.inr (Or.inl hpc))⟩
  · rename_i hpc
    obtain rfl := Option.some.inj h
    exact ⟨inv.le, inv.exited, inv.chld, inv.gone, inv.drained, nofun,
      hreset (Or.inr (Or.inr hpc)) _ _ _ inv.counted, nofun⟩
  · obtain rfl := Option.some.inj h
    refine ⟨inv.le, inv.exited, inv.chld, inv.gone, inv.drained, fun h => ?_, inv.counted, fun h => ?_⟩
    · cases halive : s.childAlive with
      | true => simp [halive] at h
      | false => exact ⟨rfl, hk⟩
    · cases halive : s.childAlive <;> simp [halive] at h
  · obtain rfl := Option.some.inj h
    exact ⟨inv.le, inv.exited, inv.chld, inv.gone, nofun, nofun, inv.counted, nofun⟩
  all_goals cases h

theorem Inv.interrupted (inv : Inv C R s) (hpc : s.interrupted.pc = .registerSignal ∨
    s.interrupted.pc = .registerChld ∨ s.interrupted.pc = .reset) : ∀ g p n, R g p n → R 0 p n := by
  refine inv.reset ?_
  simp only [State.interrupted] at hpc
  split at hpc
  · simp at hpc
  · exact hpc

theorem interrupted_ended (h : s.interrupted.pc = .ended) : s.pc = .ended := by
  simp only [State.interrupted] at h
  split at h
  · cases h
  · exact h

theorem Inv.step (inv : Inv C R s) (hR : Kept C R) (h : step C s a = some s') : Inv C R s' := by
  cases a with
  | main =>
    obtain ⟨hk, h⟩ := Option.ite_none_right_eq_some.mp h
    exact inv.main hk h
  | send =>
    obtain ⟨⟨hlt, _⟩, h⟩ := Option.ite_none_right_eq_some.mp h
    obtain rfl := Option.some.inj h
    -- the child has not exited
    have hno : s.exited = true → False := fun he => Nat.ne_of_lt hlt (inv.exited he)
    exact ⟨hlt, fun he => (hno he).elim, inv.chld, inv.gone, fun hc => (hno (inv.gone hc).1).elim,
      inv.ended, hR.send _ _ _ hlt inv.counted, inv.reset⟩
  | exit =>
    obtain ⟨⟨hall, he⟩, h⟩ := Option.ite_none_right_eq_some.mp h
    obtain rfl := Option.some.inj h
    refine ⟨inv.le, fun _ => hall, fun _ => rfl, fun hc => ?_, inv.drained, inv.ended, inv.counted, inv.reset⟩
    have hgone := (inv.gone hc).1
    rw [he] at hgone
    cases hgone
  | enter =>
    obtain ⟨⟨hpos, _⟩, h⟩ := Option.ite_none_right_eq_some.mp h
    obtain rfl := Option.some.inj h
    refine ⟨inv.le, inv.exited, inv.chld, inv.gone, nofun, fun hpc => ?_, ?_, inv.interrupted⟩
    · obtain ⟨hc, hk⟩ := inv.ended (interrupted_ended hpc)
      have h0 := inv.drained hc hk
      omega
    · obtain ⟨p, hp⟩ := Nat.exists_eq_succ_of_ne_zero (Nat.ne_of_gt hpos)
      have hcounted := inv.counted
      rw [hp] at hcounted
      show R (s.gotSignals + 1) (s.pending - 1) s.sent
      rw [hp]
      exact hR.enter _ p _ hcounted
  | leave =>
    obtain ⟨_, rfl⟩ := guard_inj h
    exact ⟨inv.le, inv.exited, inv.chld, inv.gone, inv.drained, inv.ended, inv.counted, inv.reset⟩
  | chld =>
    obtain ⟨hchld, rfl⟩ := guard_inj h
    refine ⟨inv.le, inv.exited, nofun, fun _ => ⟨inv.chld hchld, rfl⟩, nofun, fun hpc => ?_,
      inv.counted, inv.interrupted⟩
    have hno := (inv.gone (inv.ended (interrupted_ended hpc)).1).2
    rw [hchld] at hno
    cases hno
  | kill =>
    obtain ⟨_, rfl⟩ := guard_inj h
    exact ⟨inv.le, inv.exited, inv.chld, inv.gone, inv.drained, nofun, inv.counted, nofun⟩
  | resume =>
    obtain ⟨⟨_, _, _, h0, _⟩, h⟩ := Option.ite_none_right_eq_some.mp h
    obtain rfl := Option.some.inj h
    refine ⟨inv.le, inv.exited, inv.chld, inv.gone, fun _ _ => h0, fun hpc => ?_, inv.counted, inv.reset⟩
    exact ⟨(inv.ended hpc).1, rfl⟩

theorem run_counted {s₀ : State} {as : List Act} {tr : List Empty}
    (hr : (machine C).run s₀ as = some (s, tr)) (hend : s.pc = .ended) (hR : Kept C R)
    (inv : Inv C R s₀) : R s.gotSignals 0 C.numSignals := by
  have inv := (machine C).run_inv (fun _ => True) (Inv C R)
    (fun _ _ _ _ _ inv hs => inv.step hR (Machine.quiet_step hs).1) (fun _ _ => trivial) inv hr
  obtain ⟨hgone, hk⟩ := inv.ended hend
  have hcounted := inv.counted
  rw [inv.drained hgone hk, inv.exited (inv.gone hgone).1] at hcounted
  exact hcounted

end Inv

/-! ## Runs -/

section Runs

variable {C : Config} {pc : Pc} {g n : Nat}

attribute [local simp] Machine.run machine step mainStep calm State.interrupted

theorem raise_zero (C : Config) : C.raise 0 = 1 := by
  unfold Config.raise
  cases C.kind with
  | standard => rfl
  | realTime => exact ite_self 1

theorem raise_standard (hk : C.kind = .standard) (p : Nat) : C.raise p = 1 := by
  rw [Config.raise, hk]

/-- A pending signal is handled. -/
theorem reach_handled (hpc : pc = .registerChld ∨ pc = .loop) :
    (machine C).Reachable { calm pc g n with pending := 1 } (calm pc (g + 1) n) := by
  refine ⟨[.enter, .leave, .resume], [], ?_⟩
  rcases hpc with rfl | rfl <;> simp [Pc.catchesSignal]

theorem reach_signals (hpc : pc = .registerChld ∨ pc = .loop) (m : Nat) (hle : n + m ≤ C.numSignals) :
    (machine C).Reachable (calm pc g n) (calm pc (g + m) (n + m)) := by
  induction m generalizing g n with
  | zero => exact Machine.Reachable.refl _ _
  | succ m ih =>
    have hsend : (machine C).step (calm pc g n) .send =
        some ({ calm pc g (n + 1) with pending := 1 }, []) := by
      have hlt : n < C.numSignals := by omega
      rcases hpc with rfl | rfl <;> simp [raise_zero, hlt]
    have hrest := ih (g := g + 1) (n := n + 1) (by omega)
    rw [Nat.add_right_comm g, Nat.add_right_comm n] at hrest
    exact ((machine C).reachable_of_step hsend).trans ((reach_handled hpc).trans hrest)

/-- Standard signals that are sent before the first of them is handled. -/
theorem reach_lost (hk : C.kind = .standard) (m : Nat) (hle : n + 1 + m ≤ C.numSignals) :
    (machine C).Reachable (calm .loop g n) { calm .loop g (n + 1 + m) with pending := 1 } := by
  induction m with
  | zero => exact ⟨[.send], [], by simp [raise_zero, show n < C.numSignals by omega]⟩
  | succ m ih =>
    refine (ih (by omega)).trans ⟨[.send], [], ?_⟩
    simp [raise_standard hk, show n + 1 + m < C.numSignals by omega, ← Nat.add_assoc]

/-- The rest of the signals one by one, and the end. -/
theorem reach_ended (g : Nat) (hn : n ≤ C.numSignals) : ∃ s, (machine C).Reachable (calm .loop g n) s ∧
    s.pc = .ended ∧ s.gotSignals = g + (C.numSignals - n) := by
  have hrest := reach_signals (C := C) (g := g) (n := n) (Or.inr rfl) (C.numSignals - n) (by omega)
  rw [Nat.add_sub_of_le hn] at hrest
  refine ⟨{ calm .ended (g + (C.numSignals - n)) C.numSignals with childAlive := false, exited := true },
    hrest.trans ⟨[.exit, .chld, .resume, .main], [], ?_⟩, rfl, rfl⟩
  simp [Pc.catchesChld]

/-- The parent up to the loop, with `m` signals before `got_signals=0`. -/
theorem reach_loop (m : Nat) (hm : m ≤ C.numSignals) :
    (machine C).Reachable initState (calm .loop 0 m) := by
  have hstart : (machine C).Reachable initState (calm .registerChld 0 0) :=
    ⟨[.resume, .main, .resume], [], by simp [initState]⟩
  have hearly := reach_signals (C := C) (g := 0) (n := 0) (Or.inl rfl) m (by omega)
  rw [Nat.zero_add] at hearly
  exact hstart.trans (hearly.trans ⟨[.main, .resume, .main], [], by simp⟩)

/-- SIGCHLD comes between the condition of the loop and `pause`. -/
theorem reach_stuck (C : Config) (g : Nat) : ∃ s, (machine C).Reachable (calm .loop g C.numSignals) s ∧
    s.pc = .asleep ∧ ∀ a, step C s a = none := by
  refine ⟨{ calm .asleep g C.numSignals with kernel := true, childAlive := false, exited := true }, ?_, rfl,
    fun a => ?_⟩
  · exact ⟨[.main, .exit, .chld, .resume, .main], [], by simp [Pc.catchesChld]⟩
  · cases a <;> simp

end Runs

/-- **The counts.** For a signal that the parent can catch, that is not SIGCHLD and would otherwise end
    it, and as many signals as can be queued: the parent can print exactly the numbers up to
    `num_signals`, for a real-time signal too, as what is handled before `got_signals=0` is not counted.
    If the child begins after that, the count of a real-time signal is exact, and that of a standard
    signal is any number from 1 up (unless nothing is sent). In any case the parent may also wait for
    ever. -/
theorem got_iff (C : Config) (k : Nat) :
    ((∃ as s tr, (machine C).run initState as = some (s, tr) ∧ s.pc = .ended ∧ s.gotSignals = k) ↔
      k ≤ C.numSignals) ∧
    ((∃ as s tr, (machine C).run (calm .loop 0 0) as = some (s, tr) ∧ s.pc = .ended ∧
        s.gotSignals = k) ↔
      match C.kind with
      | .realTime => k = C.numSignals
      | .standard => min 1 C.numSignals ≤ k ∧ k ≤ C.numSignals) ∧
    ∀ s₀ ∈ [initState, calm .loop 0 0], ∃ as s tr, (machine C).run s₀ as = some (s, tr) ∧
      s.pc = .asleep ∧ ∀ a, step C s a = none := by
  have hraise : ∀ p, C.raise p ≤ p + 1 := by
    intro p
    unfold Config.raise
    cases C.kind with
    | standard => exact Nat.le_add_left 1 p
    | realTime => dsimp only; split <;> omega
  have hleast : Kept C fun g p n => g + p ≤ n := by
    constructor
    · intro g p n _ h
      have := hraise p
      omega
    · intro g p n h
      omega
  refine ⟨⟨?_, fun hk => ?_⟩, ⟨?_, ?_⟩, ?_⟩
  · rintro ⟨as, s, tr, hr, hend, rfl⟩
    refine run_counted hr hend hleast ⟨Nat.zero_le _, nofun, nofun, nofun, nofun, nofun, Nat.le_refl 0, ?_⟩
    intro _ g p n h
    omega
  · obtain ⟨s, hs, hend, hgot⟩ := reach_ended 0 (Nat.sub_le C.numSignals k)
    obtain ⟨as, tr, hr⟩ := (reach_loop _ (Nat.sub_le C.numSignals k)).trans hs
    exact ⟨as, s, tr, hr, hend, by omega⟩
  · rintro ⟨as, s, tr, hr, hend, rfl⟩
    have hcount : ∀ R, Kept C R → R 0 0 0 → R s.gotSignals 0 C.numSignals := fun R hR h0 =>
      run_counted hr hend hR ⟨Nat.zero_le _, nofun, nofun, nofun, nofun, nofun, h0, nofun⟩
    cases hk : C.kind with
    | standard =>
      have h := hcount (fun g p n => g + p ≤ n ∧ min 1 n ≤ g + p) ?_ (by decide)
      · omega
      · constructor
        · intro g p n _ h
          rw [raise_standard hk]
          omega
        · intro g p n h
          omega
    | realTime =>
      refine hcount (fun g p n => g + p = n) ?_ rfl
      constructor
      · intro g p n hlt h
        have hroom : p < C.limit := by
          have := C.fits
          omega
        rw [Config.raise, hk]
        simp only [if_pos hroom]
        omega
      · intro g p n h
        omega
  · intro hk
    suffices h : ∃ s, (machine C).Reachable (calm .loop 0 0) s ∧ s.pc = .ended ∧ s.gotSignals = k by
      obtain ⟨s, ⟨as, tr, hr⟩, hend⟩ := h
      exact ⟨as, s, tr, hr, hend⟩
    obtain ⟨s, hs, hend, hgot⟩ := reach_ended (C := C) 0 (Nat.zero_le _)
    split at hk
    · exact ⟨s, hs, hend, by omega⟩
    · rename_i hkind
      by_cases h0 : C.numSignals = 0
      · exact ⟨s, hs, hend, by omega⟩
      · -- all but `k - 1` are sent before the first of them is handled
        have hlost := reach_lost (g := 0) (n := 0) hkind (C.numSignals - k) (by omega)
        obtain ⟨s, hs, hend, hgot⟩ :=
          reach_ended (C := C) (n := 0 + 1 + (C.numSignals - k)) 1 (by omega)
        exact ⟨s, hlost.trans ((reach_handled (Or.inr rfl)).trans hs), hend, by omega⟩
  · have hsent := reach_signals (C := C) (g := 0) (n := 0) (Or.inr rfl) C.numSignals (by omega)
    rw [Nat.zero_add] at hsent
    obtain ⟨s, hs, hstuck⟩ := reach_stuck C C.numSignals
    have hloop : ∀ s₀ ∈ [initState, calm .loop 0 0], (machine C).Reachable s₀ (calm .loop 0 0) := by
      simp [reach_loop, Machine.Reachable.refl]
    intro s₀ hs₀
    obtain ⟨as, tr, hr⟩ := (hloop s₀ hs₀).trans (hsent.trans hs)
    exact ⟨as, s, tr, hr, hstuck⟩

end DemosOsLinux.LoseSignals
