/-
  How many waiters do `n` signals release?

  `signal` writes to the first slot whose flag is set. A waiter clears its flag only when it has
  the mutex back, so a second signal that comes before that goes to the same waiter, and a
  waiter that was never signalled stays blocked (`second_signal_is_lost`). pthread_cond_signal
  would have released it.
  * `State.pending`: a thread in `wait` that no signal has released yet.
  * `signals_release`: while nobody calls `wait`, pending threads only become fewer; a signal
    that finds a pending thread in the first flagged slot releases one more. Hence if every
    signal of a run does, `n` signals release `n` threads.
-/
import DemosOsLinux.EventCond.Client

namespace DemosOsLinux.EventCond

open Lib Function

variable {n : Nat} {s : State n} {o : Outcome (Fin n)} {t : Fin n}

/-- A thread at this place is in `wait` and cannot go on to return yet. -/
def Place.pending (c : Cond) : Place → Bool
  | .call (.search _) | .call (.claim _) | .call (.release _) => true
  | .call (.read k) => c.efd k == 0
  | _ => false

def State.pending (s : State n) (t : Fin n) : Bool := (s.place t).pending s.cond

def Place.blocked : Place → Bool
  | .call (.read _) => true
  | _ => false

/-- The threads that waited in `s₀` and that can return in `s`. -/
def released (s₀ s : State n) : Finset (Fin n) :=
  Finset.univ.filter fun t => s₀.pending t = true ∧ s.pending t = false

/-- The calls of `signal` that returned. -/
def signals (tr : List (Event n)) : Nat :=
  tr.countP fun
    | .signalled _ => true
    | _ => false

def Act.isWait : Act n → Bool
  | .wait _ => true
  | _ => false

/-- If this step is the write of a signal, the thread that owns the slot is blocked in its read
    and has not been signalled. -/
def freshTarget (s : State n) : Act n → Bool
  | .run t =>
      match s.place t with
      | .call (.signal i) =>
          !(decide (i < maxFd) && s.cond.waiting i) ||
            (decide (∃ u, s.place u = .call (.read i)) && s.cond.efd i == 0)
      | _ => true
  | _ => true

/-! ## One step -/

theorem pending_read {c : Cond} {k : Nat} :
    (Place.call (.read k)).pending c = true ↔ c.efd k = 0 := by
  simp [Place.pending]

/-- The counters of other threads' slots do not fall. -/
theorem pending_other {u : Fin n} {p : Pc} (inv : ClientInv s) (hu : s.place u = .call p)
    (hne : u ≠ t) (ho : Steps u s.cond s.owner p o) (h : (s.place t).pending o.cond = true) :
    s.pending t = true := by
  unfold State.pending
  cases hp : s.place t with
  | call q =>
    cases q with
    | read k =>
      rw [hp, pending_read] at h
      rw [pending_read]
      by_contra hk
      have := inv.cond.efd_pos (pc_of_place hp) (pc_of_place hu) hne ho (Nat.pos_of_ne_zero hk)
      omega
    | _ =>
      rw [hp] at h
      exact h
  | _ =>
    rw [hp] at h
    exact h

/-- A thread whose slot has got a token. -/
theorem not_pending_after {u : Fin n} {k : Nat} (hne : u ≠ t) (hu : s.place u = .call (.read k))
    (hk : 0 < o.cond.efd k) : (s.after t o).pending u = false := by
  have hplace : (s.after t o).place u = .call (.read k) :=
    (update_of_ne hne _ _).trans hu
  rw [State.pending, hplace]
  exact Bool.eq_false_iff.mpr fun h => Nat.ne_of_gt hk (pending_read.mp h)

/-- A step in the functions does not make its own thread pending. -/
theorem pending_self {p : Pc} (hp : s.place t = .call p) (ho : Steps t s.cond s.owner p o)
    (h : o.next.place.pending o.cond = true) : s.pending t = true := by
  unfold State.pending
  rw [hp]
  cases ho <;> first | rfl | cases h

/-- While nobody calls `wait`, no thread becomes pending. -/
theorem trans_pending {s' : State n} {a : Act n} {es : List (Event n)} (h : Trans s a es s')
    (inv : ClientInv s) (hw : a.isWait = false) (t : Fin n) (ht : s'.pending t = true) :
    s.pending t = true := by
  have hmove {u : Fin n} {x : Place} (hx : x.pending s.cond = false)
      (ht : (update s.place u x t).pending s.cond = true) : s.pending t = true := by
    by_cases e : t = u
    · rw [e, update_self, hx] at ht
      cases ht
    · rwa [update_of_ne e] at ht
  cases h with
  | lock u hp hfree => exact hmove rfl ht
  | unlock u hp => exact hmove rfl ht
  | wait u hp => cases hw
  | signal u hp => exact hmove rfl ht
  | broadcast u hp => exact hmove rfl ht
  | run u p o hp ho =>
    have ht : (update s.place u o.next.place t).pending o.cond = true := ht
    by_cases e : t = u
    · subst e
      rw [update_self] at ht
      exact pending_self hp ho ht
    · rw [update_of_ne e] at ht
      exact pending_other inv hp (Ne.symm e) ho ht

/-- A signal that finds no flag set: nobody is pending. -/
theorem no_pending_of_signalEnd {i : Nat} (inv : ClientInv s) (hp : s.place t = .call (.signal i))
    (hi : maxFd ≤ i) (u : Fin n) : s.pending u = false := by
  have hpt := pc_of_place hp
  have hown := inv.cond.locks t _ hpt rfl
  have hholds {q : Pc} (hq : s.place u = .call q) (hh : q.holds = true) : u = t := by
    have h := inv.cond.locks u q (pc_of_place hq) hh
    exact (Option.some.inj (hown.symm.trans h)).symm
  by_contra hne
  have hpend : (s.place u).pending s.cond = true := Bool.not_eq_false _ ▸ hne
  have hcall : ∃ q, s.place u = .call q := by
    cases hq : s.place u with
    | call q => exact ⟨q, rfl⟩
    | _ =>
      rw [hq] at hpend
      cases hpend
  obtain ⟨q, hq⟩ := hcall
  -- a pending thread holds the mutex, which `t` does, or it owns a slot that is flagged
  have hself (hut : u = t) : False := by
    rw [hut, hp] at hpend
    cases hpend
  cases q with
  | search j => exact hself (hholds hq rfl)
  | claim k => exact hself (hholds hq rfl)
  | release k => exact hself (hholds hq rfl)
  | read k =>
    exact inv.cond.no_slot_of_signalEnd hpt hi (pc_of_place hq) k rfl
  | _ =>
    rw [hq] at hpend
    cases hpend

/-! ## Whole runs -/

/-- The signals so far have released as many threads, or there is nobody left. -/
structure ReleaseInv (s₀ s : State n) (tr : List (Event n)) : Prop where
  client : ClientInv s
  fewer : ∀ t, s.pending t = true → s₀.pending t = true
  enough : signals tr ≤ (released s₀ s).card ∨ ∀ t, s.pending t = false

theorem released_mono {s₀ s' : State n} (h : ∀ t, s'.pending t = true → s.pending t = true) :
    released s₀ s ⊆ released s₀ s' := by
  intro t ht
  simp only [released, Finset.mem_filter, Finset.mem_univ, true_and] at ht ⊢
  refine ⟨ht.1, ?_⟩
  by_contra hne
  rw [h t (Bool.not_eq_false _ ▸ hne)] at ht
  cases ht.2

/-- A signal that writes to a thread that was pending. -/
theorem released_signal {s₀ s' : State n} {u : Fin n}
    (hmono : ∀ t, s'.pending t = true → s.pending t = true) (h₀ : s₀.pending u = true)
    (hu : s.pending u = true) (hu' : s'.pending u = false) :
    (released s₀ s).card < (released s₀ s').card := by
  apply Finset.card_lt_card
  refine Finset.ssubset_iff_subset_ne.mpr ⟨released_mono hmono, ?_⟩
  intro heq
  have hmem : u ∈ released s₀ s' := by
    simp only [released, Finset.mem_filter, Finset.mem_univ, true_and]
    exact ⟨h₀, hu'⟩
  rw [← heq] at hmem
  simp only [released, Finset.mem_filter, Finset.mem_univ, true_and] at hmem
  rw [hu] at hmem
  cases hmem.2

theorem signals_append (tr es : List (Event n)) : signals (tr ++ es) = signals tr + signals es := by
  simp only [signals, List.countP_append]

theorem trans_release {s₀ s' : State n} {a : Act n} {es tr : List (Event n)} (h : Trans s a es s')
    (hw : a.isWait = false) (hfresh : freshTarget s a = true) (inv : ReleaseInv s₀ s tr) :
    ReleaseInv s₀ s' (tr ++ es) := by
  have hmono : ∀ t, s'.pending t = true → s.pending t = true := trans_pending h inv.client hw
  refine ⟨trans_client h inv.client, fun t ht => inv.fewer t (hmono t ht), ?_⟩
  -- nobody left stays so; else every step keeps the released threads
  rcases inv.enough with hle | hnone
  swap
  · right
    intro t
    by_contra hne
    have := hnone t
    rw [hmono t (Bool.not_eq_false _ ▸ hne)] at this
    cases this
  have hkeep (hes : signals es = 0) : signals (tr ++ es) ≤ (released s₀ s').card ∨
      ∀ t, s'.pending t = false := by
    left
    rw [signals_append, hes]
    exact Nat.le_trans hle (Finset.card_le_card (released_mono hmono))
  cases h with
  | lock u hp hfree => exact hkeep rfl
  | unlock u hp => exact hkeep rfl
  | wait u hp => cases hw
  | signal u hp => exact hkeep rfl
  | broadcast u hp => exact hkeep rfl
  | run t p o hp ho =>
    cases ho with
    | signalWrite i hi hflag =>
      simp only [freshTarget, hp, hi, hflag, decide_true, Bool.and_self, Bool.not_true,
        Bool.false_or, Bool.and_eq_true, decide_eq_true_eq, beq_iff_eq] at hfresh
      obtain ⟨⟨u, hu⟩, hzero⟩ := hfresh
      have hpend : s.pending u = true := by
        rw [State.pending, hu, pending_read]
        exact hzero
      have hne : u ≠ t := by
        rintro rfl
        rw [hp] at hu
        cases hu
      have hpos : 0 < update s.cond.efd i (s.cond.efd i + 1) i := by
        rw [update_self]
        exact Nat.succ_pos _
      have hlt := released_signal hmono (inv.fewer u hpend) hpend (not_pending_after hne hu hpos)
      left
      rw [signals_append]
      exact Nat.lt_of_le_of_lt hle hlt
    | signalEnd i hi =>
      right
      intro u
      by_contra hne
      have hpend := hmono u (Bool.not_eq_false _ ▸ hne)
      rw [no_pending_of_signalEnd inv.client hp hi u] at hpend
      cases hpend
    | _ => exact hkeep rfl

/-- **Signal strength.** Take any reachable state without a pending token, and any run from it in
    which nobody calls `wait` and every signal finds in the first flagged slot a thread that is
    blocked in its read and not signalled. If there are at least as many blocked threads as
    signals, the signals release as many distinct threads. -/
theorem signals_release (n : Nat) (acts₀ acts : List (Act n)) (s₀ s : State n)
    (tr₀ tr : List (Event n)) (hr₀ : (threads n).run (initState n) acts₀ = some (s₀, tr₀))
    (hquiet : ∀ k < maxFd, s₀.cond.efd k = 0) (hw : ∀ a ∈ acts, a.isWait = false)
    (hfresh : (threads n).Along (fun s a => freshTarget s a = true) s₀ acts)
    (hr : (threads n).run s₀ acts = some (s, tr)) (hn : signals tr ≤ count s₀.place Place.blocked) :
    signals tr ≤ (released s₀ s).card := by
  have hclient : ClientInv s₀ :=
    (threads n).run_inv (fun _ => True) ClientInv
      (fun _ _ _ _ _ inv hs => trans_client (trans_of_step hs) inv) (fun _ _ => trivial)
      clientInv_initState hr₀
  have hboth : (threads n).Along (fun s a => freshTarget s a = true ∧ a.isWait = false) s₀ acts :=
    (threads n).along_and hfresh
      ((threads n).along_of_forall (fun a => a.isWait = false) acts hw s₀)
  have inv : ReleaseInv s₀ s ([] ++ tr) :=
    (threads n).run_induct_along (fun s a => freshTarget s a = true ∧ a.isWait = false)
      (ReleaseInv s₀)
      (fun _ _ _ _ _ hf inv hs => trans_release (trans_of_step hs) hf.2 hf.1 inv) acts s₀ [] s tr
      hboth ⟨hclient, fun _ h => h, Or.inl (Nat.zero_le _)⟩ hr
  rw [List.nil_append] at inv
  rcases inv.enough with h | hnone
  · exact h
  · -- everybody who was blocked can return
    refine Nat.le_trans hn (Finset.card_le_card ?_)
    intro t ht
    simp only [Finset.mem_filter, Finset.mem_univ, true_and] at ht
    simp only [released, Finset.mem_filter, Finset.mem_univ, true_and]
    refine ⟨?_, hnone t⟩
    unfold Place.blocked at ht
    split at ht
    · rename_i k hk
      rw [State.pending, hk, pending_read]
      exact hquiet k (hclient.cond.bound t _ k (pc_of_place hk) rfl)
    · cases ht

/-- Thread `c` signals; thread `a` of slot 0 returns before the second signal. -/
def spacedSignals (a c : Fin n) : List (Act n) :=
  [.lock c, .signal c, .run c, .unlock c, .run a, .run a, .run a, .unlock a,
    .lock c, .signal c, .run c, .run c, .unlock c]

theorem signals_release_spacedSignals :
    ∃ s₀ tr₀ s tr, (threads 3).run (initState 3) (twoBlocked 0 1) = some (s₀, tr₀) ∧
      (threads 3).run s₀ (spacedSignals 0 2) = some (s, tr) ∧ signals tr = 2 ∧
      s.place 0 = .out ∧ s.place 1 = .call (.read 1) ∧ s.cond.efd 1 = 1 ∧
      signals tr ≤ (released s₀ s).card := by
  refine ⟨_, _, _, _, rfl, rfl, by decide +kernel, by decide +kernel, by decide +kernel,
    by decide +kernel, ?_⟩
  exact signals_release 3 (twoBlocked 0 1) (spacedSignals 0 2) _ _ _ _ rfl (by decide +kernel)
    (by decide) ((threads 3).along_of_check _ _ _ (by decide +kernel)) rfl (by decide +kernel)

/-- Thread `c` signals twice at once. -/
def quickSignals (c : Fin n) : List (Act n) :=
  [.lock c, .signal c, .run c, .signal c, .run c, .unlock c]

/-- Two threads are blocked and no token is pending; of two signals both go to slot 0, and thread 1
    stays blocked. -/
theorem second_signal_is_lost :
    ∃ s₀ tr₀ s tr, (threads 3).run (initState 3) (twoBlocked 0 1) = some (s₀, tr₀) ∧
      (∀ k < maxFd, s₀.cond.efd k = 0) ∧ (∀ a ∈ quickSignals (2 : Fin 3), a.isWait = false) ∧
      (threads 3).run s₀ (quickSignals 2) = some (s, tr) ∧
      signals tr = 2 ∧ count s₀.place Place.blocked = 2 ∧ (released s₀ s).card = 1 ∧
      s.cond.efd 0 = 2 ∧ s.pending 1 = true := by
  refine ⟨_, _, _, _, rfl, by decide +kernel, by decide, rfl, ?_⟩
  decide +kernel

end DemosOsLinux.EventCond
