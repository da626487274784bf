/-
  Threads that count in turn, with one condition per thread
  (exercises/ace/Chapter-3/solution-3b.cc).

  `SharedResource` is a monitor: `m` is its mutex and `cond[0]`, `cond[1]`, … are its condition
  variables. `attemptIncreaseValue` is a section, cut at `wait`. A thread is a `HA_CommandHandler`
  with the loop counter of `svc`; the event of an increment is the `value` of the thread that made
  it. The `unsigned int`s are natural numbers and every operation on them wraps.
  * `share`: how many of the first `k` turns are those of thread `v`.
  * `Turns`: each thread has made its share of the increments, and the thread whose turn it is does
    not sleep.
  * `turns_taken`: so the threads count in order, never all sleep, and count to the end.
-/
import Mathlib.Algebra.Ring.Nat
import DemosOsLinux.Lib.Monitor

namespace DemosOsLinux.AceTurns

open Lib Lib.Monitor Function

/-- The counters of `SharedResource`. -/
structure Shared where
  lockedCounter : Nat
  attemptCounter : Nat

/-- A `HA_CommandHandler` in iteration `i` of `svc`. -/
structure Handler where
  value : Nat
  i : Nat

inductive Code where
  | attempt (h : Handler)
  /-- After `cond[value]->wait()`. -/
  | awake (h : Handler)

def Code.handler : Code → Handler
  | .attempt h | .awake h => h

abbrev Sec := Section Shared Nat Code Handler Nat

/-- `attemptIncreaseValue` from the condition of its loop on. -/
def whileLoop (numThreads : Nat) (h : Handler) (r : Shared) : Sec :=
  if r.lockedCounter % numThreads ≠ h.value then ⟨r, .none, .wait h.value (.awake h), []⟩
  else
    ⟨{ r with lockedCounter := (r.lockedCounter + 1) % 2 ^ 32 },
      .signal ((h.value + 1) % 2 ^ 32 % numThreads), .leave ⟨h.value, h.i + 1⟩, [h.value]⟩

def attemptIncreaseValue (numThreads : Nat) (h : Handler) (r : Shared) : Sec :=
  whileLoop numThreads h { r with attemptCounter := (r.attemptCounter + 1) % 2 ^ 32 }

/-- `svc`, which calls `attemptIncreaseValue` `attempts` times. -/
def program (numThreads attempts : Nat) : Program Shared Nat Code Handler Unit Nat where
  call h _ := if h.i < attempts then some (.attempt h) else none
  body
    | .attempt h => attemptIncreaseValue numThreads h
    | .awake h => whileLoop numThreads h

abbrev St := Status Nat Code Handler

def initState (n : Nat) : State Shared Nat Code Handler n :=
  ⟨⟨0, 0⟩, fun t => .outside ⟨t, 0⟩⟩

def handler : St → Handler
  | .outside h => h
  | .asleep _ p | .woken p => p.handler

/-- `svc` has not returned. -/
def unfinished (attempts : Nat) : St → Bool
  | .outside h => h.i < attempts
  | _ => true

/-! ## Turns -/

/-- How many of the turns `0 .. k - 1` are those of thread `v`. -/
def share (n k v : Nat) : Nat := k / n + if v < k % n then 1 else 0

section Share

variable {n k v : Nat}

theorem share_zero : share n 0 v = 0 := by
  simp [share]

/-- Turn `k` is that of thread `k % n`. -/
theorem share_succ (hv : v < n) : share n (k + 1) v = share n k v + if v = k % n then 1 else 0 := by
  have hmod : k % n < n := Nat.mod_lt k (by omega)
  have hk := Nat.div_add_mod k n
  unfold share
  by_cases hlast : k % n + 1 < n
  · have hsucc : k + 1 = n * (k / n) + (k % n + 1) := by omega
    have hdiv : (k + 1) / n = k / n := by
      rw [hsucc, Nat.mul_add_div (by omega), Nat.div_eq_of_lt hlast, Nat.add_zero]
    have hrem : (k + 1) % n = k % n + 1 := by
      rw [hsucc, Nat.mul_add_mod, Nat.mod_eq_of_lt hlast]
    rw [hdiv, hrem]
    split <;> split <;> split <;> omega
  · have hsucc : k + 1 = n * (k / n + 1) := by
      rw [Nat.mul_succ]
      omega
    have hdiv : (k + 1) / n = k / n + 1 := by
      rw [hsucc, Nat.mul_div_cancel_left _ (by omega)]
    have hrem : (k + 1) % n = 0 := by
      rw [hsucc, Nat.mul_mod_right]
    rw [hdiv, hrem]
    split <;> split <;> split <;> omega

/-- The thread whose turn it is has made as many turns as there were full rounds. -/
theorem share_turn : share n k (k % n) = k / n := by
  simp [share]

/-- If every thread has had `a` turns, these are all the turns there were. -/
theorem eq_of_share {a : Nat} (hn : 0 < n) (h : ∀ v < n, share n k v = a) : k = n * a := by
  have hfirst := h 0 hn
  have hlast := h (n - 1) (by omega)
  have hmod : k % n < n := Nat.mod_lt k hn
  have hk := Nat.div_add_mod k n
  simp only [share] at hfirst hlast
  rw [if_neg (by omega)] at hlast
  have hdiv : k / n = a := by omega
  have hzero : k % n = 0 := by
    split at hfirst <;> omega
  rw [hdiv, hzero] at hk
  exact hk.symm

end Share

/-! ## The invariant -/

/-- `k` is `LockedCounter`, `tr` the increments so far. -/
structure Turns {n : Nat} (attempts k : Nat) (status : Fin n → St) (tr : List Nat) : Prop where
  trace : tr = (List.range k).map (· % n)
  made : ∀ t, handler (status t) = ⟨t, share n k t⟩
  inside : ∀ t, (status t).isInside = true → (handler (status t)).i < attempts
  /-- A thread sleeps on its own condition, and it is not its turn. -/
  asleep : ∀ t c p, status t = .asleep c p → c = t ∧ k % n ≠ t
  le : k ≤ n * attempts

section Step

variable {n attempts k : Nat} {status st : Fin n → St} {w : Wake Nat} {tr : List Nat} {t : Fin n}
  {h : Handler}

theorem handler_wakes (hw : Wakes status w st) (u : Fin n) :
    handler (st u) = handler (status u) := by
  rcases hw.same_or_woken u with h | ⟨c, p, hc, hp⟩
  · rw [h]
  · rw [hc, hp]
    rfl

theorem isInside_wakes (hw : Wakes status w st) (u : Fin n) :
    (st u).isInside = (status u).isInside := by
  rcases hw.same_or_woken u with h | ⟨c, p, hc, hp⟩
  · rw [h]
  · rw [hc, hp]
    rfl

section Steps

variable (inv : Turns attempts k status tr)
include inv

theorem Turns.wakes (hw : Wakes status w st) : Turns attempts k st tr := by
  refine ⟨inv.trace, ?_, ?_, ?_, inv.le⟩
  · intro u
    rw [handler_wakes hw]
    exact inv.made u
  · intro u hu
    rw [isInside_wakes hw] at hu
    rw [handler_wakes hw]
    exact inv.inside u hu
  · intro u c p hu
    exact inv.asleep u c p (hw.asleep_before hu)

/-- The loop condition holds: thread `t` goes to sleep. -/
theorem Turns.waits (hh : handler (status t) = h) (hi : h.i < attempts) (hturn : k % n ≠ h.value) :
    Turns attempts k (update status t (.asleep h.value (.awake h))) tr := by
  have hmade := inv.made t
  rw [hh] at hmade
  refine ⟨inv.trace, ?_, ?_, ?_, inv.le⟩
  · intro u
    by_cases e : u = t
    · rw [e, update_self]
      exact hmade
    · rw [update_of_ne e]
      exact inv.made u
  · intro u hu
    by_cases e : u = t
    · rw [e, update_self]
      exact hi
    · rw [update_of_ne e] at hu ⊢
      exact inv.inside u hu
  · intro u c p hu
    by_cases e : u = t
    · rw [e, update_self] at hu
      obtain ⟨rfl, _⟩ := Status.asleep.inj hu
      rw [hmade] at hturn ⊢
      rw [e]
      exact ⟨rfl, hturn⟩
    · rw [update_of_ne e] at hu
      exact inv.asleep u c p hu

/-- The thread that is signalled does not sleep any more. -/
theorem Turns.asleep_signal {c : Nat} (hw : Wakes status (.signal c) st) {u : Fin n} {c' : Nat}
    {p : Code} (hu : st u = .asleep c' p) : c' = u ∧ c ≠ u := by
  have hbefore := hw.asleep_before hu
  have hown := (inv.asleep u c' p hbefore).1
  refine ⟨hown, ?_⟩
  intro hc
  rw [hown] at hbefore
  cases hw with
  | signal _ v q hv =>
    have huv : u = v := Fin.ext (hc.symm.trans (inv.asleep v c q hv).1)
    rw [huv, update_self] at hu
    cases hu
  | lost _ hnone => exact hnone u p (hc ▸ hbefore)

/-- Thread `t`, whose turn it is and which has turns left, finds the counter below its end. -/
theorem Turns.lt_end (hh : handler (status t) = h)
    (hi : h.i < attempts) (hturn : k % n = h.value) : k < n * attempts := by
  have hmade := inv.made t
  rw [hh] at hmade
  have hrounds : k / n < attempts := by
    rw [← share_turn, hturn, hmade]
    rw [hmade] at hi
    exact hi
  rw [Nat.mul_comm]
  exact (Nat.div_lt_iff_lt_mul t.pos).mp hrounds

/-- The loop condition is false: thread `t` counts, and its successor is signalled. -/
theorem Turns.counts (hh : handler (status t) = h) (hi : h.i < attempts) (hturn : k % n = h.value)
    (hw : Wakes status (.signal ((k + 1) % n)) st) :
    Turns attempts (k + 1) (update st t (.outside ⟨h.value, h.i + 1⟩))
      (tr ++ [h.value]) := by
  have hlt := inv.lt_end hh hi hturn
  have hmade := inv.made t
  rw [hh] at hmade
  refine ⟨?_, ?_, ?_, ?_, hlt⟩
  · rw [List.range_succ, List.map_append, ← inv.trace, List.map_singleton, hturn]
  · intro u
    rw [share_succ u.isLt, hturn, hmade]
    by_cases e : u = t
    · rw [e, update_self, if_pos rfl]
      rfl
    · have hne : (u : Nat) ≠ t := fun h => e (Fin.ext h)
      rw [update_of_ne e, handler_wakes hw, inv.made u, if_neg hne]
      rfl
  · intro u hu
    by_cases e : u = t
    · rw [e, update_self] at hu
      cases hu
    · rw [update_of_ne e] at hu ⊢
      rw [isInside_wakes hw] at hu
      rw [handler_wakes hw]
      exact inv.inside u hu
  · intro u c p hu
    rcases hw.asleep_after hu with h | ⟨h, _⟩
    · cases h
    · exact inv.asleep_signal hw h

/-- Either way through the loop. -/
theorem Turns.whileLoop (hmax : n * attempts < 2 ^ 32)
    (hh : handler (status t) = h) (hi : h.i < attempts) {r : Shared} (hr : r.lockedCounter = k)
    (hw : Wakes status (whileLoop n h r).wake st) :
    Turns attempts (whileLoop n h r).shared.lockedCounter
      (update st t (whileLoop n h r).exit.status) (tr ++ (whileLoop n h r).events) := by
  subst hr
  unfold AceTurns.whileLoop at hw ⊢
  split
  · rename_i hturn
    rw [if_pos hturn] at hw
    obtain rfl := hw.eq_of_none
    rw [List.append_nil]
    exact inv.waits hh hi hturn
  · rename_i hne
    rw [if_neg hne] at hw
    have hturn := Decidable.not_not.mp hne
    have hlt := inv.lt_end hh hi hturn
    have hvalue : h.value < n := by
      rw [← hturn]
      exact Nat.mod_lt _ t.pos
    have hle : n ≤ n * attempts := Nat.le_mul_of_pos_right n (by omega)
    -- neither addition wraps
    have hcounter : (r.lockedCounter + 1) % 2 ^ 32 = r.lockedCounter + 1 :=
      Nat.mod_eq_of_lt (by omega)
    have hsucc : (h.value + 1) % 2 ^ 32 = h.value + 1 := Nat.mod_eq_of_lt (by omega)
    have hnext : (h.value + 1) % 2 ^ 32 % n = (r.lockedCounter + 1) % n := by
      rw [hsucc, ← hturn, Nat.mod_add_mod]
    simp only [hnext] at hw
    simp only [hcounter]
    exact inv.counts hh hi hturn hw

end Steps

end Step

theorem turns_of_trans {n attempts : Nat} {s s' : State Shared Nat Code Handler n} {a : Act Unit n}
    {es tr : List Nat} (hmax : n * attempts < 2 ^ 32) (h : Trans (program n attempts) s a es s')
    (inv : Turns attempts s.shared.lockedCounter s.status tr) :
    Turns attempts s'.shared.lockedCounter s'.status (tr ++ es) := by
  cases h with
  | spurious t c p ht =>
    rw [List.append_nil]
    exact inv.wakes (.signal c t p ht)
  | run _ t p st ha ht hw =>
    generalize hx : s.status t = x at ht
    cases ht with
    | call h o p hcall =>
      obtain ⟨hi, rfl⟩ := guard_inj hcall
      exact inv.whileLoop hmax (congrArg handler hx) hi rfl hw
    | resume p =>
      have hi := inv.inside t (by rw [hx]; rfl)
      rw [hx] at hi
      cases p with
      | attempt h => exact inv.whileLoop hmax (congrArg handler hx) hi rfl hw
      | awake h => exact inv.whileLoop hmax (congrArg handler hx) hi rfl hw

theorem turns_initState (n attempts : Nat) :
    Turns attempts (initState n).shared.lockedCounter (initState n).status [] := by
  refine ⟨rfl, ?_, ?_, ?_, Nat.zero_le _⟩
  · intro t
    simp only [initState, handler, share_zero]
  · intro t ht
    cases ht
  · intro t c p ht
    cases ht

/-! ## All runs -/

section Runs

variable {n attempts k : Nat} {status : Fin n → St} {tr : List Nat}

/-- A thread that has finished has counted `attempts` times at least. -/
theorem le_of_finished {x : St} (h : unfinished attempts x = false) : attempts ≤ (handler x).i := by
  cases x with
  | outside l => exact Nat.le_of_not_lt (of_decide_eq_false h)
  | asleep c p => cases h
  | woken p => cases h

theorem unfinished_of_lt {x : St} (h : (handler x).i < attempts) :
    unfinished attempts x = true := by
  cases x with
  | outside l => exact decide_eq_true h
  | asleep c p => rfl
  | woken p => rfl

section Shares

variable (inv : Turns attempts k status tr)
include inv

/-- A thread that has not finished has turns left. -/
theorem Turns.share_lt {t : Fin n}
    (ht : unfinished attempts (status t) = true) : share n k t < attempts := by
  have hi : (handler (status t)).i < attempts := by
    cases hx : status t with
    | outside l =>
      rw [hx] at ht
      exact of_decide_eq_true ht
    | asleep c p => exact hx ▸ inv.inside t (by rw [hx]; rfl)
    | woken p => exact hx ▸ inv.inside t (by rw [hx]; rfl)
  rw [inv.made t] at hi
  exact hi

/-- Nobody counts more often than `attempts` times. -/
theorem Turns.share_le (t : Fin n) : share n k t ≤ attempts := by
  have hmod : k % n < n := Nat.mod_lt _ t.pos
  have hk := Nat.div_add_mod k n
  have hle := inv.le
  have hdiv : k / n ≤ attempts := Nat.div_le_of_le_mul hle
  unfold share
  split
  · -- in a round that has begun, fewer than `attempts` rounds are complete
    have hne : k / n ≠ attempts := by
      intro he
      rw [he] at hk
      omega
    omega
  · exact hdiv

/-- The thread whose turn it is has not finished and does not sleep, unless all have finished. -/
theorem Turns.awake {t : Fin n} (ht : unfinished attempts (status t) = true) :
    ∃ u, unfinished attempts (status u) = true ∧ (status u).isAsleep = false := by
  have hmod : k % n < n := Nat.mod_lt _ t.pos
  have hlt : k / n < attempts := Nat.lt_of_le_of_lt (Nat.le_add_right _ _) (inv.share_lt ht)
  refine ⟨⟨k % n, hmod⟩, unfinished_of_lt ?_, ?_⟩
  · rw [inv.made]
    simp only [share_turn]
    exact hlt
  · cases hx : status ⟨k % n, hmod⟩ with
    | outside l => rfl
    | woken p => rfl
    | asleep c p => exact absurd rfl (inv.asleep _ c p hx).2

theorem Turns.total (h : ∀ t, unfinished attempts (status t) = false) : k = n * attempts := by
  rcases Nat.eq_zero_or_pos n with hn | hn
  · have hle := inv.le
    rw [hn, Nat.zero_mul] at hle ⊢
    omega
  · apply eq_of_share hn
    intro v hv
    have hge := le_of_finished (h ⟨v, hv⟩)
    rw [inv.made] at hge
    exact Nat.le_antisymm (inv.share_le ⟨v, hv⟩) hge

end Shares

end Runs

/-- **Turn taking.** For every number of threads and of attempts whose product is below `2 ^ 32`,
    every interleaving, spurious wake-ups: `LockedCounter` is the number of increments, and
    increment `k` is made by thread `k % n`; between the sections, so whenever no thread has the
    mutex, a thread that sleeps on its condition is not the one whose turn it is; some unfinished
    thread does not sleep, unless all have finished; and when all have, the counter is
    `n * attempts`. -/
theorem turns_taken (n attempts : Nat) (hmax : n * attempts < 2 ^ 32) (acts : List (Act Unit n))
    (s : State Shared Nat Code Handler n) (tr : List Nat)
    (hr : (threads (program n attempts) n).run (initState n) acts = some (s, tr)) :
    (s.shared.lockedCounter = tr.length ∧ ∀ k v, tr[k]? = some v → v = k % n) ∧
    (∀ t : Fin n, (handler (s.status t)).value = t ∧
      ∀ c p, s.status t = .asleep c p → c = t ∧ s.shared.lockedCounter % n ≠ t) ∧
    ((∃ t, unfinished attempts (s.status t) = true) →
      ∃ t, unfinished attempts (s.status t) = true ∧ (s.status t).isAsleep = false) ∧
    ((∀ t, unfinished attempts (s.status t) = false) →
      s.shared.lockedCounter = n * attempts) := by
  have inv := (threads (program n attempts) n).run_induct (fun _ => True)
    (fun s tr => Turns attempts s.shared.lockedCounter s.status tr)
    (fun _ _ _ _ _ _ inv hs => turns_of_trans hmax (trans_of_step hs) inv) (fun _ _ => trivial)
    (turns_initState n attempts) hr
  refine ⟨⟨?_, ?_⟩, ?_, ?_, inv.total⟩
  · rw [inv.trace, List.length_map, List.length_range]
  · intro k v hk
    rw [inv.trace, List.getElem?_map, Option.map_eq_some_iff] at hk
    obtain ⟨j, hj, rfl⟩ := hk
    obtain ⟨_, hj⟩ := List.getElem?_eq_some_iff.mp hj
    rw [← hj, List.getElem_range]
  · intro t
    refine ⟨?_, inv.asleep t⟩
    rw [inv.made t]
  · rintro ⟨t, ht⟩
    exact inv.awake ht

/-- Thread `b` comes before its turn and sleeps; thread `a` counts and signals it. -/
def handoverRun {n : Nat} (a b : Fin n) : List (Act Unit n) :=
  [.call b () none, .call a () (some b), .resume b none]

theorem turns_taken_handoverRun :
    ∃ s tr, (threads (program 2 1) 2).run (initState 2) (handoverRun 0 1) = some (s, tr) ∧
      tr = [0, 1] ∧ s.shared.lockedCounter = 2 * 1 := by
  obtain ⟨s, tr, hr, htr, hfinished⟩ := (threads (program 2 1) 2).exists_of_check (initState 2)
    (handoverRun 0 1) (fun s tr => tr = [0, 1] ∧ ∀ t, unfinished 1 (s.status t) = false)
    (by decide +kernel)
  exact ⟨s, tr, hr, htr, (turns_taken 2 1 (by decide) (handoverRun 0 1) s tr hr).2.2.2 hfinished⟩

end DemosOsLinux.AceTurns
