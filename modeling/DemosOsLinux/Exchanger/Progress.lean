/-
  No stuck exchange.

  A thread sleeps on `cv_overflow` only during a hand-over, and during a hand-over the thread in
  `cv_main.wait` has been notified; outside a hand-over only that thread can be asleep. So of two
  threads in `exchange` not both are asleep, or the hand-over's first thread is awake.
  * `exchange_not_stuck`: whenever two threads or more are in `exchange` and the mutex is free, one
    of those that were notified or never slept can take it.
-/
import DemosOsLinux.Exchanger.Pairs

namespace DemosOsLinux.Exchanger

open Lib Lib.Monitor

variable {T : Type} {n : Nat}

/-- In `exchange`, and notified or never asleep. -/
def canGo : St T n → Bool
  | .outside (.entering _ _) | .woken _ => true
  | _ => false

/-- Thread `t` can take the mutex and run its section. -/
def Enabled (s : Sys T n) (t : Fin n) : Prop :=
  ∃ u r, (threads program n).step s (.call t .lock u) = some r ∨
    (threads program n).step s (.resume t u) = some r

section

variable {s : Sys T n} {t : Fin n}

theorem enabled_of_canGo (ht : canGo (s.status t) = true) : Enabled s t := by
  unfold canGo at ht
  split at ht
  · rename_i c v hx
    obtain ⟨u, r, hr⟩ := exists_enter program s t (.enter c v)
    refine ⟨u, r, Or.inl ?_⟩
    simp only [threads, step, hx]
    exact hr
  · rename_i p hx
    obtain ⟨u, r, hr⟩ := exists_enter program s t p
    refine ⟨u, r, Or.inr ?_⟩
    simp only [threads, step, hx]
    exact hr
  · cases ht

theorem canGo_of_inExchange {x : St T n} (hx : inExchange x = true) (ha : x.isAsleep = false) :
    canGo x = true := by
  cases x with
  | outside l =>
    cases l with
    | idle c => cases hx
    | entering c v => rfl
  | asleep c p => cases ha
  | woken p => rfl

/-- In a hand-over the thread that `ptr` points to is awake. -/
theorem Placed.woken_of_second (inv : Placed s) (hs : s.shared.state = .secondArrived) :
    ∃ q c v, s.status q = .woken (.main c v) := by
  obtain ⟨q, _, hmain⟩ := inv.pointed (by rw [hs]; decide)
  have hplace := inv.place q
  cases hx : s.status q with
  | outside l =>
    rw [hx] at hmain
    cases hmain
  | asleep c p =>
    rw [hx] at hmain hplace
    cases c with
    | overflow => cases hmain
    | main =>
      have hfirst := hplace.state_of_asleep.1 rfl
      rw [hs] at hfirst
      cases hfirst
  | woken p =>
    rw [hx] at hmain
    cases p with
    | main c v => exact ⟨q, c, v, hx⟩
    | _ => cases hmain

/-- Outside a hand-over only the thread that `ptr` points to sleeps. -/
theorem Placed.canGo_of_not_second (inv : Placed s) (hs : s.shared.state ≠ .secondArrived)
    (ht : inExchange (s.status t) = true) (hne : s.shared.ptr ≠ some t) :
    canGo (s.status t) = true := by
  have hcalm := inv.calm hne hs
  rw [Exchanger.calm, Bool.and_eq_true, Bool.not_eq_true'] at hcalm
  exact canGo_of_inExchange ht hcalm.1

theorem Placed.exists_canGo (inv : Placed s) {u : Fin n} (htu : t ≠ u)
    (ht : inExchange (s.status t) = true) (hu : inExchange (s.status u) = true) :
    ∃ w, canGo (s.status w) = true := by
  by_cases hs : s.shared.state = .secondArrived
  · obtain ⟨q, c, v, hq⟩ := inv.woken_of_second hs
    exact ⟨q, by rw [hq]; rfl⟩
  · by_cases hpt : s.shared.ptr = some t
    · refine ⟨u, inv.canGo_of_not_second hs hu ?_⟩
      rw [hpt]
      simpa using htu
    · exact ⟨t, inv.canGo_of_not_second hs ht hpt⟩

end

/-- **Not stuck.** Any number of threads, any interleaving, in every state between two sections
    (no thread holds the mutex): if two threads or more are in `exchange`, one that was notified
    or never slept can go on. No thread sleeps on `cv_overflow` unless `state` is
    `SECOND_ARRIVED`; and if it is, the thread in `cv_main.wait` has been notified. -/
theorem exchange_not_stuck (arg : Fin n → T) (acts : List (Act (Op T) n))
    (s : State (Shared T n) Cond (Code T n) (Local T n) n) (tr : List (Event T n))
    (hr : (threads program n).run (initState arg) acts = some (s, tr)) :
    (2 ≤ count s.status inExchange → ∃ t, canGo (s.status t) = true ∧ Enabled s t) ∧
    (∀ t p, s.status t = .asleep .overflow p → s.shared.state = .secondArrived) ∧
    (s.shared.state = .secondArrived → (∃ q c v, s.status q = .woken (.main c v)) ∧
      ∀ t p, s.status t ≠ .asleep .main p) := by
  have inv := (pairInv_of_run hr).placed
  refine ⟨?_, ?_, ?_⟩
  · intro htwo
    obtain ⟨t, u, htu, ht, hu⟩ := exists_two_of_count htwo
    obtain ⟨w, hw⟩ := inv.exists_canGo htu ht hu
    exact ⟨w, hw, enabled_of_canGo hw⟩
  · intro t p ht
    have hplace := inv.place t
    rw [ht] at hplace
    exact hplace.state_of_asleep.2 rfl
  · intro hs
    refine ⟨inv.woken_of_second hs, ?_⟩
    intro t p ht
    have hplace := inv.place t
    rw [ht] at hplace
    have hfirst := hplace.state_of_asleep.1 rfl
    rw [hs] at hfirst
    cases hfirst

/-- The first thread sleeps and has been notified, two others keep out of the way. -/
def handOverRun (a b c d : Fin n) : List (Act (Op Nat) n) :=
  [.call a (.exchange 1) none, .call a .lock none, .call b (.exchange 2) none,
    .call b .lock (some a), .call c (.exchange 3) none, .call c .lock none,
    .call d (.exchange 4) none, .call d .lock none]

theorem exchange_not_stuck_handOverRun :
    ∃ s tr, (threads program 4).run (initState fun _ => 0) (handOverRun 0 1 2 3) = some (s, tr) ∧
      (s.shared.state = .secondArrived ∧ 2 ≤ count s.status inExchange) ∧
      ∃ t, canGo (s.status t) = true ∧ Enabled s t := by
  obtain ⟨s, tr, hr, hstate, htwo⟩ := (threads program 4).exists_of_check (initState fun _ => 0)
    (handOverRun 0 1 2 3)
    (fun s _ => s.shared.state = .secondArrived ∧ 2 ≤ count s.status inExchange)
    (by decide +kernel)
  exact ⟨s, tr, hr, ⟨hstate, htwo⟩,
    (exchange_not_stuck _ (handOverRun 0 1 2 3) s tr hr).1 htwo⟩

end DemosOsLinux.Exchanger
