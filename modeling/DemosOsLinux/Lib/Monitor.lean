/-
  Monitors: threads that share data under one mutex and sleep on condition variables.

  What a thread does from the moment it has the mutex until it gives it up, because it leaves or
  because it waits, is one step (a section): the others see the shared data only between
  sections. A condition variable is the set of its sleepers. A signal wakes one of them, if there
  is any (the action says which one), a broadcast wakes all, and a sleeper may wake on its own. A
  woken thread goes on when it has the mutex again, in competition with newcomers.
  * `Wakes`: what a section's signal or broadcast does to the sleepers.
  * `Trans`, `trans_of_step`: what one step can do.
  * `run_shared`: what every section keeps of the shared data, a run keeps.
  * `Wakes.count`: a number of threads that does not tell sleepers from woken ones is not changed
    by waking.
-/
import DemosOsLinux.Lib.Machine
import DemosOsLinux.Lib.Threads

namespace DemosOsLinux.Lib.Monitor

open Function

/-- What a section does to the condition variables. -/
inductive Wake (κ : Type) where
  | none
  | signal (c : κ)
  | broadcast (c : κ)

/-- How a section ends. -/
inductive Exit (κ π α : Type) where
  | leave (l : α)
  /-- Wait on `c`, to go on with the section `p`. -/
  | wait (c : κ) (p : π)

structure Section (σ κ π α ε : Type) where
  shared : σ
  wake : Wake κ
  exit : Exit κ π α
  events : List ε

/-- `call l o` is the section that operation `o` starts with in a thread whose own state is `l`;
    `none` if the thread does not call it there. -/
structure Program (σ κ π α ω ε : Type) where
  call : α → ω → Option π
  body : π → σ → Section σ κ π α ε

inductive Status (κ π α : Type) where
  | outside (l : α)
  | asleep (c : κ) (p : π)
  /-- Woken and waiting for the mutex. -/
  | woken (p : π)
  deriving DecidableEq

variable {σ κ π α ω ε : Type} {n : Nat}

def Exit.status : Exit κ π α → Status κ π α
  | .leave l => .outside l
  | .wait c p => .asleep c p

def Status.isAsleep : Status κ π α → Bool
  | .asleep _ _ => true
  | _ => false

def Status.isWoken : Status κ π α → Bool
  | .woken _ => true
  | _ => false

/-- In an operation, asleep or woken. -/
def Status.isInside (x : Status κ π α) : Bool := x.isAsleep || x.isWoken

structure State (σ κ π α : Type) (n : Nat) where
  shared : σ
  status : Fin n → Status κ π α

inductive Act (ω : Type) (n : Nat) where
  /-- Thread `t` gets the mutex for operation `o`; `u` is woken if the section signals. -/
  | call (t : Fin n) (o : ω) (u : Option (Fin n))
  /-- Thread `t`, woken before, has the mutex again. -/
  | resume (t : Fin n) (u : Option (Fin n))
  /-- Thread `t` wakes without a signal. -/
  | spurious (t : Fin n)

section Machine

variable [DecidableEq κ] {P : Program σ κ π α ω ε} {p : π} {x : Status κ π α} {c : κ} {t : Fin n}

def Status.sleepsOn (c : κ) : Status κ π α → Bool
  | .asleep c' _ => c' = c
  | _ => false

def Status.wakeOn (c : κ) : Status κ π α → Status κ π α
  | .asleep c' p => if c' = c then .woken p else .asleep c' p
  | x => x

def wakeUp (status : Fin n → Status κ π α) :
    Wake κ → Option (Fin n) → Option (Fin n → Status κ π α)
  | .none, none => some status
  | .broadcast c, none => some fun u => (status u).wakeOn c
  | .signal c, some u =>
      if (status u).sleepsOn c then some (update status u ((status u).wakeOn c)) else none
  | .signal c, none => if ∃ u, (status u).sleepsOn c = true then none else some status
  | _, some _ => none

/-- Thread `t` runs section `p`. -/
def enter (P : Program σ κ π α ω ε) (s : State σ κ π α n) (t : Fin n) (p : π)
    (u : Option (Fin n)) : Option (State σ κ π α n × List ε) :=
  let r := P.body p s.shared
  (wakeUp s.status r.wake u).map fun st =>
    (⟨r.shared, update st t r.exit.status⟩, r.events)

/-- The section that an action runs. -/
def sectionOf (P : Program σ κ π α ω ε) (s : State σ κ π α n) : Act ω n → Option π
  | .call t o _ =>
      match s.status t with
      | .outside l => P.call l o
      | _ => none
  | .resume t _ =>
      match s.status t with
      | .woken p => some p
      | _ => none
  | .spurious _ => none

def step (P : Program σ κ π α ω ε) (s : State σ κ π α n) :
    Act ω n → Option (State σ κ π α n × List ε)
  | .call t o u =>
      match s.status t with
      | .outside l => (P.call l o).bind fun p => enter P s t p u
      | _ => none
  | .resume t u =>
      match s.status t with
      | .woken p => enter P s t p u
      | _ => none
  | .spurious t =>
      match s.status t with
      | .asleep _ p => some (⟨s.shared, update s.status t (.woken p)⟩, [])
      | _ => none

def threads (P : Program σ κ π α ω ε) (n : Nat) : Machine (State σ κ π α n) (Act ω n) ε := ⟨step P⟩

/-! ## What one step can do -/

inductive Wakes (status : Fin n → Status κ π α) : Wake κ → (Fin n → Status κ π α) → Prop
  | none : Wakes status .none status
  | broadcast (c : κ) : Wakes status (.broadcast c) fun u => (status u).wakeOn c
  | signal (c : κ) (u : Fin n) (p : π) (hu : status u = .asleep c p) :
      Wakes status (.signal c) (update status u (.woken p))
  /-- A signal when nobody sleeps. -/
  | lost (c : κ) (h : ∀ u p, status u ≠ .asleep c p) : Wakes status (.signal c) status

/-- A thread of this status may get the mutex and run section `p`. -/
inductive Starts (P : Program σ κ π α ω ε) : Status κ π α → π → Prop
  | call (l : α) (o : ω) (p : π) (h : P.call l o = some p) : Starts P (.outside l) p
  | resume (p : π) : Starts P (.woken p) p

inductive Trans (P : Program σ κ π α ω ε) (s : State σ κ π α n) :
    Act ω n → List ε → State σ κ π α n → Prop
  | run (a : Act ω n) (t : Fin n) (p : π) (st : Fin n → Status κ π α)
      (ha : sectionOf P s a = some p) (ht : Starts P (s.status t) p)
      (hw : Wakes s.status (P.body p s.shared).wake st) :
      Trans P s a (P.body p s.shared).events
        ⟨(P.body p s.shared).shared, update st t (P.body p s.shared).exit.status⟩
  | spurious (t : Fin n) (c : κ) (p : π) (ht : s.status t = .asleep c p) :
      Trans P s (.spurious t) [] ⟨s.shared, update s.status t (.woken p)⟩

omit [DecidableEq κ] in
theorem Starts.outside_or_woken (h : Starts P x p) :
    (∃ l o, x = .outside l ∧ P.call l o = some p) ∨ x = .woken p := by
  cases h with
  | call l o _ hcall => exact Or.inl ⟨l, o, rfl, hcall⟩
  | resume => exact Or.inr rfl

theorem sleepsOn_iff : x.sleepsOn c = true ↔ ∃ p, x = .asleep c p := by
  cases x with
  | asleep c' p =>
    simp only [Status.sleepsOn, decide_eq_true_eq, Status.asleep.injEq]
    exact ⟨fun h => ⟨p, h, rfl⟩, fun ⟨_, h, _⟩ => h⟩
  | _ => simp [Status.sleepsOn]

theorem wakeOn_cases (c : κ) (x : Status κ π α) :
    x.wakeOn c = x ∨ ∃ c' p, x = .asleep c' p ∧ x.wakeOn c = .woken p := by
  cases x with
  | asleep c' p =>
    by_cases e : c' = c
    · exact Or.inr ⟨c', p, rfl, if_pos e⟩
    · exact Or.inl (if_neg e)
  | _ => exact Or.inl rfl

theorem wakes_of_wakeUp {status st : Fin n → Status κ π α} {w : Wake κ} {u : Option (Fin n)}
    (h : wakeUp status w u = some st) : Wakes status w st := by
  cases w with
  | none =>
    cases u with
    | none =>
      obtain rfl := Option.some.inj h
      exact .none
    | some u => cases h
  | broadcast c =>
    cases u with
    | none =>
      obtain rfl := Option.some.inj h
      exact .broadcast c
    | some u => cases h
  | signal c =>
    cases u with
    | none =>
      simp only [wakeUp] at h
      split at h
      · cases h
      · rename_i hno
        obtain rfl := Option.some.inj h
        apply Wakes.lost
        intro u p hu
        exact hno ⟨u, sleepsOn_iff.mpr ⟨p, hu⟩⟩
    | some u =>
      simp only [wakeUp] at h
      obtain ⟨hu, rfl⟩ := guard_inj h
      obtain ⟨p, hp⟩ := sleepsOn_iff.mp hu
      have hwoken : (status u).wakeOn c = .woken p := by
        rw [hp]
        exact if_pos rfl
      rw [hwoken]
      exact .signal c u p hp

theorem trans_of_enter {s s' : State σ κ π α n} {u : Option (Fin n)} {a : Act ω n} {es : List ε}
    (ha : sectionOf P s a = some p) (ht : Starts P (s.status t) p)
    (h : enter P s t p u = some (s', es)) : Trans P s a es s' := by
  obtain ⟨st, hst, he⟩ := Option.map_eq_some_iff.mp h
  obtain ⟨rfl, rfl⟩ := Prod.mk.inj he
  exact .run a t p st ha ht (wakes_of_wakeUp hst)

theorem trans_of_step {s s' : State σ κ π α n} {a : Act ω n} {es : List ε}
    (h : (threads P n).step s a = some (s', es)) : Trans P s a es s' := by
  cases a with
  | call t o u =>
    simp only [threads, step] at h
    split at h
    · rename_i l hl
      obtain ⟨p, hp, he⟩ := Option.bind_eq_some_iff.mp h
      refine trans_of_enter ?_ (hl ▸ .call l o p hp) he
      rw [sectionOf, hl]
      exact hp
    · cases h
  | resume t u =>
    simp only [threads, step] at h
    split at h
    · rename_i p hp
      refine trans_of_enter ?_ (hp ▸ .resume p) h
      rw [sectionOf, hp]
    · cases h
  | spurious t =>
    simp only [threads, step] at h
    split at h
    · rename_i c p hp
      obtain ⟨rfl, rfl⟩ := result_inj h
      exact .spurious t c p hp
    · cases h

/-- A section can always run, whoever its signal wakes. -/
theorem exists_enter (P : Program σ κ π α ω ε) (s : State σ κ π α n) (t : Fin n) (p : π) :
    ∃ u r, enter P s t p u = some r := by
  have hwake : ∃ u st, wakeUp s.status (P.body p s.shared).wake u = some st := by
    cases (P.body p s.shared).wake with
    | none => exact ⟨none, _, rfl⟩
    | broadcast c => exact ⟨none, _, rfl⟩
    | signal c =>
      by_cases h : ∃ u, (s.status u).sleepsOn c = true
      · obtain ⟨u, hu⟩ := h
        exact ⟨some u, _, if_pos hu⟩
      · exact ⟨none, _, if_neg h⟩
  obtain ⟨u, st, hst⟩ := hwake
  exact ⟨u, _, Option.map_eq_some_iff.mpr ⟨st, hst, rfl⟩⟩

/-- What every section keeps of the shared data and the trace, a run keeps. -/
theorem run_shared (P : Program σ κ π α ω ε) (C : σ → List ε → Prop)
    (hbody : ∀ p d tr, C d tr → C (P.body p d).shared (tr ++ (P.body p d).events))
    {acts : List (Act ω n)} {s₀ s : State σ κ π α n} {tr : List ε} (h₀ : C s₀.shared [])
    (hr : (threads P n).run s₀ acts = some (s, tr)) : C s.shared tr := by
  refine (threads P n).run_induct (fun _ => True) (fun s tr => C s.shared tr) ?_
    (fun _ _ => trivial) h₀ hr
  intro s tr a s' es _ hc hs
  cases trans_of_step hs with
  | run _ t p st ha ht hw => exact hbody p s.shared tr hc
  | spurious t c p ht =>
    rw [List.append_nil]
    exact hc

/-! ## Waking -/

section Waking

variable {status st : Fin n → Status κ π α} {w : Wake κ} {u : Fin n}

theorem Wakes.eq_of_none (h : Wakes status .none st) : st = status := by
  cases h
  rfl

/-- Waking changes sleepers to woken threads, and nothing else. -/
theorem Wakes.same_or_woken (h : Wakes status w st) (u : Fin n) :
    st u = status u ∨ ∃ c p, status u = .asleep c p ∧ st u = .woken p := by
  cases h with
  | none => exact Or.inl rfl
  | lost c h => exact Or.inl rfl
  | broadcast c => exact wakeOn_cases c (status u)
  | signal c v p hv =>
    by_cases e : u = v
    · subst e
      exact Or.inr ⟨c, p, hv, update_self ..⟩
    · exact Or.inl (update_of_ne e _ _)

theorem Wakes.not_asleep (h : Wakes status w st) (hu : ∀ c p, status u ≠ .asleep c p) :
    st u = status u := by
  rcases h.same_or_woken u with h | ⟨c, p, hc, _⟩
  · exact h
  · exact absurd hc (hu c p)

/-- Nobody falls asleep by being woken. -/
theorem Wakes.asleep_before (h : Wakes status w st) (hu : st u = .asleep c p) :
    status u = .asleep c p := by
  rcases h.same_or_woken u with h | ⟨_, q, _, hq⟩
  · rw [← h, hu]
  · rw [hu] at hq
    cases hq

/-- Who sleeps after a section of thread `t` that ends with status `x`: `t` itself, or a thread
    that slept before and was not woken. -/
theorem Wakes.asleep_after (h : Wakes status w st) (hu : update st t x u = .asleep c p) :
    x = .asleep c p ∨ (st u = .asleep c p ∧ status u = .asleep c p) := by
  by_cases e : u = t
  · rw [e, update_self] at hu
    exact Or.inl hu
  · rw [update_of_ne e] at hu
    exact Or.inr ⟨hu, h.asleep_before hu⟩

/-- Nobody falls asleep when thread `t` is woken. -/
theorem asleep_of_update_woken {q : π} (hu : update status t (.woken q) u = .asleep c p) :
    status u = .asleep c p := by
  rcases Wakes.none.asleep_after hu with hx | ⟨_, hbefore⟩
  · cases hx
  · exact hbefore

theorem Wakes.broadcast_asleep (h : Wakes status (.broadcast c) st) : st u ≠ .asleep c p := by
  intro hu
  have hbefore := h.asleep_before hu
  cases h
  simp only [Status.wakeOn, hbefore, if_true] at hu
  cases hu

/-- A signal leaves nobody asleep, if there was one sleeper at most. -/
theorem Wakes.signal_asleep (h : Wakes status (.signal c) st)
    (hone : ∀ u v p q, status u = .asleep c p → status v = .asleep c q → u = v) :
    st u ≠ .asleep c p := by
  intro hu
  have hbefore := h.asleep_before hu
  cases h with
  | lost _ hnone => exact hnone u p hbefore
  | signal _ v q hv =>
    obtain rfl := hone u v p q hbefore hv
    rw [update_self] at hu
    cases hu

/-- A thread that does not sleep may change its status before or after the waking. -/
theorem Wakes.update (h : Wakes status w st) (ht : ∀ c p, status t ≠ .asleep c p) {l : α} :
    Wakes (Function.update status t (.outside l)) w
      (Function.update st t (.outside l)) := by
  cases h with
  | none => exact .none
  | broadcast c =>
    have heq : Function.update (fun u => (status u).wakeOn c) t (.outside l) =
        fun u => (Function.update status t (.outside l) u).wakeOn c := by
      funext u
      by_cases e : u = t
      · rw [e, Function.update_self, Function.update_self]
        rfl
      · rw [Function.update_of_ne e, Function.update_of_ne e]
    rw [heq]
    exact .broadcast c
  | signal c u p hu =>
    have hne : u ≠ t := by
      rintro rfl
      exact ht c p hu
    rw [Function.update_comm hne]
    exact .signal c u p ((Function.update_of_ne hne _ _).trans hu)
  | lost c hnone =>
    apply Wakes.lost
    intro u p hu
    by_cases e : u = t
    · rw [e, Function.update_self] at hu
      cases hu
    · rw [Function.update_of_ne e] at hu
      exact hnone u p hu

/-- A number of threads that counts sleepers and woken ones alike. -/
theorem Wakes.count (h : Wakes status w st) {Q : Status κ π α → Bool}
    (hQ : ∀ c p, Q (.asleep c p) = Q (.woken p)) : Lib.count st Q = Lib.count status Q := by
  apply count_congr
  intro u
  rcases h.same_or_woken u with h | ⟨c, p, hc, hp⟩
  · rw [h]
  · rw [hc, hp, hQ c p]

end Waking

end Machine

end DemosOsLinux.Lib.Monitor
