/-
  Executable transition systems and their runs.

  A `Machine` has one partial step function. Everything a run leaves open (which task moves,
  what a system call returns) is part of the action, so a run is a list of actions and
  `Machine.run` is a function: a concrete run can be evaluated.

  Each step emits events. The rules below relate the whole event trace to the last state:
  * `run_induct`: a property of (state, trace) that every step keeps holds of every run.
  * `run_inv`: the same for a property of the state alone.
  * `run_along_or`: a run meets a condition at every step, or ends as its first failure left it;
    `run_along_iff`: so the result of the run decides which.
  * `Reachable`: there is a run from one state to another; `Reachable.trans` composes runs.
  * `CanReach`: some run of the allowed actions ends so; `canReach_step` takes one step of it.
  * `run_simulates`: a step-wise simulation lifts to runs (`obs` says what an event shows).
  * `Refines`: each step is one step of another machine, or none; `Refines.run` and
    `Refines.along_iff` carry a run, and what holds along it, over to that machine.
  `Along P s as` says that every step of the run `as` from `s` meets the condition `P`
  (a condition on the state before the step and the action). `along_of_check` and
  `exists_of_check` evaluate a concrete run.
-/
import Mathlib.Data.List.Basic

namespace DemosOsLinux.Lib

/-- What a step comes to is one state, with one list of events. -/
theorem result_inj {σ δ : Type} {s s' : σ} {es es' : δ} (h : some (s, es) = some (s', es')) :
    s = s' ∧ es = es' :=
  Prod.mk.inj (Option.some.inj h)

section Guard

variable {σ δ : Type} {p : Prop} [Decidable p]

/-- A guarded step is taken only where its guard holds. -/
theorem guard_inj {a b : σ} (h : (if p then some a else none) = some b) : p ∧ a = b := by
  obtain ⟨hp, h⟩ := Option.ite_none_right_eq_some.mp h
  exact ⟨hp, Option.some.inj h⟩

theorem guard_result_inj {s s' : σ} {es es' : δ}
    (h : (if p then some (s, es) else none) = some (s', es')) : p ∧ s = s' ∧ es = es' := by
  obtain ⟨hp, h⟩ := guard_inj h
  exact ⟨hp, Prod.mk.inj h⟩

end Guard

/-- `step s a` is the next state and the events of action `a`; `none` when `a` is not
    enabled in `s`. -/
structure Machine (σ α ε : Type) where
  step : σ → α → Option (σ × List ε)

namespace Machine

variable {σ α ε τ β δ : Type} {s s₂ : σ} {es tr : List ε} {as : List α} {P : σ → α → Prop}
  {Q : σ → List ε → Prop}

/-- Run a list of actions; the events of all steps, in order. -/
def run (M : Machine σ α ε) : σ → List α → Option (σ × List ε)
  | s, [] => some (s, [])
  | s, a :: as =>
      match M.step s a with
      | none => none
      | some (s₁, es) =>
          match M.run s₁ as with
          | none => none
          | some (s₂, es₂) => some (s₂, es ++ es₂)

variable (M : Machine σ α ε)

@[simp] theorem run_nil (s : σ) : M.run s [] = some (s, []) := rfl

theorem run_cons_eq_some (s : σ) (a : α) (as : List α) (s₂ : σ) (tr : List ε) :
    M.run s (a :: as) = some (s₂, tr) ↔
      ∃ s₁ es es₂, M.step s a = some (s₁, es) ∧ M.run s₁ as = some (s₂, es₂) ∧
        tr = es ++ es₂ := by
  constructor
  · intro h
    rw [run] at h
    split at h
    · cases h
    · rename_i s₁ es hs
      split at h
      · cases h
      · rename_i s₂' es₂ hr
        obtain ⟨rfl, rfl⟩ := result_inj h
        exact ⟨s₁, es, es₂, hs, hr, rfl⟩
  · rintro ⟨s₁, es, es₂, hs, hr, rfl⟩
    simp only [run, hs, hr]

theorem run_append_eq_some (as bs : List α) (s s₂ : σ) (tr : List ε) :
    M.run s (as ++ bs) = some (s₂, tr) ↔
      ∃ s₁ es es₂, M.run s as = some (s₁, es) ∧ M.run s₁ bs = some (s₂, es₂) ∧
        tr = es ++ es₂ := by
  induction as generalizing s tr with
  | nil => simp
  | cons a as ih =>
    rw [List.cons_append, run_cons_eq_some]
    constructor
    · rintro ⟨s₁, es, es₂, hs, hr, rfl⟩
      obtain ⟨s₃, es₃, es₄, h1, h2, rfl⟩ := (ih s₁ es₂).mp hr
      refine ⟨s₃, es ++ es₃, es₄, ?_, h2, by rw [List.append_assoc]⟩
      exact (run_cons_eq_some M s a as s₃ _).mpr ⟨s₁, es, es₃, hs, h1, rfl⟩
    · rintro ⟨s₃, es₃, es₄, h1, h2, rfl⟩
      obtain ⟨s₁, es, es₅, hs, hr, rfl⟩ := (run_cons_eq_some M s a as s₃ es₃).mp h1
      exact ⟨s₁, es, es₅ ++ es₄, hs, (ih s₁ _).mpr ⟨s₃, es₅, es₄, hr, h2, rfl⟩,
        by rw [List.append_assoc]⟩

/-- A step of a machine whose steps have no events. -/
theorem quiet_step {o : Option σ} (h : (o.map fun s' => (s', ([] : List ε))) = some (s, es)) :
    o = some s ∧ es = [] := by
  obtain ⟨s', hs, he⟩ := Option.map_eq_some_iff.mp h
  obtain ⟨rfl, rfl⟩ := Prod.mk.inj he
  exact ⟨hs, rfl⟩

/-! ## Conditions along a run -/

/-- Every step of the run `as` from `s` meets `P` (state before the step, action). -/
def Along (M : Machine σ α ε) (P : σ → α → Prop) : σ → List α → Prop
  | _, [] => True
  | s, a :: as => P s a ∧ ∀ s₁ es, M.step s a = some (s₁, es) → M.Along P s₁ as

/-- A condition on the actions alone holds along a run when every action meets it. -/
theorem along_of_forall (P : α → Prop) (as : List α)
    (h : ∀ a ∈ as, P a) (s : σ) : M.Along (fun _ a => P a) s as := by
  induction as generalizing s with
  | nil => trivial
  | cons a as ih =>
    refine ⟨h a List.mem_cons_self, fun s₁ _ _ => ih (fun b hb => ?_) s₁⟩
    exact h b (List.mem_cons_of_mem a hb)

theorem along_and {Q : σ → α → Prop} (hp : M.Along P s as)
    (hq : M.Along Q s as) : M.Along (fun s a => P s a ∧ Q s a) s as := by
  induction as generalizing s with
  | nil => trivial
  | cons a as ih =>
    refine ⟨⟨hp.1, hq.1⟩, fun s₁ es hs => ?_⟩
    exact ih (hp.2 s₁ es hs) (hq.2 s₁ es hs)

theorem along_cons_iff {s₁ : σ} {a : α} (hs : M.step s a = some (s₁, es)) :
    M.Along P s (a :: as) ↔ P s a ∧ M.Along P s₁ as := by
  refine and_congr_right fun _ => ⟨fun h => h s₁ es hs, ?_⟩
  intro h s₁' es' hs'
  rw [hs] at hs'
  obtain ⟨rfl, rfl⟩ := result_inj hs'
  exact h

/-- Two conditions that agree on the steps of a run hold along it together; `I` is what is known
    of its states, as long as they hold. -/
theorem along_congr {Q : σ → α → Prop} (I : σ → Prop)
    (hI : ∀ s a s₁ es, I s → Q s a → M.step s a = some (s₁, es) → I s₁)
    (hPQ : ∀ s a s₁ es, I s → M.step s a = some (s₁, es) → (P s a ↔ Q s a)) (h₀ : I s)
    (hr : M.run s as = some (s₂, tr)) : M.Along P s as ↔ M.Along Q s as := by
  induction as generalizing s tr with
  | nil => exact Iff.rfl
  | cons a as ih =>
    obtain ⟨s₁, es, es₂, hs, hr₁, _⟩ := (run_cons_eq_some M s a as s₂ tr).mp hr
    rw [along_cons_iff M hs, along_cons_iff M hs, hPQ s a s₁ es h₀ hs]
    refine and_congr_right fun hQ => ?_
    exact ih (hI s a s₁ es h₀ hQ hs) hr₁

/-- Along a run that meets `P`, what `P` gives at each step; `I` is what is known of its states. -/
theorem along_imp {Q : σ → α → Prop} (I : σ → Prop)
    (hI : ∀ s a s₁ es, I s → P s a → M.step s a = some (s₁, es) → I s₁)
    (hPQ : ∀ s a, I s → P s a → Q s a) (h₀ : I s) (hP : M.Along P s as) : M.Along Q s as := by
  induction as generalizing s with
  | nil => trivial
  | cons a as ih =>
    refine ⟨hPQ s a h₀ hP.1, fun s₁ es hs => ?_⟩
    exact ih (hI s a s₁ es h₀ hP.1 hs) (hP.2 s₁ es hs)

/-- `Along` for a test, evaluated. -/
def alongCheck (M : Machine σ α ε) (P : σ → α → Bool) : σ → List α → Bool
  | _, [] => true
  | s, a :: as =>
      P s a && match M.step s a with
        | none => true
        | some (s₁, _) => M.alongCheck P s₁ as

theorem along_of_check (P : σ → α → Bool) (as : List α) (s : σ)
    (h : M.alongCheck P s as = true) : M.Along (fun s a => P s a = true) s as := by
  induction as generalizing s with
  | nil => trivial
  | cons a as ih =>
    rw [alongCheck, Bool.and_eq_true] at h
    refine ⟨h.1, fun s₁ es hs => ih s₁ ?_⟩
    have h2 := h.2
    rw [hs] at h2
    exact h2

/-- A run and what holds at its end, evaluated. -/
theorem exists_of_check (s : σ) (as : List α) (Q : σ → List ε → Prop)
    [∀ s tr, Decidable (Q s tr)] (h : (M.run s as).any (fun u => decide (Q u.1 u.2)) = true) :
    ∃ s₂ tr, M.run s as = some (s₂, tr) ∧ Q s₂ tr := by
  cases hr : M.run s as with
  | none =>
    rw [hr] at h
    cases h
  | some u =>
    rw [hr] at h
    exact ⟨u.1, u.2, rfl, of_decide_eq_true h⟩

/-! ## Induction over runs -/

/-- What every step keeps of (state, trace so far), a run keeps. -/
theorem run_induct_along (P : σ → α → Prop) (C : σ → List ε → Prop)
    (hstep : ∀ s tr a s₁ es, P s a → C s tr → M.step s a = some (s₁, es) → C s₁ (tr ++ es))
    (as : List α) (s : σ) (tr₀ : List ε) (s₂ : σ) (tr : List ε) (hP : M.Along P s as)
    (h₀ : C s tr₀) (hr : M.run s as = some (s₂, tr)) : C s₂ (tr₀ ++ tr) := by
  induction as generalizing s tr₀ tr with
  | nil =>
    obtain ⟨rfl, rfl⟩ := result_inj hr
    simpa using h₀
  | cons a as ih =>
    obtain ⟨s₁, es, es₂, hs, hr₁, rfl⟩ := (run_cons_eq_some M s a as s₂ tr).mp hr
    rw [← List.append_assoc]
    exact ih s₁ (tr₀ ++ es) es₂ (hP.2 s₁ es hs) (hstep s tr₀ a s₁ es hP.1 h₀ hs) hr₁

theorem run_induct (P : α → Prop) (C : σ → List ε → Prop)
    (hstep : ∀ s tr a s₁ es, P a → C s tr → M.step s a = some (s₁, es) → C s₁ (tr ++ es))
    (hP : ∀ a ∈ as, P a) (h₀ : C s []) (hr : M.run s as = some (s₂, tr)) : C s₂ tr := by
  have h := run_induct_along M (fun _ a => P a) C hstep as s [] s₂ tr
    (along_of_forall M P as hP s) h₀ hr
  simpa using h

/-- An invariant of the steps that `P` allows holds after every run of such steps. -/
theorem run_inv (P : α → Prop) (I : σ → Prop)
    (hstep : ∀ s a s₁ es, P a → I s → M.step s a = some (s₁, es) → I s₁) (hP : ∀ a ∈ as, P a)
    (h₀ : I s) (hr : M.run s as = some (s₂, tr)) : I s₂ :=
  run_induct M P (fun s _ => I s) (fun s _ a s₁ es hp hi hs => hstep s a s₁ es hp hi hs)
    hP h₀ hr

/-- An invariant of the steps that makes every event of a step good: all events of a run
    are good. -/
theorem run_events (P : α → Prop) (I : σ → Prop) (Q : ε → Prop)
    (hstep : ∀ s a s₁ es, P a → I s → M.step s a = some (s₁, es) → I s₁ ∧ ∀ e ∈ es, Q e)
    (hP : ∀ a ∈ as, P a) (h₀ : I s) (hr : M.run s as = some (s₂, tr)) : I s₂ ∧ ∀ e ∈ tr, Q e := by
  refine run_induct M P (fun s tr => I s ∧ ∀ e ∈ tr, Q e) ?_ hP ⟨h₀, by simp⟩ hr
  intro s tr a s₁ es hp hi hs
  obtain ⟨h1, h2⟩ := hstep s a s₁ es hp hi.1 hs
  exact ⟨h1, List.forall_mem_append.mpr ⟨hi.2, h2⟩⟩

/-- If steps that meet `P` keep `C`, a step that does not makes `B` true, and `B` stays true, then
    a run meets `P` all along and keeps `C`, or ends in `B`. -/
theorem run_along_or (P : σ → α → Prop) (C B : σ → List ε → Prop)
    (hgood : ∀ s tr a s₁ es, P s a → C s tr → M.step s a = some (s₁, es) → C s₁ (tr ++ es))
    (hbad : ∀ s tr a s₁ es, ¬P s a → C s tr → M.step s a = some (s₁, es) → B s₁ (tr ++ es))
    (hkeep : ∀ s tr a s₁ es, B s tr → M.step s a = some (s₁, es) → B s₁ (tr ++ es)) (as : List α)
    (s : σ) (tr₀ : List ε) (s₂ : σ) (tr : List ε) (h₀ : C s tr₀) (hr : M.run s as = some (s₂, tr)) :
    (M.Along P s as ∧ C s₂ (tr₀ ++ tr)) ∨ B s₂ (tr₀ ++ tr) := by
  induction as generalizing s tr₀ tr with
  | nil =>
    obtain ⟨rfl, rfl⟩ := result_inj hr
    exact Or.inl ⟨trivial, by simpa using h₀⟩
  | cons a as ih =>
    obtain ⟨s₁, es, es₂, hs, hr₁, rfl⟩ := (run_cons_eq_some M s a as s₂ tr).mp hr
    rw [← List.append_assoc]
    by_cases hp : P s a
    · rcases ih s₁ (tr₀ ++ es) es₂ (hgood s tr₀ a s₁ es hp h₀ hs) hr₁ with ⟨hal, hc⟩ | hb
      · exact Or.inl ⟨(along_cons_iff M hs).mpr ⟨hp, hal⟩, hc⟩
      · exact Or.inr hb
    · -- the first step that does not meet `P`: `B` from here on
      right
      exact run_induct_along M (fun _ _ => True) B (fun s tr a s₁ es _ => hkeep s tr a s₁ es) as s₁
        (tr₀ ++ es) s₂ es₂ (along_of_forall M (fun _ => True) as (fun _ _ => trivial) s₁)
        (hbad s tr₀ a s₁ es hp h₀ hs) hr₁

/-- If `C` gives the result `G` of a run and `B` excludes it, `G` holds if and only if the run meets
    `P` at every step. -/
theorem run_along_iff (P : σ → α → Prop) (C B : σ → List ε → Prop)
    (hgood : ∀ s tr a s₁ es, P s a → C s tr → M.step s a = some (s₁, es) → C s₁ (tr ++ es))
    (hbad : ∀ s tr a s₁ es, ¬P s a → C s tr → M.step s a = some (s₁, es) → B s₁ (tr ++ es))
    (hkeep : ∀ s tr a s₁ es, B s tr → M.step s a = some (s₁, es) → B s₁ (tr ++ es)) (h₀ : C s [])
    (hr : M.run s as = some (s₂, tr)) {G : Prop} (hG : C s₂ tr → G) (hnot : B s₂ tr → ¬G) :
    G ↔ M.Along P s as := by
  constructor
  · intro hg
    rcases run_along_or M P C B hgood hbad hkeep as s [] s₂ tr h₀ hr with ⟨hal, _⟩ | hb
    · exact hal
    · exact absurd hg (hnot hb)
  · intro hal
    exact hG (run_induct_along M P C hgood as s [] s₂ tr hal h₀ hr)

/-! ## Runs that end -/

/-- A number that every step makes smaller bounds the length of a run; `I` is what is known of its
    states. -/
theorem run_length_add (I : σ → Prop) (μ : σ → Nat)
    (hstep : ∀ s a s₁ es, I s → M.step s a = some (s₁, es) → I s₁ ∧ μ s₁ < μ s) (h₀ : I s)
    (hr : M.run s as = some (s₂, tr)) : as.length + μ s₂ ≤ μ s := by
  induction as generalizing s tr with
  | nil =>
    obtain ⟨rfl, _⟩ := result_inj hr
    simp
  | cons a as ih =>
    obtain ⟨s₁, es, es₂, hs, hr₁, _⟩ := (run_cons_eq_some M s a as s₂ tr).mp hr
    obtain ⟨h₁, hlt⟩ := hstep s a s₁ es h₀ hs
    have hle := ih h₁ hr₁
    rw [List.length_cons]
    omega

/-! ## Runs that exist -/

/-- There is a run from `s₀` to `s`. -/
def Reachable (M : Machine σ α ε) (s₀ s : σ) : Prop := ∃ as tr, M.run s₀ as = some (s, tr)

theorem Reachable.refl (s : σ) : M.Reachable s s := ⟨[], [], rfl⟩

theorem Reachable.trans {M : Machine σ α ε} {s₁ : σ} (h₁ : M.Reachable s s₁)
    (h₂ : M.Reachable s₁ s₂) : M.Reachable s s₂ := by
  obtain ⟨as, tr, hr⟩ := h₁
  obtain ⟨bs, tr₂, hr₂⟩ := h₂
  exact ⟨as ++ bs, tr ++ tr₂, (run_append_eq_some M as bs s s₂ _).mpr ⟨s₁, tr, tr₂, hr, hr₂, rfl⟩⟩

theorem reachable_of_step {s₁ : σ} {a : α} (hs : M.step s a = some (s₁, es)) : M.Reachable s s₁ :=
  ⟨[a], es ++ [], (run_cons_eq_some M s a [] s₁ _).mpr ⟨s₁, es, [], hs, rfl, rfl⟩⟩

/-- Actions with `A` lead from `s` to an end with `Q`. -/
def CanReach (M : Machine σ α ε) (A : α → Prop) (Q : σ → List ε → Prop) (s : σ) : Prop :=
  ∃ as s₂ tr, (∀ a ∈ as, A a) ∧ M.run s as = some (s₂, tr) ∧ Q s₂ tr

theorem canReach_here {A : α → Prop} (h : Q s []) : M.CanReach A Q s := ⟨[], s, [], nofun, rfl, h⟩

theorem canReach_step {A : α → Prop} {s₁ : σ} {a : α} (ha : A a) (hs : M.step s a = some (s₁, es))
    (h : M.CanReach A (fun s₂ tr => Q s₂ (es ++ tr)) s₁) : M.CanReach A Q s := by
  obtain ⟨as, s₂, tr, has, hr, hQ⟩ := h
  refine ⟨a :: as, s₂, es ++ tr, ?_, ?_, hQ⟩
  · intro b hb
    rcases List.mem_cons.mp hb with rfl | hb
    · exact ha
    · exact has b hb
  · exact (run_cons_eq_some M s a as s₂ (es ++ tr)).mpr ⟨s₁, es, tr, hs, hr, rfl⟩

/-- If every action that meets `P` can be taken, a list of actions is a run when each of them meets
    `P` in its turn; `I` is what is known of its states. -/
theorem exists_run_along (P : σ → α → Prop) (I : σ → Prop)
    (hstep : ∀ s a, P s a → I s → ∃ s₁ es, M.step s a = some (s₁, es) ∧ I s₁) (as : List α)
    (hP : M.Along P s as) (h₀ : I s) : ∃ s₂ tr, M.run s as = some (s₂, tr) ∧ I s₂ := by
  induction as generalizing s with
  | nil => exact ⟨s, [], rfl, h₀⟩
  | cons a as ih =>
    obtain ⟨s₁, es, hs, h₁⟩ := hstep s a hP.1 h₀
    obtain ⟨s₂, tr, hr, h₂⟩ := ih (hP.2 s₁ es hs) h₁
    exact ⟨s₂, es ++ tr, (run_cons_eq_some M s a as s₂ _).mpr ⟨s₁, es, tr, hs, hr, rfl⟩, h₂⟩

/-! ## Simulation -/

/-- Machines whose steps agree on the states with `I` have the same runs from such states. -/
theorem run_congr (M N : Machine σ α ε) (I : σ → Prop)
    (hI : ∀ s a s₁ es, I s → M.step s a = some (s₁, es) → I s₁)
    (hMN : ∀ s a, I s → M.step s a = N.step s a) (as : List α) (h₀ : I s) :
    M.run s as = N.run s as := by
  induction as generalizing s with
  | nil => rfl
  | cons a as ih =>
    rw [run, run, ← hMN s a h₀]
    cases hs : M.step s a with
    | none => rfl
    | some u =>
      obtain ⟨s₁, es⟩ := u
      simp only
      rw [ih (hI s a s₁ es h₀ hs)]

/-- If the steps of `M` that meet `P` are steps of `N` by the same action and with the same events, so
    are its runs. -/
theorem run_agrees (N : Machine τ α ε) (P : σ → α → Prop) (I : σ → Prop)
    (abs : σ → τ) (hstep : ∀ s a s₁ es, P s a → I s → M.step s a = some (s₁, es) →
      I s₁ ∧ N.step (abs s) a = some (abs s₁, es)) (hP : M.Along P s as) (h₀ : I s)
    (hr : M.run s as = some (s₂, tr)) : N.run (abs s) as = some (abs s₂, tr) := by
  induction as generalizing s tr with
  | nil =>
    obtain ⟨rfl, rfl⟩ := result_inj hr
    rfl
  | cons a as ih =>
    obtain ⟨s₁, es, es₂, hs, hr₁, rfl⟩ := (run_cons_eq_some M s a as s₂ tr).mp hr
    obtain ⟨h₁, hN⟩ := hstep s a s₁ es hP.1 h₀ hs
    exact (run_cons_eq_some N _ a as _ _).mpr ⟨_, es, es₂, hN, ih (hP.2 s₁ es hs) h₁ hr₁, rfl⟩

/-- If each step of `M` is matched by a run of `N` between the abstractions of its states,
    with the events `obs` shows, then each run of `M` is. -/
theorem run_simulates (N : Machine τ β δ) (P : α → Prop) (I : σ → Prop) (abs : σ → τ)
    (obs : ε → Option δ) (hstep : ∀ s a s₁ es, P a → I s → M.step s a = some (s₁, es) →
      I s₁ ∧ ∃ bs, N.run (abs s) bs = some (abs s₁, es.filterMap obs)) (hP : ∀ a ∈ as, P a)
    (h₀ : I s) (hr : M.run s as = some (s₂, tr)) :
    I s₂ ∧ ∃ bs, N.run (abs s) bs = some (abs s₂, tr.filterMap obs) := by
  refine run_induct M P
    (fun t tr => I t ∧ ∃ bs, N.run (abs s) bs = some (abs t, tr.filterMap obs)) ?_ hP
    ⟨h₀, [], rfl⟩ hr
  rintro t tr a t₁ es hp ⟨hi, bs, hbs⟩ hs
  obtain ⟨hi₁, cs, hcs⟩ := hstep t a t₁ es hp hi hs
  refine ⟨hi₁, bs ++ cs, ?_⟩
  rw [List.filterMap_append]
  exact (run_append_eq_some N bs cs _ _ _).mpr ⟨_, _, _, hbs, hcs, rfl⟩

/-- From a state with `I`, a step `a` of `M` keeps `I`. It is the step `f a` of `N` between the
    abstractions of its states, or, if `f a` is `none`, it is not seen there. -/
def Refines (M : Machine σ α ε) (N : Machine τ β δ) (I : σ → Prop) (abs : σ → τ)
    (f : α → Option β) : Prop :=
  ∀ s a s₁ es, I s → M.step s a = some (s₁, es) → I s₁ ∧
    match f a with
    | none => abs s₁ = abs s
    | some b => ∃ ds, N.step (abs s) b = some (abs s₁, ds)

section Refines

variable {M : Machine σ α ε} {N : Machine τ β δ} {I : σ → Prop} {abs : σ → τ} {f : α → Option β}
  {as : List α} {s s₂ : σ} {tr : List ε}

theorem Refines.run (h : Refines M N I abs f) (h₀ : I s) (hr : M.run s as = some (s₂, tr)) :
    I s₂ ∧ ∃ ds, N.run (abs s) (as.filterMap f) = some (abs s₂, ds) := by
  induction as generalizing s tr with
  | nil =>
    obtain ⟨rfl, _⟩ := result_inj hr
    exact ⟨h₀, [], rfl⟩
  | cons a as ih =>
    obtain ⟨s₁, es, es₂, hs, hr₁, _⟩ := (run_cons_eq_some M s a as s₂ tr).mp hr
    obtain ⟨hi₁, hstep⟩ := h s a s₁ es h₀ hs
    obtain ⟨hi₂, ds, hds⟩ := ih hi₁ hr₁
    refine ⟨hi₂, ?_⟩
    cases hf : f a with
    | none =>
      simp only [hf] at hstep
      rw [List.filterMap_cons_none hf, ← hstep]
      exact ⟨ds, hds⟩
    | some b =>
      simp only [hf] at hstep
      obtain ⟨ds₁, hds₁⟩ := hstep
      rw [List.filterMap_cons_some hf]
      exact ⟨ds₁ ++ ds, (run_cons_eq_some N _ b _ _ _).mpr ⟨_, ds₁, ds, hds₁, hds, rfl⟩⟩

/-- A condition on the steps of `M` that says the same as one on the steps of `N` holds along a run
    of `M` if and only if the other one holds along the run of `N`. -/
theorem Refines.along_iff (h : Refines M N I abs f) {Q : τ → β → Prop}
    (hPQ : ∀ s a s₁ es, I s → M.step s a = some (s₁, es) →
      (P s a ↔ ∀ b, f a = some b → Q (abs s) b)) (h₀ : I s) (hr : M.run s as = some (s₂, tr)) :
    M.Along P s as ↔ N.Along Q (abs s) (as.filterMap f) := by
  induction as generalizing s tr with
  | nil => exact Iff.rfl
  | cons a as ih =>
    obtain ⟨s₁, es, es₂, hs, hr₁, _⟩ := (run_cons_eq_some M s a as s₂ tr).mp hr
    obtain ⟨hi₁, hstep⟩ := h s a s₁ es h₀ hs
    rw [along_cons_iff M hs, ih hi₁ hr₁, hPQ s a s₁ es h₀ hs]
    cases hf : f a with
    | none =>
      simp only [hf] at hstep
      rw [List.filterMap_cons_none hf, ← hstep]
      simp
    | some b =>
      simp only [hf] at hstep
      obtain ⟨ds₁, hds₁⟩ := hstep
      rw [List.filterMap_cons_some hf, along_cons_iff N hds₁]
      simp

end Refines

end Machine

end DemosOsLinux.Lib
