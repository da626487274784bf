/-
  Fork-join programs over shared memory.

  A `Cmd` reads and writes single cells; `par l r k` runs `l` and `r` at the same time and goes on
  with `k` when both are done. A step is one access or one join; the schedule names it by its path
  in the tree of parallel commands, so a run is a list of paths.

  `Runs R c m n m'` is the serial run: `c` takes `m` to `m'` in `n` steps, the left side of a
  `par` before the right one, and the command at path `p` accesses the cells `R p` only.
  * `Runs.frame`: a cell that no path accesses plays no part.
  * `runs_of_steps`: if concurrent paths have no cell in common, a step in any order leaves a
    command with the same result, one step nearer to it.
  * `runs_of_schedule`, `enabled_of_runs`: so every schedule comes to the serial result.
-/
import Mathlib.Logic.Function.Basic
import DemosOsLinux.Lib.Machine

namespace DemosOsLinux.Lib

open Function

inductive Cmd (A V : Type) where
  | done
  /-- No more fuel. -/
  | hang
  | read (a : A) (k : V → Cmd A V)
  | write (a : A) (v : V) (k : Cmd A V)
  | par (l r k : Cmd A V)

inductive Side where
  | left
  | right
  deriving DecidableEq

/-- The command at `path` accesses the cell `addr`. -/
structure Access (A : Type) where
  path : List Side
  addr : A

/-- What a step does to the memory. -/
inductive Op (A V : Type) where
  | read (a : A) (v : V)
  | write (a : A) (v : V)
  | join

namespace Op

variable {A V : Type} [DecidableEq A]

def addr? : Op A V → Option A
  | .read a _ => some a
  | .write a _ => some a
  | .join => none

/-- A read returns what is there. -/
def Fits (m : A → V) : Op A V → Prop
  | .read a v => m a = v
  | _ => True

def apply (m : A → V) : Op A V → (A → V)
  | .write a v => update m a v
  | _ => m

end Op

namespace Cmd

variable {A V : Type}

def isDone : Cmd A V → Bool
  | .done => true
  | _ => false

theorem isDone_iff {c : Cmd A V} : c.isDone = true ↔ c = .done := by
  cases c <;> simp [isDone]

/-- The step at a path of the tree. -/
def step : Cmd A V → (A → V) → List Side → Option (Op A V × Cmd A V)
  | .read a k, m, [] => some (.read a (m a), k (m a))
  | .write a v k, _, [] => some (.write a v, k)
  | .par .done .done k, _, [] => some (.join, k)
  | .par l r k, m, .left :: p => (step l m p).map fun u => (u.1, .par u.2 r k)
  | .par l r k, m, .right :: p => (step r m p).map fun u => (u.1, .par l u.2 k)
  | _, _, _ => none

/-- What one step can do. -/
inductive Steps : Cmd A V → List Side → Op A V → Cmd A V → Prop
  | read (a : A) (v : V) (k : V → Cmd A V) : Steps (.read a k) [] (.read a v) (k v)
  | write (a : A) (v : V) (k : Cmd A V) : Steps (.write a v k) [] (.write a v) k
  | join (k : Cmd A V) : Steps (.par .done .done k) [] .join k
  | left {l l' : Cmd A V} {p : List Side} {op : Op A V} (r k : Cmd A V) (h : Steps l p op l') :
      Steps (.par l r k) (.left :: p) op (.par l' r k)
  | right {r r' : Cmd A V} {p : List Side} {op : Op A V} (l k : Cmd A V) (h : Steps r p op r') :
      Steps (.par l r k) (.right :: p) op (.par l r' k)

theorem steps_of_step {c : Cmd A V} {m : A → V} {p : List Side} {u : Op A V × Cmd A V}
    (h : step c m p = some u) : Steps c p u.1 u.2 ∧ u.1.Fits m := by
  induction c, m, p using step.induct generalizing u with
  | case1 a k m =>
    cases h
    exact ⟨.read a (m a) k, rfl⟩
  | case2 a v k m =>
    cases h
    exact ⟨.write a v k, trivial⟩
  | case3 k m =>
    cases h
    exact ⟨.join k, trivial⟩
  | case4 l r k m p ih =>
    simp only [step] at h
    obtain ⟨u, hu, rfl⟩ := Option.map_eq_some_iff.mp h
    exact ⟨.left r k (ih hu).1, (ih hu).2⟩
  | case5 l r k m p ih =>
    simp only [step] at h
    obtain ⟨u, hu, rfl⟩ := Option.map_eq_some_iff.mp h
    exact ⟨.right l k (ih hu).1, (ih hu).2⟩
  | case6 c m p hread hwrite hjoin hleft hright =>
    rw [step.eq_6 c m p hread hwrite hjoin hleft hright] at h
    cases h

/-! ## Concurrent paths -/

/-- The commands at `p` and `q` can run at the same time: neither is inside the other. -/
def Concurrent (p q : List Side) : Prop := ¬p <+: q ∧ ¬q <+: p

/-- Concurrent paths have no cell in common. -/
def Apart (R : List Side → A → Prop) : Prop := ∀ p q a, Concurrent p q → R p a → ¬R q a

theorem concurrent_cons_iff {s : Side} {p q : List Side} :
    Concurrent (s :: p) (s :: q) ↔ Concurrent p q := by
  simp [Concurrent]

theorem concurrent_of_ne {s t : Side} (h : s ≠ t) (p q : List Side) :
    Concurrent (s :: p) (t :: q) := by
  simp [Concurrent, h, h.symm]

theorem Apart.side {R : List Side → A → Prop} (hR : Apart R) (s : Side) :
    Apart fun p => R (s :: p) := by
  intro p q a hpq
  exact hR (s :: p) (s :: q) a (concurrent_cons_iff.mpr hpq)

/-! ## Serial runs -/

variable [DecidableEq A]

inductive Runs : (List Side → A → Prop) → Cmd A V → (A → V) → Nat → (A → V) → Prop
  | done (R : List Side → A → Prop) (m : A → V) : Runs R .done m 0 m
  | read {R : List Side → A → Prop} {a : A} {k : V → Cmd A V} {m m' : A → V} {n : Nat}
      (ha : R [] a) (h : Runs R (k (m a)) m n m') : Runs R (.read a k) m (n + 1) m'
  | write {R : List Side → A → Prop} {a : A} {v : V} {k : Cmd A V} {m m' : A → V} {n : Nat}
      (ha : R [] a) (h : Runs R k (update m a v) n m') :
      Runs R (.write a v k) m (n + 1) m'
  | par {R : List Side → A → Prop} {l r k : Cmd A V} {m m₁ m₂ m' : A → V} {n₁ n₂ n₃ : Nat}
      (hl : Runs (fun p => R (.left :: p)) l m n₁ m₁)
      (hr : Runs (fun p => R (.right :: p)) r m₁ n₂ m₂) (hk : Runs R k m₂ n₃ m') :
      Runs R (.par l r k) m (n₁ + n₂ + n₃ + 1) m'

section Runs

variable {R : List Side → A → Prop} {c c' : Cmd A V} {m m' : A → V} {n : Nat} {op : Op A V}
  {p : List Side} {a : A}

theorem Runs.unchanged (h : Runs R c m n m') (ha : ∀ p, ¬R p a) : m' a = m a := by
  induction h with
  | done R m => rfl
  | read hb h ih => exact ih ha
  | @write R b v k m m' n hb h ih =>
    rw [ih ha, update_of_ne]
    rintro rfl
    exact ha [] hb
  | par hl hr hk ihl ihr ihk =>
    rw [ihk ha, ihr fun p => ha (.right :: p), ihl fun p => ha (.left :: p)]

/-- A cell that no path accesses may hold anything. -/
theorem Runs.frame (h : Runs R c m n m') (ha : ∀ p, ¬R p a) (v : V) :
    Runs R c (update m a v) n (update m' a v) := by
  induction h with
  | done R m => exact .done R _
  | @read R b k m m' n hb h ih =>
    refine .read hb ?_
    have hne : b ≠ a := by
      rintro rfl
      exact ha [] hb
    rw [update_of_ne hne]
    exact ih ha
  | @write R b w k m m' n hb h ih =>
    refine .write hb ?_
    have hne : b ≠ a := by
      rintro rfl
      exact ha [] hb
    rw [update_comm hne.symm]
    exact ih ha
  | par hl hr hk ihl ihr ihk =>
    exact .par (ihl fun p => ha (.left :: p)) (ihr fun p => ha (.right :: p)) (ihk ha)

theorem Runs.apply (h : Runs R c m n m') (ha : ∀ a, op.addr? = some a → ∀ p, ¬R p a) :
    Runs R c (op.apply m) n (op.apply m') := by
  cases op with
  | read a v => exact h
  | write a v => exact h.frame (ha a rfl) v
  | join => exact h

theorem Runs.fits (h : Runs R c m n m') (ha : ∀ a, op.addr? = some a → ∀ p, ¬R p a)
    (hf : op.Fits m) : op.Fits m' := by
  cases op with
  | read a v => exact (h.unchanged (ha a rfl)).trans hf
  | write a v => trivial
  | join => trivial

/-- A step accesses a cell of its path. -/
theorem Steps.addr_of_runs (hs : Steps c p op c') (h : Runs R c m n m')
    (ha : op.addr? = some a) : R p a := by
  induction hs generalizing R m n m' with
  | read b v k =>
    cases ha
    cases h with
    | read hb h => exact hb
  | write b v k =>
    cases ha
    cases h with
    | write hb h => exact hb
  | join k => cases ha
  | left r k hs ih =>
    cases h with
    | par hl hr hk => exact ih hl ha
  | right l k hs ih =>
    cases h with
    | par hl hr hk => exact ih hr ha

/-! ## Every schedule -/

/-- All interleavings: the schedule picks the paths. -/
def machine (A V : Type) [DecidableEq A] : Machine (Cmd A V × (A → V)) (List Side) (Access A) where
  step s p :=
    (step s.1 s.2 p).map fun u =>
      ((u.2, u.1.apply s.2), u.1.addr?.toList.map fun a => ⟨p, a⟩)

theorem runs_of_steps (hR : Apart R) (hs : Steps c p op c') (h : Runs R c m n m')
    (hf : op.Fits m) : ∃ n', n = n' + 1 ∧ Runs R c' (op.apply m) n' m' := by
  induction hs generalizing R m n m' with
  | read a v k =>
    cases h with
    | read ha h =>
      obtain rfl : m a = v := hf
      exact ⟨_, rfl, h⟩
  | write a v k =>
    cases h with
    | write ha h => exact ⟨_, rfl, h⟩
  | join k =>
    cases h with
    | par hl hr hk =>
      cases hl
      cases hr
      exact ⟨_, by omega, hk⟩
  | left r k hs ih =>
    cases h with
    | par hl hr hk =>
      obtain ⟨n', rfl, hl'⟩ := ih (hR.side .left) hl hf
      exact ⟨_, by omega, .par hl' hr hk⟩
  | right l k hs ih =>
    cases h with
    | par hl hr hk =>
      -- the left side does not see the step, and the step does not see the left side
      have hother : ∀ a, _ → ∀ q, ¬R (.left :: q) a := fun a ha q hq =>
        hR (.left :: q) _ a (concurrent_of_ne (by decide) q _) hq (hs.addr_of_runs hr ha)
      obtain ⟨n', rfl, hr'⟩ := ih (hR.side .right) hr (hl.fits hother hf)
      exact ⟨_, by omega, .par (hl.apply hother) hr' hk⟩

/-- A command with a serial run never waits for ever. -/
theorem enabled_of_runs (h : Runs R c m n m') : c = .done ∨ ∃ p, (step c m p).isSome = true := by
  induction h with
  | done R m => exact Or.inl rfl
  | read ha h ih => exact Or.inr ⟨[], rfl⟩
  | write ha h ih => exact Or.inr ⟨[], rfl⟩
  | @par R l r k m m₁ m₂ m' n₁ n₂ n₃ hl hr hk ihl ihr ihk =>
    right
    rcases ihl with rfl | ⟨p, hp⟩
    · cases hl
      rcases ihr with rfl | ⟨p, hp⟩
      · exact ⟨[], rfl⟩
      · exact ⟨.right :: p, by simpa [step] using hp⟩
    · exact ⟨.left :: p, by simpa [step] using hp⟩

/-- After any schedule the same result is ahead, and each path has kept to its cells. -/
theorem runs_of_schedule (hR : Apart R) {ps : List (List Side)} {tr : List (Access A)} {mf : A → V}
    (h : Runs R c m n mf) (hr : (machine A V).run (c, m) ps = some ((c', m'), tr)) :
    (∃ n', n = n' + ps.length ∧ Runs R c' m' n' mf) ∧ ∀ e ∈ tr, R e.path e.addr := by
  induction ps generalizing c m n tr with
  | nil =>
    obtain ⟨⟨⟩, rfl⟩ := result_inj hr
    exact ⟨⟨n, rfl, h⟩, fun e he => (by cases he)⟩
  | cons p ps ih =>
    obtain ⟨⟨c₁, m₁⟩, es, es₂, hs, hr₁, rfl⟩ := ((machine A V).run_cons_eq_some _ _ _ _ _).mp hr
    obtain ⟨u, hu, he⟩ := Option.map_eq_some_iff.mp hs
    obtain ⟨⟨⟩, rfl⟩ := Prod.mk.inj he
    obtain ⟨hsteps, hf⟩ := steps_of_step hu
    obtain ⟨n₁, rfl, h₁⟩ := runs_of_steps hR hsteps h hf
    obtain ⟨⟨n', rfl, h'⟩, htr⟩ := ih h₁ hr₁
    refine ⟨⟨n', ?_, h'⟩, fun e he => ?_⟩
    · rw [List.length_cons]
      omega
    · rcases List.mem_append.mp he with he | he
      · obtain ⟨a, ha, rfl⟩ := List.mem_map.mp he
        exact hsteps.addr_of_runs h (Option.mem_toList.mp ha)
      · exact htr e he

end Runs

end Cmd

end DemosOsLinux.Lib
