/-
  A child that adds to an event fd and a parent that reads it (examples/eventfd/simple.cc).

  The child writes `loop_count` random numbers and exits. The parent polls: it asks whether the child is
  dead, then reads, and once the child is dead it reads once more. A read takes all that has been written
  since the last one, or fails with `EAGAIN`. The two processes are interleaved in any way; the event of
  a write is its value. The sums are of 64 bits and wrap, and a write that would bring the event fd to
  its maximum fails.
  * `Inv`: what the parent has summed up and what it has not read yet is what the child has written.
  * `run_polled`: the parent may read after each of the first writes.
  * `outcome_iff`: the parent always ends with the child's sum; the number of its reads is any number up
    to the number of writes that were not 0.
-/
import Mathlib.Algebra.Order.BigOperators.Group.List
import Mathlib.Algebra.Order.Ring.Nat
import DemosOsLinux.Lib.Machine

namespace DemosOsLinux.EventFd

open Lib Lib.Machine

/-- The two arguments of the program. -/
structure Config where
  loopCount : Nat
  maxRand : Nat
  loop_lt : loopCount < 2 ^ 32
  max_lt : maxRand < 2 ^ 32

inductive ParentPc where
  /-- At `waitpid`, in the loop. -/
  | wait
  /-- At `read`, in the loop. -/
  | read
  /-- At the `read` after the loop. -/
  | pump
  | ended

structure State where
  /-- The counter of the event fd. -/
  efd : Nat
  /-- The child's loop counter and sum. -/
  i : Nat
  childSum : Nat
  exited : Bool
  /-- The child's `CHECK_INT` has failed. -/
  failed : Bool
  pc : ParentPc
  childDead : Bool
  sum : Nat
  counter : Nat

inductive Act where
  /-- The child writes `u`. -/
  | write (u : Nat)
  | exit
  | parent

/-- The largest value that an event fd can have. -/
def efdMax : Nat := 2 ^ 64 - 2

/-- The child's `write`. -/
def childWrite (s : State) (u : Nat) : State × List Nat :=
  if s.efd + u ≤ efdMax then
    ({ s with efd := s.efd + u, i := s.i + 1, childSum := (s.childSum + u) % 2 ^ 64 }, [u])
  else ({ s with failed := true, exited := true }, [])

/-- The parent's `read`. -/
def parentRead (s : State) : State :=
  if s.efd = 0 then s
  else { s with efd := 0, counter := (s.counter + 1) % 2 ^ 32, sum := (s.sum + s.efd) % 2 ^ 64 }

def parentStep (s : State) : Option State :=
  match s.pc with
  | .wait => some { s with childDead := s.exited, pc := .read }
  | .read => some { parentRead s with pc := if s.childDead then .pump else .wait }
  | .pump => some { parentRead s with pc := .ended }
  | .ended => none

/-- `main` after the fork; `rand()%max_rand` is any number below `max_rand`. -/
def machine (C : Config) : Machine State Act Nat where
  step s
    | .write u =>
      if s.exited = false ∧ s.i < C.loopCount ∧ u < C.maxRand then some (childWrite s u) else none
    | .exit =>
      if s.exited = false ∧ ¬s.i < C.loopCount then some ({ s with exited := true }, []) else none
    | .parent => (parentStep s).map fun s' => (s', [])

def initState : State := ⟨0, 0, 0, false, false, .wait, false, 0, 0⟩

/-- How many of the values are not 0. -/
def nonzero (values : List Nat) : Nat := values.countP (0 < ·)

/-! ## The invariant -/

/-- What holds after the writes `tr`. -/
structure Inv (C : Config) (s : State) (tr : List Nat) : Prop where
  length : tr.length = s.i
  le : s.i ≤ C.loopCount
  values : ∀ u ∈ tr, u < C.maxRand
  childSum : s.childSum = tr.sum
  /-- Nothing is lost and nothing is counted twice. -/
  sum : s.sum + s.efd = tr.sum
  counter : s.counter + (if s.efd = 0 then 0 else 1) ≤ nonzero tr
  counter_zero : s.counter = 0 → s.sum = 0
  exited : s.exited = true → s.i = C.loopCount
  dead : s.childDead = true → s.exited = true
  /-- After the loop there is nothing left to read. -/
  after : s.pc = .pump ∨ s.pc = .ended → s.childDead = true ∧ s.efd = 0
  failed : s.failed = false

section Inv

variable {C : Config} {s s' : State} {tr es : List Nat} {u : Nat}

/-- No sum of values is too large for the event fd. -/
theorem sum_le_efdMax {values : List Nat} (hvalues : ∀ u ∈ values, u < C.maxRand)
    (hlength : values.length ≤ C.loopCount) : values.sum ≤ efdMax := by
  have hloop := C.loop_lt
  have hmax := C.max_lt
  calc values.sum ≤ values.length * (C.maxRand - 1) :=
        List.sum_le_card_nsmul values _ fun u hu => Nat.le_sub_one_of_lt (hvalues u hu)
    _ ≤ (2 ^ 32 - 1) * (2 ^ 32 - 2) := Nat.mul_le_mul (by omega) (by omega)
    _ ≤ efdMax := by decide

theorem nonzero_concat (values : List Nat) (u : Nat) :
    nonzero (values ++ [u]) = nonzero values + (if u = 0 then 0 else 1) := by
  rw [nonzero, nonzero, List.countP_append, List.countP_singleton]
  cases u <;> rfl

section Steps

variable (inv : Inv C s tr)
include inv

theorem Inv.values_concat (hu : u < C.maxRand) : ∀ x ∈ tr ++ [u], x < C.maxRand := by
  simpa [or_imp, forall_and, hu] using inv.values

/-- A write does not fail, and the sum does not wrap. -/
theorem Inv.childWrite (hi : s.i < C.loopCount) (hu : u < C.maxRand) :
    childWrite s u =
      ({ s with efd := s.efd + u, i := s.i + 1, childSum := s.childSum + u }, [u]) := by
  have hle := sum_le_efdMax (inv.values_concat hu)
    (by rw [List.length_append, inv.length, List.length_singleton]; exact hi)
  rw [List.sum_append, List.sum_singleton] at hle
  have hefd := inv.sum
  have hchild := inv.childSum
  have hefdMax : efdMax = 2 ^ 64 - 2 := rfl
  rw [EventFd.childWrite, if_pos (by omega), Nat.mod_eq_of_lt (by omega)]

/-- A read takes all; nothing wraps. -/
theorem Inv.parentRead : parentRead s = { s with
    efd := 0, counter := s.counter + (if s.efd = 0 then 0 else 1), sum := s.sum + s.efd } := by
  have hle := inv.length.trans_le inv.le
  have hsum := sum_le_efdMax inv.values hle
  have hnonzero : nonzero tr ≤ tr.length := List.countP_le_length
  have hefd := inv.sum
  have hcounter := inv.counter
  have hloop := C.loop_lt
  have hefdMax : efdMax = 2 ^ 64 - 2 := rfl
  rw [EventFd.parentRead]
  split
  · rename_i h0
    obtain ⟨_, _, _, _, _, _, _, _, _⟩ := s
    obtain rfl : _ = 0 := h0
    rfl
  · rename_i hne
    rw [if_neg hne] at hcounter
    rw [Nat.mod_eq_of_lt (by omega), Nat.mod_eq_of_lt (by omega)]

theorem Inv.write (hexited : s.exited = false) (hi : s.i < C.loopCount)
    (hu : u < C.maxRand) : Inv C (EventFd.childWrite s u).1 (tr ++ (EventFd.childWrite s u).2) := by
  have hsum : (tr ++ [u]).sum = tr.sum + u := by
    rw [List.sum_append, List.sum_singleton]
  have hefd := inv.sum
  have hcounter := inv.counter
  rw [inv.childWrite hi hu]
  refine ⟨?_, hi, inv.values_concat hu, ?_, ?_, ?_, inv.counter_zero, fun h => ?_, inv.dead, fun h => ?_,
    inv.failed⟩
  · rw [List.length_append, inv.length, List.length_singleton]
  · rw [hsum, inv.childSum]
  · show s.sum + (s.efd + u) = (tr ++ [u]).sum
    omega
  · rw [nonzero_concat]
    simp only
    split at hcounter <;> split <;> split <;> omega
  · rw [hexited] at h
    cases h
  · have hdead := inv.dead (inv.after h).1
    rw [hexited] at hdead
    cases hdead

theorem Inv.read {pc : ParentPc} (hpc : pc = .pump ∨ pc = .ended → s.childDead = true) :
    Inv C { EventFd.parentRead s with pc := pc } tr := by
  have hefd := inv.sum
  have hzero := inv.counter_zero
  rw [inv.parentRead]
  refine ⟨inv.length, inv.le, inv.values, inv.childSum, hefd, inv.counter, fun h0 => ?_, inv.exited,
    inv.dead, fun h => ⟨hpc h, rfl⟩, inv.failed⟩
  simp only at h0 ⊢
  split at h0 <;> omega

theorem Inv.step {a : Act} (h : (machine C).step s a = some (s', es)) : Inv C s' (tr ++ es) := by
  cases a with
  | write u =>
    obtain ⟨⟨hexited, hi, hu⟩, h⟩ := Option.ite_none_right_eq_some.mp h
    have hwrite := inv.write hexited hi hu
    rw [Option.some.inj h] at hwrite
    exact hwrite
  | exit =>
    obtain ⟨⟨_, hi⟩, h⟩ := Option.ite_none_right_eq_some.mp h
    obtain ⟨rfl, rfl⟩ := result_inj h
    rw [List.append_nil]
    exact ⟨inv.length, inv.le, inv.values, inv.childSum, inv.sum, inv.counter, inv.counter_zero,
      fun _ => Nat.le_antisymm inv.le (Nat.le_of_not_lt hi), fun _ => rfl, inv.after, inv.failed⟩
  | parent =>
    obtain ⟨hstep, rfl⟩ := quiet_step (o := parentStep s) h
    rw [List.append_nil]
    unfold parentStep at hstep
    split at hstep
    · obtain rfl := Option.some.inj hstep
      exact ⟨inv.length, inv.le, inv.values, inv.childSum, inv.sum, inv.counter, inv.counter_zero,
        inv.exited, id, nofun, inv.failed⟩
    · obtain rfl := Option.some.inj hstep
      refine inv.read fun h => ?_
      split at h
      · assumption
      · rcases h with h | h <;> cases h
    · rename_i hpc
      obtain rfl := Option.some.inj hstep
      exact inv.read fun _ => (inv.after (Or.inl hpc)).1
    · cases hstep

end Steps

theorem inv_initState (C : Config) : Inv C initState [] :=
  ⟨rfl, Nat.zero_le _, nofun, rfl, rfl, Nat.le_refl 0, fun _ => rfl, nofun, nofun, by simp [initState],
    rfl⟩

theorem run_inv {as : List Act} {tr₀ : List Nat} (inv : Inv C s tr₀)
    (hr : (machine C).run s as = some (s', tr)) : Inv C s' (tr₀ ++ tr) :=
  run_induct_along (machine C) (fun _ _ => True) (Inv C)
    (fun _ _ _ _ _ _ inv hs => inv.step hs) as s tr₀ s' tr
    (along_of_forall _ (fun _ => True) as (fun _ _ => trivial) s) inv hr

end Inv

/-! ## Runs -/

section Runs

variable {C : Config} {s : State} {tr values : List Nat} {u : Nat}

/-- The child writes `u`. -/
theorem Inv.can_write (inv : Inv C s tr) (hexited : s.exited = false) (hi : s.i < C.loopCount)
    (hu : u < C.maxRand) : (machine C).step s (.write u) = some
      ({ s with efd := s.efd + u, i := s.i + 1, childSum := s.childSum + u }, [u]) := by
  show (if _ then _ else _) = _
  rw [if_pos ⟨hexited, hi, hu⟩, inv.childWrite hi hu]

/-- Writes with no read in between. -/
theorem run_writes (inv : Inv C s tr) (hexited : s.exited = false)
    (hlength : s.i + values.length ≤ C.loopCount) (hvalues : ∀ u ∈ values, u < C.maxRand) :
    ∃ s', (machine C).run s (values.map .write) = some (s', values) ∧
      s'.exited = false ∧ s'.pc = s.pc ∧ s'.counter = s.counter ∧ s'.efd = s.efd + values.sum := by
  induction values generalizing s tr with
  | nil => exact ⟨s, rfl, hexited, rfl, rfl, rfl⟩
  | cons u values ih =>
    rw [List.length_cons] at hlength
    have hstep := inv.can_write hexited (by omega) (hvalues u List.mem_cons_self)
    obtain ⟨s', hr, hrest⟩ := ih (inv.step hstep) hexited
      (show s.i + 1 + values.length ≤ C.loopCount by omega)
      fun x hx => hvalues x (List.mem_cons_of_mem u hx)
    refine ⟨s', (run_cons_eq_some _ _ _ _ _ _).mpr ⟨_, _, _, hstep, hr, rfl⟩, hrest.1, hrest.2.1,
      hrest.2.2.1, ?_⟩
    rw [hrest.2.2.2, List.sum_cons, ← Nat.add_assoc]

/-- A round of the parent's loop while the child lives. -/
theorem run_poll (inv : Inv C s tr) (hexited : s.exited = false) (hpc : s.pc = .wait) :
    ∃ s', (machine C).run s [.parent, .parent] = some (s', []) ∧
      s'.exited = false ∧ s'.pc = .wait ∧ s'.efd = 0 ∧ s'.i = s.i ∧
      s'.counter = s.counter + (if s.efd = 0 then 0 else 1) := by
  let s₁ : State := { s with childDead := s.exited, pc := .read }
  have hwait : (machine C).step s .parent = some (s₁, []) := by
    simp [machine, parentStep, hpc, s₁]
  have hread : (machine C).step s₁ .parent = some ({ EventFd.parentRead s₁ with pc := .wait }, []) := by
    simp [machine, parentStep, s₁, hexited]
  rw [(inv.step hwait).parentRead] at hread
  refine ⟨{ s₁ with
      efd := 0, counter := s.counter + (if s.efd = 0 then 0 else 1), sum := s.sum + s.efd, pc := .wait },
    (run_cons_eq_some _ _ _ _ _ _).mpr ⟨s₁, [], [], hwait, ?_, rfl⟩, hexited, rfl, rfl, rfl, rfl⟩
  exact (run_cons_eq_some _ _ _ _ _ _).mpr ⟨_, [], [], hread, rfl, rfl⟩

/-- Writes with a round of the parent's loop after each. -/
theorem run_polled (inv : Inv C s tr) (hexited : s.exited = false) (hpc : s.pc = .wait)
    (hefd : s.efd = 0) (hlength : s.i + values.length ≤ C.loopCount)
    (hvalues : ∀ u ∈ values, u < C.maxRand) :
    ∃ as s', (machine C).run s as = some (s', values) ∧ s'.exited = false ∧
      s'.pc = .wait ∧ s'.efd = 0 ∧ s'.counter = s.counter + nonzero values := by
  induction values generalizing s tr with
  | nil => exact ⟨[], s, rfl, hexited, hpc, hefd, rfl⟩
  | cons u values ih =>
    rw [List.length_cons] at hlength
    have hwrite := inv.can_write hexited (by omega) (hvalues u List.mem_cons_self)
    have inv₁ := inv.step hwrite
    obtain ⟨s₂, hpoll, hexited₂, hpc₂, hefd₂, hi₂, hcounter₂⟩ := run_poll inv₁ hexited hpc
    obtain ⟨as, s', hr, hexited', hpc', hefd', hcounter'⟩ := ih (run_inv inv₁ hpoll) hexited₂ hpc₂ hefd₂
      (show s₂.i + values.length ≤ C.loopCount by rw [hi₂]; show s.i + 1 + _ ≤ _; omega)
      fun x hx => hvalues x (List.mem_cons_of_mem u hx)
    refine ⟨.write u :: ([.parent, .parent] ++ as), s', ?_, hexited', hpc', hefd', ?_⟩
    · refine (run_cons_eq_some _ _ _ _ _ _).mpr ⟨_, _, values, hwrite, ?_, rfl⟩
      exact (run_append_eq_some _ _ _ _ _ _).mpr ⟨s₂, [], values, hpoll, hr, rfl⟩
    · rw [hcounter', hcounter₂, hefd, nonzero, nonzero, List.countP_cons]
      simp only [Nat.zero_add, decide_eq_true_eq]
      split <;> split <;> omega

/-- The end: the child exits, the parent notices, reads what is left, and finds nothing more. -/
theorem run_end (inv : Inv C s tr) (hexited : s.exited = false) (hpc : s.pc = .wait)
    (hi : s.i = C.loopCount) :
    ∃ s', (machine C).run s [.exit, .parent, .parent, .parent] = some (s', []) ∧
      s'.pc = .ended ∧ s'.counter = s.counter + (if s.efd = 0 then 0 else 1) := by
  let s₁ : State := { s with exited := true }
  let s₂ : State := { s₁ with childDead := true, pc := .read }
  let s₃ : State := { s₂ with
    efd := 0, counter := s.counter + (if s.efd = 0 then 0 else 1), sum := s.sum + s.efd, pc := .pump }
  have h₁ : (machine C).step s .exit = some (s₁, []) := by
    simp [machine, hexited, hi, s₁]
  have h₂ : (machine C).step s₁ .parent = some (s₂, []) := by
    simp [machine, parentStep, hpc, s₁, s₂]
  have h₃ : (machine C).step s₂ .parent = some ({ EventFd.parentRead s₂ with pc := .pump }, []) := by
    simp [machine, parentStep, s₂]
  rw [((inv.step h₁).step h₂).parentRead] at h₃
  have h₄ : (machine C).step s₃ .parent = some ({ s₃ with pc := .ended }, []) := rfl
  refine ⟨{ s₃ with pc := .ended }, ?_, rfl, rfl⟩
  refine (run_cons_eq_some _ _ _ _ _ _).mpr ⟨s₁, [], [], h₁, ?_, rfl⟩
  refine (run_cons_eq_some _ _ _ _ _ _).mpr ⟨s₂, [], [], h₂, ?_, rfl⟩
  refine (run_cons_eq_some _ _ _ _ _ _).mpr ⟨s₃, [], [], h₃, ?_, rfl⟩
  exact (run_cons_eq_some _ _ _ _ _ _).mpr ⟨_, [], [], h₄, rfl, rfl⟩

/-- Where the values are cut so that `j` of those before are not 0. -/
theorem exists_cut (values : List Nat) (j : Nat) (hj : j ≤ nonzero values) :
    ∃ before after, values = before ++ after ∧ nonzero before = j := by
  induction values generalizing j with
  | nil =>
    obtain rfl := Nat.le_zero.mp hj
    exact ⟨[], [], rfl, rfl⟩
  | cons u values ih =>
    rcases Nat.eq_zero_or_pos j with rfl | hpos
    · exact ⟨[], u :: values, rfl, rfl⟩
    · rw [nonzero, List.countP_cons] at hj
      by_cases hu : 0 < u
      · rw [if_pos (decide_eq_true hu)] at hj
        obtain ⟨before, after, rfl, hbefore⟩ := ih (j - 1) (by rw [nonzero]; omega)
        refine ⟨u :: before, after, rfl, ?_⟩
        rw [nonzero] at hbefore
        rw [nonzero, List.countP_cons, if_pos (decide_eq_true hu), hbefore]
        omega
      · rw [if_neg (by simpa using hu)] at hj
        obtain ⟨before, after, rfl, hbefore⟩ := ih j hj
        refine ⟨u :: before, after, rfl, ?_⟩
        rw [nonzero] at hbefore
        rw [nonzero, List.countP_cons, if_neg (by simpa using hu), hbefore]
        omega

theorem sum_eq_zero_iff (values : List Nat) : values.sum = 0 ↔ nonzero values = 0 := by
  simp [nonzero, List.countP_eq_zero, List.sum_eq_zero_iff]

end Runs

/-- **The sums agree.** For any numbers that the child writes and any interleaving, no `write` of the
    child fails, and the parent, when it ends, has their sum. It ends with `c` reads, in some interleaving, if
    and only if `c` is at most the number of writes that were not 0, and 0 only if there was none: the
    others have been read together with one of these. -/
theorem outcome_iff (C : Config) (values : List Nat) (hlength : values.length = C.loopCount)
    (hvalues : ∀ u ∈ values, u < C.maxRand) (sum c : Nat) :
    (∀ as s tr, (machine C).run initState as = some (s, tr) → s.failed = false) ∧
    ((∃ as s, (machine C).run initState as = some (s, values) ∧ s.pc = .ended ∧
      s.sum = sum ∧ s.counter = c) ↔
    sum = values.sum ∧ c ≤ nonzero values ∧ (c = 0 → nonzero values = 0)) := by
  refine ⟨fun as s tr hr => (run_inv (inv_initState C) hr).failed, ?_⟩
  constructor
  · rintro ⟨as, s, hr, hpc, rfl, rfl⟩
    have inv := run_inv (inv_initState C) hr
    rw [List.nil_append] at inv
    have hefd := (inv.after (Or.inr hpc)).2
    have hsum := inv.sum
    have hcounter := inv.counter
    rw [hefd] at hsum hcounter
    refine ⟨hsum, hcounter, fun h0 => ?_⟩
    rw [← sum_eq_zero_iff, ← hsum]
    exact inv.counter_zero h0
  · rintro ⟨rfl, hc, hzero⟩
    obtain ⟨before, after, rfl, hbefore⟩ := exists_cut values (c - 1) (by omega)
    rw [List.length_append] at hlength
    have hinit := inv_initState C
    obtain ⟨as₁, s₁, hr₁, hexited₁, hpc₁, hefd₁, hcounter₁⟩ := run_polled hinit rfl rfl rfl
      (show 0 + before.length ≤ _ by omega) fun u hu => hvalues u (List.mem_append_left _ hu)
    have inv₁ := run_inv hinit hr₁
    have hi₁ := inv₁.length
    rw [List.nil_append] at hi₁
    obtain ⟨s₂, hr₂, hexited₂, hpc₂, hcounter₂, hefd₂⟩ := run_writes inv₁ hexited₁
      (show s₁.i + after.length ≤ _ by omega) fun u hu => hvalues u (List.mem_append_right _ hu)
    have inv₂ := run_inv inv₁ hr₂
    have hi₂ := inv₂.length
    rw [List.nil_append, List.length_append] at hi₂
    obtain ⟨s₃, hr₃, hpc₃, hcounter₃⟩ := run_end inv₂ hexited₂ (hpc₂.trans hpc₁) (by omega)
    have inv₃ := run_inv inv₂ hr₃
    have hrun := (run_append_eq_some _ _ _ _ _ _).mpr ⟨s₁, _, _, hr₁,
      (run_append_eq_some _ _ _ _ _ _).mpr ⟨s₂, _, _, hr₂, hr₃, rfl⟩, rfl⟩
    rw [List.append_nil] at hrun
    refine ⟨_, s₃, hrun, hpc₃, ?_, ?_⟩
    · have hsum := inv₃.sum
      rw [(inv₃.after (Or.inr hpc₃)).2, List.append_nil, List.nil_append] at hsum
      exact hsum
    · -- the last read counts if one of the remaining values is not 0
      have hafter := sum_eq_zero_iff after
      have hall : nonzero (before ++ after) = nonzero before + nonzero after := List.countP_append
      rw [hcounter₃, hcounter₂, hefd₂, hefd₁, hcounter₁]
      show 0 + _ + _ = c
      split <;> omega

/-- Three writes that are read together. -/
theorem outcome_iff_three :
    ∃ as s, (machine ⟨3, 10, by decide, by decide⟩).run initState as = some (s, [4, 0, 5]) ∧
      s.pc = .ended ∧ s.sum = 9 ∧ s.counter = 1 :=
  (outcome_iff ⟨3, 10, by decide, by decide⟩ [4, 0, 5] rfl (by decide) 9 1).2.mpr (by decide)

end DemosOsLinux.EventFd
