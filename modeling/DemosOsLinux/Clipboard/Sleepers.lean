/-
  The clipboard driver that sleeps (kernel_standalone/clipboard/main.c).

  A reader clears the flag and waits for the mouse interrupt, which sets it and wakes the readers.
  A writer with nothing to write waits in a loop and computes the number of bytes again after each
  wait. That number depends on the position and the count of its own call alone.

  Every statement that touches shared data is a step; the two statements of the interrupt handler
  are two steps. A signal ends a wait, and the driver does not look at the result of the wait.
  `remaining` is the local variable of a call; `PcOk` is what is known of it at each place.
  * `Advances`: what a step of a task does to its place and what it returns; `taskStep_advances`.
  * `clipboard_contract_iff`: the contract of the transfers, for both drivers.
  * `full_writer_never_released`: nothing releases a writer from the loop.
-/
import DemosOsLinux.Clipboard.Transfer
import DemosOsLinux.Lib.Machine
import DemosOsLinux.Lib.WaitQueue

namespace DemosOsLinux.Clipboard

open Lib Function

variable {ι : Type} [DecidableEq ι] {a : Args} {user : Nat → UInt8}

inductive Call where
  | read (a : Args)
  | write (a : Args) (user : Nat → UInt8)

/-- A call that ends: the residue and the memory of its copy, and its result. -/
structure Return where
  call : Call
  res : Nat
  mem : Mem
  result : Result

def Return.Contract (r : Return) : Prop :=
  match r.call with
  | .read a => ReadContract r.mem a r.result
  | .write a user => WriteContract r.mem a user r.result

def Call.args : Call → Args
  | .read a => a
  | .write a _ => a

/-- Where a task is; `readWake` is before `wake_up_interruptible(&clipboard_write_wq)`. -/
inductive Pc where
  | user
  | readStart (a : Args)
  | readClear (a : Args) (remaining : Int)
  | readWait (a : Args) (remaining : Int) (w : WaitPc)
  | readCopy (a : Args) (remaining : Int)
  | readWake (r : Return)
  | writeLoop (a : Args) (user : Nat → UInt8) (remaining : Int)
  | writeWait (a : Args) (user : Nat → UInt8) (w : WaitPc)
  | writeCopy (a : Args) (user : Nat → UInt8) (remaining : Int)

/-- `handler`: the interrupt handler is between `flag = 1` and its `wake_up_interruptible`. -/
structure State (ι : Type) where
  flag : Nat
  mem : Mem
  readWq : WaitQueue ι
  writeWq : WaitQueue ι
  handler : Bool
  pc : ι → Pc

/-- `res` is the residue of the copy, at the steps that copy. -/
inductive Act (ι : Type) where
  | call (t : ι) (c : Call)
  | step (t : ι) (res : Nat)
  | signal (t : ι)
  | interrupt
  | handlerWake

def State.goto (s : State ι) (t : ι) (l : Pc) : State ι := { s with pc := update s.pc t l }

/-- A step of task `t` in `clipboard_read` or `clipboard_write`. -/
def taskStep (s : State ι) (t : ι) (res : Nat) : Option (State ι × List (ι × Return)) :=
  match s.pc t with
  | .user => none
  | .readStart a =>
      let remaining := remainingBytes a
      if remaining = 0 then
        some (s.goto t .user, [(t, ⟨.read a, res, s.mem, ⟨0, a.offset, [], s.mem⟩⟩)])
      else some (s.goto t (.readClear a remaining), [])
  | .readClear a remaining => some ({ s.goto t (.readWait a remaining .prepare) with flag := 0 }, [])
  | .readWait a remaining w =>
      match s.readWq.waitStep t (decide (s.flag ≠ 0)) w with
      | none => none
      | some (q, some w') => some ({ s.goto t (.readWait a remaining w') with readWq := q }, [])
      | some (q, none) => some ({ s.goto t (.readCopy a remaining) with readWq := q }, [])
  | .readCopy a remaining =>
      let r : Return := ⟨.read a, res, s.mem, copyOut s.mem a remaining res⟩
      if intOfU64 (copyToUser s.mem a.offset (u64OfInt remaining) res).2 ≠ 0 then
        some (s.goto t .user, [(t, r)])
      else some (s.goto t (.readWake r), [])
  | .readWake r => some ({ s.goto t .user with writeWq := s.writeWq.wakeUp }, [(t, r)])
  | .writeLoop a user remaining =>
      if remaining = 0 then some (s.goto t (.writeWait a user .prepare), [])
      else some (s.goto t (.writeCopy a user remaining), [])
  | .writeWait a user w =>
      match s.writeWq.waitStep t (decide (s.flag ≠ 0)) w with
      | none => none
      | some (q, some w') => some ({ s.goto t (.writeWait a user w') with writeWq := q }, [])
      | some (q, none) =>
          some ({ s.goto t (.writeLoop a user (remainingBytes a)) with writeWq := q }, [])
  | .writeCopy a user remaining =>
      let r := copyIn s.mem a user remaining res
      some ({ s.goto t .user with mem := r.mem }, [(t, ⟨.write a user, res, s.mem, r⟩)])

/-- A signal arrives while task `t` waits. -/
def signalStep (s : State ι) (t : ι) : Option (State ι) :=
  match s.pc t with
  | .readWait a remaining _ =>
      some { s.goto t (.readCopy a remaining) with readWq := s.readWq.finish t }
  | .writeWait a user _ =>
      some { s.goto t (.writeLoop a user (remainingBytes a)) with writeWq := s.writeWq.finish t }
  | _ => none

/-- The place of a call behind the assignment to `remaining_bytes` in its declarations. -/
def Call.start : Call → Pc
  | .read a => .readStart a
  | .write a user => .writeLoop a user (remainingBytes a)

def step (s : State ι) : Act ι → Option (State ι × List (ι × Return))
  | .call t c =>
      match s.pc t with
      | .user => some (s.goto t c.start, [])
      | _ => none
  | .step t res => taskStep s t res
  | .signal t => (signalStep s t).map fun s' => (s', [])
  | .interrupt => if s.handler then none else some ({ s with flag := 1, handler := true }, [])
  | .handlerWake =>
      if s.handler then some ({ s with readWq := s.readWq.wakeUp, handler := false }, []) else none

def driver : Machine (State ι) (Act ι) (ι × Return) := ⟨step⟩

/-- The driver clears the buffer when it has allocated it; here it may hold anything. -/
def initState (m : Mem) : State ι where
  flag := 0
  mem := m
  readWq := .empty
  writeWq := .empty
  handler := false
  pc := fun _ => .user

/-! ## One step -/

/-- The contract holds of what the call returns if and only if its position and residue fit. -/
def Return.Honest (r : Return) : Prop := r.Contract ↔ Fits r.call.args r.res

/-- The local variable of a call at each of its places. -/
def PcOk : Pc → Prop
  | .readClear a remaining | .readWait a remaining _ | .readCopy a remaining =>
      remaining = remainingBytes a
  | .readWake r => r.Honest
  | .writeLoop a _ remaining => remaining = remainingBytes a
  | .writeWait a _ _ => remainingBytes a = 0
  | .writeCopy a _ remaining => remaining = remainingBytes a
  | _ => True

/-- In the loop `while (remaining_bytes == 0)`. -/
def InLoop : Pc → Prop
  | .writeLoop _ _ remaining => remaining = 0
  | .writeWait _ _ _ => True
  | _ => False

instance : (l : Pc) → Decidable (InLoop l)
  | .writeLoop _ _ remaining => inferInstanceAs (Decidable (remaining = 0))
  | .writeWait _ _ _ => inferInstanceAs (Decidable True)
  | .user | .readStart _ | .readClear _ _ | .readWait _ _ _ | .readCopy _ _ | .readWake _
  | .writeCopy _ _ _ => inferInstanceAs (Decidable False)

theorem honest_read {m : Mem} {res : Nat} {r : Result} (h : ReadContract m a r ↔ Fits a res) :
    Return.Honest ⟨.read a, res, m, r⟩ := h

theorem honest_write {m : Mem} {res : Nat} {r : Result}
    (h : WriteContract m a user r ↔ Fits a res) : Return.Honest ⟨.write a user, res, m, r⟩ := h

theorem honest_end (m : Mem) (a : Args) (res : Nat) (h : remainingBytes a = 0) :
    Return.Honest ⟨.read a, res, m, ⟨0, a.offset, [], m⟩⟩ := by
  have hread := clipboardRead_contract m a res
  unfold clipboardRead at hread
  rw [if_pos h] at hread
  exact hread

section Step

variable {s s' : State ι} {t : ι} {res : Nat} {es : List (ι × Return)}

/-- A step of task `t` changes its own place only. It keeps its variable right, it stays in the loop,
    and what it returns is honest. -/
def Advances (s s' : State ι) (t : ι) (es : List (ι × Return)) : Prop :=
  ∃ l, s'.pc = update s.pc t l ∧ PcOk l ∧ (InLoop (s.pc t) → InLoop l) ∧
    ∀ e ∈ es, e.1 = t ∧ ¬InLoop (s.pc t) ∧ e.2.Honest

theorem advances_quietly (l : Pc) (hs' : s'.pc = update s.pc t l) (hl : PcOk l)
    (hloop : InLoop (s.pc t) → InLoop l) : Advances s s' t [] :=
  ⟨l, hs', hl, hloop, List.forall_mem_nil _⟩

section Outside

variable {l₀ : Pc} (hpc : s.pc t = l₀) (hout : ¬InLoop l₀)
include hpc hout

theorem advances_outside (l : Pc) (hs' : s'.pc = update s.pc t l) (hl : PcOk l) :
    Advances s s' t [] :=
  advances_quietly l hs' hl fun hloop => absurd (hpc ▸ hloop) hout

theorem advances_to_user {r : Return} (hs' : s'.pc = update s.pc t .user) (honest : r.Honest) :
    Advances s s' t [(t, r)] := by
  rw [← hpc] at hout
  refine ⟨.user, hs', trivial, fun hloop => absurd hloop hout, ?_⟩
  exact List.forall_mem_singleton.mpr ⟨rfl, hout, honest⟩

end Outside

theorem taskStep_advances (hok : PcOk (s.pc t)) (h : taskStep s t res = some (s', es)) :
    Advances s s' t es := by
  cases hpc : s.pc t with
  | user =>
    simp only [taskStep, hpc] at h
    cases h
  | readStart a =>
    simp only [taskStep, hpc] at h
    split at h
    · rename_i hzero
      obtain ⟨rfl, rfl⟩ := result_inj h
      exact advances_to_user hpc id rfl (honest_end s.mem a res hzero)
    · obtain ⟨rfl, rfl⟩ := result_inj h
      exact advances_outside hpc id (.readClear a (remainingBytes a)) rfl rfl
  | readClear a remaining =>
    rw [hpc] at hok
    simp only [taskStep, hpc] at h
    obtain ⟨rfl, rfl⟩ := result_inj h
    exact advances_outside hpc id (.readWait a remaining .prepare) rfl hok
  | readWait a remaining w =>
    rw [hpc] at hok
    simp only [taskStep, hpc] at h
    split at h
    · cases h
    · rename_i q w' hw
      obtain ⟨rfl, rfl⟩ := result_inj h
      exact advances_outside hpc id (.readWait a remaining w') rfl hok
    · obtain ⟨rfl, rfl⟩ := result_inj h
      exact advances_outside hpc id (.readCopy a remaining) rfl hok
  | readCopy a remaining =>
    rw [hpc] at hok
    obtain rfl : remaining = remainingBytes a := hok
    have honest : Return.Honest ⟨.read a, res, s.mem, copyOut s.mem a (remainingBytes a) res⟩ :=
      honest_read (readContract_iff s.mem a res)
    simp only [taskStep, hpc] at h
    split at h
    · obtain ⟨rfl, rfl⟩ := result_inj h
      exact advances_to_user hpc id rfl honest
    · obtain ⟨rfl, rfl⟩ := result_inj h
      exact advances_outside hpc id (.readWake _) rfl honest
  | readWake r =>
    rw [hpc] at hok
    simp only [taskStep, hpc] at h
    obtain ⟨rfl, rfl⟩ := result_inj h
    exact advances_to_user hpc id rfl hok
  | writeLoop a user remaining =>
    rw [hpc] at hok
    obtain rfl : remaining = remainingBytes a := hok
    simp only [taskStep, hpc] at h
    split at h
    · rename_i hzero
      obtain ⟨rfl, rfl⟩ := result_inj h
      exact advances_quietly (.writeWait a user .prepare) rfl hzero fun _ => trivial
    · rename_i hne
      obtain ⟨rfl, rfl⟩ := result_inj h
      exact advances_outside hpc hne (.writeCopy a user (remainingBytes a)) rfl rfl
  | writeWait a user w =>
    rw [hpc] at hok
    replace hok : remainingBytes a = 0 := hok
    simp only [taskStep, hpc] at h
    split at h
    · cases h
    · rename_i q w' hw
      obtain ⟨rfl, rfl⟩ := result_inj h
      exact advances_quietly (.writeWait a user w') rfl hok fun _ => trivial
    · -- the wait is over, and there is still nothing to write
      obtain ⟨rfl, rfl⟩ := result_inj h
      exact advances_quietly (.writeLoop a user (remainingBytes a)) rfl rfl fun _ => hok
  | writeCopy a user remaining =>
    rw [hpc] at hok
    obtain rfl : remaining = remainingBytes a := hok
    simp only [taskStep, hpc] at h
    obtain ⟨rfl, rfl⟩ := result_inj h
    exact advances_to_user hpc id rfl (honest_write (writeContract_iff s.mem a user res))

theorem signalStep_advances (hok : PcOk (s.pc t)) (h : signalStep s t = some s') :
    Advances s s' t [] := by
  cases hpc : s.pc t with
  | readWait a remaining w =>
    rw [hpc] at hok
    simp only [signalStep, hpc] at h
    obtain rfl := Option.some.inj h
    exact advances_outside hpc id (.readCopy a remaining) rfl hok
  | writeWait a user w =>
    rw [hpc] at hok
    simp only [signalStep, hpc] at h
    obtain rfl := Option.some.inj h
    exact advances_quietly (.writeLoop a user (remainingBytes a)) rfl rfl fun _ => hok
  | _ =>
    simp only [signalStep, hpc] at h
    cases h

/-- The places stay right, the returns are honest, nobody leaves the loop. -/
theorem Advances.spec (hok : ∀ u, PcOk (s.pc u)) (h : Advances s s' t es) :
    (∀ u, PcOk (s'.pc u)) ∧ (∀ u, InLoop (s.pc u) → InLoop (s'.pc u)) ∧
      ∀ e ∈ es, ¬InLoop (s.pc e.1) ∧ e.2.Honest := by
  obtain ⟨l, hs', hl, hloop, hes⟩ := h
  rw [hs']
  refine ⟨?_, ?_, fun e he => ?_⟩
  · exact (forall_update_iff s.pc fun _ l => PcOk l).mpr ⟨hl, fun u _ => hok u⟩
  · exact (forall_update_iff s.pc fun u l => InLoop (s.pc u) → InLoop l).mpr
      ⟨hloop, fun _ _ hu => hu⟩
  · obtain ⟨htask, hout, honest⟩ := hes e he
    exact ⟨htask ▸ hout, honest⟩

theorem step_spec {a : Act ι} (hok : ∀ u, PcOk (s.pc u)) (h : step s a = some (s', es)) :
    (∀ u, PcOk (s'.pc u)) ∧ (∀ u, InLoop (s.pc u) → InLoop (s'.pc u)) ∧
      ∀ e ∈ es, ¬InLoop (s.pc e.1) ∧ e.2.Honest := by
  cases a with
  | call t c =>
    simp only [step] at h
    split at h
    · rename_i hpc
      obtain ⟨rfl, rfl⟩ := result_inj h
      have hstart : PcOk c.start := by cases c <;> trivial
      exact (advances_outside hpc id c.start rfl hstart).spec hok
    · cases h
  | step t res => exact (taskStep_advances (hok t) h).spec hok
  | signal t =>
    obtain ⟨hs, rfl⟩ := Machine.quiet_step h
    exact (signalStep_advances (hok t) hs).spec hok
  | interrupt =>
    obtain ⟨_, heq⟩ := Option.ite_none_left_eq_some.mp h
    obtain ⟨rfl, rfl⟩ := result_inj heq
    exact ⟨hok, fun _ hu => hu, List.forall_mem_nil _⟩
  | handlerWake =>
    obtain ⟨_, rfl, rfl⟩ := guard_result_inj h
    exact ⟨hok, fun _ hu => hu, List.forall_mem_nil _⟩

end Step

/-! ## Whole runs -/

section Runs

variable {s s' : State ι} {acts : List (Act ι)} {tr : List (ι × Return)} {t : ι} {res : Nat}

omit [DecidableEq ι] in
theorem pcOk_initState (m : Mem) (u : ι) : PcOk ((initState m : State ι).pc u) := trivial

theorem honest_of_run (hok : ∀ u, PcOk (s.pc u)) (hr : driver.run s acts = some (s', tr)) :
    (∀ u, PcOk (s'.pc u)) ∧ ∀ e ∈ tr, e.2.Honest := by
  refine driver.run_events (fun _ => True) (fun s => ∀ u, PcOk (s.pc u)) (fun e => e.2.Honest)
    (fun s a s₁ es _ hok h => ?_) (fun _ _ => trivial) hok hr
  obtain ⟨h1, _, h3⟩ := step_spec hok h
  exact ⟨h1, fun e he => (h3 e he).2⟩

/-- A task in the loop stays there, and its call does not return. -/
theorem inLoop_of_run (hok : ∀ u, PcOk (s.pc u)) (hloop : InLoop (s.pc t))
    (hr : driver.run s acts = some (s', tr)) : InLoop (s'.pc t) ∧ ∀ e ∈ tr, e.1 ≠ t := by
  have h := driver.run_events (fun _ => True)
    (fun s => (∀ u, PcOk (s.pc u)) ∧ InLoop (s.pc t)) (fun e => e.1 ≠ t)
    (fun s a s₁ es _ inv h => ?_) (fun _ _ => trivial) ⟨hok, hloop⟩ hr
  · exact ⟨h.1.2, h.2⟩
  · obtain ⟨h1, h2, h3⟩ := step_spec inv.1 h
    refine ⟨⟨h1, h2 t inv.2⟩, fun e he htask => ?_⟩
    exact (h3 e he).1 (htask ▸ inv.2)

/-- The call `c` of task `t`, with a copy that leaves `res`, returns in some run from `s`. -/
def Returns (t : ι) (c : Call) (res : Nat) : State ι → Prop :=
  driver.CanReach (fun _ => True) fun _ tr => ∃ r, (t, r) ∈ tr ∧ r.call = c ∧ r.res = res

/-- The call can return, and it keeps the contract in every run in which it does. -/
def Keeps (s : State ι) (t : ι) (c : Call) (res : Nat) : Prop :=
  Returns t c res s ∧ ∀ acts s' tr, driver.run s acts = some (s', tr) →
    ∀ r, (t, r) ∈ tr → r.call = c → r.res = res → r.Contract

theorem keeps_iff (hok : ∀ u, PcOk (s.pc u)) (c : Call) :
    Keeps s t c res ↔ Returns t c res s ∧ Fits c.args res := by
  refine and_congr_right fun hreturns => ⟨fun hall => ?_, ?_⟩
  · obtain ⟨acts, s', tr, _, hr, r, hmem, rfl, rfl⟩ := hreturns
    have honest := (honest_of_run hok hr).2 (t, r) hmem
    exact honest.mp (hall acts s' tr hr r hmem rfl rfl)
  · rintro hfits acts s' tr hr r hmem rfl rfl
    exact ((honest_of_run hok hr).2 (t, r) hmem).mpr hfits

theorem returns_of_step {a : Act ι} {c : Call} (h : step s a = some (s', []))
    (hreturns : Returns t c res s') : Returns t c res s :=
  driver.canReach_step trivial h hreturns

theorem returns_of_return {a : Act ι} {r : Return} (h : step s a = some (s', [(t, r)])) :
    Returns t r.call r.res s :=
  driver.canReach_step trivial h (driver.canReach_here ⟨r, List.mem_singleton_self _, rfl, rfl⟩)

/-- From `copy_to_user` on. -/
theorem returns_of_readCopy {remaining : Int} (h : s.pc t = .readCopy a remaining) :
    Returns t (.read a) res s := by
  by_cases hret : intOfU64 (copyToUser s.mem a.offset (u64OfInt remaining) res).2 ≠ 0
  · have hstep : taskStep s t res = some (s.goto t .user,
        [(t, ⟨.read a, res, s.mem, copyOut s.mem a remaining res⟩)]) := by
      simp only [taskStep, h, if_pos hret]
    exact returns_of_return (a := .step t res) hstep
  · set r : Return := ⟨.read a, res, s.mem, copyOut s.mem a remaining res⟩ with hr
    have hstep : taskStep s t res = some (s.goto t (.readWake r), []) := by
      simp only [taskStep, h, if_neg hret, hr]
    refine returns_of_step (a := .step t res) hstep ?_
    have hpc : (s.goto t (.readWake r)).pc t = .readWake r := update_self t _ s.pc
    have hwake : taskStep (s.goto t (.readWake r)) t res = some ({ (s.goto t (.readWake r)).goto t
        .user with writeWq := s.writeWq.wakeUp }, [(t, r)]) := by
      simp only [taskStep, hpc]
      rfl
    exact returns_of_return (a := .step t res) hwake

/-- A reader that is about to test the flag is released by an interrupt. -/
theorem returns_of_readTest {remaining : Int} (h : s.pc t = .readWait a remaining .test) :
    Returns t (.read a) res s := by
  have hfree {s : State ι} (h : s.pc t = .readWait a remaining .test) (hhandler : s.handler = false) :
      Returns t (.read a) res s := by
    have hint : step s .interrupt = some ({ s with flag := 1, handler := true }, []) := by
      simp only [step, hhandler]
      rfl
    refine returns_of_step hint ?_
    have hleave : taskStep { s with flag := 1, handler := true } t res =
        some ({ ({ s with flag := 1, handler := true } : State ι).goto t (.readCopy a remaining) with
          readWq := s.readWq.finish t }, []) := by
      simp only [taskStep, h]
      rfl
    exact returns_of_step (a := .step t res) hleave
      (returns_of_readCopy (update_self t _ s.pc))
  cases hhandler : s.handler with
  | false => exact hfree h hhandler
  | true =>
    -- the handler of an earlier interrupt ends first
    have hwake : step s .handlerWake =
        some ({ s with readWq := s.readWq.wakeUp, handler := false }, []) := by
      simp only [step, hhandler]
      rfl
    exact returns_of_step hwake (hfree h rfl)

theorem returns_read (h : s.pc t = (Call.read a).start) : Returns t (.read a) res s := by
  replace h : s.pc t = .readStart a := h
  by_cases hzero : remainingBytes a = 0
  · have hstep : taskStep s t res = some (s.goto t .user,
        [(t, ⟨.read a, res, s.mem, ⟨0, a.offset, [], s.mem⟩⟩)]) := by
      simp only [taskStep, h, if_pos hzero]
    exact returns_of_return (a := .step t res) hstep
  · have hstart : taskStep s t res = some (s.goto t (.readClear a (remainingBytes a)), []) := by
      simp only [taskStep, h, if_neg hzero]
    refine returns_of_step (a := .step t res) hstart ?_
    set s₁ := s.goto t (.readClear a (remainingBytes a))
    have h₁ : s₁.pc t = .readClear a (remainingBytes a) := update_self t _ s.pc
    have hclear : taskStep s₁ t res =
        some ({ s₁.goto t (.readWait a (remainingBytes a) .prepare) with flag := 0 }, []) := by
      simp only [taskStep, h₁]
    refine returns_of_step (a := .step t res) hclear ?_
    set s₂ : State ι := { s₁.goto t (.readWait a (remainingBytes a) .prepare) with flag := 0 }
    have h₂ : s₂.pc t = .readWait a (remainingBytes a) .prepare := update_self t _ s₁.pc
    have hjoin : taskStep s₂ t res = some ({ s₂.goto t (.readWait a (remainingBytes a) .test) with
        readWq := s₂.readWq.prepare t }, []) := by
      simp only [taskStep, h₂]
      rfl
    refine returns_of_step (a := .step t res) hjoin ?_
    exact returns_of_readTest (update_self t _ s₂.pc)

/-- A write returns if and only if it has something to write. -/
theorem returns_write_iff (hok : ∀ u, PcOk (s.pc u)) (h : s.pc t = (Call.write a user).start) :
    Returns t (.write a user) res s ↔ remainingBytes a ≠ 0 := by
  replace h : s.pc t = .writeLoop a user (remainingBytes a) := h
  constructor
  · rintro ⟨acts, s', tr, _, hr, r, hmem, _⟩ hzero
    have hloop : InLoop (s.pc t) := by
      rw [h]
      exact hzero
    exact (inLoop_of_run hok hloop hr).2 (t, r) hmem rfl
  · intro hne
    have htest : taskStep s t res = some (s.goto t (.writeCopy a user (remainingBytes a)), []) := by
      simp only [taskStep, h, if_neg hne]
    refine returns_of_step (a := .step t res) htest ?_
    set s₁ := s.goto t (.writeCopy a user (remainingBytes a))
    have h₁ : s₁.pc t = .writeCopy a user (remainingBytes a) := update_self t _ s.pc
    set result := copyIn s₁.mem a user (remainingBytes a) res with hresult
    have hcopy : taskStep s₁ t res = some ({ s₁.goto t .user with mem := result.mem },
        [(t, ⟨.write a user, res, s₁.mem, result⟩)]) := by
      simp only [taskStep, h₁, hresult]
    exact returns_of_return (a := .step t res) hcopy

end Runs

/-! ## The contract -/

/-- `Fits` for a call that has something to write. -/
def FitsWrite (a : Args) (res : Nat) : Prop :=
  (a.offset < clipboardSize ∧ a.count ≠ 0 ∧ res = 0) ∨
  (clipboardSize < a.offset ∧ 1 ≤ (a.offset - clipboardSize) % 2 ^ 32 ∧
    (a.offset - clipboardSize) % 2 ^ 32 ≤ 4095)

theorem fitsWrite_iff (a : Args) (res : Nat) :
    FitsWrite a res ↔ remainingBytes a ≠ 0 ∧ Fits a res := by
  rcases Int.lt_or_le clipboardSize a.offset with hgt | hle
  · rw [remainingBytes_of_gt a hgt]
    unfold FitsWrite Fits
    split <;> omega
  · rw [remainingBytes_of_le a hle]
    unfold FitsWrite Fits
    omega

/-- **The clipboard devices.** Any position, count, user data and residue of the copy. The driver
    that does not sleep keeps the contract if and only if position and residue fit. So does a read of
    the driver that sleeps, from any state of any run in which it starts; a write of that driver
    must also have something to write, or it does not return. -/
theorem clipboard_contract_iff (a : Args) (user : Nat → UInt8) (res : Nat) (buffer m : Mem)
    (acts : List (Act ι)) (s : State ι) (tr : List (ι × Return)) (t : ι)
    (hr : driver.run (initState m) acts = some (s, tr)) :
    (ReadContract buffer a (clipboardRead buffer a res) ↔ Fits a res) ∧
    (WriteContract buffer a user (clipboardWrite buffer a user res) ↔ Fits a res) ∧
    (s.pc t = (Call.read a).start → (Keeps s t (.read a) res ↔ Fits a res)) ∧
    (s.pc t = (Call.write a user).start → (Keeps s t (.write a user) res ↔ FitsWrite a res)) := by
  have hok := (honest_of_run (pcOk_initState m) hr).1
  refine ⟨clipboardRead_contract buffer a res, clipboardWrite_contract buffer a user res, ?_, ?_⟩
  · intro h
    rw [keeps_iff hok]
    exact and_iff_right (returns_read h)
  · intro h
    rw [keeps_iff hok, returns_write_iff hok h, fitsWrite_iff]
    rfl

def zeros : Mem := fun _ => 0

/-- Four bytes at the start of the buffer. -/
def startArgs : Args := ⟨0, 4, by decide, by decide, by decide⟩

/-- Task 0 reads, task 1 writes. -/
def twoCalls : List (Act Nat) := [.call 0 (.read startArgs), .call 1 (.write startArgs fun _ => 7)]

theorem clipboard_contract_twoCalls :
    ∃ s tr, driver.run (initState zeros) twoCalls = some (s, tr) ∧
      ReadContract zeros startArgs (clipboardRead zeros startArgs 0) ∧
      WriteContract zeros startArgs (fun _ => 7) (clipboardWrite zeros startArgs (fun _ => 7) 0) ∧
      Keeps s 0 (.read startArgs) 0 ∧ Keeps s 1 (.write startArgs fun _ => 7) 0 := by
  have hfits : Fits startArgs 0 := Or.inl ⟨by decide, Or.inl rfl⟩
  have hwrite : FitsWrite startArgs 0 := Or.inl ⟨by decide, by decide, rfl⟩
  refine ⟨_, _, rfl, ?_⟩
  obtain ⟨h1, h2, h3, _⟩ := clipboard_contract_iff startArgs (fun _ => 7) 0 zeros zeros twoCalls _ _ 0
    rfl
  obtain ⟨_, _, _, h4⟩ := clipboard_contract_iff startArgs (fun _ => 7) 0 zeros zeros twoCalls _ _ 1
    rfl
  exact ⟨h1.mpr hfits, h2.mpr hfits, (h3 rfl).mpr hfits, (h4 rfl).mpr hwrite⟩

/-- `2 ^ 32 - 5` bytes behind the end of the buffer. -/
def farArgs : Args := ⟨4294971387, 10, by decide, by decide, by decide⟩

/-- 5000 bytes behind the end of the buffer. -/
def behindArgs : Args := ⟨9096, 10, by decide, by decide, by decide⟩

/-- A copy that leaves one of four bytes: the call returns 1 and does not advance. Far behind the
    buffer five bytes are copied that are not in it. 5000 bytes behind the buffer the call returns
    -5000, which is no error code. -/
theorem clipboard_contract_broken :
    ((clipboardRead zeros startArgs 1).ret = 1 ∧ (clipboardRead zeros startArgs 1).offset = 0 ∧
      ¬ReadContract zeros startArgs (clipboardRead zeros startArgs 1)) ∧
    ((clipboardRead zeros farArgs 0).ret = 5 ∧
      ¬ReadContract zeros farArgs (clipboardRead zeros farArgs 0)) ∧
    ((clipboardRead zeros behindArgs 0).ret = -5000 ∧
      ¬ReadContract zeros behindArgs (clipboardRead zeros behindArgs 0)) := by
  refine ⟨⟨by decide +kernel, by decide +kernel, fun h => ?_⟩, ⟨by decide +kernel, fun h => ?_⟩,
    by decide +kernel, fun h => ?_⟩
  · have hfits : Fits startArgs 1 := (clipboardRead_contract zeros startArgs 1).mp h
    revert hfits
    unfold Fits
    decide
  · have hfits : Fits farArgs 0 := (clipboardRead_contract zeros farArgs 0).mp h
    revert hfits
    unfold Fits
    decide
  · have hfits : Fits behindArgs 0 := (clipboardRead_contract zeros behindArgs 0).mp h
    revert hfits
    unfold Fits
    decide

/-! ## The writer in the loop -/

/-- **A blocked writer is never released.** In every state of every run: after any continuation, by
    any calls and steps of all tasks, interrupts and signals, a task in the loop of
    `clipboard_write` is still there. -/
theorem full_writer_never_released (m : Mem) (acts : List (Act ι)) (s : State ι)
    (tr : List (ι × Return)) (t : ι) (hr : driver.run (initState m) acts = some (s, tr))
    (hloop : InLoop (s.pc t)) :
    ¬∃ acts' s' tr', driver.run s acts' = some (s', tr') ∧ ¬InLoop (s'.pc t) := by
  rintro ⟨acts', s', tr', hr', hout⟩
  have hok := (honest_of_run (pcOk_initState m) hr).1
  exact hout (inLoop_of_run hok hloop hr').1

/-- One byte at the end of the buffer. -/
def endArgs : Args := ⟨4096, 1, by decide, by decide, by decide⟩

/-- The writer goes to sleep. -/
def fullRun : List (Act Nat) :=
  [.call 0 (.write endArgs fun _ => 7), .step 0 0, .step 0 0, .step 0 0]

theorem full_writer_never_released_fullRun :
    ∃ s tr, driver.run (initState zeros) fullRun = some (s, tr) ∧ InLoop (s.pc 0) ∧
      ¬∃ acts' s' tr', driver.run s acts' = some (s', tr') ∧ ¬InLoop (s'.pc 0) := by
  refine ⟨_, _, rfl, trivial, ?_⟩
  exact full_writer_never_released zeros fullRun _ _ 0 rfl trivial

/-- A reader reads and wakes the writer, after an interrupt has set the flag. -/
def readerRun : List (Act Nat) :=
  fullRun ++ [.call 1 (.read startArgs), .step 1 0, .step 1 0, .step 1 0, .interrupt, .step 1 0,
    .step 1 0, .step 1 0, .handlerWake, .step 0 0, .step 0 0, .step 0 0]

/-- The writer computes the same number again and stays, then and for ever. -/
theorem reader_makes_no_room :
    ∃ s tr, driver.run (initState zeros) readerRun = some (s, tr) ∧ InLoop (s.pc 0) ∧
      ∀ acts' s' tr', driver.run s acts' = some (s', tr') → InLoop (s'.pc 0) := by
  obtain ⟨s, tr, hr, hloop⟩ := driver.exists_of_check (initState zeros) readerRun
    (fun s _ => InLoop (s.pc 0)) (by decide +kernel)
  have hok := (honest_of_run (pcOk_initState zeros) hr).1
  exact ⟨s, tr, hr, hloop, fun acts' s' tr' hr' => (inLoop_of_run hok hloop hr').1⟩

end DemosOsLinux.Clipboard
