/-
  A writer of two counters and its readers (examples/memory_barriers/memory_reordering_write_write.cc).

  `worker` number 0 keeps `large` one ahead of `small`, `large` first; each other one reads `small` and
  then `large` and counts how often `small` was not below `large`. The barriers between the accesses are
  for the compiler only. Each worker has its core; the memory is that of x86 (total store order): the
  writes of a core reach it in their order, at any time. The values are natural numbers, and the
  increments of the `unsigned int`s wrap; the counters of a reader do not.
  * `Grows`: what each write of the writer does to the memory that it sees.
  * `Inv`, `Inv.step`: so the memory, and what each reader has read, is in order.
  * `no_errors_iff`: no reader ever counts an error if and only if `large` does not wrap.
-/
import Mathlib.Algebra.Ring.Nat
import DemosOsLinux.Lib.Machine
import DemosOsLinux.Lib.StoreBuffer

namespace DemosOsLinux.MemoryReordering.WriteWrite

open Lib StoreBuffer Function

/-- The fields of `shared_data` that are written. -/
inductive Field where
  | small
  | large
  | running
  deriving DecidableEq

inductive WriterPc where
  /-- At `large=sd->large`. -/
  | readLarge
  /-- At `small=sd->small`. -/
  | readSmall
  /-- At the condition of the loop; after it, `large++` and `small++`. -/
  | loop
  /-- At `sd->large=large`. -/
  | storeLarge
  /-- At `sd->small=small`. -/
  | storeSmall
  /-- At `sd->running=false`. -/
  | stop
  | ended

structure Writer where
  pc : WriterPc
  i : Nat
  large : Nat
  small : Nat

inductive ReaderPc where
  /-- At the condition of the loop. -/
  | loop
  | readSmall
  /-- At `large=sd->large`; then the comparisons. -/
  | readLarge
  | ended

structure Reader where
  pc : ReaderPc
  small : Nat
  gErrors : Nat
  eErrors : Nat
  attempts : Nat

/-- `ι` are the readers; `attempts` is `sd->attempts`. -/
structure Setup (κ ι : Type) where
  writerCore : κ
  core : ι → κ
  attempts : Nat

structure State (κ ι : Type) where
  mem : StoreBuffer κ Field Nat
  writer : Writer
  reader : ι → Reader

inductive Act (κ ι : Type) where
  | writer
  | reader (t : ι)
  | flush (c : κ)

section Step

variable {κ ι : Type} [DecidableEq κ] [DecidableEq ι] (S : Setup κ ι) (s : State κ ι)

/-- `worker` for `num==0`. -/
def writerStep : Option (State κ ι) :=
  let w := s.writer
  match w.pc with
  | .readLarge => some { s with writer := { w with large := s.mem.read S.writerCore .large, pc := .readSmall } }
  | .readSmall => some { s with writer := { w with small := s.mem.read S.writerCore .small, pc := .loop } }
  | .loop =>
    if w.i < S.attempts then
      some { s with
        writer := { w with
          large := (w.large + 1) % 2 ^ 32, small := (w.small + 1) % 2 ^ 32, pc := .storeLarge } }
    else some { s with writer := { w with pc := .stop } }
  | .storeLarge =>
    some { s with
      mem := s.mem.write S.writerCore .large w.large, writer := { w with pc := .storeSmall } }
  | .storeSmall =>
    some { s with
      mem := s.mem.write S.writerCore .small w.small, writer := { w with i := w.i + 1, pc := .loop } }
  | .stop =>
    some { s with mem := s.mem.write S.writerCore .running 0, writer := { w with pc := .ended } }
  | .ended => none

/-- The comparisons of a reader. -/
def Reader.compare (r : Reader) (large : Nat) : Reader :=
  { r with
    gErrors := if r.small > large then r.gErrors + 1 else r.gErrors
    eErrors := if r.small = large then r.eErrors + 1 else r.eErrors
    attempts := r.attempts + 1, pc := .loop }

/-- `worker` for another `num`. -/
def readerStep (t : ι) : Option (State κ ι) :=
  let r := s.reader t
  let become (r : Reader) : State κ ι := { s with reader := update s.reader t r }
  match r.pc with
  | .loop =>
    some (become { r with pc := if s.mem.read (S.core t) .running ≠ 0 then .readSmall else .ended })
  | .readSmall => some (become { r with small := s.mem.read (S.core t) .small, pc := .readLarge })
  | .readLarge => some (become (r.compare (s.mem.read (S.core t) .large)))
  | .ended => none

def step : Act κ ι → Option (State κ ι)
  | .writer => writerStep S s
  | .reader t => readerStep S s t
  | .flush c => (s.mem.flush c).map fun m => { s with mem := m }

def machine : Machine (State κ ι) (Act κ ι) Empty :=
  ⟨fun s a => (step S s a).map fun s' => (s', [])⟩

end Step

/-- `shared_data` as `main` sets it. -/
def initMem : Field → Nat
  | .small => 0
  | .large => 1
  | .running => 1

def initState (κ ι : Type) : State κ ι :=
  ⟨settled initMem, ⟨.readLarge, 0, 0, 0⟩, fun _ => ⟨.loop, 0, 0, 0, 0⟩⟩

/-! ## The invariant -/

/-- What each write of the writer does to the memory that it sees: `large` does not shrink, and `small`
    is below it. -/
def Grows (mem mem' : Field → Nat) : Prop := mem .large ≤ mem' .large ∧ mem' .small < mem' .large

/-- The writer's own values, where `view` is what it sees in memory. -/
def WriterOk (attempts : Nat) (view : Field → Nat) (w : Writer) : Prop :=
  match w.pc with
  | .readLarge => view .large = 1 ∧ view .small = 0 ∧ w.i = 0
  | .readSmall => view .large = 1 ∧ view .small = 0 ∧ w.i = 0 ∧ w.large = 1
  | .loop =>
    view .large = w.i + 1 ∧ view .small = w.i ∧ w.large = w.i + 1 ∧ w.small = w.i ∧ w.i ≤ attempts
  | .storeLarge =>
    view .large = w.i + 1 ∧ view .small = w.i ∧ w.large = w.i + 2 ∧ w.small = w.i + 1 ∧ w.i < attempts
  | .storeSmall =>
    view .large = w.i + 2 ∧ view .small = w.i ∧ w.large = w.i + 2 ∧ w.small = w.i + 1 ∧ w.i < attempts
  | .stop | .ended => view .small < view .large

/-- A reader, where `view` is what it sees in memory. -/
structure ReaderOk (view : Field → Nat) (r : Reader) : Prop where
  small : r.pc = .readLarge → r.small < view .large
  gErrors : r.gErrors = 0
  eErrors : r.eErrors = 0

structure Inv {κ ι : Type} (S : Setup κ ι) (s : State κ ι) : Prop where
  /-- Only the writer writes. -/
  drained : ∀ c, c ≠ S.writerCore → s.mem.Drained c
  order : s.mem.InOrder Grows S.writerCore
  mem : s.mem.mem .small < s.mem.mem .large
  writer : WriterOk S.attempts (s.mem.read S.writerCore) s.writer
  reader : ∀ t, ReaderOk (s.mem.read (S.core t)) (s.reader t)

section Inv

variable {κ ι : Type} {S : Setup κ ι} {s s' : State κ ι} {attempts : Nat} {view view' : Field → Nat}
  {w : Writer} {r : Reader} {t : ι}

theorem WriterOk.lt (h : WriterOk attempts view w) : view .small < view .large := by
  unfold WriterOk at h
  split at h <;> omega

theorem ReaderOk.mono (h : ReaderOk view r) (hle : view .large ≤ view' .large) : ReaderOk view' r :=
  ⟨fun hpc => Nat.lt_of_lt_of_le (h.small hpc) hle, h.gErrors, h.eErrors⟩

/-- Every core sees `small` below `large`. -/
theorem Inv.view_lt (inv : Inv S s) (c : κ) : s.mem.read c .small < s.mem.read c .large := by
  by_cases e : c = S.writerCore
  · rw [e]
    exact inv.writer.lt
  · rw [(inv.drained c e).read]
    exact inv.mem

/-- The writer goes on without a write. -/
theorem Inv.set_writer (inv : Inv S s)
    (hw : WriterOk S.attempts (s.mem.read S.writerCore) w) : Inv S { s with writer := w } :=
  ⟨inv.drained, inv.order, inv.mem, hw, inv.reader⟩

theorem Inv.set_reader [DecidableEq ι] (inv : Inv S s) (hr : ReaderOk (s.mem.read (S.core t)) r) :
    Inv S { s with reader := update s.reader t r } := by
  refine ⟨inv.drained, inv.order, inv.mem, inv.writer, fun u => ?_⟩
  by_cases e : u = t
  · subst e
    simpa using hr
  · simpa [e] using inv.reader u

variable [DecidableEq κ]

/-- The writer writes. -/
theorem Inv.write (inv : Inv S s) {a : Field} {v : Nat}
    (hgrows : Grows (s.mem.read S.writerCore) (update (s.mem.read S.writerCore) a v))
    (hw : WriterOk S.attempts (update (s.mem.read S.writerCore) a v) w) :
    Inv S { s with mem := s.mem.write S.writerCore a v, writer := w } := by
  refine ⟨?_, inv.order.write hgrows, inv.mem, ?_, ?_⟩
  · intro c hc
    rw [Drained, StoreBuffer.write]
    simp only [update_of_ne hc]
    exact inv.drained c hc
  · rw [← read_write_self] at hw
    exact hw
  · intro t
    by_cases e : S.core t = S.writerCore
    · have hr := inv.reader t
      simp only [e, read_write_self] at hr ⊢
      exact hr.mono hgrows.1
    · simp only [read_write_of_core_ne e]
      exact inv.reader t

theorem Inv.flush (inv : Inv S s) {c : κ} {m : StoreBuffer κ Field Nat}
    (hm : s.mem.flush c = some m) : Inv S { s with mem := m } := by
  have hc : c = S.writerCore := by
    by_contra hne
    exact not_drained_of_flush hm (inv.drained c hne)
  subst hc
  obtain ⟨hgrows, horder⟩ := inv.order.flush hm
  have hdrained : ∀ c, c ≠ S.writerCore → m.Drained c := fun c hc => (inv.drained c hc).flush hm
  refine ⟨hdrained, horder, hgrows.2, ?_, fun t => ?_⟩
  · simp only [read_flush_self hm]
    exact inv.writer
  · have hr := inv.reader t
    by_cases e : S.core t = S.writerCore
    · simp only [e, read_flush_self hm] at hr ⊢
      exact hr
    · rw [(inv.drained _ e).read] at hr
      simp only [(hdrained _ e).read]
      exact hr.mono hgrows.1

/-- A step of the writer, when its numbers do not wrap. -/
theorem Inv.writerStep (inv : Inv S s) (hmax : S.attempts + 1 < 2 ^ 32)
    (h : writerStep S s = some s') : Inv S s' := by
  have hw := inv.writer
  simp only [WriteWrite.writerStep] at h
  unfold WriterOk at hw
  split at h <;> rename_i hpc <;> simp only [hpc] at hw
  · obtain rfl := Option.some.inj h
    refine inv.set_writer ?_
    simp only [WriterOk]
    omega
  · obtain rfl := Option.some.inj h
    refine inv.set_writer ?_
    simp only [WriterOk]
    omega
  · split at h <;> obtain rfl := Option.some.inj h <;> refine inv.set_writer ?_
    · have hlarge : (s.writer.large + 1) % 2 ^ 32 = s.writer.large + 1 := Nat.mod_eq_of_lt (by omega)
      have hsmall : (s.writer.small + 1) % 2 ^ 32 = s.writer.small + 1 := Nat.mod_eq_of_lt (by omega)
      simp only [WriterOk, hlarge, hsmall]
      omega
    · simp only [WriterOk]
      omega
  · obtain rfl := Option.some.inj h
    refine inv.write ?_ ?_
    · simp [Grows]
      omega
    · simp [WriterOk]
      omega
  · obtain rfl := Option.some.inj h
    refine inv.write ?_ ?_
    · simp [Grows]
      omega
    · simp [WriterOk]
      omega
  · obtain rfl := Option.some.inj h
    refine inv.write ?_ ?_
    · simp [Grows]
      omega
    · simp [WriterOk]
      omega
  · cases h

variable [DecidableEq ι]

omit [DecidableEq κ] in
theorem Inv.readerStep (inv : Inv S s) (h : readerStep S s t = some s') : Inv S s' := by
  have hr := inv.reader t
  simp only [WriteWrite.readerStep] at h
  split at h
  · obtain rfl := Option.some.inj h
    refine inv.set_reader ⟨fun hpc => ?_, hr.gErrors, hr.eErrors⟩
    dsimp only at hpc
    split at hpc <;> cases hpc
  · obtain rfl := Option.some.inj h
    exact inv.set_reader ⟨fun _ => inv.view_lt _, hr.gErrors, hr.eErrors⟩
  · rename_i hpc
    obtain rfl := Option.some.inj h
    have hlt := hr.small hpc
    refine inv.set_reader ⟨fun hloop => ?_, ?_, ?_⟩
    · cases hloop
    · simp only [Reader.compare]
      rw [if_neg (by omega)]
      exact hr.gErrors
    · simp only [Reader.compare]
      rw [if_neg (by omega)]
      exact hr.eErrors
  · cases h

theorem Inv.step (inv : Inv S s) (hmax : S.attempts + 1 < 2 ^ 32) {a : Act κ ι} {es : List Empty}
    (h : (machine S).step s a = some (s', es)) : Inv S s' := by
  have h := (Machine.quiet_step h).1
  cases a with
  | writer => exact inv.writerStep hmax h
  | reader t => exact inv.readerStep h
  | flush c =>
    obtain ⟨m, hm, rfl⟩ := Option.map_eq_some_iff.mp h
    exact inv.flush hm

omit [DecidableEq κ] [DecidableEq ι] in
theorem inv_initState (S : Setup κ ι) : Inv S (initState κ ι) :=
  ⟨fun _ _ => rfl, InOrder.of_drained rfl, Nat.zero_lt_one, ⟨rfl, rfl, rfl⟩, fun _ => ⟨nofun, rfl, rfl⟩⟩

end Inv

/-! ## The wrap -/

section Wrap

variable {κ ι : Type} [DecidableEq κ] [DecidableEq ι] {S : Setup κ ι} {n : Nat}

/-- `shared_data` after `n` iterations of the writer. -/
def memAt (n : Nat) : Field → Nat
  | .small => n
  | .large => n + 1
  | .running => 1

/-- After `n` iterations of the writer, all in memory; no reader has begun. -/
def afterWrites (κ ι : Type) (n : Nat) : State κ ι :=
  ⟨settled (memAt n), ⟨.loop, n, n + 1, n⟩, fun _ => ⟨.loop, 0, 0, 0, 0⟩⟩

theorem reach {s s' : State κ ι} {a : Act κ ι} (h : step S s a = some s') :
    (machine S).Reachable s s' :=
  (machine S).reachable_of_step (Option.map_eq_some_iff.mpr ⟨s', h, rfl⟩)

/-- The writer writes, and the write reaches the memory. -/
theorem reach_write {s : State κ ι} {mem : Field → Nat} {a : Field} {v : Nat} {w : Writer}
    (h : writerStep S s = some ⟨(settled mem).write S.writerCore a v, w, s.reader⟩) :
    (machine S).Reachable s ⟨settled (update mem a v), w, s.reader⟩ := by
  refine (reach (a := .writer) h).trans (reach (a := .flush S.writerCore) ?_)
  rw [step, flush_write (drained_settled mem _)]
  rfl

theorem reach_afterWrites (hn : n ≤ S.attempts) (hmax : n + 1 < 2 ^ 32) :
    (machine S).Reachable (initState κ ι) (afterWrites κ ι n) := by
  induction n with
  | zero =>
    have hlarge : (machine S).Reachable (initState κ ι)
        ⟨settled initMem, ⟨.readSmall, 0, 1, 0⟩, fun _ => ⟨.loop, 0, 0, 0, 0⟩⟩ :=
      reach (a := .writer) rfl
    refine hlarge.trans (reach (a := .writer) ?_)
    have hmem : initMem = memAt 0 := by
      funext a
      cases a <;> rfl
    rw [hmem]
    rfl
  | succ n ih =>
    have hlarge : (n + 1 + 1) % 2 ^ 32 = n + 2 := Nat.mod_eq_of_lt (by omega)
    have hsmall : (n + 1) % 2 ^ 32 = n + 1 := Nat.mod_eq_of_lt (by omega)
    have hloop : (machine S).Reachable (afterWrites κ ι n)
        ⟨settled (memAt n), ⟨.storeLarge, n, n + 2, n + 1⟩, fun _ => ⟨.loop, 0, 0, 0, 0⟩⟩ := by
      refine reach (a := .writer) ?_
      simp only [step, writerStep, afterWrites, hlarge, hsmall, if_pos (show n < S.attempts by omega)]
    have hmem : memAt (n + 1) =
        update (update (memAt n) .large (n + 2)) .small (n + 1) := by
      funext a
      cases a <;> rfl
    refine (ih (by omega) (by omega)).trans (hloop.trans ?_)
    refine (reach_write rfl).trans ?_
    rw [afterWrites, hmem]
    exact reach_write rfl

/-- The writer goes on at the end of the range: `large` is 0, and a reader counts an error. -/
theorem reach_error (hn : n + 2 = 2 ^ 32) (hle : n < S.attempts) (t : ι) :
    ∃ s, (machine S).Reachable (afterWrites κ ι n) s ∧ (s.reader t).gErrors = 1 := by
  have hlarge : (n + 1 + 1) % 2 ^ 32 = 0 := by
    rw [show n + 1 + 1 = 2 ^ 32 from hn, Nat.mod_self]
  have hsmall : (n + 1) % 2 ^ 32 = n + 1 := Nat.mod_eq_of_lt (by omega)
  let s₁ : State κ ι := ⟨settled (memAt n), ⟨.storeLarge, n, 0, n + 1⟩, fun _ => ⟨.loop, 0, 0, 0, 0⟩⟩
  let mem := update (memAt n) .large 0
  let s₂ : State κ ι := ⟨settled mem, ⟨.storeSmall, n, 0, n + 1⟩, fun _ => ⟨.loop, 0, 0, 0, 0⟩⟩
  let s₃ := { s₂ with reader := update s₂.reader t ⟨.readSmall, 0, 0, 0, 0⟩ }
  let s₄ := { s₂ with reader := update s₂.reader t ⟨.readLarge, n, 0, 0, 0⟩ }
  let s₅ := { s₂ with reader := update s₂.reader t (Reader.compare ⟨.readLarge, n, 0, 0, 0⟩ 0) }
  have hloop : (machine S).Reachable (afterWrites κ ι n) s₁ := by
    refine reach (a := .writer) ?_
    simp only [step, writerStep, afterWrites, hlarge, hsmall, if_pos hle, s₁]
  have hstore : (machine S).Reachable s₁ s₂ := reach_write rfl
  have hcond : (machine S).Reachable s₂ s₃ := reach (a := .reader t) rfl
  have hread : (machine S).Reachable s₃ s₄ := by
    refine reach (a := .reader t) ?_
    simp only [step, readerStep, s₃, s₄, update_self, update_idem]
    rfl
  have hcompare : (machine S).Reachable s₄ s₅ := by
    refine reach (a := .reader t) ?_
    simp only [step, readerStep, s₄, s₅, update_self, update_idem]
    rfl
  refine ⟨s₅, hloop.trans (hstore.trans (hcond.trans (hread.trans hcompare))), ?_⟩
  have hpos : n > 0 := by omega
  simp [s₅, Reader.compare, hpos]

end Wrap

/-- **No write passes another.** On x86, where the writes of a core reach the memory in their order, for
    any readers on any cores and whenever the writes get there: reader `t` never finds `small` above or
    equal to `large`, in any run, if and only if `attempts + 1` is below `2 ^ 32`. Otherwise `large` wraps
    before the writer stops, and there is a run in which the reader counts an error. -/
theorem no_errors_iff {κ ι : Type} [DecidableEq κ] [DecidableEq ι] (S : Setup κ ι) (t : ι) :
    (∀ as s tr, (machine S).run (initState κ ι) as = some (s, tr) →
      (s.reader t).gErrors = 0 ∧ (s.reader t).eErrors = 0) ↔ S.attempts + 1 < 2 ^ 32 := by
  constructor
  · intro h
    by_contra hmax
    obtain ⟨n, hn⟩ : ∃ n, n + 2 = 2 ^ 32 := ⟨2 ^ 32 - 2, rfl⟩
    obtain ⟨s, hs, herror⟩ := reach_error (κ := κ) (S := S) hn (by omega) t
    obtain ⟨as, tr, hr⟩ := (reach_afterWrites (S := S) (n := n) (by omega) (by omega)).trans hs
    have h0 := (h as s tr hr).1
    omega
  · intro hmax as s tr hr
    have inv := (machine S).run_inv (fun _ => True) (Inv S)
      (fun _ _ _ _ _ inv hs => inv.step hmax hs) (fun _ _ => trivial) (inv_initState S) hr
    exact ⟨(inv.reader t).gErrors, (inv.reader t).eErrors⟩

end DemosOsLinux.MemoryReordering.WriteWrite
