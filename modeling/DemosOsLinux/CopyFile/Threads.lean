/-
  Copying a file with two threads (examples/io/zero_copy/copy_file_threads.cc).

  The reader fills a shared `CircularPipe` from the input, the writer empties it to the output. One
  step is one operation on the pipe, or one load or store of the shared flag `eof`; the threads
  interleave in any way. The loops do not wait for each other: where the source says "sleep on
  condition" there is no code.
  * `ThreadInv`: what each thread has just seen is still true enough. The reader pushes only into a
    pipe with room, so it sets `eof` only at the end of the input, and nothing is lost in the pipe.
  * `copy_file_threads`: but the writer stops for good when it finds the pipe empty before `eof` is
    set, or `eof` set before the pipe is empty. The copy is complete if and only if neither happens.
-/
import DemosOsLinux.CopyFile.Select

namespace DemosOsLinux.CopyFile.Threads

open Lib

/-- The places of `reader`; `store` has the result of `push`. -/
inductive ReaderPc where
  | room
  | eofTest
  | push
  | store (eof : Bool)
  | outerTest
  | returned
  deriving DecidableEq

/-- The places of `writer`; `eofTest` and `dataTest` are the two parts of the outer test. -/
inductive WriterPc where
  | data
  | pull
  | eofTest
  | dataTest
  | returned
  deriving DecidableEq

structure State where
  pipe : CircularPipe
  input : List UInt8
  output : List UInt8
  eof : Bool
  reader : ReaderPc
  writer : WriterPc

/-- One step of the reader; `n` is what `read(2)` returns. -/
def readerStep (s : State) (n : Nat) : Option State :=
  match s.reader with
  | .room => some { s with reader := if s.pipe.room ≠ 0 then .eofTest else .outerTest }
  | .eofTest => some { s with reader := if !s.eof then .push else .outerTest }
  | .push =>
      if n ≤ s.pipe.pushCount ∧ n ≤ s.input.length ∧
          (n = 0 → s.pipe.pushCount = 0 ∨ s.input = []) then
        let r := s.pipe.push (s.input.take n)
        some { s with pipe := r.1, input := s.input.drop n, reader := .store r.2 }
      else none
  | .store eof => some { s with eof := eof, reader := .room }
  | .outerTest => some { s with reader := if !s.eof then .room else .returned }
  | .returned => none

/-- One step of the writer; `n` is what `write(2)` returns. -/
def writerStep (s : State) (n : Nat) : Option State :=
  match s.writer with
  | .data => some { s with writer := if s.pipe.data ≠ 0 then .pull else .eofTest }
  | .pull =>
      if n ≤ s.pipe.pullCount ∧ (n = 0 → s.pipe.pullCount = 0) then
        let r := s.pipe.pull n
        some { s with pipe := r.1, output := s.output ++ r.2, writer := .data }
      else none
  | .eofTest => some { s with writer := if !s.eof then .dataTest else .returned }
  | .dataTest => some { s with writer := if s.pipe.data ≠ 0 then .data else .returned }
  | .returned => none

inductive Act where
  | reader (n : Nat)
  | writer (n : Nat)

def step (s : State) : Act → Option State
  | .reader n => readerStep s n
  | .writer n => writerStep s n

def machine : Machine State Act Empty where
  step s a := (step s a).map fun s' => (s', [])

def initState (size : UInt64) (mem : Nat → UInt8) (input : List UInt8) : State where
  pipe := CircularPipe.ctor size.toNat mem
  input := input
  output := []
  eof := false
  reader := .room
  writer := .data

/-- If the writer leaves its loop in this step, the pipe is empty and the input has been read. -/
def leavesLate (s : State) : Act → Bool
  | .reader _ => true
  | .writer _ =>
      match s.writer with
      | .eofTest => !s.eof || s.pipe.data = 0
      | .dataTest => s.pipe.data ≠ 0 || s.input.isEmpty
      | _ => true

/-! ## The two threads -/

/-- The copy as one thread would do it: the end of the input has been seen as soon as `push` has
    reported it. -/
def view (s : State) : CopyFile.State :=
  ⟨s.pipe, s.input, s.output, s.eof || s.reader = .store true, false⟩

/-- What the reader knows at each place. -/
def ReaderFact (s : State) : Prop :=
  match s.reader with
  | .eofTest => 0 < s.pipe.room
  | .push => 0 < s.pipe.room ∧ s.eof = false
  | .store _ => s.eof = false
  | .returned => s.eof = true
  | _ => True

structure ThreadInv (whole : List UInt8) (s : State) : Prop where
  copy : CopyInv whole (view s)
  reader : ReaderFact s
  writer : s.writer = .pull → 0 < s.pipe.data

section Steps

variable {whole : List UInt8} {s s' : State} {n : Nat}

section Steps

variable (inv : ThreadInv whole s)
include inv

/-- The reader's own bookkeeping is not seen in the copy. -/
theorem ThreadInv.moveReader (pc : ReaderPc) (hview : view { s with reader := pc } = view s)
    (hfact : ReaderFact { s with reader := pc }) : ThreadInv whole { s with reader := pc } :=
  ⟨hview ▸ inv.copy, hfact, inv.writer⟩

theorem ThreadInv.moveWriter {pc : WriterPc}
    (hpull : pc = .pull → 0 < s.pipe.data) : ThreadInv whole { s with writer := pc } :=
  ⟨inv.copy, inv.reader, hpull⟩

theorem ThreadInv.factAt {pc : ReaderPc} (hpc : s.reader = pc) :
    ReaderFact { s with reader := pc } := by
  subst hpc
  exact inv.reader

theorem push_inv (hpc : s.reader = .push) (h : readerStep s n = some s') : ThreadInv whole s' := by
  obtain ⟨hroom, heof⟩ : 0 < s.pipe.room ∧ s.eof = false := inv.factAt hpc
  simp only [readerStep, hpc] at h
  obtain ⟨hn, rfl⟩ := guard_inj h
  have hasks : (view s).asksRead = true := by
    simp [CopyFile.State.asksRead, view, heof, hpc, CircularPipe.canPush_iff, hroom]
  have hpush : doPush (view s) n = some (view
      { s with
        pipe := (s.pipe.push (s.input.take n)).1
        input := s.input.drop n
        reader := .store (s.pipe.push (s.input.take n)).2 }) := by
    refine (if_pos hn).trans ?_
    cases hflag : (s.pipe.push (s.input.take n)).2 <;> simp [view, heof, hpc, hflag]
  obtain ⟨hcopy, _, hdata⟩ := doPush_inv inv.copy hasks hpush
  exact ⟨hcopy, heof, fun hw => Nat.lt_of_lt_of_le (inv.writer hw) hdata⟩

theorem readerStep_inv (h : readerStep s n = some s') : ThreadInv whole s' := by
  cases hpc : s.reader with
  | room =>
    simp only [readerStep, hpc] at h
    obtain rfl := Option.some.inj h
    by_cases hroom : s.pipe.room ≠ 0
    · rw [if_pos hroom]
      exact inv.moveReader .eofTest (by simp [view, hpc]) (Nat.pos_of_ne_zero hroom)
    · rw [if_neg hroom]
      exact inv.moveReader .outerTest (by simp [view, hpc]) trivial
  | eofTest =>
    simp only [readerStep, hpc] at h
    obtain rfl := Option.some.inj h
    have hroom : 0 < s.pipe.room := inv.factAt hpc
    by_cases heof : (!s.eof) = true
    · rw [if_pos heof]
      exact inv.moveReader .push (by simp [view, hpc]) ⟨hroom, by simpa using heof⟩
    · rw [if_neg heof]
      exact inv.moveReader .outerTest (by simp [view, hpc]) trivial
  | push => exact push_inv inv hpc h
  | store eof =>
    simp only [readerStep, hpc] at h
    obtain rfl := Option.some.inj h
    have hfalse : s.eof = false := inv.factAt hpc
    have hview : view { s with eof := eof, reader := .room } = view s := by
      cases eof <;> simp [view, hpc, hfalse]
    exact ⟨hview ▸ inv.copy, trivial, inv.writer⟩
  | outerTest =>
    simp only [readerStep, hpc] at h
    obtain rfl := Option.some.inj h
    by_cases heof : (!s.eof) = true
    · rw [if_pos heof]
      exact inv.moveReader .room (by simp [view, hpc]) trivial
    · rw [if_neg heof]
      exact inv.moveReader .returned (by simp [view, hpc]) (show s.eof = true by simpa using heof)
  | returned => simp [readerStep, hpc] at h

end Steps

/-- The writer only makes room. -/
theorem room_pull {p : CircularPipe} (wf : p.Wf) (hn : n ≤ p.pullCount) :
    p.room ≤ (p.pull n).1.room := by
  have hbefore := CircularPipe.data_add_room wf
  have hafter := CircularPipe.data_add_room (CircularPipe.wf_pull wf n)
  have hsize : (p.pull n).1.size = p.size := rfl
  have hdata := data_pull wf hn
  omega

theorem pull_inv (inv : ThreadInv whole s) (hpc : s.writer = .pull)
    (h : writerStep s n = some s') : ThreadInv whole s' := by
  simp only [writerStep, hpc] at h
  obtain ⟨hn, rfl⟩ := guard_inj h
  have hpull : doPull (view s) n = some (view
      { s with
        pipe := (s.pipe.pull n).1
        output := s.output ++ (s.pipe.pull n).2
        writer := .data }) := if_pos hn
  obtain ⟨hcopy, _⟩ := doPull_inv inv.copy (inv.writer hpc) hpull
  have hroom := room_pull inv.copy.wf hn.1
  refine ⟨hcopy, ?_, fun hw => nomatch hw⟩
  unfold ReaderFact
  cases hreader : s.reader with
  | eofTest => exact Nat.lt_of_lt_of_le (inv.factAt hreader) hroom
  | push =>
    obtain ⟨hbefore, heof⟩ := inv.factAt hreader
    exact ⟨Nat.lt_of_lt_of_le hbefore hroom, heof⟩
  | _ => exact inv.factAt hreader

theorem writerStep_inv (inv : ThreadInv whole s) (h : writerStep s n = some s') :
    ThreadInv whole s' := by
  cases hpc : s.writer with
  | data =>
    simp only [writerStep, hpc] at h
    obtain rfl := Option.some.inj h
    by_cases hdata : s.pipe.data ≠ 0
    · exact inv.moveWriter fun _ => Nat.pos_of_ne_zero hdata
    · rw [if_neg hdata]
      exact inv.moveWriter fun hw => nomatch hw
  | pull => exact pull_inv inv hpc h
  | eofTest =>
    simp only [writerStep, hpc] at h
    obtain rfl := Option.some.inj h
    refine inv.moveWriter ?_
    split <;> exact fun hw => nomatch hw
  | dataTest =>
    simp only [writerStep, hpc] at h
    obtain rfl := Option.some.inj h
    refine inv.moveWriter ?_
    split <;> exact fun hw => nomatch hw
  | returned => simp [writerStep, hpc] at h

theorem threadInv_of_step {a : Act} (inv : ThreadInv whole s) (h : step s a = some s') :
    ThreadInv whole s' := by
  cases a with
  | reader n => exact readerStep_inv inv h
  | writer n => exact writerStep_inv inv h

/-! ## The writer leaves -/

theorem readerStep_frame (h : readerStep s n = some s') :
    s'.writer = s.writer ∧ s'.output = s.output := by
  cases hpc : s.reader with
  | push =>
    simp only [readerStep, hpc] at h
    obtain ⟨_, rfl⟩ := guard_inj h
    exact ⟨rfl, rfl⟩
  | returned => simp [readerStep, hpc] at h
  | _ =>
    simp only [readerStep, hpc] at h
    obtain rfl := Option.some.inj h
    exact ⟨rfl, rfl⟩

/-- After the writer has returned the output stays as it is. -/
theorem step_of_returned {a : Act} (hret : s.writer = .returned) (h : step s a = some s') :
    s'.writer = .returned ∧ s'.output = s.output ∧ leavesLate s a = true := by
  cases a with
  | reader n =>
    obtain ⟨hwriter, houtput⟩ := readerStep_frame h
    exact ⟨hwriter.trans hret, houtput, rfl⟩
  | writer n => simp [step, writerStep, hret] at h

theorem ThreadInv.output_eq_iff (inv : ThreadInv whole s) :
    s.output = whole ↔ s.pipe.data = 0 ∧ s.input = [] := by
  have hbytes : s.output ++ (s.pipe.stored ++ s.input) = whole := inv.copy.bytes
  have hlen : s.pipe.stored.length = s.pipe.data := CircularPipe.length_stored inv.copy.wf
  rw [← hbytes, List.self_eq_append_right, List.append_eq_nil_iff, ← hlen,
    List.length_eq_zero_iff]

/-- A step of the writer that does not leave its loop is never too early, and one that does is not
    if and only if the output is complete. -/
theorem leavesLate_iff {a : Act} (inv : ThreadInv whole s) (hrun : s.writer ≠ .returned)
    (h : step s a = some s') :
    leavesLate s a = true ↔ (s'.writer = .returned → s'.output = whole) := by
  cases a with
  | reader n =>
    have hwriter := (readerStep_frame h).1
    exact iff_of_true rfl fun hret => absurd (hwriter.symm.trans hret) hrun
  | writer n =>
    have hiff := inv.output_eq_iff
    cases hpc : s.writer with
    | data =>
      simp only [step, writerStep, hpc] at h
      obtain rfl := Option.some.inj h
      refine iff_of_true (by simp [leavesLate, hpc]) ?_
      split <;> exact fun hret => nomatch hret
    | pull =>
      simp only [step, writerStep, hpc] at h
      obtain ⟨_, rfl⟩ := guard_inj h
      exact iff_of_true (by simp [leavesLate, hpc]) fun hret => nomatch hret
    | eofTest =>
      simp only [step, writerStep, hpc] at h
      obtain rfl := Option.some.inj h
      cases heof : s.eof with
      | false => simp [leavesLate, hpc, heof]
      | true =>
        -- `eof` is set: the input has been read
        have hinput : s.input = [] := inv.copy.eof (by simp [view, heof])
        simp [leavesLate, hpc, heof, hiff, hinput]
    | dataTest =>
      simp only [step, writerStep, hpc] at h
      obtain rfl := Option.some.inj h
      by_cases hdata : s.pipe.data = 0
      · simp [leavesLate, hpc, hdata, hiff]
      · simp [leavesLate, hpc, hdata]
    | returned => exact absurd hpc hrun

end Steps

/-! ## Whole executions -/

/-- What holds as long as the writer has not left too early. -/
def Whole (whole : List UInt8) (s : State) : Prop :=
  ThreadInv whole s ∧ (s.writer = .returned → s.output = whole)

def Cut (whole : List UInt8) (s : State) : Prop := s.writer = .returned ∧ s.output ≠ whole

section Runs

variable {whole : List UInt8} {s s' : State} {a : Act} {es : List Empty}

theorem step_of_machine (h : machine.step s a = some (s', es)) : step s a = some s' := by
  exact (Machine.quiet_step h).1

theorem whole_of_late (hlate : leavesLate s a = true) (inv : Whole whole s)
    (h : step s a = some s') : Whole whole s' := by
  refine ⟨threadInv_of_step inv.1 h, ?_⟩
  by_cases hret : s.writer = .returned
  · intro _
    rw [(step_of_returned hret h).2.1]
    exact inv.2 hret
  · exact (leavesLate_iff inv.1 hret h).mp hlate

theorem cut_of_early (hearly : ¬leavesLate s a = true) (inv : Whole whole s)
    (h : step s a = some s') : Cut whole s' := by
  by_cases hret : s.writer = .returned
  · exact absurd (step_of_returned hret h).2.2 hearly
  · rw [leavesLate_iff inv.1 hret h, Classical.not_imp] at hearly
    exact hearly

theorem cut_of_step (hcut : Cut whole s) (h : step s a = some s') : Cut whole s' := by
  obtain ⟨hret, houtput, _⟩ := step_of_returned hcut.1 h
  exact ⟨hret, houtput ▸ hcut.2⟩

theorem threadInv_initState {size : UInt64} (hsize : 2 ≤ size.toNat) (mem : Nat → UInt8)
    (whole : List UInt8) : ThreadInv whole (initState size mem whole) := by
  refine ⟨⟨CircularPipe.wf_ctor mem (by omega) size.toNat_lt, hsize, ?_, ?_⟩, trivial, ?_⟩
  · show [] ++ ((CircularPipe.ctor size.toNat mem).stored ++ whole) = whole
    rw [CircularPipe.stored_ctor mem (by omega) size.toNat_lt]
    rfl
  · intro heof
    cases heof
  · intro hw
    cases hw

end Runs

/-- **copy_file_threads.** For every input, every pipe of at least 2 bytes and every interleaving with
    short transfers: the output is always a prefix of the input, and the reader returns only when it
    has read the whole input. When the writer has returned, the output is the input if and only if
    the writer did not leave its loop before the input had been read and the pipe was empty. -/
theorem copy_file_threads (size : UInt64) (hsize : 2 ≤ size.toNat) (mem : Nat → UInt8)
    (input : List UInt8) (acts : List Act) (s : State) (tr : List Empty)
    (hr : machine.run (initState size mem input) acts = some (s, tr)) :
    s.output <+: input ∧ (s.reader = .returned → s.input = []) ∧
    (s.writer = .returned →
      (s.output = input ↔
        machine.Along (fun s a => leavesLate s a = true) (initState size mem input) acts)) := by
  have hinit := threadInv_initState hsize mem input
  have inv : ThreadInv input s := machine.run_inv (fun _ => True) (ThreadInv input)
    (fun _ _ _ _ _ inv hs => threadInv_of_step inv (step_of_machine hs)) (fun _ _ => trivial)
    hinit hr
  refine ⟨?_, ?_, ?_⟩
  · have hbytes : s.output ++ (s.pipe.stored ++ s.input) = input := inv.copy.bytes
    rw [← hbytes]
    exact List.prefix_append _ _
  · intro hret
    have heof : s.eof = true := inv.factAt hret
    exact inv.copy.eof (by simp [view, heof])
  · intro hret
    exact machine.run_along_iff (fun s a => leavesLate s a = true) (fun s _ => Whole input s)
      (fun s _ => Cut input s)
      (fun _ _ _ _ _ hlate inv hs => whole_of_late hlate inv (step_of_machine hs))
      (fun _ _ _ _ _ hearly inv hs => cut_of_early hearly inv (step_of_machine hs))
      (fun _ _ _ _ _ hcut hs => cut_of_step hcut (step_of_machine hs))
      ⟨hinit, fun hw => nomatch hw⟩ hr (fun hwhole => hwhole.2 hret) (fun hcut => hcut.2)

/-- The reader gets to the end of the input before the writer looks at the pipe. -/
def readerFirst : List Act :=
  [.reader 0, .reader 0, .reader 2, .reader 0, .reader 0, .reader 0, .reader 0, .reader 0,
    .reader 0, .reader 0, .reader 0,
    .writer 0, .writer 1, .writer 0, .writer 1, .writer 0, .writer 0]

theorem copy_file_threads_readerFirst :
    ∃ s tr, machine.run (initState 4 (fun _ => 0) [1, 2]) readerFirst = some (s, tr) ∧
      (s.reader = .returned ∧ s.writer = .returned) ∧ s.output = [1, 2] := by
  obtain ⟨s, tr, hr, hret⟩ := machine.exists_of_check (initState 4 (fun _ => 0) [1, 2]) readerFirst
    (fun s _ => s.reader = .returned ∧ s.writer = .returned) (by decide +kernel)
  have hal := machine.along_of_check leavesLate readerFirst (initState 4 (fun _ => 0) [1, 2])
    (by decide +kernel)
  have hcopy := copy_file_threads 4 (by decide) (fun _ => 0) [1, 2] readerFirst s tr hr
  exact ⟨s, tr, hr, hret, (hcopy.2.2 hret.2).mpr hal⟩

/-- The writer looks first and finds the pipe empty. -/
def writerFirst : List Act :=
  [.writer 0, .writer 0, .writer 0,
    .reader 0, .reader 0, .reader 2, .reader 0, .reader 0, .reader 0, .reader 0, .reader 0,
    .reader 0, .reader 0, .reader 0]

/-- Between its last look at the pipe and the test of `eof` the reader pushes the whole input and
    sets `eof`. -/
def readerBetween : List Act :=
  [.writer 0,
    .reader 0, .reader 0, .reader 2, .reader 0, .reader 0, .reader 0, .reader 0, .reader 0,
    .reader 0, .reader 0, .reader 0, .writer 0]

/-- Both threads return, and the output is empty. -/
theorem writer_leaves_early :
    (∃ s tr, machine.run (initState 4 (fun _ => 0) [1, 2]) writerFirst = some (s, tr) ∧
      s.reader = .returned ∧ s.writer = .returned ∧ s.output = []) ∧
    ∃ s tr, machine.run (initState 4 (fun _ => 0) [1, 2]) readerBetween = some (s, tr) ∧
      s.reader = .returned ∧ s.writer = .returned ∧ s.output = [] := by
  refine ⟨?_, ?_⟩
  · exact machine.exists_of_check (initState 4 (fun _ => 0) [1, 2]) writerFirst
      (fun s _ => s.reader = .returned ∧ s.writer = .returned ∧ s.output = []) (by decide +kernel)
  · exact machine.exists_of_check (initState 4 (fun _ => 0) [1, 2]) readerBetween
      (fun s _ => s.reader = .returned ∧ s.writer = .returned ∧ s.output = []) (by decide +kernel)

end DemosOsLinux.CopyFile.Threads
