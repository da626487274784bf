/-
  The watched child that forwards a fifo (exercises/pipe/pipe_watchdog/child.cc, `do1`).

  The alarm of the child can interrupt `open(2)` and `read(2)` of the fifo; both then fail with
  `EINTR`. A call that succeeds leaves `errno` as it is, and `write(2)` takes everything. One step of
  the machine is one round of the read loop; its action is what `read` returned, where `none` is the
  end of the file. The loop looks at `errno` also after a `read` that has succeeded.
  * `stuck_of_run`: once `errno` is `EINTR` the loop neither writes nor returns any more.
  * `do1_forwards`: so everything is forwarded if and only if no call is interrupted, and otherwise
    `do1` never returns.
-/
import DemosOsLinux.Lib.Machine
import DemosOsLinux.Lib.RingBuffer

namespace DemosOsLinux.Watchdog.Forward

open Lib

/-- `BUFSIZE`. -/
def bufsize : Nat := 1024

/-- `EINTR`. -/
def eintr : Nat := 4

/-- What one `read` returns when there is data. -/
structure Chunk where
  bytes : List UInt8
  pos : 0 < bytes.length
  lt : bytes.length < bufsize
  nonNul : 0 ∉ bytes

inductive Read where
  | data (c : Chunk)
  | interrupted

structure State where
  errno : Nat
  buffer : List UInt8
  /-- What has been written to standard output. -/
  out : List UInt8
  returned : Bool

/-- The loop around `open`, when so many calls are interrupted before one succeeds; the result is
    `errno` after it. -/
def openLoop (errno : Nat) : Nat → Nat
  | 0 => errno
  | n + 1 => openLoop eintr n

/-- `read(npfd, buffer, sizeof(buffer))`. -/
def doRead (s : State) : Option Read → Int × State
  | some (.data c) => (c.bytes.length, { s with buffer := overwrite s.buffer 0 c.bytes })
  | some .interrupted => (-1, { s with errno := eintr })
  | none => (0, s)

/-- The `strlen(buffer)` bytes of the string in `buffer`. -/
def cString (buffer : List UInt8) : List UInt8 := buffer.takeWhile (· ≠ 0)

def body (s : State) (rcount : Int) : State :=
  if s.errno ≠ eintr then
    let buffer := s.buffer.set rcount.toNat 0
    { s with buffer := buffer, out := s.out ++ cString buffer }
  else s

/-- One round of the read loop, or its end. -/
def round (s : State) (r : Option Read) : Option State :=
  if s.returned then none
  else
    let (rcount, s₁) := doRead s r
    if 0 < rcount || s₁.errno = eintr then some (body s₁ rcount)
    else some { s₁ with returned := true }

def machine : Machine State (Option Read) Empty where
  step s r := (round s r).map fun s' => (s', [])

/-- `do1` before the read loop; `mem` is what is on the stack. -/
def initState (mem : Nat → UInt8) (errno interruptions : Nat) : State :=
  ⟨openLoop errno interruptions, (List.range bufsize).map mem, [], false⟩

/-- All bytes that `read` returned. -/
def chunks (reads : List Read) : List UInt8 :=
  reads.flatMap fun
    | .data c => c.bytes
    | .interrupted => []

/-- Those before the first interruption. -/
def forwarded : List Read → List UInt8
  | [] => []
  | .data c :: reads => c.bytes ++ forwarded reads
  | .interrupted :: _ => []

/-! ## One round -/

theorem openLoop_eq_iff (errno interruptions : Nat) :
    openLoop errno interruptions ≠ eintr ↔ errno ≠ eintr ∧ interruptions = 0 := by
  induction interruptions generalizing errno with
  | zero => simp [openLoop]
  | succ n ih =>
    rw [openLoop, ih]
    simp

theorem forwarded_eq_chunks {reads : List Read} (h : .interrupted ∉ reads) :
    forwarded reads = chunks reads := by
  induction reads with
  | nil => rfl
  | cons r reads ih =>
    rw [List.mem_cons, not_or] at h
    cases r with
    | data c => rw [forwarded, ih h.2, chunks, chunks, List.flatMap_cons]
    | interrupted => exact absurd rfl h.1

/-- The chunk is terminated by the NUL that is stored behind it. -/
theorem cString_chunk {buffer : List UInt8} (hlen : buffer.length = bufsize) (c : Chunk) :
    cString ((overwrite buffer 0 c.bytes).set c.bytes.length 0) = c.bytes := by
  have hlt := c.lt
  have hbuffer : (overwrite buffer 0 c.bytes).set c.bytes.length 0 =
      c.bytes ++ 0 :: buffer.drop (c.bytes.length + 1) := by
    rw [overwrite, List.take_zero, List.nil_append, Nat.zero_add,
      List.set_append_right _ _ (Nat.le_refl _), Nat.sub_self,
      List.drop_eq_getElem_cons (by omega), List.set_cons_zero]
  have hchunk : ∀ b ∈ c.bytes, decide (b ≠ 0) = true := by
    intro b hb
    exact decide_eq_true fun h => c.nonNul (h ▸ hb)
  rw [cString, hbuffer, List.takeWhile_append_of_pos hchunk, List.takeWhile_cons_of_neg (by decide),
    List.append_nil]

section Round

variable {s : State} {out : List UInt8}

/-- The loop goes on, with `errno` at `EINTR` and nothing new in the output. -/
structure Stuck (out : List UInt8) (s : State) : Prop where
  errno : s.errno = eintr
  out : s.out = out
  running : s.returned = false

/-- The loop forwards; `out` is what it has written. -/
structure Forwards (out : List UInt8) (s : State) : Prop where
  errno : s.errno ≠ eintr
  buffer : s.buffer.length = bufsize
  out : s.out = out
  running : s.returned = false

theorem Stuck.round (h : Stuck out s) (r : Option Read) :
    ∃ s', round s r = some s' ∧ Stuck out s' := by
  cases r with
  | none => exact ⟨s, by simp [Forward.round, doRead, body, h.running, h.errno], h⟩
  | some r =>
    cases r with
    | data c =>
      refine ⟨{ s with buffer := overwrite s.buffer 0 c.bytes }, ?_, h.errno, h.out, h.running⟩
      simp [Forward.round, doRead, body, h.running, h.errno]
    | interrupted =>
      refine ⟨{ s with errno := eintr }, ?_, rfl, h.out, h.running⟩
      simp [Forward.round, doRead, body, h.running]

theorem Forwards.data (h : Forwards out s) (c : Chunk) :
    ∃ s', Forward.round s (some (.data c)) = some s' ∧ Forwards (out ++ c.bytes) s' := by
  have hne : c.bytes ≠ [] := List.ne_nil_of_length_pos c.pos
  have hlt := c.lt
  refine ⟨body { s with buffer := overwrite s.buffer 0 c.bytes } c.bytes.length, ?_, ?_⟩
  · simp [Forward.round, doRead, h.running, hne]
  · rw [body, if_pos h.errno, Int.toNat_natCast]
    refine ⟨h.errno, ?_, ?_, h.running⟩
    · rw [List.length_set, length_overwrite _ _ _ (by rw [h.buffer]; omega)]
      exact h.buffer
    · show s.out ++ cString ((overwrite s.buffer 0 c.bytes).set c.bytes.length 0) = out ++ c.bytes
      rw [cString_chunk h.buffer c, h.out]

theorem Forwards.interrupted (h : Forwards out s) :
    ∃ s', Forward.round s (some .interrupted) = some s' ∧ Stuck out s' := by
  refine ⟨{ s with errno := eintr }, ?_, rfl, h.out, h.running⟩
  simp [Forward.round, doRead, body, h.running]

theorem Forwards.eof (h : Forwards out s) :
    Forward.round s none = some { s with returned := true } := by
  simp [Forward.round, doRead, h.running, h.errno]

end Round

/-! ## Whole executions -/

section Runs

variable {out : List UInt8} {s : State}

theorem run_cons {s₁ s₂ : State} {r : Option Read} {rs : List (Option Read)}
    (h : round s r = some s₁) (hr : machine.run s₁ rs = some (s₂, [])) :
    machine.run s (r :: rs) = some (s₂, []) :=
  (machine.run_cons_eq_some s r rs s₂ []).mpr ⟨s₁, [], [], by simp [machine, h], hr, rfl⟩

/-- Whatever `read` returns from then on. -/
theorem stuck_of_run (h : Stuck out s) (rs : List (Option Read)) :
    ∃ s', machine.run s rs = some (s', []) ∧ Stuck out s' := by
  induction rs generalizing s with
  | nil => exact ⟨s, rfl, h⟩
  | cons r rs ih =>
    obtain ⟨s₁, h₁, hstuck⟩ := h.round r
    obtain ⟨s₂, hr, h₂⟩ := ih hstuck
    exact ⟨s₂, run_cons h₁ hr, h₂⟩

theorem Stuck.forever (h : Stuck out s) (m : Nat) :
    ∃ s' tr, machine.run s (List.replicate m none) = some (s', tr) ∧ s'.returned = false ∧
      s'.out = s.out := by
  obtain ⟨s', hr, h'⟩ := stuck_of_run h (List.replicate m none)
  exact ⟨s', [], hr, h'.running, h'.out.trans h.out.symm⟩

/-- Up to the first interruption every chunk is forwarded. -/
theorem forwards_of_run (h : Forwards out s) (reads : List Read) :
    ∃ s', machine.run s (reads.map some) = some (s', []) ∧
      ((.interrupted ∉ reads ∧ Forwards (out ++ forwarded reads) s') ∨
        (.interrupted ∈ reads ∧ Stuck (out ++ forwarded reads) s')) := by
  induction reads generalizing s out with
  | nil => exact ⟨s, rfl, Or.inl ⟨List.not_mem_nil, by rwa [forwarded, List.append_nil]⟩⟩
  | cons r reads ih =>
    cases r with
    | data c =>
      obtain ⟨s₁, h₁, hforwards⟩ := h.data c
      obtain ⟨s₂, hr, hcases⟩ := ih hforwards
      refine ⟨s₂, run_cons h₁ hr, ?_⟩
      simpa [forwarded, List.append_assoc] using hcases
    | interrupted =>
      obtain ⟨s₁, h₁, hstuck⟩ := h.interrupted
      obtain ⟨s₂, hr, h₂⟩ := stuck_of_run hstuck (reads.map some)
      refine ⟨s₂, run_cons h₁ hr, Or.inr ⟨List.mem_cons_self, ?_⟩⟩
      rwa [forwarded, List.append_nil]

end Runs

/-- **do1.** For every sequence of chunks and interruptions, followed by the end of the file: `do1`
    returns after the end of the file and has written all chunks if and only if neither a `read` nor
    an `open` was interrupted, and `errno` was not `EINTR` before. Otherwise it goes on reading the
    end of the file for ever, and what it has written stays as it is. -/
theorem do1_forwards (mem : Nat → UInt8) (errno interruptions : Nat) (reads : List Read) :
    ∃ s tr, machine.run (initState mem errno interruptions) (reads.map some ++ [none]) =
        some (s, tr) ∧
      ((s.returned = true ∧ s.out = chunks reads) ↔
        (errno ≠ eintr ∧ interruptions = 0) ∧ .interrupted ∉ reads) ∧
      (s.returned = false → ∀ m, ∃ s' tr', machine.run s (List.replicate m none) = some (s', tr') ∧
        s'.returned = false ∧ s'.out = s.out) := by
  have happend {s₁ s₂ s₃ : State} {rs rs' : List (Option Read)}
      (h : machine.run s₁ rs = some (s₂, [])) (h' : machine.run s₂ rs' = some (s₃, [])) :
      machine.run s₁ (rs ++ rs') = some (s₃, []) :=
    (machine.run_append_eq_some rs rs' s₁ s₃ []).mpr ⟨s₂, [], [], h, h', rfl⟩
  rw [← openLoop_eq_iff errno interruptions]
  by_cases hopen : openLoop errno interruptions = eintr
  · -- an `open` was interrupted
    obtain ⟨s, hr, hstuck⟩ := stuck_of_run (s := initState mem errno interruptions)
      ⟨hopen, rfl, rfl⟩ (reads.map some ++ [none])
    refine ⟨s, [], hr, iff_of_false ?_ ?_, fun _ => hstuck.forever⟩
    · simp [hstuck.running]
    · exact fun h => h.1 hopen
  · obtain ⟨s₁, hr₁, ⟨hnone, hf⟩ | ⟨hsome, hstuck₁⟩⟩ :=
      forwards_of_run (s := initState mem errno interruptions)
        ⟨hopen, by simp [initState], rfl, rfl⟩ reads
    · refine ⟨{ s₁ with returned := true }, [], happend hr₁ (run_cons hf.eof rfl), ?_, ?_⟩
      · refine iff_of_true ⟨rfl, ?_⟩ ⟨hopen, hnone⟩
        exact hf.out.trans (forwarded_eq_chunks hnone)
      · intro h
        cases h
    · -- a `read` was interrupted
      obtain ⟨s, hr, hstuck⟩ := stuck_of_run hstuck₁ [none]
      refine ⟨s, [], happend hr₁ hr, iff_of_false ?_ ?_, fun _ => hstuck.forever⟩
      · simp [hstuck.running]
      · exact fun h => h.2 hsome

def hello : Chunk := ⟨[104, 101, 108, 108, 111], by decide, by decide, by decide⟩

/-- One interrupted `read` before the only chunk: nothing is written, and `do1` does not return at
    the end of the file. -/
theorem interrupted_read_drops_chunk :
    ∃ s tr, machine.run (initState (fun _ => 0) 0 0) [some .interrupted, some (.data hello), none] =
        some (s, tr) ∧ s.out = [] ∧ s.returned = false :=
  machine.exists_of_check (initState (fun _ => 0) 0 0) [some .interrupted, some (.data hello), none]
    (fun s _ => s.out = [] ∧ s.returned = false) (by decide +kernel)

end DemosOsLinux.Watchdog.Forward
