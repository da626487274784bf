/-
  The crash daemon (examples_standalone/crash_handling/crashd.c, `crashd_main` from its `select` on).

  The daemon reads the message in parts into a static buffer. The pipe of the state is what is still
  to come on the stream; a run chooses how the calls of `select(2)` and `read(2)` end and when the
  signal handlers set their flags. A `continue` goes to the condition of the `do`-`while` loop, with
  `ret` at -1.
  * `ReadInv`: what holds between two calls as long as no flag is set; `readInv_of_step`.
  * `crashd_reassembles`: the buffer, the window and the requests at every point of a run.
-/
import DemosOsLinux.CrashHandling.Handler
import DemosOsLinux.Lib.Machine
import DemosOsLinux.Lib.MachineInt
import DemosOsLinux.Lib.RingBuffer

namespace DemosOsLinux.CrashHandling

open Lib

/-- `CRASH_MAX_MSG_SIZE`. -/
def crashMaxMsgSize : Nat := 4096

/-- Where `crashd_main` is; `ended` is behind the read loop. -/
inductive DaemonPc where
  | select
  | read
  | ended
  | exited
  | bailOut
  deriving DecidableEq

structure Daemon where
  pc : DaemonPc
  buf : List UInt8
  p : Nat
  remainingBytes : Int
  errno : Nat
  terminateFlag : Bool
  timeoutFlag : Bool
  pipe : List UInt8

/-- The result of one `read`. -/
inductive ReadResult where
  | data (k : Nat)
  | eof
  | interrupted
  | error (e : Nat) (ne : e ≠ eintr)

inductive DaemonAct where
  | term
  | alrm
  | selectReady
  | selectInterrupted
  | selectError (e : Nat) (ne : e ≠ eintr)
  | read (r : ReadResult)

/-- A call of `read`: where, how much was asked for, what arrived, and whether it failed with an
    error other than `EINTR`. -/
structure ReadCall where
  p : Nat
  count : Nat
  bytes : List UInt8
  failed : Bool

/-- `read(fd, p, remaining_bytes)`. -/
def doRead (s : Daemon) : ReadResult → Option (Int × Daemon × ReadCall)
  | .data k =>
      let n := u64OfInt s.remainingBytes
      let bytes := s.pipe.take k
      if 0 < k ∧ k ≤ n ∧ k ≤ s.pipe.length then
        some (k, { s with buf := overwrite s.buf s.p bytes, pipe := s.pipe.drop k },
          ⟨s.p, n, bytes, false⟩)
      else none
  | .eof =>
      let n := u64OfInt s.remainingBytes
      if s.pipe = [] ∨ n = 0 then some (0, s, ⟨s.p, n, [], false⟩) else none
  | .interrupted =>
      some (-1, { s with errno := eintr }, ⟨s.p, u64OfInt s.remainingBytes, [], false⟩)
  | .error e _ => some (-1, { s with errno := e }, ⟨s.p, u64OfInt s.remainingBytes, [], true⟩)

/-- `while(ret && (remaining_bytes>0))`. -/
def loopTest (s : Daemon) (ret : Int) : Daemon :=
  if ret ≠ 0 ∧ 0 < s.remainingBytes then s else { s with pc := .ended }

/-- The body of the loop behind its `read`. -/
def loopBody (s : Daemon) (ret : Int) : Daemon :=
  if 0 = ret ∨ s.terminateFlag then { s with pc := .ended }
  else if s.timeoutFlag then { s with pc := .ended }
  else if -1 = ret ∧ eintr = s.errno then loopTest s ret
  else if -1 = ret then { s with pc := .ended }
  else loopTest { s with p := s.p + ret.toNat, remainingBytes := s.remainingBytes - ret } ret

def daemonStep (s : Daemon) : DaemonAct → Option (Daemon × List ReadCall)
  | .term => some ({ s with terminateFlag := true }, [])
  | .alrm => some ({ s with timeoutFlag := true }, [])
  | .selectReady => if s.pc = .select then some ({ s with pc := .read }, []) else none
  | .selectInterrupted =>
      if s.pc = .select then
        some (if s.terminateFlag then { s with errno := eintr, pc := .exited }
          else { s with errno := eintr }, [])
      else none
  | .selectError e _ =>
      if s.pc = .select then some ({ s with errno := e, pc := .bailOut }, []) else none
  | .read r =>
      if s.pc = .read then (doRead s r).map fun u => (loopBody u.2.1 u.1, [u.2.2]) else none

def daemon : Machine Daemon DaemonAct ReadCall := ⟨daemonStep⟩

/-- `crashd_main` at its `select`, with `stream` to come. -/
def initDaemon (errno : Nat) (stream : List UInt8) : Daemon where
  pc := .select
  buf := List.replicate crashMaxMsgSize 0
  p := 0
  remainingBytes := crashMaxMsgSize
  errno := errno
  terminateFlag := false
  timeoutFlag := false
  pipe := stream

/-- All bytes that the calls returned. -/
def readSoFar (calls : List ReadCall) : List UInt8 := calls.flatMap ReadCall.bytes

/-- Neither SIGTERM nor SIGALRM. -/
def DaemonAct.Quiet : DaemonAct → Prop
  | .term => False
  | .alrm => False
  | _ => True

/-! ## The loop -/

/-- What holds while no flag is set; `calls` are the calls of `read` so far. -/
structure ReadInv (stream : List UInt8) (s : Daemon) (calls : List ReadCall) : Prop where
  terminate : s.terminateFlag = false
  timeout : s.timeoutFlag = false
  len : s.buf.length = crashMaxMsgSize
  window : s.p + s.remainingBytes = crashMaxMsgSize
  count : s.p = (readSoFar calls).length
  buf : s.buf.take s.p = readSoFar calls
  stream : stream = readSoFar calls ++ s.pipe
  nonneg : 0 ≤ s.remainingBytes
  running : s.pc = .select ∨ s.pc = .read → 0 < s.remainingBytes
  requests : ∀ c ∈ calls, 1 ≤ c.count ∧ c.p + c.count ≤ crashMaxMsgSize
  complete : s.pc = .ended → (∀ c ∈ calls, c.failed = false) → s.remainingBytes = 0 ∨ s.pipe = []

theorem readInv_initDaemon (errno : Nat) (stream : List UInt8) :
    ReadInv stream (initDaemon errno stream) [] where
  terminate := rfl
  timeout := rfl
  len := List.length_replicate
  window := by simp [initDaemon]
  count := rfl
  buf := rfl
  stream := rfl
  nonneg := by simp [initDaemon]
  running := fun _ => show (0 : Int) < crashMaxMsgSize by decide
  requests := fun c hc => absurd hc List.not_mem_nil
  complete := fun h => nomatch h

section Step

variable {stream : List UInt8} {s s' : Daemon} {calls es : List ReadCall}

section Steps

variable (inv : ReadInv stream s calls)
include inv

/-- A call of `read` in the loop asks for the window. -/
theorem ReadInv.requests_append (hpc : s.pc = .read) (bytes : List UInt8) (failed : Bool) :
    ∀ c ∈ calls ++ [⟨s.p, u64OfInt s.remainingBytes, bytes, failed⟩],
      1 ≤ c.count ∧ c.p + c.count ≤ crashMaxMsgSize := by
  have hpos := inv.running (Or.inr hpc)
  have hwindow := inv.window
  intro c hc
  rcases List.mem_append.mp hc with hc | hc
  · exact inv.requests c hc
  · rw [List.mem_singleton] at hc
    subst hc
    simp only [u64OfInt, crashMaxMsgSize] at hwindow ⊢
    omega

/-- One more call that returns no bytes and leaves buffer and window alone. -/
theorem ReadInv.idle (hpc : s.pc = .read) (errno : Nat) (pc : DaemonPc) (failed : Bool)
    (hdone : pc = .ended → failed = true ∨ s.remainingBytes = 0 ∨ s.pipe = []) :
    ReadInv stream { s with errno := errno, pc := pc }
      (calls ++ [⟨s.p, u64OfInt s.remainingBytes, [], failed⟩]) := by
  have hpos := inv.running (Or.inr hpc)
  have hsame : readSoFar (calls ++ [⟨s.p, u64OfInt s.remainingBytes, [], failed⟩]) =
      readSoFar calls := by
    simp [readSoFar]
  refine ⟨inv.terminate, inv.timeout, inv.len, inv.window, ?_, ?_, ?_, inv.nonneg, fun _ => hpos,
    inv.requests_append hpc [] failed, ?_⟩
  · rw [hsame]
    exact inv.count
  · rw [hsame]
    exact inv.buf
  · rw [hsame]
    exact inv.stream
  · intro hended hfailed
    have hlast := hfailed _ (List.mem_append_right calls (List.mem_singleton.mpr rfl))
    rcases hdone hended with h | h
    · rw [h] at hlast
      cases hlast
    · exact h

/-- A call that returns `k` bytes: they follow the ones before, and the window moves. -/
theorem ReadInv.data (hpc : s.pc = .read) {k : Nat} (pc : DaemonPc)
    (hk : k ≤ u64OfInt s.remainingBytes) (hpipe : k ≤ s.pipe.length)
    (hmore : pc = .select ∨ pc = .read → (k : Int) < s.remainingBytes)
    (hdone : pc = .ended → s.remainingBytes ≤ k) :
    ReadInv stream
      { s with
        buf := overwrite s.buf s.p (s.pipe.take k)
        pipe := s.pipe.drop k
        p := s.p + k
        remainingBytes := s.remainingBytes - k
        pc := pc }
      (calls ++ [⟨s.p, u64OfInt s.remainingBytes, s.pipe.take k, false⟩]) := by
  have hpos := inv.running (Or.inr hpc)
  have hwindow := inv.window
  have hlen := inv.len
  have hfits : s.p + k ≤ s.buf.length ∧ (k : Int) ≤ s.remainingBytes := by
    simp only [u64OfInt, crashMaxMsgSize] at hk hwindow hlen
    omega
  have htake : (s.pipe.take k).length = k := by
    rw [List.length_take]
    omega
  have hgot : readSoFar (calls ++ [⟨s.p, u64OfInt s.remainingBytes, s.pipe.take k, false⟩]) =
      readSoFar calls ++ s.pipe.take k := by
    simp [readSoFar]
  refine ⟨inv.terminate, inv.timeout, ?_, ?_, ?_, ?_, ?_, ?_, ?_,
    inv.requests_append hpc (s.pipe.take k) false, ?_⟩
  · show (overwrite s.buf s.p (s.pipe.take k)).length = crashMaxMsgSize
    rw [length_overwrite _ _ _ (by omega)]
    exact hlen
  · show ((s.p + k : Nat) : Int) + (s.remainingBytes - k) = crashMaxMsgSize
    omega
  · rw [hgot, List.length_append, htake, ← inv.count]
  · show (overwrite s.buf s.p (s.pipe.take k)).take (s.p + k) = _
    have htaken := take_overwrite s.buf s.p (s.pipe.take k) (by omega)
    rw [htake] at htaken
    rw [hgot, htaken, inv.buf]
  · show stream = _ ++ s.pipe.drop k
    rw [hgot, List.append_assoc, List.take_append_drop]
    exact inv.stream
  · show 0 ≤ s.remainingBytes - k
    omega
  · intro hrun
    have hlt := hmore hrun
    show 0 < s.remainingBytes - k
    omega
  · intro hended _
    have hle := hdone hended
    left
    show s.remainingBytes - k = 0
    omega

theorem ReadInv.read (hpc : s.pc = .read) {r : ReadResult} {ret : Int} {s₁ : Daemon} {c : ReadCall}
    (h : doRead s r = some (ret, s₁, c)) : ReadInv stream (loopBody s₁ ret) (calls ++ [c]) := by
  have hpos := inv.running (Or.inr hpc)
  cases r with
  | data k =>
    obtain ⟨⟨hk, hle, hpipe⟩, heq⟩ := Option.ite_none_right_eq_some.mp h
    obtain ⟨rfl, hrest⟩ := result_inj heq
    obtain ⟨rfl, rfl⟩ := Prod.mk.inj hrest
    have hbody : loopBody { s with
          buf := overwrite s.buf s.p (s.pipe.take k), pipe := s.pipe.drop k } k =
        loopTest { s with
          buf := overwrite s.buf s.p (s.pipe.take k), pipe := s.pipe.drop k,
          p := s.p + k, remainingBytes := s.remainingBytes - k } k := by
      simp [loopBody, inv.terminate, inv.timeout, show ¬(0 : Int) = k by omega,
        show ¬(-1 : Int) = k by omega]
    rw [hbody, loopTest]
    split
    · rename_i hcond
      have hlt : 0 < s.remainingBytes - k := hcond.2
      exact inv.data hpc s.pc hle hpipe (fun _ => by omega) (fun he => by rw [hpc] at he; cases he)
    · rename_i hcond
      have hge : ¬0 < s.remainingBytes - k := fun h' => hcond ⟨by omega, h'⟩
      exact inv.data hpc .ended hle hpipe (by simp) (fun _ => by omega)
  | eof =>
    obtain ⟨hcond, rfl, hrest⟩ := guard_result_inj h
    obtain ⟨rfl, rfl⟩ := Prod.mk.inj hrest
    have hempty : s.pipe = [] := by
      rcases hcond with h' | h'
      · exact h'
      · have hwindow := inv.window
        simp only [u64OfInt, crashMaxMsgSize] at h' hwindow
        omega
    have hbody : loopBody s 0 = { s with errno := s.errno, pc := .ended } := by
      simp [loopBody]
    rw [hbody]
    exact inv.idle hpc s.errno .ended false fun _ => Or.inr (Or.inr hempty)
  | interrupted =>
    -- the condition of the loop is true: `ret` is -1, and the window has not moved
    obtain ⟨rfl, heq⟩ := result_inj h
    obtain ⟨rfl, rfl⟩ := Prod.mk.inj heq
    have hbody : loopBody { s with errno := eintr } (-1) =
        { s with errno := eintr, pc := s.pc } := by
      simp [loopBody, loopTest, inv.terminate, inv.timeout, hpos]
    rw [hbody]
    exact inv.idle hpc eintr s.pc false fun he => by rw [hpc] at he; cases he
  | error e ne =>
    obtain ⟨rfl, heq⟩ := result_inj h
    obtain ⟨rfl, rfl⟩ := Prod.mk.inj heq
    have hbody : loopBody { s with errno := e } (-1) = { s with errno := e, pc := .ended } := by
      simp [loopBody, inv.terminate, inv.timeout, show ¬eintr = e from fun he => ne he.symm]
    rw [hbody]
    exact inv.idle hpc e .ended true fun _ => Or.inl rfl

/-- Before the loop only `pc` and `errno` change. -/
theorem ReadInv.wait (hpc : s.pc = .select) (errno : Nat) (pc : DaemonPc) (hdone : pc ≠ .ended) :
    ReadInv stream { s with errno := errno, pc := pc } (calls ++ []) := by
  rw [List.append_nil]
  exact ⟨inv.terminate, inv.timeout, inv.len, inv.window, inv.count, inv.buf, inv.stream,
    inv.nonneg, fun _ => inv.running (Or.inl hpc), inv.requests, fun he => absurd he hdone⟩

end Steps

theorem readInv_of_step {a : DaemonAct} (hq : a.Quiet) (inv : ReadInv stream s calls)
    (h : daemonStep s a = some (s', es)) : ReadInv stream s' (calls ++ es) := by
  cases a with
  | term => exact hq.elim
  | alrm => exact hq.elim
  | selectReady =>
    obtain ⟨hpc, rfl, rfl⟩ := guard_result_inj h
    exact inv.wait hpc s.errno .read (by decide)
  | selectInterrupted =>
    obtain ⟨hpc, rfl, rfl⟩ := guard_result_inj h
    rw [if_neg (by rw [inv.terminate]; decide)]
    exact inv.wait hpc eintr s.pc (by rw [hpc]; decide)
  | selectError e ne =>
    obtain ⟨hpc, rfl, rfl⟩ := guard_result_inj h
    exact inv.wait hpc e .bailOut (by decide)
  | read r =>
    obtain ⟨hpc, heq⟩ := Option.ite_none_right_eq_some.mp h
    obtain ⟨⟨ret, s₁, c⟩, hr, heq⟩ := Option.map_eq_some_iff.mp heq
    obtain ⟨rfl, rfl⟩ := Prod.mk.inj heq
    exact inv.read hpc hr

end Step

/-- **The crash daemon.** For every stream, every cutting of it into reads and every number of
    interruptions, as long as neither flag is set: `p` is behind the bytes read so far, which are in
    the buffer in order; `p + remaining_bytes` is the end of the buffer; every `read` asked for at
    least one byte and for no more than what was left of the buffer. When the loop has ended without
    a read error, the bytes read are the stream up to the size of the buffer. -/
theorem crashd_reassembles (errno : Nat) (stream : List UInt8) (acts : List DaemonAct)
    (hquiet : ∀ a ∈ acts, a.Quiet) (s : Daemon) (calls : List ReadCall)
    (hr : daemon.run (initDaemon errno stream) acts = some (s, calls)) :
    (s.buf.take (min (readSoFar calls).length crashMaxMsgSize) = readSoFar calls ∧
      readSoFar calls <+: stream) ∧
    (s.p = (readSoFar calls).length ∧ s.p + s.remainingBytes = s.buf.length) ∧
    (∀ c ∈ calls, 1 ≤ c.count ∧ c.count ≤ s.buf.length - c.p) ∧
    (s.pc = .ended → (∀ c ∈ calls, c.failed = false) →
      readSoFar calls = stream.take crashMaxMsgSize) := by
  have inv : ReadInv stream s calls :=
    daemon.run_induct DaemonAct.Quiet (ReadInv stream)
      (fun s tr a s₁ es hq inv hs => readInv_of_step hq inv hs) hquiet
      (readInv_initDaemon errno stream) hr
  have hwindow := inv.window
  have hnonneg := inv.nonneg
  have hcount := inv.count
  have hle : (readSoFar calls).length ≤ crashMaxMsgSize := by omega
  refine ⟨⟨?_, s.pipe, inv.stream.symm⟩, ⟨inv.count, ?_⟩, ?_, ?_⟩
  · rw [Nat.min_eq_left hle, ← inv.count]
    exact inv.buf
  · rw [inv.len]
    exact inv.window
  · intro c hc
    have hc := inv.requests c hc
    rw [inv.len]
    omega
  · intro hended hfailed
    conv => rhs; rw [inv.stream]
    rcases inv.complete hended hfailed with hfull | hempty
    · rw [List.take_append_of_le_length (by omega), List.take_of_length_le hle]
    · rw [hempty, List.append_nil, List.take_of_length_le hle]

/-- Two parts, with interruptions before, between and behind them. -/
def interruptedRun : List DaemonAct :=
  [.selectInterrupted, .selectReady, .read .interrupted, .read (.data 2), .read .interrupted,
    .read (.data 1), .read .interrupted, .read .eof]

theorem crashd_reassembles_interruptedRun :
    ∃ s calls, daemon.run (initDaemon 0 [1, 2, 3]) interruptedRun = some (s, calls) ∧
      s.pc = .ended ∧ s.buf.take 3 = [1, 2, 3] := by
  obtain ⟨s, calls, hr, hpc, hread⟩ := daemon.exists_of_check (initDaemon 0 [1, 2, 3])
    interruptedRun (fun s calls => s.pc = .ended ∧ readSoFar calls = [1, 2, 3]) (by decide +kernel)
  have hquiet : ∀ a ∈ interruptedRun, a.Quiet := by
    simp [interruptedRun, DaemonAct.Quiet]
  have hbuf := (crashd_reassembles 0 [1, 2, 3] interruptedRun hquiet s calls hr).1.1
  rw [hread] at hbuf
  exact ⟨s, calls, hr, hpc, hbuf⟩

end DemosOsLinux.CrashHandling
