/-
  The crash handler (examples_standalone/crash_handling/crash.c, `fault_handler`).

  The handler fills in the crash message and writes it to the pipe of the crash daemon. The write is
  retried when `ret && EINTR==errno`; a write that succeeds returns a positive `ret` and leaves
  `errno` as it is. `retryWrite` is that loop over the results of the calls of `write(2)`; it has a
  result when the fuel reaches the call after which the loop is left.
  * `retryWrite_eq_some_iff`: once `errno` is `EINTR`, only an error ends the loop, and every write
    that succeeds before it puts the message into the pipe once more.
  * `fault_handler_records_once`: when the message is recorded exactly once.
-/
import Mathlib.Data.Stream.Init
import Mathlib.Data.List.Count

namespace DemosOsLinux.CrashHandling

/-- `EINTR`. -/
def eintr : Nat := 4

/-- `CRASH_ASSERT_BUFFER_SIZE`. -/
def crashAssertBufferSize : Nat := 128

/-- `struct crash_message_struct`. -/
structure CrashMessage where
  magic : Nat
  processName : List UInt8
  processId : Nat
  threadId : Nat
  signalNumber : Nat
  signalCode : Nat
  faultAddress : Nat
  signalErrno : Nat
  handlerErrno : Nat
  numBacktraceFrames : Nat
  timestamp : Nat × Nat
  assertBuffer : List UInt8
  backtrace : List Nat

/-- `sizeof(g_crash_msg)`. -/
def sizeofCrashMsg : Nat := 408

/-- The fields of `siginfo_t` that are read. -/
structure SigInfo where
  siCode : Nat
  siAddr : Nat
  siErrno : Nat

/-- What the handler is called with, and what the calls on its way return. -/
structure Fault where
  signal : Nat
  siginfo : Option SigInfo
  frames : List Nat
  tid : Nat
  time : Nat × Nat

/-- `g_crash_msg` and what `g_assert_buf_ptr` points to. -/
structure Globals where
  crashMsg : CrashMessage
  assertBuf : Nat → UInt8
  assertBufPtr : Nat

/-- `fault_handler` up to the label `retry_write`. -/
def fillCrashMsg (g : Globals) (f : Fault) (errno : Nat) : Globals :=
  let msg := { g.crashMsg with
    numBacktraceFrames := f.frames.length
    backtrace := f.frames ++ g.crashMsg.backtrace.drop f.frames.length
    threadId := f.tid
    signalNumber := f.signal
    timestamp := f.time
    assertBuffer := (List.range crashAssertBufferSize).map fun i =>
      g.assertBuf (g.assertBufPtr + i) }
  let msg := match f.siginfo with
    | none => msg
    | some si => { msg with
        signalCode := si.siCode
        faultAddress := si.siAddr
        signalErrno := si.siErrno
        handlerErrno := errno }
  { g with crashMsg := msg, assertBufPtr := g.assertBufPtr + crashAssertBufferSize }

/-- One call of `write(2)` on the pipe. -/
inductive WriteResult where
  | full
  | interrupted
  | error (e : Nat) (ne : e ≠ eintr)
  deriving DecidableEq

def WriteResult.isError : WriteResult → Bool
  | .error _ _ => true
  | _ => false

/-- What arrives in the pipe. -/
inductive LogEntry where
  | message (m : CrashMessage)
  | symbols (frames : List Nat)

structure Handler where
  msg : CrashMessage
  errno : Nat
  log : List LogEntry
  closed : Bool
  aborted : Bool

/-- `write(g_logfd, &g_crash_msg, sizeof(g_crash_msg))`. -/
def doWrite (s : Handler) : WriteResult → Int × Handler
  | .full => (sizeofCrashMsg, { s with log := s.log ++ [.message s.msg] })
  | .interrupted => (-1, { s with errno := eintr })
  | .error e _ => (-1, { s with errno := e })

/-- The loop at `retry_write`: the number of calls and the state after the last one. -/
def retryWrite : Nat → Handler → Stream' WriteResult → Option (Nat × Handler)
  | 0, _, _ => none
  | fuel + 1, s, w =>
      let (ret, s₁) := doWrite s w.head
      if ret ≠ 0 ∧ eintr = s₁.errno then
        (retryWrite fuel s₁ w.tail).map fun r => (r.1 + 1, r.2)
      else some (1, s₁)

/-- `fault_handler` behind the loop: `backtrace_symbols_fd`, `close`, `abort`. -/
def crash (s : Handler) : Handler :=
  { s with
    log := s.log ++ [.symbols (s.msg.backtrace.take s.msg.numBacktraceFrames)]
    closed := true
    aborted := true }

/-- `fault_handler`, with the number of calls of `write`. -/
def faultHandler (g : Globals) (f : Fault) (errno : Nat) (w : Stream' WriteResult) (fuel : Nat) :
    Option (Nat × Handler) :=
  let s : Handler := ⟨(fillCrashMsg g f errno).crashMsg, errno, [], false, false⟩
  (retryWrite fuel s w).map fun r => (r.1, crash r.2)

/-- The crash messages in the pipe. -/
def messages (log : List LogEntry) : List CrashMessage :=
  log.filterMap fun
    | .message m => some m
    | .symbols _ => none

/-! ## The loop -/

variable {w : Stream' WriteResult} {s : Handler}

theorem retryWrite_succ_of_leave (s s₁ : Handler) (ret : Int) (hw : doWrite s w.head = (ret, s₁))
    (h : ¬(ret ≠ 0 ∧ eintr = s₁.errno)) (fuel : Nat) :
    retryWrite (fuel + 1) s w = some (1, s₁) := by
  rw [retryWrite, hw]
  exact if_neg h

theorem retryWrite_succ_of_retry (s s₁ : Handler) (ret : Int) (hw : doWrite s w.head = (ret, s₁))
    (h : ret ≠ 0 ∧ eintr = s₁.errno) (fuel : Nat) :
    retryWrite (fuel + 1) s w = (retryWrite fuel s₁ w.tail).map fun r => (r.1 + 1, r.2) := by
  rw [retryWrite, hw]
  exact if_pos h

/-- The first error is the result of call `k`, and it is `e`. -/
def FirstError (w : Stream' WriteResult) (k e : Nat) : Prop :=
  (∃ ne, w.get k = .error e ne) ∧ ∀ r ∈ w.take k, r.isError = false

theorem firstError_of_head {e : Nat} {ne : e ≠ eintr} (hw : w.head = .error e ne) (k e' : Nat) :
    FirstError w k e' ↔ k = 0 ∧ e' = e := by
  constructor
  · rintro ⟨⟨ne', hget⟩, hbefore⟩
    cases k with
    | zero =>
      have h : WriteResult.error e' ne' = .error e ne := hget.symm.trans hw
      cases h
      exact ⟨rfl, rfl⟩
    | succ k =>
      have herr := hbefore w.head (by rw [Stream'.take_succ]; exact List.mem_cons_self)
      rw [hw] at herr
      cases herr
  · rintro ⟨rfl, rfl⟩
    exact ⟨⟨ne, hw⟩, fun r hr => absurd hr List.not_mem_nil⟩

theorem firstError_of_not_head (hw : w.head.isError = false) (k e : Nat) :
    FirstError w k e ↔ ∃ k', k = k' + 1 ∧ FirstError w.tail k' e := by
  constructor
  · rintro ⟨⟨ne, hget⟩, hbefore⟩
    cases k with
    | zero =>
      have hhead : w.head = .error e ne := hget
      rw [hhead] at hw
      cases hw
    | succ k =>
      refine ⟨k, rfl, ⟨ne, hget⟩, fun r hr => hbefore r ?_⟩
      rw [Stream'.take_succ]
      exact List.mem_cons_of_mem _ hr
  · rintro ⟨k', rfl, ⟨ne, hget⟩, hbefore⟩
    refine ⟨⟨ne, hget⟩, fun r hr => ?_⟩
    rw [Stream'.take_succ] at hr
    rcases List.mem_cons.mp hr with rfl | hr
    · exact hw
    · exact hbefore r hr

/-- The state in which an error leaves the loop after `n` writes that succeeded. -/
def failed (s : Handler) (e n : Nat) : Handler :=
  { s with errno := e, log := s.log ++ List.replicate n (.message s.msg) }

/-- While `errno` is `EINTR`, a call that does not fail with another error is followed by the next
    one. -/
theorem doWrite_retry (hs : s.errno = eintr) {r : WriteResult} (hr : r.isError = false) :
    ∃ ret s₁, doWrite s r = (ret, s₁) ∧ (ret ≠ 0 ∧ eintr = s₁.errno) ∧
      ∀ e n, failed s₁ e n = failed s e (n + [r].count .full) := by
  cases r with
  | full =>
    refine ⟨sizeofCrashMsg, { s with log := s.log ++ [.message s.msg] }, rfl,
      ⟨by decide, hs.symm⟩, fun e n => ?_⟩
    simp [failed, List.replicate_succ]
  | interrupted => exact ⟨-1, { s with errno := eintr }, rfl, ⟨by decide, rfl⟩, fun e n => rfl⟩
  | error e ne => cases hr

theorem retryWrite_eq_some_iff {s' : Handler} (hs : s.errno = eintr) (w : Stream' WriteResult)
    (fuel n : Nat) :
    retryWrite fuel s w = some (n, s') ↔
      ∃ k e, k < fuel ∧ n = k + 1 ∧ FirstError w k e ∧
        s' = failed s e ((w.take k).count .full) := by
  induction fuel generalizing s w n with
  | zero =>
    constructor
    · intro h
      cases h
    · rintro ⟨k, e, hk, _⟩
      exact absurd hk (Nat.not_lt_zero k)
  | succ fuel ih =>
    by_cases herr : w.head.isError = true
    · -- the only way out
      cases hw : w.head with
      | error e ne =>
        rw [retryWrite_succ_of_leave s { s with errno := e } (-1) (by rw [hw]; rfl)
          (fun h => ne h.2.symm)]
        constructor
        · intro h
          obtain ⟨rfl, rfl⟩ := Prod.mk.inj (Option.some.inj h)
          refine ⟨0, e, Nat.succ_pos fuel, rfl, (firstError_of_head hw 0 e).mpr ⟨rfl, rfl⟩, ?_⟩
          simp [failed]
        · rintro ⟨k, e', _, rfl, hfirst, rfl⟩
          obtain ⟨rfl, rfl⟩ := (firstError_of_head hw k e').mp hfirst
          simp [failed]
      | full =>
        rw [hw] at herr
        cases herr
      | interrupted =>
        rw [hw] at herr
        cases herr
    · have herr : w.head.isError = false := eq_false_of_ne_true herr
      have hnot := firstError_of_not_head herr
      obtain ⟨ret, s₁, hw, hretry, hfailed⟩ := doWrite_retry hs herr
      have hcount (k : Nat) : (w.take (k + 1)).count .full =
          (w.tail.take k).count .full + [w.head].count .full := by
        rw [Stream'.take_succ, ← List.singleton_append, List.count_append, Nat.add_comm]
      rw [retryWrite_succ_of_retry s s₁ ret hw hretry, Option.map_eq_some_iff]
      constructor
      · rintro ⟨⟨m, s₂⟩, hr, heq⟩
        obtain ⟨rfl, rfl⟩ := Prod.mk.inj heq
        obtain ⟨k, e, hk, rfl, hfirst, rfl⟩ := (ih hretry.2.symm w.tail m).mp hr
        refine ⟨k + 1, e, by omega, rfl, (hnot (k + 1) e).mpr ⟨k, rfl, hfirst⟩, ?_⟩
        rw [hcount k, hfailed]
      · rintro ⟨k, e, hk, rfl, hfirst, rfl⟩
        obtain ⟨k, rfl, htail⟩ := (hnot k e).mp hfirst
        refine ⟨(k + 1, failed s e ((w.take (k + 1)).count .full)),
          (ih hretry.2.symm w.tail (k + 1)).mpr ⟨k, e, by omega, rfl, htail, ?_⟩, rfl⟩
        rw [hcount k, hfailed]

theorem retryWrite_eq_none (hs : s.errno = eintr) (hw : ∀ k, (w.get k).isError = false)
    (fuel : Nat) : retryWrite fuel s w = none := by
  rw [Option.eq_none_iff_forall_ne_some]
  rintro ⟨n, s'⟩ hr
  obtain ⟨k, e, _, _, ⟨⟨ne, hget⟩, _⟩, _⟩ := (retryWrite_eq_some_iff hs w fuel n).mp hr
  have herr := hw k
  rw [hget] at herr
  cases herr

/-! ## The handler -/

/-- The loop is left, and the message is in the pipe exactly once if a call succeeded. -/
def RecordsOnce (s : Handler) (w : Stream' WriteResult) : Prop :=
  ∃ fuel n s', retryWrite fuel s w = some (n, s') ∧
    (.full ∈ w.take n → messages s'.log = [s.msg])

theorem messages_failed (hs : s.log = []) (e n : Nat) :
    messages (failed s e n).log = List.replicate n s.msg := by
  simp [messages, failed, hs]

theorem recordsOnce_of_eintr (hs : s.errno = eintr) (hlog : s.log = []) (w : Stream' WriteResult) :
    RecordsOnce s w ↔ ∃ k e, FirstError w k e ∧ (w.take k).count .full ≤ 1 := by
  constructor
  · rintro ⟨fuel, n, s', hr, honce⟩
    obtain ⟨k, e, _, rfl, hfirst, rfl⟩ := (retryWrite_eq_some_iff hs w fuel n).mp hr
    refine ⟨k, e, hfirst, ?_⟩
    by_cases hfull : .full ∈ w.take k
    · have hmem : .full ∈ w.take (k + 1) := by
        rw [Stream'.take_succ']
        exact List.mem_append_left _ hfull
      have hlen := congrArg List.length (honce hmem)
      rw [messages_failed hlog, List.length_replicate] at hlen
      exact Nat.le_of_eq hlen
    · rw [List.count_eq_zero.mpr hfull]
      exact Nat.zero_le 1
  · rintro ⟨k, e, hfirst, hle⟩
    refine ⟨k + 1, k + 1, _, (retryWrite_eq_some_iff hs w (k + 1) (k + 1)).mpr
      ⟨k, e, Nat.lt_succ_self k, rfl, hfirst, rfl⟩, fun hmem => ?_⟩
    obtain ⟨ne, hget⟩ := hfirst.1
    rw [Stream'.take_succ', hget, List.mem_append, List.mem_singleton] at hmem
    have hfull : .full ∈ w.take k := hmem.resolve_right (by simp)
    have hpos : 0 < (w.take k).count .full := List.count_pos_iff.mpr hfull
    rw [messages_failed hlog, show (w.take k).count .full = 1 by omega]
    rfl

/-- A first call that is not interrupted, with another `errno`: the loop is left at once. -/
theorem recordsOnce_of_leave (hs : s.errno ≠ eintr) (hlog : s.log = [])
    (hw : w.head ≠ .interrupted) : RecordsOnce s w := by
  cases hhead : w.head with
  | full =>
    refine ⟨1, 1, { s with log := s.log ++ [.message s.msg] }, ?_, fun _ => ?_⟩
    · rw [retryWrite, hhead]
      exact if_neg fun h => hs h.2.symm
    · simp [messages, hlog]
  | interrupted => exact absurd hhead hw
  | error e ne =>
    refine ⟨1, 1, { s with errno := e },
      retryWrite_succ_of_leave s _ (-1) (by rw [hhead]; rfl) (fun h => ne h.2.symm) 0,
      fun hmem => ?_⟩
    rw [Stream'.take_succ, hhead] at hmem
    simp at hmem

theorem recordsOnce_of_interrupted (hw : w.head = .interrupted) :
    RecordsOnce s w ↔ RecordsOnce { s with errno := eintr } w.tail := by
  have hstep := retryWrite_succ_of_retry s { s with errno := eintr } (-1) (w := w)
    (by rw [hw]; rfl) ⟨by decide, rfl⟩
  have hmem (n : Nat) : .full ∈ w.take (n + 1) ↔ .full ∈ w.tail.take n := by
    rw [Stream'.take_succ, hw]
    simp
  constructor
  · rintro ⟨fuel, n, s', hr, honce⟩
    cases fuel with
    | zero => cases hr
    | succ fuel =>
      rw [hstep fuel] at hr
      obtain ⟨⟨m, s₁⟩, hr₁, heq⟩ := Option.map_eq_some_iff.mp hr
      obtain ⟨rfl, rfl⟩ := Prod.mk.inj heq
      exact ⟨fuel, m, s₁, hr₁, fun h => honce ((hmem m).mpr h)⟩
  · rintro ⟨fuel, n, s', hr, honce⟩
    refine ⟨fuel + 1, n + 1, s', ?_, fun h => honce ((hmem n).mp h)⟩
    rw [hstep fuel, hr]
    rfl

theorem recordsOnce_iff (hlog : s.log = []) (w : Stream' WriteResult) :
    RecordsOnce s w ↔ (s.errno ≠ eintr ∧ w.head ≠ .interrupted) ∨
      ∃ k e, FirstError w k e ∧ (w.take k).count .full ≤ 1 := by
  by_cases hs : s.errno = eintr
  · rw [recordsOnce_of_eintr hs hlog]
    exact (or_iff_right fun h => h.1 hs).symm
  · by_cases hw : w.head = .interrupted
    · have hnot := firstError_of_not_head (w := w) (by rw [hw]; rfl)
      have hcount (k : Nat) : (w.take (k + 1)).count .full = (w.tail.take k).count .full := by
        rw [Stream'.take_succ, hw, List.count_cons_of_ne (by decide)]
      rw [recordsOnce_of_interrupted hw,
        recordsOnce_of_eintr (s := { s with errno := eintr }) rfl hlog,
        or_iff_right fun h => h.2 hw]
      constructor
      · rintro ⟨k, e, hfirst, hle⟩
        exact ⟨k + 1, e, (hnot (k + 1) e).mpr ⟨k, rfl, hfirst⟩, by rwa [hcount k]⟩
      · rintro ⟨k, e, hfirst, hle⟩
        obtain ⟨k, rfl, htail⟩ := (hnot k e).mp hfirst
        exact ⟨k, e, htail, by rwa [hcount k] at hle⟩
    · exact iff_of_true (recordsOnce_of_leave hs hlog hw) (Or.inl ⟨hs, hw⟩)

/-- **The crash handler.** Whatever the fault, `errno` before it and the results of `write`: the
    handler leaves its retry loop, with the crash message in the pipe exactly once if a call
    succeeded, if and only if `errno` is not `EINTR` and the first call is not interrupted, or a
    call fails with another error and at most one call before it succeeded. -/
theorem fault_handler_records_once (g : Globals) (f : Fault) (errno : Nat)
    (w : Stream' WriteResult) :
    (∃ fuel n s, faultHandler g f errno w fuel = some (n, s) ∧
      (.full ∈ w.take n → messages s.log = [(fillCrashMsg g f errno).crashMsg])) ↔
    (errno ≠ eintr ∧ w.head ≠ .interrupted) ∨
      ∃ k e, FirstError w k e ∧ (w.take k).count .full ≤ 1 := by
  have hmessages (s : Handler) : messages (crash s).log = messages s.log := by
    simp [messages, crash]
  refine Iff.trans ?_ (recordsOnce_iff
    (s := ⟨(fillCrashMsg g f errno).crashMsg, errno, [], false, false⟩) rfl w)
  constructor
  · rintro ⟨fuel, n, s, hr, honce⟩
    obtain ⟨⟨m, s₁⟩, hr₁, heq⟩ := Option.map_eq_some_iff.mp hr
    obtain ⟨rfl, rfl⟩ := Prod.mk.inj heq
    exact ⟨fuel, m, s₁, hr₁, fun h => (hmessages s₁).symm.trans (honce h)⟩
  · rintro ⟨fuel, n, s, hr, honce⟩
    refine ⟨fuel, n, crash s, ?_, fun h => (hmessages s).trans (honce h)⟩
    rw [faultHandler, hr]
    rfl

/-- A fault of signal 11 without `siginfo`. -/
def segv : Fault := ⟨11, none, [1, 2], 7, (0, 0)⟩

def emptyGlobals : Globals := ⟨⟨0xdeadbeef, [], 7, 0, 0, 0, 0, 0, 0, 0, (0, 0), [], []⟩, fun _ => 0, 0⟩

/-- One interrupted call, and all later ones succeed. -/
def interruptedOnce : Stream' WriteResult := fun n => if n = 0 then .interrupted else .full

/-- An interrupted call, two that succeed, and then only `EPIPE`. -/
def twoSuccesses : Stream' WriteResult := fun n =>
  if n = 0 then .interrupted else if n < 3 then .full else .error 32 (by decide)

/-- With `errno` at `EINTR` before the fault, or with one interrupted call, calls that succeed do not
    end the loop; when an error ends it, the message is in the pipe twice. -/
theorem successful_writes_repeat :
    (∀ fuel, faultHandler emptyGlobals segv eintr (Stream'.const .full) fuel = none) ∧
    (∀ fuel, faultHandler emptyGlobals segv 0 interruptedOnce fuel = none) ∧
    (faultHandler emptyGlobals segv 0 twoSuccesses 4).map (fun r => (messages r.2.log).length) =
      some 2 := by
  refine ⟨fun fuel => ?_, fun fuel => ?_, by decide +kernel⟩
  · rw [faultHandler, retryWrite_eq_none rfl (fun _ => rfl) fuel]
    rfl
  · cases fuel with
    | zero => rfl
    | succ fuel =>
      have hfull (k : Nat) : (interruptedOnce.tail.get k).isError = false := rfl
      rw [faultHandler, retryWrite_succ_of_retry _ _ (-1) rfl ⟨by decide, rfl⟩ fuel,
        retryWrite_eq_none rfl hfull fuel]
      rfl

end DemosOsLinux.CrashHandling
