/-
  The rotating logger of standard output (exercises/pipe/pipe_stdout_logger/solution.cc).

  `runLogger` copies the pipe of the controlled process into /tmp/log0.txt, /tmp/log1.txt, … and goes
  on to the next file when `msg_count%1000==0`. A run chooses the descriptors that `open(2)` returns
  and how much each `read(2)` and `write(2)` transfers; no call fails.
  * `logName_inj`: different counters give different names.
  * `Logs`: the reads of the closed files, the reads of the current one, and where they are;
    `Logs.of_step`.
  * `log_files_hold_stream`: the files at the end of the loop.
-/
import DemosOsLinux.Lib.Ledger
import DemosOsLinux.Lib.Machine
import DemosOsLinux.Lib.RingBuffer
import Mathlib.Algebra.Ring.Int.Defs
import Mathlib.Algebra.Ring.Nat
import Mathlib.Logic.Function.Basic

namespace DemosOsLinux.StdoutLogger

open Lib Function

abbrev Path := List Char

/-- `pathconf("/tmp", _PC_NAME_MAX)`. -/
def nameMax : Nat := 255

/-- `snprintf(logfilename, filename_length, "/tmp/log%d.txt", logfile_counter)`: at most
    `filename_length - 1` characters. -/
def logName (logfileCounter : Int) : Path :=
  ("/tmp/log".toList ++ (toString logfileCounter).toList ++ ".txt".toList).take (nameMax - 1)

/-- Where `runLogger` is: at the head of its loop, at `read`, in the inner loop, or behind the
    loop. -/
inductive Pc where
  | top
  | read
  | write
  | ended
  deriving DecidableEq

structure Logger where
  pc : Pc
  logfileCounter : Int
  logfd : Int
  msgCount : Nat
  buf : List UInt8
  ptr : Nat
  sizeRead : Nat
  files : Path → List UInt8
  /-- The open log files: the path and the file position. -/
  fds : Nat → Option (Path × Nat)
  pipe : List UInt8

inductive Act where
  | rotate (fd : Nat)
  | keep
  | read (k : Nat)
  | write (j : Nat)

inductive Event where
  | opened (path : Path) (fd : Nat)
  | closed (fd : Int)
  | got (chunk : List UInt8)

/-- `close(logfd)`. -/
def doClose (s : Logger) : Logger := { s with fds := update s.fds s.logfd.toNat none }

/-- The old file, if there is one, is closed. -/
def closeOld (s : Logger) : Logger × List Event :=
  if s.logfd ≠ -1 then (doClose s, [.closed s.logfd]) else (s, [])

/-- `getnextlogfile`, when `open` returns `fd`. -/
def getnextlogfile (s : Logger) (fd : Nat) : Option (Logger × List Event) :=
  let path := logName s.logfileCounter
  if s.fds fd = none then
    some ({ s with
      files := update s.files path []
      fds := update s.fds fd (some (path, 0))
      logfileCounter := Int.bmod (s.logfileCounter + 1) (2 ^ 32)
      logfd := fd }, [.opened path fd])
  else none

/-- `msg_count++` and on to `read`. -/
def countMessage (s : Logger) : Logger :=
  { s with msgCount := (s.msgCount + 1) % 2 ^ 32, pc := .read }

/-- `write(logfd, ptr, size_read)` that takes `j` bytes. -/
def doWrite (s : Logger) (j : Nat) : Option Logger :=
  match s.fds s.logfd.toNat with
  | none => none
  | some (path, pos) =>
      some { s with
        files := update s.files path
          (overwrite (s.files path) pos (slice s.buf s.ptr j))
        fds := update s.fds s.logfd.toNat (some (path, pos + j)) }

/-- `while(size_read>0)`. -/
def innerTest (s : Logger) : Logger :=
  if 0 < s.sizeRead then { s with pc := .write } else { s with pc := .top }

def step (s : Logger) : Act → Option (Logger × List Event)
  | .rotate fd =>
      if s.pc = .top ∧ s.msgCount % 1000 = 0 then
        (getnextlogfile (closeOld s).1 fd).map fun u => (countMessage u.1, (closeOld s).2 ++ u.2)
      else none
  | .keep => if s.pc = .top ∧ s.msgCount % 1000 ≠ 0 then some (countMessage s, []) else none
  | .read k =>
      if s.pc = .read ∧ k ≤ s.buf.length ∧ k ≤ s.pipe.length ∧ (k = 0 → s.pipe = []) then
        if k = 0 then some ({ s with pc := .ended }, [])
        else
          let chunk := s.pipe.take k
          some (innerTest { s with
            buf := overwrite s.buf 0 chunk
            pipe := s.pipe.drop k
            ptr := 0
            sizeRead := k }, [.got chunk])
      else none
  | .write j =>
      if s.pc = .write ∧ j ≤ s.sizeRead then
        (doWrite s j).map fun s₁ =>
          (innerTest { s₁ with sizeRead := s.sizeRead - j, ptr := s.ptr + j }, [])
      else none

def logger : Machine Logger Act Event := ⟨step⟩

/-- `runLogger` in front of its loop. -/
def initLogger (buf : List UInt8) (files : Path → List UInt8) (fds : Nat → Option (Path × Nat))
    (stream : List UInt8) : Logger :=
  ⟨.top, 0, -1, 0, buf, 0, 0, files, fds, stream⟩

/-- What the calls of `read` returned. -/
def chunks (tr : List Event) : List (List UInt8) :=
  tr.filterMap fun
    | .got chunk => some chunk
    | _ => none

def openedPaths (tr : List Event) : List Path :=
  tr.filterMap fun
    | .opened path _ => some path
    | _ => none

/-- The descriptors of the log files, as they are opened and closed. -/
def descriptors (tr : List Event) : List (LedgerEvent Int) :=
  tr.filterMap fun
    | .opened _ fd => some (.acquired fd)
    | .closed fd => some (.released fd)
    | .got _ => none

/-! ## The names -/

theorem toString_natCast (n : Nat) : (toString (n : Int)).toList = Nat.toDigits 10 n := by
  rw [Int.toString_eq_repr, Int.repr_eq_if, if_pos (Int.natCast_nonneg n), Int.toNat_natCast,
    Nat.toList_repr]

variable {n : Nat} {es : List Event} {fds : Nat → Option (Path × Nat)} {files : Path → List UInt8}
  {buf : List UInt8} {a : Act}

theorem logName_natCast (h : n < 2 ^ 31) :
    logName n = "/tmp/log".toList ++ Nat.toDigits 10 n ++ ".txt".toList := by
  have hlen : (Nat.toDigits 10 n).length ≤ 10 :=
    (Nat.length_toDigits_le_iff (by decide) (by decide)).mpr (by omega)
  rw [logName, toString_natCast, List.take_of_length_le]
  simp only [List.length_append, nameMax]
  have h1 : "/tmp/log".toList.length = 8 := by decide
  have h2 : ".txt".toList.length = 4 := by decide
  omega

theorem logName_inj {m : Nat} (hm : m < 2 ^ 31) (hn : n < 2 ^ 31) (h : logName m = logName n) :
    m = n := by
  rw [logName_natCast hm, logName_natCast hn] at h
  have hdigits := List.append_cancel_left (List.append_cancel_right h)
  have hvalue := congrArg (fun ds => Nat.ofDigitChars 10 ds 0) hdigits
  simpa using hvalue

/-! ## The files -/

/-- How many reads a file can have when `msg_count` is `c`. -/
def limit (c : Nat) : Nat := if c % 1000 = 0 then 1000 else c % 1000

theorem limit_pos (c : Nat) : 1 ≤ limit c := by
  unfold limit
  split <;> omega

theorem limit_le (c : Nat) : limit c ≤ 1000 := by
  unfold limit
  split <;> omega

/-- The counter goes on, also past `2 ^ 32`, while the file is kept. -/
theorem limit_next {c : Nat} (hc : c < 2 ^ 32) (h : c % 1000 ≠ 0) :
    limit c + 1 ≤ limit ((c + 1) % 2 ^ 32) := by
  unfold limit
  rw [if_neg h]
  by_cases hwrap : c + 1 = 2 ^ 32
  · rw [hwrap, Nat.mod_self, if_pos rfl]
    omega
  · have hmod : (c + 1) % 2 ^ 32 = c + 1 := Nat.mod_eq_of_lt (by omega)
    rw [hmod]
    split <;> omega

/-- What has been read and not yet written. -/
def pending (s : Logger) : List UInt8 :=
  if s.pc = .write then slice s.buf s.ptr s.sizeRead else []

/-- `old` are the reads of the closed files, `cur` those of the current one, `closed` the closed
    descriptors and `fd` the current one. -/
structure Logs (stream : List UInt8) (s : Logger) (tr : List Event)
    (old : List (List (List UInt8))) (cur : List (List UInt8)) (closed : List Nat) (fd : Nat) :
    Prop where
  counter : s.logfileCounter = (old.length + 1 : Nat)
  paths : openedPaths tr = (List.range (old.length + 1)).map fun i => logName (i : Nat)
  ledger : descriptors tr =
    (closed.flatMap fun d => [.acquired (d : Int), .released (d : Int)]) ++ [.acquired (fd : Int)]
  closedLen : closed.length = old.length
  logfd : s.logfd = fd
  table : s.fds fd = some (logName old.length, (s.files (logName old.length)).length)
  reads : chunks tr = old.flatten ++ cur
  oldFiles : ((List.range old.length).map fun i => s.files (logName (i : Nat))) =
    old.map List.flatten
  curFile : s.files (logName old.length) ++ pending s = cur.flatten
  oldSizes : ∀ g ∈ old, g.length ≤ 1000
  curSize : (if s.pc = .read then cur.length + 1 else cur.length) ≤ limit s.msgCount
  msgCount : s.msgCount < 2 ^ 32
  stream : stream = (chunks tr).flatten ++ s.pipe
  window : s.pc = .write → 0 < s.sizeRead ∧ s.ptr + s.sizeRead ≤ s.buf.length
  drained : s.pc = .ended → s.pipe = []

/-- Writing to file `n` does not change the files before it. -/
theorem map_files_update (files : Path → List UInt8) (hn : n < 2 ^ 31) (bs : List UInt8) :
    ((List.range n).map fun i => update files (logName n) bs (logName (i : Nat))) =
      (List.range n).map fun i => files (logName (i : Nat)) := by
  refine List.map_congr_left fun i hi => ?_
  rw [List.mem_range] at hi
  exact update_of_ne (fun h => Nat.ne_of_lt hi (logName_inj (by omega) hn h)) _ _

section Step

variable {stream : List UInt8} {s s₁ s' : Logger} {tr : List Event} {old : List (List (List UInt8))}
  {cur : List (List UInt8)} {closed : List Nat} {fd : Nat}

theorem pending_innerTest (s : Logger) : pending (innerTest s) = slice s.buf s.ptr s.sizeRead := by
  unfold innerTest
  split
  · rfl
  · rename_i h
    rw [Nat.eq_zero_of_not_pos h]
    rfl

theorem innerTest_eq (s : Logger) :
    innerTest s = { s with pc := if 0 < s.sizeRead then .write else .top } := by
  unfold innerTest
  split <;> rfl

section Steps

variable (inv : Logs stream s tr old cur closed fd)
include inv

theorem Logs.keep (hpc : s.pc = .top) (hcount : s.msgCount % 1000 ≠ 0) :
    Logs stream (countMessage s) (tr ++ []) old cur closed fd := by
  have hsize := inv.curSize
  have hnext := limit_next inv.msgCount hcount
  have hpending : pending s = pending (countMessage s) := by
    simp [pending, countMessage, hpc]
  rw [if_neg (by rw [hpc]; decide)] at hsize
  rw [List.append_nil]
  refine ⟨inv.counter, inv.paths, inv.ledger, inv.closedLen, inv.logfd, inv.table, inv.reads,
    inv.oldFiles, hpending ▸ inv.curFile, inv.oldSizes, ?_, ?_, inv.stream, nofun, nofun⟩
  · show cur.length + 1 ≤ limit ((s.msgCount + 1) % 2 ^ 32)
    omega
  · exact Nat.mod_lt _ (by decide)

theorem Logs.eof (hpc : s.pc = .read)
    (hpipe : s.pipe = []) : Logs stream { s with pc := .ended } (tr ++ []) old cur closed fd := by
  have hsize := inv.curSize
  have hpending : pending s = pending { s with pc := .ended } := by
    simp [pending, hpc]
  rw [if_pos hpc] at hsize
  rw [List.append_nil]
  refine ⟨inv.counter, inv.paths, inv.ledger, inv.closedLen, inv.logfd, inv.table, inv.reads,
    inv.oldFiles, hpending ▸ inv.curFile, inv.oldSizes, ?_, inv.msgCount, inv.stream, nofun,
    fun _ => hpipe⟩
  show cur.length ≤ limit s.msgCount
  omega

theorem Logs.read (hpc : s.pc = .read) {k : Nat}
    (hk : k ≠ 0) (hbuf : k ≤ s.buf.length) (hpipe : k ≤ s.pipe.length) :
    Logs stream
      (innerTest { s with
        buf := overwrite s.buf 0 (s.pipe.take k)
        pipe := s.pipe.drop k
        ptr := 0
        sizeRead := k })
      (tr ++ [.got (s.pipe.take k)]) old (cur ++ [s.pipe.take k]) closed fd := by
  have hsize := inv.curSize
  rw [if_pos hpc] at hsize
  have hlen : (s.pipe.take k).length = k := by
    rw [List.length_take]
    omega
  have hchunks : chunks (tr ++ [.got (s.pipe.take k)]) = chunks tr ++ [s.pipe.take k] := by
    simp [chunks]
  have hnothing : pending s = [] := by
    simp [pending, hpc]
  have hpending : slice (overwrite s.buf 0 (s.pipe.take k)) 0 k = s.pipe.take k := by
    have htaken := take_overwrite s.buf 0 (s.pipe.take k) (Nat.zero_le _)
    rw [hlen, Nat.zero_add] at htaken
    rw [slice, List.drop_zero, htaken]
    simp
  have hcur := inv.curFile
  rw [hnothing, List.append_nil] at hcur
  have htest : innerTest { s with
      buf := overwrite s.buf 0 (s.pipe.take k), pipe := s.pipe.drop k, ptr := 0, sizeRead := k } =
      { s with
        buf := overwrite s.buf 0 (s.pipe.take k), pipe := s.pipe.drop k, ptr := 0, sizeRead := k,
        pc := .write } := if_pos (Nat.pos_of_ne_zero hk)
  rw [htest]
  refine ⟨inv.counter, ?_, ?_, inv.closedLen, inv.logfd, inv.table, ?_, inv.oldFiles, ?_,
    inv.oldSizes, ?_, inv.msgCount, ?_, ?_, fun hpc' => ?_⟩
  · rw [← inv.paths]
    simp [openedPaths]
  · rw [← inv.ledger]
    simp [descriptors]
  · rw [hchunks, inv.reads, List.append_assoc]
  · show s.files (logName old.length) ++ slice _ 0 k = _
    rw [hpending, hcur, List.flatten_append, List.flatten_singleton]
  · show (cur ++ [s.pipe.take k]).length ≤ limit s.msgCount
    rw [List.length_append, List.length_singleton]
    exact hsize
  · show stream = _ ++ s.pipe.drop k
    rw [hchunks, List.flatten_append, List.flatten_singleton, List.append_assoc,
      List.take_append_drop]
    exact inv.stream
  · intro _
    show 0 < k ∧ 0 + k ≤ (overwrite s.buf 0 (s.pipe.take k)).length
    rw [length_overwrite _ _ _ (by omega)]
    omega
  · cases hpc'

theorem Logs.write (hpc : s.pc = .write)
    (hfew : old.length < 2 ^ 31) {j : Nat} (hj : j ≤ s.sizeRead) (h : doWrite s j = some s₁) :
    Logs stream (innerTest { s₁ with sizeRead := s.sizeRead - j, ptr := s.ptr + j }) (tr ++ [])
      old cur closed fd := by
  obtain ⟨hpos, hwindow⟩ := inv.window hpc
  have hfd : s.logfd.toNat = fd := by
    rw [inv.logfd, Int.toNat_natCast]
  rw [doWrite, hfd, inv.table] at h
  obtain rfl := Option.some.inj h
  have hcur := inv.curFile
  have hsize := inv.curSize
  rw [if_neg (by rw [hpc]; decide)] at hsize
  -- the bytes behind the file's end are those of the buffer, in two parts
  rw [pending, if_pos hpc, ← Nat.add_sub_cancel' hj, slice_add, ← List.append_assoc] at hcur
  have hlen : (slice s.buf s.ptr j).length = j := by
    rw [slice, List.length_take, List.length_drop]
    omega
  have hfile : overwrite (s.files (logName old.length)) (s.files (logName old.length)).length
      (slice s.buf s.ptr j) = s.files (logName old.length) ++ slice s.buf s.ptr j :=
    overwrite_length _ _
  rw [List.append_nil, hfile]
  refine ⟨?_, inv.paths, inv.ledger, inv.closedLen, ?_, ?_, inv.reads, ?_, ?_, inv.oldSizes, ?_, ?_,
    ?_, ?_, ?_⟩
  · rw [innerTest_eq]
    exact inv.counter
  · rw [innerTest_eq]
    exact inv.logfd
  · rw [innerTest_eq]
    dsimp only
    rw [update_self, update_self, List.length_append, hlen]
  · rw [innerTest_eq]
    dsimp only
    rw [map_files_update s.files hfew, inv.oldFiles]
  · rw [pending_innerTest, innerTest_eq]
    dsimp only
    rw [update_self]
    exact hcur
  · rw [innerTest_eq]
    show (if (if 0 < s.sizeRead - j then Pc.write else .top) = .read then _ else cur.length) ≤ _
    rw [if_neg (by split <;> decide)]
    exact hsize
  · rw [innerTest_eq]
    exact inv.msgCount
  · rw [innerTest_eq]
    exact inv.stream
  · intro hw
    rw [innerTest_eq] at hw ⊢
    show 0 < s.sizeRead - j ∧ s.ptr + j + (s.sizeRead - j) ≤ s.buf.length
    have hmore : 0 < s.sizeRead - j := by
      by_contra hno
      have htop : (if 0 < s.sizeRead - j then Pc.write else .top) = .write := hw
      rw [if_neg hno] at htop
      cases htop
    omega
  · intro hw
    rw [innerTest_eq] at hw
    have hend : (if 0 < s.sizeRead - j then Pc.write else .top) = .ended := hw
    split at hend <;> cases hend

end Steps

/-- `getnextlogfile` when `n` files have been opened. -/
theorem getnextlogfile_spec (hn : n + 1 < 2 ^ 31) (hcounter : s.logfileCounter = (n : Nat))
    (h : getnextlogfile s fd = some (s₁, es)) :
    s₁ = { s with
      files := update s.files (logName (n : Nat)) []
      fds := update s.fds fd (some (logName (n : Nat), 0))
      logfileCounter := (n + 1 : Nat)
      logfd := fd } ∧
    es = [.opened (logName (n : Nat)) fd] := by
  have hbmod : Int.bmod ((n : Nat) + 1) (2 ^ 32) = (n + 1 : Nat) := by
    rw [Int.bmod_def]
    omega
  obtain ⟨_, rfl, rfl⟩ := guard_result_inj h
  rw [hcounter, hbmod]
  exact ⟨rfl, rfl⟩

/-- The next file, after the last one has been closed. -/
theorem Logs.rotate (inv : Logs stream s tr old cur closed fd) (hpc : s.pc = .top) {fd' : Nat}
    (h : getnextlogfile (doClose s) fd' = some (s₁, es)) (hfew : old.length + 2 < 2 ^ 31) :
    Logs stream (countMessage s₁) (tr ++ ([.closed s.logfd] ++ es)) (old ++ [cur]) []
      (closed ++ [fd]) fd' := by
  have hsize := inv.curSize
  have hcur := inv.curFile
  rw [if_neg (by rw [hpc]; decide)] at hsize
  rw [pending, if_neg (by rw [hpc]; decide), List.append_nil] at hcur
  obtain ⟨rfl, rfl⟩ := getnextlogfile_spec (s := doClose s) (n := old.length + 1) hfew
    inv.counter h
  have hlen : (old ++ [cur]).length = old.length + 1 := by
    rw [List.length_append, List.length_singleton]
  refine ⟨?_, ?_, ?_, ?_, rfl, ?_, ?_, ?_, ?_, ?_, limit_pos _, Nat.mod_lt _ (by decide), ?_, nofun,
    nofun⟩
  · rw [hlen]
    rfl
  · rw [hlen, List.range_succ, List.map_append, ← inv.paths]
    simp [openedPaths]
  · rw [List.flatMap_append, inv.logfd]
    have hledger := inv.ledger
    simp only [descriptors, List.filterMap_append] at hledger ⊢
    rw [hledger]
    simp
  · rw [List.length_append, List.length_singleton, hlen, inv.closedLen]
  · rw [hlen]
    dsimp only [countMessage, doClose]
    rw [update_self, update_self]
    rfl
  · have hreads := inv.reads
    simp only [chunks, List.filterMap_append] at hreads ⊢
    rw [hreads]
    simp
  · rw [hlen, List.map_append, ← inv.oldFiles]
    dsimp only [countMessage, doClose]
    rw [map_files_update s.files (by omega), List.range_succ, List.map_append]
    simp [hcur]
  · rw [hlen]
    dsimp only [countMessage, doClose]
    rw [update_self]
    rfl
  · have hle := Nat.le_trans hsize (limit_le _)
    exact List.forall_mem_append.mpr ⟨inv.oldSizes, List.forall_mem_singleton.mpr hle⟩
  · have hstream := inv.stream
    simp only [chunks, List.filterMap_append] at hstream ⊢
    rw [hstream]
    simp [countMessage, doClose]

/-- The first file. -/
theorem logs_of_start (hcounter : s.logfileCounter = (0 : Nat)) (hpipe : s.pipe = stream)
    (h : getnextlogfile s fd = some (s₁, es)) : Logs stream (countMessage s₁) es [] [] [] fd := by
  obtain ⟨rfl, rfl⟩ := getnextlogfile_spec (n := 0) (by decide) hcounter h
  refine ⟨rfl, rfl, rfl, rfl, rfl, ?_, rfl, rfl, ?_, nofun, limit_pos _, Nat.mod_lt _ (by decide),
    hpipe.symm, nofun, nofun⟩
  · show update s.fds fd _ fd = some (logName (0 : Nat), (update s.files
      (logName (0 : Nat)) [] (logName (0 : Nat))).length)
    rw [update_self, update_self]
    rfl
  · show update s.files (logName (0 : Nat)) [] (logName (0 : Nat)) ++ [] = []
    rw [update_self]
    rfl

/-- In front of the loop, or in it. -/
def Logging (start : Logger) (stream : List UInt8) (s : Logger) (tr : List Event) : Prop :=
  (s = start ∧ tr = []) ∨ ∃ old cur closed fd, Logs stream s tr old cur closed fd

theorem Logs.length_openedPaths (inv : Logs stream s tr old cur closed fd) :
    (openedPaths tr).length = old.length + 1 := by
  rw [inv.paths, List.length_map, List.length_range]

/-- The loop starts with a file, because the message count is 0. -/
theorem logs_of_first_step (hs : s = initLogger buf files fds stream)
    (hstep : step s a = some (s', es)) : ∃ fd, Logs stream s' es [] [] [] fd := by
  have hpc : s.pc = .top := by rw [hs]; rfl
  cases a with
  | rotate fd =>
    obtain ⟨_, heq⟩ := Option.ite_none_right_eq_some.mp hstep
    have hclose : closeOld s = (s, []) := if_neg fun hfd => hfd (by rw [hs]; rfl)
    rw [hclose] at heq
    obtain ⟨⟨s₁, es₁⟩, hnext, heq⟩ := Option.map_eq_some_iff.mp heq
    obtain ⟨rfl, rfl⟩ := Prod.mk.inj heq
    exact ⟨fd, logs_of_start (by rw [hs]; rfl) (by rw [hs]; rfl) hnext⟩
  | keep =>
    obtain ⟨⟨_, hcount⟩, _⟩ := Option.ite_none_right_eq_some.mp hstep
    rw [hs] at hcount
    exact absurd rfl hcount
  | read k =>
    obtain ⟨⟨hread, _⟩, _⟩ := Option.ite_none_right_eq_some.mp hstep
    rw [hpc] at hread
    cases hread
  | write j =>
    obtain ⟨⟨hwrite, _⟩, _⟩ := Option.ite_none_right_eq_some.mp hstep
    rw [hpc] at hwrite
    cases hwrite

theorem Logs.of_step (inv : Logs stream s tr old cur closed fd)
    (hfew : (openedPaths (tr ++ es)).length < 2 ^ 31) (hstep : step s a = some (s', es)) :
    ∃ old' cur' closed' fd', Logs stream s' (tr ++ es) old' cur' closed' fd' := by
  have hlen := inv.length_openedPaths
  have hgrow : (openedPaths tr).length + (openedPaths es).length < 2 ^ 31 := by
    rw [openedPaths, List.filterMap_append, List.length_append] at hfew
    exact hfew
  cases a with
  | rotate fd' =>
    obtain ⟨⟨hpc, _⟩, heq⟩ := Option.ite_none_right_eq_some.mp hstep
    have hclose : closeOld s = (doClose s, [.closed s.logfd]) :=
      if_pos (by rw [inv.logfd]; omega)
    rw [hclose] at heq
    obtain ⟨⟨s₁, es₁⟩, hnext, heq⟩ := Option.map_eq_some_iff.mp heq
    obtain ⟨rfl, rfl⟩ := Prod.mk.inj heq
    have hone : (openedPaths ([.closed s.logfd] ++ es₁)).length = 1 := by
      obtain ⟨_, _, rfl⟩ := guard_result_inj hnext
      rfl
    have hfew' : (openedPaths tr).length + (openedPaths ([.closed s.logfd] ++ es₁)).length <
      2 ^ 31 := hgrow
    exact ⟨old ++ [cur], [], closed ++ [fd], fd', inv.rotate hpc hnext (by omega)⟩
  | keep =>
    obtain ⟨⟨hpc, hcount⟩, heq⟩ := Option.ite_none_right_eq_some.mp hstep
    obtain ⟨rfl, rfl⟩ := result_inj heq
    exact ⟨old, cur, closed, fd, inv.keep hpc hcount⟩
  | read k =>
    obtain ⟨⟨hpc, hbuf, hpipe, hzero⟩, heq⟩ := Option.ite_none_right_eq_some.mp hstep
    by_cases hk : k = 0
    · rw [if_pos hk] at heq
      obtain ⟨rfl, rfl⟩ := result_inj heq
      exact ⟨old, cur, closed, fd, inv.eof hpc (hzero hk)⟩
    · rw [if_neg hk] at heq
      obtain ⟨rfl, rfl⟩ := result_inj heq
      exact ⟨old, cur ++ [s.pipe.take k], closed, fd, inv.read hpc hk hbuf hpipe⟩
  | write j =>
    obtain ⟨⟨hpc, hj⟩, heq⟩ := Option.ite_none_right_eq_some.mp hstep
    obtain ⟨s₁, hwrite, heq⟩ := Option.map_eq_some_iff.mp heq
    obtain ⟨rfl, rfl⟩ := Prod.mk.inj heq
    exact ⟨old, cur, closed, fd, inv.write hpc (by omega) hj hwrite⟩

theorem logging_of_step (hfew : (openedPaths (tr ++ es)).length < 2 ^ 31)
    (h : Logging (initLogger buf files fds stream) stream s tr) (hstep : step s a = some (s', es)) :
    Logging (initLogger buf files fds stream) stream s' (tr ++ es) := by
  right
  rcases h with ⟨hs, rfl⟩ | ⟨old, cur, closed, fd, inv⟩
  · obtain ⟨fd, inv⟩ := logs_of_first_step hs hstep
    exact ⟨[], [], [], fd, inv⟩
  · exact inv.of_step hfew hstep

end Step

variable {s : Logger}

theorem logging_of_run {stream : List UInt8} {acts : List Act} {tr : List Event}
    (hr : logger.run (initLogger buf files fds stream) acts = some (s, tr))
    (hfew : (openedPaths tr).length < 2 ^ 31) :
    Logging (initLogger buf files fds stream) stream s tr := by
  refine logger.run_induct (fun _ => True)
    (fun s tr => (openedPaths tr).length < 2 ^ 31 →
      Logging (initLogger buf files fds stream) stream s tr)
    ?_ (fun _ _ => trivial) (fun _ => Or.inl ⟨rfl, rfl⟩) hr hfew
  intro s tr a s₁ es _ ih hs hfew
  refine logging_of_step hfew (ih ?_) hs
  rw [openedPaths, List.filterMap_append, List.length_append] at hfew
  rw [openedPaths]
  omega

/-! ## Runs of one byte a message -/

/-- Between two messages, with a buffer of one byte, a file open at `fd` and `pipe` to come. -/
structure Ready (fd : Nat) (pipe : List UInt8) (s : Logger) : Prop where
  pc : s.pc = .top
  buf : s.buf.length = 1
  logfd : s.logfd = fd
  isOpen : s.fds fd ≠ none
  pipe : s.pipe = pipe

/-- A message of one byte. -/
theorem run_message {u : Logger} {fd : Nat} {b : UInt8} {pipe : List UInt8}
    (ha : step s a = some (countMessage u, es)) (h : Ready fd (b :: pipe) u) :
    ∃ s', logger.run s [a, .read 1, .write 1] = some (s', es ++ [.got [b]]) ∧ Ready fd pipe s' ∧
      s'.msgCount = (u.msgCount + 1) % 2 ^ 32 := by
  obtain ⟨q, hq⟩ := Option.ne_none_iff_exists'.mp h.isOpen
  have hlogfd : u.logfd.toNat = fd := by rw [h.logfd]; rfl
  have hread : step (countMessage u) (.read 1) = some ({ countMessage u with
      pc := .write, buf := overwrite u.buf 0 [b], pipe := pipe, ptr := 0, sizeRead := 1 },
      [.got [b]]) := by
    simp [step, countMessage, innerTest, h.buf, h.pipe]
  simp only [Machine.run, logger, ha, hread]
  simp [step, doWrite, countMessage, innerTest, hlogfd, hq]
  exact ⟨rfl, by simp [overwrite, h.buf], h.logfd, by simp, rfl⟩

/-- Messages that stay in one file. -/
theorem run_messages {fd : Nat} {rest : List UInt8} (n : Nat)
    (h : Ready fd (List.replicate n 7 ++ rest) s) (hpos : 0 < s.msgCount)
    (hle : s.msgCount + n ≤ 1000) :
    ∃ acts s' tr, logger.run s acts = some (s', tr) ∧ Ready fd rest s' ∧
      s'.msgCount = s.msgCount + n ∧ openedPaths tr = [] := by
  induction n generalizing s with
  | zero => exact ⟨[], s, [], rfl, h, rfl, rfl⟩
  | succ n ih =>
    have hkeep : step s .keep = some (countMessage s, []) := by
      rw [step, if_pos ⟨h.pc, by omega⟩]
    obtain ⟨s₁, hr₁, hready, hcount⟩ := run_message hkeep h
    rw [Nat.mod_eq_of_lt (by omega)] at hcount
    obtain ⟨acts, s', tr, hr, hready', hcount', hnone⟩ := ih hready (by omega) (by omega)
    exact ⟨_, s', _, (logger.run_append_eq_some _ acts s s' _).mpr ⟨s₁, _, tr, hr₁, hr, rfl⟩, hready',
      by omega, hnone⟩

/-- The next file. -/
theorem rotate_ready (fd : Nat) {pipe : List UInt8} (hpc : s.pc = .top) (hbuf : s.buf.length = 1)
    (hpipe : s.pipe = pipe) (hcount : s.msgCount % 1000 = 0) (hfree : (closeOld s).1.fds fd = none) :
    ∃ u es, step s (.rotate fd) = some (countMessage u, es) ∧ Ready fd pipe u ∧
      u.msgCount = s.msgCount ∧ (openedPaths es).length = 1 := by
  have hclosed : ∃ g, (closeOld s).1 = { s with fds := g } ∧ openedPaths (closeOld s).2 = [] := by
    unfold closeOld doClose
    split <;> exact ⟨_, rfl, rfl⟩
  obtain ⟨g, hg, hnone⟩ := hclosed
  rw [step, if_pos ⟨hpc, hcount⟩, getnextlogfile, if_pos hfree, hg]
  refine ⟨_, _, rfl, ⟨hpc, hbuf, rfl, by simp, hpipe⟩, rfl, ?_⟩
  rw [openedPaths, List.filterMap_append, List.length_append]
  exact congrArg (·.length + 1) hnone

/-! ## Whole runs -/

/-- **The logger.** For every stream, every cutting of it into reads and writes, and whatever the
    files and descriptors were before: when the loop has ended (with fewer than `2 ^ 31` files), the
    files log0.txt, log1.txt, … in order hold the stream. The reads fall into one group of at most
    1000 for each file, each file was opened once, and every descriptor but the last was closed
    exactly once, before the next file was opened. -/
theorem log_files_hold_stream (buf : List UInt8) (files : Path → List UInt8)
    (fds : Nat → Option (Path × Nat)) (stream : List UInt8) (acts : List Act) (s : Logger)
    (tr : List Event) (hr : logger.run (initLogger buf files fds stream) acts = some (s, tr))
    (hend : s.pc = .ended) (hfew : (openedPaths tr).length < 2 ^ 31) :
    (((List.range (openedPaths tr).length).map fun i => s.files (logName (i : Nat))).flatten =
      stream) ∧
    (∃ groups : List (List (List UInt8)),
      groups.flatten = chunks tr ∧ (∀ g ∈ groups, g.length ≤ 1000) ∧
      ((List.range (openedPaths tr).length).map fun i => s.files (logName (i : Nat))) =
        groups.map List.flatten) ∧
    (openedPaths tr = (List.range (openedPaths tr).length).map (fun i => logName (i : Nat)) ∧
      (openedPaths tr).Nodup) ∧
    (∃ (closed : List Nat) (fd : Nat), closed.length + 1 = (openedPaths tr).length ∧
      descriptors tr = (closed.flatMap fun d => [.acquired (d : Int), .released (d : Int)]) ++
        [.acquired (fd : Int)]) := by
  rcases logging_of_run hr hfew with ⟨rfl, _⟩ | ⟨old, cur, closed, fd, inv⟩
  · cases hend
  · have hlen := inv.length_openedPaths
    have hcur := inv.curFile
    have hsize := inv.curSize
    rw [pending, if_neg (by rw [hend]; decide), List.append_nil] at hcur
    rw [if_neg (by rw [hend]; decide)] at hsize
    have hfiles : ((List.range (openedPaths tr).length).map fun i => s.files (logName (i : Nat))) =
        (old ++ [cur]).map List.flatten := by
      rw [hlen, List.range_succ, List.map_append, inv.oldFiles, List.map_append]
      simp [hcur]
    have hgroups : (old ++ [cur]).flatten = chunks tr := by
      rw [List.flatten_append, List.flatten_singleton, inv.reads]
    refine ⟨?_, ⟨old ++ [cur], hgroups, ?_, hfiles⟩, ⟨?_, ?_⟩, closed, fd, ?_, inv.ledger⟩
    · have hstream := inv.stream
      rw [inv.drained hend, List.append_nil, ← hgroups] at hstream
      rw [hfiles, hstream, List.flatten_flatten]
    · have hle := Nat.le_trans hsize (limit_le _)
      exact List.forall_mem_append.mpr ⟨inv.oldSizes, List.forall_mem_singleton.mpr hle⟩
    · rw [hlen]
      exact inv.paths
    · rw [inv.paths]
      refine List.Nodup.map_on (fun i hi j hj => logName_inj ?_ ?_) List.nodup_range
      · rw [List.mem_range] at hi
        omega
      · rw [List.mem_range] at hj
        omega
    · rw [hlen, inv.closedLen]

/-- Two files: 1000 messages, and one more. -/
theorem log_files_hold_stream_rotated :
    ∃ acts s tr, logger.run (initLogger [0] (fun _ => [9]) (fun _ => none)
        (List.replicate 1000 7 ++ [8])) acts = some (s, tr) ∧
      (s.pc = .ended ∧ (openedPaths tr).length = 2) ∧
      s.files (logName (0 : Nat)) ++ s.files (logName (1 : Nat)) = List.replicate 1000 7 ++ [8] := by
  obtain ⟨u₁, es₁, hfirst, hready, hcount, hone⟩ := rotate_ready 4
    (s := initLogger [0] (fun _ => [9]) (fun _ => none) (List.replicate 1000 7 ++ [8])) rfl rfl rfl
    rfl rfl
  obtain ⟨s₁, hr₁, hready₁, hcount₁⟩ := run_message hfirst hready
  rw [show u₁.msgCount = 0 from hcount] at hcount₁
  obtain ⟨acts, s₂, tr₂, hr₂, hready₂, hcount₂, hnone⟩ :=
    run_messages 999 hready₁ (by rw [hcount₁]; decide) (by rw [hcount₁]; decide)
  rw [show s₁.msgCount = 1 from hcount₁] at hcount₂
  obtain ⟨u₂, es₂, hnext, hready', hcount', hone'⟩ := rotate_ready 4 hready₂.pc hready₂.buf
    hready₂.pipe (by rw [hcount₂]) (by simp [closeOld, doClose, hready₂.logfd])
  obtain ⟨s₃, hr₃, hready₃, hcount₃⟩ := run_message hnext hready'
  rw [hcount', hcount₂] at hcount₃
  have hend : logger.run s₃ [.keep, .read 0] = some ({ countMessage s₃ with pc := .ended }, []) := by
    simp [Machine.run, logger, step, hready₃.pc, hcount₃, countMessage, hready₃.pipe]
  have hr := (logger.run_append_eq_some _ _ _ _ _).mpr ⟨_, _, _, hr₁,
    (logger.run_append_eq_some _ _ _ _ _).mpr ⟨_, _, _, hr₂,
      (logger.run_append_eq_some _ _ _ _ _).mpr ⟨_, _, _, hr₃, hend, rfl⟩, rfl⟩, rfl⟩
  have htwo : (openedPaths (es₁ ++ [.got [7]] ++ (tr₂ ++ (es₂ ++ [.got [8]] ++ [])))).length = 2 := by
    simp only [openedPaths] at hone hone' hnone ⊢
    simp [hone, hone', hnone]
  have hfiles := (log_files_hold_stream _ _ _ _ _ _ _ hr rfl (by rw [htwo]; decide)).1
  rw [htwo] at hfiles
  refine ⟨_, _, _, hr, ⟨rfl, htwo⟩, ?_⟩
  rw [← hfiles]
  simp [List.range_succ]

end DemosOsLinux.StdoutLogger
