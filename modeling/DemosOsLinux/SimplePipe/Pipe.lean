/-
  The pipe driver without locks and queues (kernel_standalone/simple_pipe/main.c), compared with the
  full one (kernel_standalone/pipe/main.c).

  The rings of the two drivers are the same, except that the full driver stops at a `BUG_ON` where
  this one goes on. An empty pipe is the end of the file here, and a full one takes nothing; there
  the caller sleeps, unless the pipe is empty and has no writer.

  The full driver is run by one task `t`, call after call (`fullPipe`): a call that sleeps or dies
  does not return and is no step.
  * `pipeRead_agrees`, `pipeWrite_agrees`: the two transfers, from any state of the ring.
  * `fullCall_of_read`, `fullCall_of_write`: a call of the full driver that does not sleep.
  * `simple_pipe_agrees`: whole sequences of calls.
-/
import DemosOsLinux.KernelPipe.System
import DemosOsLinux.KernelPipe.Transfer

namespace DemosOsLinux.SimplePipe

open Lib Function
open KernelPipe (Faults noFaults copyFromUser copyToUser Io Tid State Event File Transfer Wf driver
  transferEnd pipeReadCopy pipeWriteCopy)

/-- `struct my_pipe_t`. -/
structure Pipe where
  data : List UInt8
  size : Nat
  readPos : Nat
  writePos : Nat

/-- `pipe_room`. -/
def pipeRoom (p : Pipe) : Nat :=
  if p.readPos ≤ p.writePos then
    u64Sub (u64Add (u64Sub p.size p.writePos) p.readPos) 1
  else
    u64Sub (u64Sub p.readPos p.writePos) 1

/-- `pipe_data`. -/
def pipeData (p : Pipe) : Nat :=
  if p.readPos ≤ p.writePos then
    u64Sub p.writePos p.readPos
  else
    u64Add (u64Sub p.size p.readPos) p.writePos

/-- `pipe_copy_from_user`: the pipe, the rest of the user's buffer (`*ubuf`) and the result. -/
def pipeCopyFromUser (p : Pipe) (count : Int) (ubuf : List UInt8) (res : Nat) :
    Pipe × List UInt8 × Int :=
  let n := u64OfInt count
  let left := min res n
  let data := copyFromUser p.data p.writePos ubuf n left
  let ret := intOfU64 left
  if ret = 0 then
    let w := u64Add p.writePos n
    ({ p with data := data, writePos := if w = p.size then 0 else w }, ubuf.drop n, ret)
  else ({ p with data := data }, ubuf, ret)

/-- `pipe_copy_to_user`: the pipe, the bytes that reached the user's buffer and the result. -/
def pipeCopyToUser (p : Pipe) (count : Int) (res : Nat) : Pipe × List UInt8 × Int :=
  let n := u64OfInt count
  let left := min res n
  let bytes := copyToUser p.data p.readPos n left
  let ret := intOfU64 left
  if ret = 0 then
    let r := u64Add p.readPos n
    ({ p with readPos := if r = p.size then 0 else r }, bytes, ret)
  else (p, bytes, ret)

/-- What a call returns and puts into the user's buffer. -/
structure Result where
  ret : Int
  bytes : List UInt8
  deriving DecidableEq

/-- `pipe_read`. -/
def pipeRead (p : Pipe) (accessOk : Bool) (count : Nat) (f : Faults) : Pipe × Result :=
  if accessOk = false then (p, ⟨KernelPipe.eFault, []⟩)
  else
    let data := pipeData p
    if data = 0 then (p, ⟨0, []⟩)
    else
      let workSize := min data count
      if p.readPos ≤ p.writePos then
        let c := pipeCopyToUser p (intOfU64 workSize) f.first
        if u64OfInt c.2.2 ≠ 0 then (c.1, ⟨i64OfU64 (u64OfInt c.2.2), c.2.1⟩)
        else (c.1, ⟨i64OfU64 workSize, c.2.1⟩)
      else
        let firstChunk := min workSize (u64Sub p.size p.readPos)
        let c := pipeCopyToUser p (intOfU64 firstChunk) f.first
        if u64OfInt c.2.2 ≠ 0 then (c.1, ⟨i64OfU64 (u64OfInt c.2.2), c.2.1⟩)
        else if firstChunk < workSize then
          let secondChunk := u64Sub workSize firstChunk
          let d := pipeCopyToUser c.1 (intOfU64 secondChunk) f.second
          if u64OfInt d.2.2 ≠ 0 then (d.1, ⟨i64OfU64 (u64OfInt d.2.2), c.2.1 ++ d.2.1⟩)
          else (d.1, ⟨i64OfU64 workSize, c.2.1 ++ d.2.1⟩)
        else (c.1, ⟨i64OfU64 workSize, c.2.1⟩)

/-- `pipe_write`; the length of `buf` is the count. -/
def pipeWrite (p : Pipe) (accessOk : Bool) (buf : List UInt8) (f : Faults) : Pipe × Result :=
  if accessOk = false then (p, ⟨KernelPipe.eFault, []⟩)
  else
    let room := pipeRoom p
    if room = 0 then (p, ⟨0, []⟩)
    else
      let workSize := min room buf.length
      if p.readPos ≤ p.writePos then
        let firstChunk := min workSize (u64Sub p.size p.writePos)
        let c := pipeCopyFromUser p (intOfU64 firstChunk) buf f.first
        if u64OfInt c.2.2 ≠ 0 then (c.1, ⟨i64OfU64 (u64OfInt c.2.2), []⟩)
        else if firstChunk < workSize then
          let secondChunk := u64Sub workSize firstChunk
          let d := pipeCopyFromUser c.1 (intOfU64 secondChunk) c.2.1 f.second
          if u64OfInt d.2.2 ≠ 0 then (d.1, ⟨i64OfU64 (u64OfInt d.2.2), []⟩)
          else (d.1, ⟨i64OfU64 workSize, []⟩)
        else (c.1, ⟨i64OfU64 workSize, []⟩)
      else
        let c := pipeCopyFromUser p (intOfU64 workSize) buf f.first
        if u64OfInt c.2.2 ≠ 0 then (c.1, ⟨i64OfU64 (u64OfInt c.2.2), []⟩)
        else (c.1, ⟨i64OfU64 workSize, []⟩)

/-- A call whose user copies succeed. -/
def pipeCall (p : Pipe) : Io → Pipe × Result
  | .read _ count => pipeRead p true count noFaults
  | .write _ buf => pipeWrite p true buf noFaults

def simplePipe : Machine Pipe Io Result :=
  ⟨fun p o => some ((pipeCall p o).1, [(pipeCall p o).2])⟩

/-! ## The transfers -/

/-- The ring of the full driver. -/
def ring (p : KernelPipe.Pipe) : Pipe := ⟨p.data, p.size, p.readPos, p.writePos⟩

variable {r : Transfer}

section Transfers

variable {p p' : KernelPipe.Pipe} {count : Int}
  {rest : KernelPipe.Pipe × List UInt8 × Int → Option Transfer}

theorem pipeData_ring (p : KernelPipe.Pipe) : pipeData (ring p) = KernelPipe.pipeData p := rfl

theorem pipeRoom_ring (p : KernelPipe.Pipe) : pipeRoom (ring p) = KernelPipe.pipeRoom p := rfl

/-- A copy of the full driver that succeeds, and what follows it: this driver copies the same. -/
theorem pipeCopyToUser_agrees {res : Nat} (hres : res = 0)
    (h : (KernelPipe.pipeCopyToUser p count res).bind rest = some r) :
    ∃ u, pipeCopyToUser (ring p) count res = (ring u.1, u.2) ∧ u.2.2 = 0 ∧ rest u = some r := by
  subst hres
  obtain ⟨u, hcopy, hrest⟩ := Option.bind_eq_some_iff.mp h
  simp only [KernelPipe.pipeCopyToUser, Nat.zero_min] at hcopy
  obtain ⟨_, hsome⟩ := Option.ite_none_left_eq_some.mp hcopy
  obtain rfl := Option.some.inj hsome
  refine ⟨_, ?_, rfl, hrest⟩
  simp only [pipeCopyToUser, Nat.zero_min]
  rfl

theorem pipeCopyFromUser_agrees {res : Nat} {ubuf : List UInt8} (hres : res = 0)
    (h : (KernelPipe.pipeCopyFromUser p count ubuf res).bind rest = some r) :
    ∃ u, pipeCopyFromUser (ring p) count ubuf res = (ring u.1, u.2) ∧ u.2.2 = 0 ∧
      rest u = some r := by
  subst hres
  obtain ⟨u, hcopy, hrest⟩ := Option.bind_eq_some_iff.mp h
  simp only [KernelPipe.pipeCopyFromUser, Nat.zero_min] at hcopy
  obtain ⟨_, hsome⟩ := Option.ite_none_left_eq_some.mp hcopy
  obtain rfl := Option.some.inj hsome
  refine ⟨_, ?_, rfl, hrest⟩
  simp only [pipeCopyFromUser, Nat.zero_min]
  rfl

/-- Where the full driver reads, this one reads the same. -/
theorem pipeRead_agrees {n : Nat} (hdata : KernelPipe.pipeData p ≠ 0)
    (h : pipeReadCopy p n noFaults = some r) :
    pipeRead (ring p) true n noFaults = (ring r.pipe, ⟨r.ret, r.bytes⟩) ∧ r.finished = true := by
  have hzero : ¬u64OfInt 0 ≠ 0 := fun h => h rfl
  have hfirst : noFaults.first = 0 := rfl
  have hsecond : noFaults.second = 0 := rfl
  have hread : pipeData (ring p) ≠ 0 := hdata
  unfold pipeRead
  dsimp only
  rw [if_neg (by decide), if_neg hread, pipeData_ring]
  unfold pipeReadCopy at h
  dsimp only [Option.bind_eq_bind] at h
  by_cases hbranch : p.readPos ≤ p.writePos
  · rw [if_pos hbranch] at h
    rw [if_pos (show (ring p).readPos ≤ (ring p).writePos from hbranch)]
    obtain ⟨u, hsame, hok, h⟩ := pipeCopyToUser_agrees hfirst h
    rw [hok, if_neg hzero] at h
    obtain rfl := Option.some.inj h
    rw [hsame, hok, if_neg hzero]
    simp only [and_self]
  · rw [if_neg hbranch] at h
    rw [if_neg (show ¬(ring p).readPos ≤ (ring p).writePos from hbranch)]
    rw [show (ring p).size = p.size from rfl, show (ring p).readPos = p.readPos from rfl]
    generalize hwork : min (KernelPipe.pipeData p) n = work at h ⊢
    generalize hchunk : min work (u64Sub p.size p.readPos) = chunk at h ⊢
    obtain ⟨u, hsame, hok, h⟩ := pipeCopyToUser_agrees hfirst h
    rw [hok, if_neg hzero] at h
    rw [hsame, hok, if_neg hzero]
    by_cases hwrap : chunk < work
    · rw [if_pos hwrap] at h ⊢
      obtain ⟨v, hsame₂, hok₂, h⟩ := pipeCopyToUser_agrees hsecond h
      rw [hok₂, if_neg hzero] at h
      obtain rfl := Option.some.inj h
      rw [hsame₂, hok₂, if_neg hzero]
      simp only [and_self]
    · rw [if_neg hwrap] at h ⊢
      obtain rfl := Option.some.inj h
      simp only [and_self]

/-- Where the full driver writes, this one writes the same. -/
theorem pipeWrite_agrees {buf : List UInt8} (hroom : KernelPipe.pipeRoom p ≠ 0)
    (h : pipeWriteCopy p buf noFaults = some r) :
    pipeWrite (ring p) true buf noFaults = (ring r.pipe, ⟨r.ret, []⟩) ∧ r.finished = true := by
  have hzero : ¬u64OfInt 0 ≠ 0 := fun h => h rfl
  have hfirst : noFaults.first = 0 := rfl
  have hsecond : noFaults.second = 0 := rfl
  have hwrite : pipeRoom (ring p) ≠ 0 := hroom
  unfold pipeWrite
  dsimp only
  rw [if_neg (by decide), if_neg hwrite, pipeRoom_ring]
  unfold pipeWriteCopy at h
  dsimp only [Option.bind_eq_bind] at h
  by_cases hbranch : p.readPos ≤ p.writePos
  · rw [if_pos hbranch] at h
    rw [if_pos (show (ring p).readPos ≤ (ring p).writePos from hbranch)]
    rw [show (ring p).size = p.size from rfl, show (ring p).writePos = p.writePos from rfl]
    generalize hwork : min (KernelPipe.pipeRoom p) buf.length = work at h ⊢
    generalize hchunk : min work (u64Sub p.size p.writePos) = chunk at h ⊢
    obtain ⟨u, hsame, hok, h⟩ := pipeCopyFromUser_agrees hfirst h
    rw [hok, if_neg hzero] at h
    rw [hsame, hok, if_neg hzero]
    by_cases hwrap : chunk < work
    · rw [if_pos hwrap] at h ⊢
      obtain ⟨v, hsame₂, hok₂, h⟩ := pipeCopyFromUser_agrees hsecond h
      rw [hok₂, if_neg hzero] at h
      obtain rfl := Option.some.inj h
      rw [hsame₂, hok₂, if_neg hzero]
      simp only [and_self]
    · rw [if_neg hwrap] at h ⊢
      obtain rfl := Option.some.inj h
      simp only [and_self]
  · rw [if_neg hbranch] at h
    rw [if_neg (show ¬(ring p).readPos ≤ (ring p).writePos from hbranch)]
    obtain ⟨u, hsame, hok, h⟩ := pipeCopyFromUser_agrees hfirst h
    rw [hok, if_neg hzero] at h
    obtain rfl := Option.some.inj h
    rw [hsame, hok, if_neg hzero]
    simp only [and_self]

end Transfers

/-! ## Calls of the full driver -/

/-- What a call has put into the user's buffer. -/
def delivered (es : List Event) : List UInt8 :=
  es.flatMap fun
    | .delivered _ _ _ bytes => bytes
    | _ => []

/-- The values returned. -/
def returned (es : List Event) : List Int :=
  es.filterMap fun
    | .ret _ _ v _ => some v
    | _ => none

def results (es : List Event) : List Result :=
  (returned es).map fun v => ⟨v, delivered es⟩

/-- The end of a call, from its unlock on. -/
def fullEnd (t : Tid) (s : State) (es : List Event) :
    Option (State × List Result) :=
  match s.pc t with
  | .user => some (s, results es)
  | .waking _ _ =>
      match driver.step s (.wake t) with
      | none => none
      | some (s', es') => some (s', results (es ++ es'))
  -- asleep, or dead in a `BUG_ON`
  | _ => none

/-- A call of task `t` whose user copies succeed, to its end. -/
def fullCall (t : Tid) (s : State) (o : Io) :
    Option (State × List Result) :=
  match driver.run s [.call t (.io o), .lock t, .critical t noFaults] with
  | none => none
  | some (s', es) => fullEnd t s' es

def fullPipe (t : Tid) : Machine State Io Result := ⟨fullCall t⟩

/-- The call can be made, and it does not have to sleep: a read finds data or no writer, a write
    finds room. -/
def Awake (s : State) (o : Io) : Prop :=
  s.admits (.io o) = true ∧
    match o with
    | .read _ _ => KernelPipe.pipeData s.pipe ≠ 0 ∨ s.pipe.writers = 0
    | .write _ _ => KernelPipe.pipeRoom s.pipe ≠ 0

/-- Task `t` is not in the driver, and nobody holds the mutex. -/
structure Idle (t : Tid) (s : State) : Prop where
  owner : s.owner = none
  user : s.pc t = .user

/-- What a call that does not sleep does to the ring. -/
def fullTransfer (p : KernelPipe.Pipe) : Io → Option (KernelPipe.Pipe × Result)
  | .read _ count =>
      if KernelPipe.pipeData p = 0 then some (p, ⟨0, []⟩)
      else (pipeReadCopy p count noFaults).map fun r => (r.pipe, ⟨r.ret, r.bytes⟩)
  | .write _ buf => (pipeWriteCopy p buf noFaults).map fun r => (r.pipe, ⟨r.ret, []⟩)

section Calls

variable {s : State} {t : Tid} {o : Io}

/-- Task `t` has entered the driver and holds the mutex. -/
def locked (s : State) (t : Tid) (o : Io) : State :=
  { (s.goto t (.locking (.io o))).goto t (.locked (.io o)) with owner := some t }

theorem locked_pc : (locked s t o).pc t = .locked (.io o) := update_self t _ _

theorem fullCall_eq (idle : Idle t s) (hadmits : s.admits (.io o) = true) {u : State × List Event}
    (h : driver.step (locked s t o) (.critical t noFaults) = some u) :
    fullCall t s o = fullEnd t u.1 u.2 := by
  have hcall : driver.step s (.call t (.io o)) =
      some (s.goto t (.locking (.io o)), []) := if_pos ⟨idle.user, hadmits⟩
  have hlock : driver.step (s.goto t (.locking (.io o))) (.lock t) =
      some (locked s t o, []) := by
    have hpc : (s.goto t (.locking (.io o))).pc t = .locking (.io o) := update_self t _ _
    have hfree : (s.goto t (.locking (.io o))).owner = none := idle.owner
    simp only [driver, KernelPipe.step, hpc, hfree, if_true]
    rfl
  simp only [fullCall, Machine.run, hcall, hlock, h, List.nil_append, List.append_nil]

theorem delivered_append (es es' : List Event) :
    delivered (es ++ es') = delivered es ++ delivered es' := List.flatMap_append

theorem returned_append (es es' : List Event) :
    returned (es ++ es') = returned es ++ returned es' := List.filterMap_append

/-- A transfer that came to its end wakes the other side and returns; its copies are not seen. -/
theorem fullEnd_of_transfer (t : Tid) (o : Io) (sl : State) (copies : List Event) (moved : Event)
    (hfinished : r.finished = true) (hdelivered : delivered copies = [])
    (hreturned : returned copies = []) (hmoved : returned [moved] = []) :
    ∃ s', fullEnd t (transferEnd sl t o r copies moved).1
        (transferEnd sl t o r copies moved).2 = some (s', [⟨r.ret, delivered [moved]⟩]) ∧
      s'.pipe = r.pipe ∧ Idle t s' := by
  set s₁ : State := { sl.goto t (.waking o r.ret) with pipe := r.pipe, owner := none }
    with hs₁
  have hend : transferEnd sl t o r copies moved =
      (s₁, copies ++ [moved, .unlock t sl.owner]) := if_pos hfinished
  have hpc : s₁.pc t = .waking o r.ret := update_self t _ _
  have hwake : driver.step s₁ (.wake t) =
      some ((s₁.wakeUpAll o.wakes).goto t .user, [.ret t (.io o) r.ret s₁.owner]) := by
    simp only [driver, KernelPipe.step, hpc]
  refine ⟨(s₁.wakeUpAll o.wakes).goto t .user, ?_, rfl, rfl, update_self t _ _⟩
  have hlist : copies ++ [moved, .unlock t sl.owner] ++ [.ret t (.io o) r.ret s₁.owner] =
      copies ++ ([moved] ++ [.unlock t sl.owner, .ret t (.io o) r.ret s₁.owner]) := by simp
  rw [hend]
  simp only [fullEnd, hpc, hwake]
  rw [hlist, results, returned_append, returned_append, delivered_append, delivered_append,
    hreturned, hmoved, hdelivered]
  simp [returned, delivered]

/-- A read that does not sleep: it returns, unless it meets a `BUG_ON`. -/
theorem fullCall_of_read {x : File} {count : Nat} (idle : Idle t s)
    (hawake : Awake s (.read x count)) :
    match fullTransfer s.pipe (.read x count) with
    | none => fullCall t s (.read x count) = none
    | some (p, r) => ∃ s', fullCall t s (.read x count) = some (s', [r]) ∧ s'.pipe = p ∧ Idle t s' := by
  obtain ⟨hadmits, hfinds⟩ := hawake
  set sl := locked s t (.read x count) with hsl
  have hpipe : sl.pipe = s.pipe := rfl
  have hstep : driver.step sl (.critical t noFaults) =
      some (KernelPipe.pipeRead sl t x count noFaults) := by
    simp only [driver, KernelPipe.step, hsl, locked_pc]
  rw [fullCall_eq idle hadmits hstep]
  by_cases hempty : KernelPipe.pipeData s.pipe = 0
  · -- the end of the file
    have hwriters : s.pipe.writers = 0 := hfinds.resolve_left (not_not_intro hempty)
    have hread : KernelPipe.pipeRead sl t x count noFaults = ({ sl.goto t .user with owner := none },
        [.unlock t sl.owner, .ret t (.io (.read x count)) 0 none]) := by
      rw [KernelPipe.pipeRead, hpipe, if_neg (by omega), if_pos ⟨hempty, hwriters⟩]
    have hpc : (sl.goto t .user).pc t = .user := update_self t _ _
    simp only [fullTransfer, if_pos hempty]
    refine ⟨{ sl.goto t .user with owner := none }, ?_, rfl, rfl, hpc⟩
    rw [hread]
    simp only [fullEnd, hpc]
    rfl
  · simp only [fullTransfer, if_neg hempty]
    cases hcopy : pipeReadCopy s.pipe count noFaults with
    | none =>
      have hread : KernelPipe.pipeRead sl t x count noFaults = (sl.goto t .dead, [.bug t]) := by
        rw [KernelPipe.pipeRead, hpipe, if_neg (fun h => hempty h.1),
          if_neg (fun h => hempty h.1), hcopy]
      have hpc : (sl.goto t .dead).pc t = .dead := update_self t _ _
      rw [hread]
      simp only [Option.map_none, fullEnd, hpc]
    | some r =>
      have hread : KernelPipe.pipeRead sl t x count noFaults =
          transferEnd sl t (.read x count) r (r.copies.map .copyTo)
            (.delivered t count (KernelPipe.pipeData s.pipe) r.bytes) := by
        rw [KernelPipe.pipeRead, hpipe, if_neg (fun h => hempty h.1),
          if_neg (fun h => hempty h.1), hcopy]
      obtain ⟨s', hs', hs'pipe, hidle⟩ := fullEnd_of_transfer t (.read x count) sl
        (r.copies.map .copyTo) (.delivered t count (KernelPipe.pipeData s.pipe) r.bytes)
        (pipeRead_agrees hempty hcopy).2 (by simp [delivered, List.flatMap_map])
        (by simp [returned, List.filterMap_map]) rfl
      simp only [Option.map_some]
      refine ⟨s', ?_, hs'pipe, hidle⟩
      rw [hread, hs']
      simp [delivered]

/-- A write that finds room: it returns, unless it meets a `BUG_ON`. -/
theorem fullCall_of_write {x : File} {buf : List UInt8} (idle : Idle t s)
    (hawake : Awake s (.write x buf)) :
    match fullTransfer s.pipe (.write x buf) with
    | none => fullCall t s (.write x buf) = none
    | some (p, r) => ∃ s', fullCall t s (.write x buf) = some (s', [r]) ∧ s'.pipe = p ∧ Idle t s' := by
  obtain ⟨hadmits, hroom⟩ := hawake
  replace hroom : KernelPipe.pipeRoom s.pipe ≠ 0 := hroom
  set sl := locked s t (.write x buf) with hsl
  have hpipe : sl.pipe = s.pipe := rfl
  have hstep : driver.step sl (.critical t noFaults) =
      some (KernelPipe.pipeWrite sl t x buf noFaults) := by
    simp only [driver, KernelPipe.step, hsl, locked_pc]
  rw [fullCall_eq idle hadmits hstep]
  simp only [fullTransfer]
  cases hcopy : pipeWriteCopy s.pipe buf noFaults with
  | none =>
    have hwrite : KernelPipe.pipeWrite sl t x buf noFaults = (sl.goto t .dead, [.bug t]) := by
      rw [KernelPipe.pipeWrite, hpipe, if_neg hroom, hcopy]
    have hpc : (sl.goto t .dead).pc t = .dead := update_self t _ _
    rw [hwrite]
    simp only [Option.map_none, fullEnd, hpc]
  | some r =>
    have hwrite : KernelPipe.pipeWrite sl t x buf noFaults =
        transferEnd sl t (.write x buf) r (r.copies.map .copyFrom)
          (.accepted t buf (KernelPipe.pipeRoom s.pipe) r.ret) := by
      rw [KernelPipe.pipeWrite, hpipe, if_neg hroom, hcopy]
    obtain ⟨s', hs', hs'pipe, hidle⟩ := fullEnd_of_transfer t (.write x buf) sl
      (r.copies.map .copyFrom) (.accepted t buf (KernelPipe.pipeRoom s.pipe) r.ret)
      (pipeWrite_agrees hroom hcopy).2 (by simp [delivered, List.flatMap_map])
      (by simp [returned, List.filterMap_map]) rfl
    simp only [Option.map_some]
    refine ⟨s', ?_, hs'pipe, hidle⟩
    rw [hwrite, hs']
    simp [delivered]

theorem fullCall_spec (idle : Idle t s) (hawake : Awake s o) :
    match fullTransfer s.pipe o with
    | none => fullCall t s o = none
    | some (p, r) => ∃ s', fullCall t s o = some (s', [r]) ∧ s'.pipe = p ∧ Idle t s' := by
  cases o with
  | read x count => exact fullCall_of_read idle hawake
  | write x buf => exact fullCall_of_write idle hawake

/-- What the full driver does to the ring, this one does. -/
theorem fullTransfer_agrees {p : KernelPipe.Pipe} {r : Result} (hawake : Awake s o)
    (h : fullTransfer s.pipe o = some (p, r)) : pipeCall (ring s.pipe) o = (ring p, r) := by
  cases o with
  | read x count =>
    simp only [fullTransfer] at h
    split at h
    · rename_i hempty
      obtain ⟨rfl, rfl⟩ := result_inj h
      have hzero : pipeData (ring s.pipe) = 0 := hempty
      simp only [pipeCall, pipeRead, hzero, Bool.true_eq_false, if_true, if_false]
    · rename_i hdata
      obtain ⟨tr, hcopy, heq⟩ := Option.map_eq_some_iff.mp h
      obtain ⟨rfl, rfl⟩ := Prod.mk.inj heq
      exact (pipeRead_agrees hdata hcopy).1
  | write x buf =>
    obtain ⟨tr, hcopy, heq⟩ := Option.map_eq_some_iff.mp h
    obtain ⟨rfl, rfl⟩ := Prod.mk.inj heq
    exact (pipeWrite_agrees hawake.2 hcopy).1

/-- On a well-formed ring a transfer meets no `BUG_ON`, and the ring stays well-formed. -/
theorem fullTransfer_wf (hwf : Wf s.pipe) (o : Io) :
    ∃ p r, fullTransfer s.pipe o = some (p, r) ∧ Wf p := by
  cases o with
  | read x count =>
    by_cases hempty : KernelPipe.pipeData s.pipe = 0
    · exact ⟨s.pipe, ⟨0, []⟩, if_pos hempty, hwf⟩
    · set r := KernelPipe.readOutcome s.pipe count noFaults with hr
      have htransfer : fullTransfer s.pipe (.read x count) = some (r.pipe, ⟨r.ret, r.bytes⟩) := by
        simp only [fullTransfer, if_neg hempty, KernelPipe.pipeReadCopy_eq hwf, Option.map_some, hr]
      exact ⟨_, _, htransfer, (KernelPipe.readOutcome_safe hwf count noFaults).1⟩
  | write x buf =>
    set r := KernelPipe.writeOutcome s.pipe buf noFaults with hr
    have htransfer : fullTransfer s.pipe (.write x buf) = some (r.pipe, ⟨r.ret, []⟩) := by
      simp only [fullTransfer, KernelPipe.pipeWriteCopy_eq hwf, Option.map_some, hr]
    exact ⟨_, _, htransfer, (KernelPipe.writeOutcome_safe hwf buf noFaults).1⟩

end Calls

/-! ## Sequences of calls -/

/-- **The two pipes agree.** One task calls reads and writes of the full driver, from any state in
    which it is not in the driver and nobody holds the mutex, and each call finds what it needs. As
    far as the full driver returns, the other driver returns the same values and bytes from the same
    ring and leaves the same ring. If the ring is well-formed, the full driver returns from every
    call. -/
theorem simple_pipe_agrees (t : Tid) (s : State) (ops : List Io)
    (idle : Idle t s) (hawake : (fullPipe t).Along Awake s ops) :
    (∀ s' rs, (fullPipe t).run s ops = some (s', rs) →
      simplePipe.run (ring s.pipe) ops = some (ring s'.pipe, rs)) ∧
    (Wf s.pipe → ∃ s' rs, (fullPipe t).run s ops = some (s', rs)) := by
  constructor
  · intro s' rs hr
    refine (fullPipe t).run_agrees simplePipe Awake (Idle t) (fun s => ring s.pipe) ?_ hawake idle hr
    intro s o s₁ es hawake idle hs
    have hspec := fullCall_spec idle hawake
    cases htransfer : fullTransfer s.pipe o with
    | none =>
      rw [htransfer] at hspec
      exact absurd (hspec.symm.trans hs) (by simp)
    | some u =>
      obtain ⟨p, r⟩ := u
      rw [htransfer] at hspec
      obtain ⟨s', hcall, rfl, hidle⟩ := hspec
      obtain ⟨rfl, rfl⟩ := result_inj (hcall.symm.trans hs)
      refine ⟨hidle, ?_⟩
      show some ((pipeCall (ring s.pipe) o).1, [(pipeCall (ring s.pipe) o).2]) = _
      rw [fullTransfer_agrees hawake htransfer]
  · intro hwf
    have hstep (s : State) (o : Io) (hawake : Awake s o)
        (inv : Idle t s ∧ Wf s.pipe) :
        ∃ s₁ es, (fullPipe t).step s o = some (s₁, es) ∧ Idle t s₁ ∧ Wf s₁.pipe := by
      obtain ⟨p, r, htransfer, hwf'⟩ := fullTransfer_wf inv.2 o
      have hspec := fullCall_spec inv.1 hawake
      rw [htransfer] at hspec
      obtain ⟨s₁, hcall, rfl, hidle⟩ := hspec
      exact ⟨s₁, [r], hcall, hidle, hwf'⟩
    obtain ⟨s', rs, hr, _⟩ := (fullPipe t).exists_run_along Awake
      (fun s => Idle t s ∧ Wf s.pipe) hstep ops hawake ⟨idle, hwf⟩
    exact ⟨s', rs, hr⟩

/-- A pipe of four bytes, open once for reading and writing. -/
def smallState : State :=
  { KernelPipe.initState 4 fun _ => 0 with
    pipe := ⟨[0, 0, 0, 0], 4, 3, 3, 1, 1⟩
    files := [⟨0, .rdWr⟩]
    nextId := 1 }

/-- A write and a read that both go round the end of the ring, and a write of more than the room. -/
def wrapOps : List Io :=
  [.write ⟨0, .rdWr⟩ [1, 2], .read ⟨0, .rdWr⟩ 5, .write ⟨0, .rdWr⟩ [3, 4, 5, 6]]

instance (s : State) (o : Io) : Decidable (Awake s o) :=
  match o with
  | .read _ _ => inferInstanceAs (Decidable (_ ∧ (KernelPipe.pipeData s.pipe ≠ 0 ∨ _)))
  | .write _ _ => inferInstanceAs (Decidable (_ ∧ KernelPipe.pipeRoom s.pipe ≠ 0))

theorem simple_pipe_agrees_wrapOps :
    ∃ s' rs, (fullPipe 0).run smallState wrapOps = some (s', rs) ∧
      rs = [⟨2, []⟩, ⟨2, [1, 2]⟩, ⟨3, []⟩] ∧
      simplePipe.run (ring smallState.pipe) wrapOps = some (ring s'.pipe, rs) := by
  have hawake := (fullPipe 0).along_of_check (fun s o => decide (Awake s o)) wrapOps smallState
    (by decide +kernel)
  simp only [decide_eq_true_eq] at hawake
  obtain ⟨s', rs, hr, hrs⟩ := (fullPipe 0).exists_of_check smallState wrapOps
    (fun _ rs => rs = [⟨2, []⟩, ⟨2, [1, 2]⟩, ⟨3, []⟩]) (by decide +kernel)
  obtain ⟨hagree, _⟩ := simple_pipe_agrees 0 smallState wrapOps ⟨rfl, rfl⟩ hawake
  exact ⟨s', rs, hr, hrs, hagree s' rs hr⟩

end DemosOsLinux.SimplePipe
