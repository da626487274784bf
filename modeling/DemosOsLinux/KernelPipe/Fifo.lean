/-
  Whole runs of the named pipe: the ring invariant and the refinement of a bounded FIFO.

  `ring_invariant` holds in every run, with any faults of the user copies and any signals: the
  steps that hold the mutex are atomic in the model, and the ring needs nothing else.
  `driver_simulates_fifo` is the refinement, in runs whose user copies succeed: the stored
  bytes are the state of a FIFO of `size - 1` bytes, a finished write is a `put` and a finished
  read is a `get`, in the order in which the mutex was held. `pipe_refines_fifo` reads off what
  a caller sees.
-/
import DemosOsLinux.Lib.Fifo
import DemosOsLinux.KernelPipe.Transfer
import DemosOsLinux.KernelPipe.Trans

namespace DemosOsLinux.KernelPipe

open Lib

/-! ## What a step does to the ring -/

/-- The chunk of a user copy is good, and no `BUG_ON` fired. -/
def RingEventOk : Event → Prop
  | .copyTo c => ReadCopyOk c
  | .copyFrom c => WriteCopyOk c
  | .bug _ => False
  | _ => True

/-- Two pipes that differ at most in the open counters. -/
def SameRing (p q : Pipe) : Prop :=
  q.data = p.data ∧ q.size = p.size ∧ q.readPos = p.readPos ∧ q.writePos = p.writePos

variable {p : Pipe} {t : Tid} {cs tr : List Event} {r : Transfer} {mv : Event} {s : State}
  {acts : List Act}

theorem SameRing.wf {q : Pipe} (h : SameRing p q) (wf : Wf p) : Wf q := by
  obtain ⟨h1, h2, h3, h4⟩ := h
  exact ⟨by rw [h2]; exact wf.sizeLt, by rw [h2, h3]; exact wf.readLt,
    by rw [h2, h4]; exact wf.writeLt, by rw [h1, h2]; exact wf.dataLen⟩

theorem SameRing.pipeData {q : Pipe} (h : SameRing p q) : pipeData q = pipeData p := by
  obtain ⟨_, h2, h3, h4⟩ := h
  simp only [KernelPipe.pipeData, h2, h3, h4]

theorem SameRing.pipeRoom {q : Pipe} (h : SameRing p q) : pipeRoom q = pipeRoom p := by
  obtain ⟨_, h2, h3, h4⟩ := h
  simp only [KernelPipe.pipeRoom, h2, h3, h4]

theorem SameRing.stored {q : Pipe} (h : SameRing p q) : stored q = stored p := by
  have hd := h.pipeData
  simp only [KernelPipe.stored, hd, h.1, h.2.2.1]

theorem sameRing_pipeOpen (s : State) (t : Tid) (m : Mode) :
    SameRing s.pipe (pipeOpen s t m).1.pipe := by
  cases m <;> exact ⟨rfl, rfl, rfl, rfl⟩

theorem sameRing_pipeRelease (s : State) (t : Tid) (x : File) :
    SameRing s.pipe (pipeRelease s t x).1.pipe := by
  unfold pipeRelease
  cases x.mode <;> exact ⟨rfl, rfl, rfl, rfl⟩

theorem enter_pipe (s : State) (t : Tid) (c : Call) : (s.enter t c).pipe = s.pipe := by
  cases c <;> rfl

/-- A transfer step: the closed form of its copying part. -/
theorem Moves.outcome {f : Faults} {o : Io} (h : Moves t p f o r cs mv) (wf : Wf p) :
    (∃ x count, o = .read x count ∧ r = readOutcome p count f ∧ cs = r.copies.map .copyTo ∧
      mv = .delivered t count (pipeData p) r.bytes) ∨
    (∃ x buf, o = .write x buf ∧ r = writeOutcome p buf f ∧ cs = r.copies.map .copyFrom ∧
      mv = .accepted t buf (pipeRoom p) r.ret) := by
  cases h with
  | read x count r h =>
    rw [pipeReadCopy_eq wf, Option.some.injEq] at h
    exact Or.inl ⟨x, count, rfl, h.symm, rfl, rfl⟩
  | write x buf r h =>
    rw [pipeWriteCopy_eq wf, Option.some.injEq] at h
    exact Or.inr ⟨x, buf, rfl, h.symm, rfl, rfl⟩

theorem Moves.safe {f : Faults} {o : Io} (h : Moves t p f o r cs mv) (wf : Wf p) :
    Wf r.pipe ∧ SameFrame p r.pipe ∧ (∀ e ∈ cs, RingEventOk e) ∧ RingEventOk mv := by
  obtain ⟨x, count, _, rfl, rfl, rfl⟩ | ⟨x, buf, _, rfl, rfl, rfl⟩ := h.outcome wf
  · obtain ⟨h1, h2, h3⟩ := readOutcome_safe wf count f
    exact ⟨h1, h2, List.forall_mem_map.mpr h3, trivial⟩
  · obtain ⟨h1, h2, h3⟩ := writeOutcome_safe wf buf f
    exact ⟨h1, h2, List.forall_mem_map.mpr h3, trivial⟩

/-- On a well-formed pipe no `BUG_ON` fires. -/
theorem not_bugs (wf : Wf p) (f : Faults) (o : Io) : ¬ Bugs p f o := by
  intro h
  cases h with
  | read x count h =>
    rw [pipeReadCopy_eq wf] at h
    cases h
  | write x buf h =>
    rw [pipeWriteCopy_eq wf] at h
    cases h

/-- One step keeps the ring invariant and issues good chunks only. -/
theorem trans_ring {s' : State} {a : Act} {es : List Event} (h : Trans s a es s') (wf : Wf s.pipe) :
    Wf s'.pipe ∧ s'.pipe.size = s.pipe.size ∧ ∀ e ∈ es, RingEventOk e := by
  cases h with
  | call t c => exact ⟨by rw [enter_pipe]; exact wf, by rw [enter_pipe], by simp⟩
  | opens t m f =>
    have hr := sameRing_pipeOpen s t m
    exact ⟨hr.wf wf, hr.2.1, by simp [pipeOpen, RingEventOk]⟩
  | releases t x f =>
    have hr := sameRing_pipeRelease s t x
    exact ⟨hr.wf wf, hr.2.1, by simp [pipeRelease, RingEventOk]⟩
  | bug t o f hpc hb => exact absurd hb (not_bugs wf f o)
  | done t o f r cs mv hpc hw hm he hf =>
    obtain ⟨h1, h2, h3, h4⟩ := hm.safe wf
    exact ⟨h1, h2.1, forall_transferEvents h3 h4 trivial⟩
  | fault t o f r cs mv hpc hm hf =>
    obtain ⟨h1, h2, h3, _⟩ := hm.safe wf
    exact ⟨h1, h2.1, forall_transferEvents h3 trivial trivial⟩
  | _ => exact ⟨wf, rfl, by simp [RingEventOk]⟩

/-! ## The ring invariant over runs -/

theorem run_ring {s' : State} (wf : Wf s.pipe) (hr : driver.run s acts = some (s', tr)) :
    (Wf s'.pipe ∧ s'.pipe.size = s.pipe.size) ∧ ∀ e ∈ tr, RingEventOk e := by
  refine driver.run_events (fun _ => True) (fun u => Wf u.pipe ∧ u.pipe.size = s.pipe.size)
    RingEventOk ?_ (fun _ _ => trivial) ⟨wf, rfl⟩ hr
  intro u a u' es _ hi hs
  obtain ⟨h1, h2, h3⟩ := trans_ring (trans_of_step hs) hi.1
  exact ⟨⟨h1, h2.trans hi.2⟩, h3⟩

/-- **Ring invariant.** For every `pipe_size >= 1`, in every state of every run (any
    interleaving, any counts, any faults): the positions are inside the buffer, no subtraction
    in `pipe_room` or `pipe_data` wraps, they add up to `size - 1`, every chunk handed to a user
    copy lies inside the buffer, no write chunk covers a stored byte and no `BUG_ON` fires. -/
theorem ring_invariant (pipeSize : Int32) (hsize : 1 ≤ pipeSize.toInt) (mem : Nat → UInt8)
    (acts : List Act) (s : State) (tr : List Event)
    (hr : driver.run (initState pipeSize mem) acts = some (s, tr)) :
    s.pipe.readPos < s.pipe.size ∧ s.pipe.writePos < s.pipe.size ∧
      pipeRoomChecked s.pipe = some (pipeRoom s.pipe) ∧
      pipeDataChecked s.pipe = some (pipeData s.pipe) ∧
      pipeRoom s.pipe + pipeData s.pipe = s.pipe.size - 1 ∧
      (∀ c, Event.copyTo c ∈ tr → ReadCopyOk c) ∧
      (∀ c, Event.copyFrom c ∈ tr → WriteCopyOk c) ∧
      (∀ t, Event.bug t ∉ tr) := by
  have hwf : Wf (initState pipeSize mem).pipe := wf_pipeCtor pipeSize mem hsize
  obtain ⟨⟨wf, _⟩, hev⟩ := run_ring hwf hr
  exact ⟨wf.readLt, wf.writeLt, pipeRoomChecked_eq wf, pipeDataChecked_eq wf,
    pipeRoom_add_pipeData wf, fun c hc => hev _ hc, fun c hc => hev _ hc, fun t ht => hev _ ht⟩

/-- A run with a wrap-around and a fault, for `pipe_size` 4: three bytes written, two read,
    three more offered with a fault in the second chunk. -/
def faultyRun : List Act :=
  [.call 0 (.open .rdWr), .lock 0, .critical 0 noFaults,
    .call 0 (.io (.write ⟨0, .rdWr⟩ [1, 2, 3])), .lock 0, .critical 0 noFaults, .wake 0,
    .call 0 (.io (.read ⟨0, .rdWr⟩ 2)), .lock 0, .critical 0 noFaults, .wake 0,
    .call 0 (.io (.write ⟨0, .rdWr⟩ [4, 5, 6])), .lock 0, .critical 0 ⟨0, 1⟩]

theorem ring_invariant_faultyRun :
    ∃ s tr, driver.run (initState 4 fun _ => 0) faultyRun = some (s, tr) ∧
      pipeRoom s.pipe + pipeData s.pipe = s.pipe.size - 1 := by
  have hrun : (driver.run (initState 4 fun _ => 0) faultyRun).isSome = true := by decide +kernel
  obtain ⟨⟨s, tr⟩, h⟩ := Option.isSome_iff_exists.mp hrun
  exact ⟨s, tr, h, (ring_invariant 4 (by decide) _ faultyRun s tr h).2.2.2.2.1⟩

/-! ## The refinement -/

/-- Both user copies of the critical section succeed. -/
def Act.CopiesSucceed : Act → Prop
  | .critical _ f => f = noFaults
  | _ => True

/-- What an event shows of the FIFO: a finished write of `n` bytes puts the first `n` bytes of
    its buffer, a finished read gets the bytes it delivered. -/
def fifoView : Event → Option (FifoEvent UInt8)
  | .accepted _ buf _ n => some (.put (buf.take n.toNat))
  | .delivered _ _ _ bytes => some (.got bytes)
  | _ => none

/-- The accepted prefixes of all writes, in lock order. -/
def acceptedBytes (tr : List Event) : List UInt8 := putAll (tr.filterMap fifoView)

/-- The bytes delivered by all reads, in lock order. -/
def deliveredBytes (tr : List Event) : List UInt8 := gotAll (tr.filterMap fifoView)

theorem fifoView_copies (cs : List Copy) :
    (cs.map Event.copyTo).filterMap fifoView = [] ∧
      (cs.map Event.copyFrom).filterMap fifoView = [] := by
  constructor
  · exact List.filterMap_eq_nil_iff.mpr (List.forall_mem_map.mpr fun _ _ => rfl)
  · exact List.filterMap_eq_nil_iff.mpr (List.forall_mem_map.mpr fun _ _ => rfl)

/-- A finished transfer, seen from the FIFO. -/
theorem Moves.simulates {o : Io} (h : Moves t p noFaults o r cs mv) (wf : Wf p) (owner : Option Tid) :
    r.finished = true ∧ ∃ bs, (fifo UInt8 (p.size - 1)).run (stored p) bs =
      some (stored r.pipe, (cs ++ [mv, .unlock t owner]).filterMap fifoView) := by
  have hlen := length_stored wf
  have hrd := pipeRoom_add_pipeData wf
  obtain ⟨x, count, _, rfl, rfl, rfl⟩ | ⟨x, buf, _, rfl, rfl, rfl⟩ := h.outcome wf
  · obtain ⟨hf, _, hb, hst⟩ := readOutcome_noFaults wf count rfl
    refine ⟨hf, [.get (min (pipeData p) count)], ?_⟩
    rw [fifo_get _ _ _ (by omega), List.filterMap_append, (fifoView_copies _).1, hst]
    simp [fifoView, hb]
  · obtain ⟨hf, hret, hst⟩ := writeOutcome_noFaults wf buf rfl
    refine ⟨hf, [.put (buf.take (min (pipeRoom p) buf.length))], ?_⟩
    have hput : (buf.take (min (pipeRoom p) buf.length)).length ≤ pipeRoom p := by
      rw [List.length_take]
      omega
    have hn : (writeOutcome p buf noFaults).ret.toNat = min (pipeRoom p) buf.length := by
      rw [hret, Int.toNat_natCast]
    rw [fifo_put _ _ _ (by omega), List.filterMap_append, (fifoView_copies _).2, hst]
    simp [fifoView, hn]

/-- One step, seen from the FIFO: nothing, a `put` or a `get`. -/
theorem trans_simulates {s' : State} {a : Act} {es : List Event} (h : Trans s a es s')
    (ha : a.CopiesSucceed) (wf : Wf s.pipe) :
    ∃ bs, (fifo UInt8 (s.pipe.size - 1)).run (stored s.pipe) bs =
      some (stored s'.pipe, es.filterMap fifoView) := by
  cases h with
  | call t c => exact ⟨[], by rw [enter_pipe]; rfl⟩
  | opens t m f => exact ⟨[], by rw [(sameRing_pipeOpen s t m).stored]; rfl⟩
  | releases t x f => exact ⟨[], by rw [(sameRing_pipeRelease s t x).stored]; rfl⟩
  | bug t o f hpc hb => exact absurd hb (not_bugs wf f o)
  | done t o f r cs mv hpc hw hm he hf =>
    obtain rfl : f = noFaults := ha
    exact (hm.simulates wf s.owner).2
  | fault t o f r cs mv hpc hm hf =>
    obtain rfl : f = noFaults := ha
    rw [(hm.simulates wf s.owner).1] at hf
    cases hf
  | _ => exact ⟨[], rfl⟩

/-- Every run whose user copies succeed is a run of the FIFO of `size - 1` bytes. -/
theorem driver_simulates_fifo {s' : State} (wf : Wf s.pipe) (hc : ∀ a ∈ acts, a.CopiesSucceed)
    (hr : driver.run s acts = some (s', tr)) :
    (Wf s'.pipe ∧ s'.pipe.size = s.pipe.size) ∧
      ∃ bs, (fifo UInt8 (s.pipe.size - 1)).run (stored s.pipe) bs =
        some (stored s'.pipe, tr.filterMap fifoView) := by
  refine driver.run_simulates (fifo UInt8 (s.pipe.size - 1)) Act.CopiesSucceed
    (fun u => Wf u.pipe ∧ u.pipe.size = s.pipe.size) (fun u => stored u.pipe) fifoView ?_ hc
    ⟨wf, rfl⟩ hr
  intro u a u' es ha hi hs
  have ht := trans_of_step hs
  obtain ⟨h1, h2, _⟩ := trans_ring ht hi.1
  refine ⟨⟨h1, h2.trans hi.2⟩, ?_⟩
  have hsim := trans_simulates ht ha hi.1
  rw [hi.2] at hsim
  exact hsim

theorem stored_initState (pipeSize : Int32) (mem : Nat → UInt8) (hsize : 1 ≤ pipeSize.toInt) :
    stored (initState pipeSize mem).pipe = [] := by
  have hwf : Wf (initState pipeSize mem).pipe := wf_pipeCtor pipeSize mem hsize
  apply List.eq_nil_of_length_eq_zero
  rw [length_stored hwf, pipeData_eq hwf]
  exact fill_self _ 0

/-- The FIFO law, read back for the driver: what came out and what is stored is what went in. -/
theorem run_fifo_law {pipeSize : Int32} {mem : Nat → UInt8} (hsize : 1 ≤ pipeSize.toInt)
    (hcopy : ∀ a ∈ acts, a.CopiesSucceed)
    (hr : driver.run (initState pipeSize mem) acts = some (s, tr)) :
    Wf s.pipe ∧ deliveredBytes tr ++ stored s.pipe = acceptedBytes tr := by
  have hwf : Wf (initState pipeSize mem).pipe := wf_pipeCtor pipeSize mem hsize
  obtain ⟨⟨wf, _⟩, bs, hbs⟩ := driver_simulates_fifo hwf hcopy hr
  have hlaw := fifo_law _ _ _ _ _ hbs
  rw [stored_initState pipeSize mem hsize, List.nil_append] at hlaw
  exact ⟨wf, hlaw⟩

/-- A write that finds room: it accepts the first `min (count, room)` bytes of its buffer. -/
theorem write_step (wf : Wf s.pipe) {x : File} {buf : List UInt8}
    (hpc : s.pc t = .locked (.io (.write x buf))) (hroom : 0 < pipeRoom s.pipe) :
    ∃ s' es, driver.step s (.critical t noFaults) = some (s', es) ∧
      s'.pc t = .waking (.write x buf) (min buf.length (pipeRoom s.pipe) : Nat) ∧
      acceptedBytes es = buf.take (min buf.length (pipeRoom s.pipe)) ∧
      deliveredBytes es = [] := by
  obtain ⟨hf, hret, _⟩ := writeOutcome_noFaults wf buf rfl
  rw [Nat.min_comm] at hret
  have hstep : driver.step s (.critical t noFaults) = some (pipeWrite s t x buf noFaults) := by
    simp only [driver, step, hpc]
  have hw : pipeWrite s t x buf noFaults =
      ({ s.goto t (.waking (.write x buf) (writeOutcome s.pipe buf noFaults).ret) with
          pipe := (writeOutcome s.pipe buf noFaults).pipe, owner := none },
        (writeOutcome s.pipe buf noFaults).copies.map Event.copyFrom ++
          [.accepted t buf (pipeRoom s.pipe) (writeOutcome s.pipe buf noFaults).ret,
            .unlock t s.owner]) := by
    unfold pipeWrite transferEnd
    rw [if_neg (by omega), pipeWriteCopy_eq wf]
    simp only [hf, if_true]
  have hn : (writeOutcome s.pipe buf noFaults).ret.toNat = min buf.length (pipeRoom s.pipe) := by
    rw [hret, Int.toNat_natCast]
  refine ⟨_, _, by rw [hstep, hw], ?_, ?_, ?_⟩
  · simp [State.goto, hret]
  · simp [acceptedBytes, (fifoView_copies _).2, fifoView, putAll, hn]
    rfl
  · simp [deliveredBytes, (fifoView_copies _).2, fifoView, gotAll]
    rfl

/-- A read that finds data: it delivers the first `min (count, data)` stored bytes. -/
theorem read_step (wf : Wf s.pipe) {x : File} {count : Nat}
    (hpc : s.pc t = .locked (.io (.read x count))) (hdata : 0 < pipeData s.pipe) :
    ∃ s' es, driver.step s (.critical t noFaults) = some (s', es) ∧
      s'.pc t = .waking (.read x count) (min count (pipeData s.pipe) : Nat) ∧
      deliveredBytes es = (stored s.pipe).take (min count (pipeData s.pipe)) ∧
      (deliveredBytes es).length = min count (pipeData s.pipe) ∧ acceptedBytes es = [] := by
  have hlen := length_stored wf
  obtain ⟨hf, hret, hb, _⟩ := readOutcome_noFaults wf count rfl
  rw [Nat.min_comm] at hret hb
  have hstep : driver.step s (.critical t noFaults) = some (pipeRead s t x count noFaults) := by
    simp only [driver, step, hpc]
  have hr : pipeRead s t x count noFaults =
      ({ s.goto t (.waking (.read x count) (readOutcome s.pipe count noFaults).ret) with
          pipe := (readOutcome s.pipe count noFaults).pipe, owner := none },
        (readOutcome s.pipe count noFaults).copies.map Event.copyTo ++
          [.delivered t count (pipeData s.pipe) (readOutcome s.pipe count noFaults).bytes,
            .unlock t s.owner]) := by
    unfold pipeRead transferEnd
    rw [if_neg (by omega), if_neg (by omega), pipeReadCopy_eq wf]
    simp only [hf, if_true]
  refine ⟨_, _, by rw [hstep, hr], ?_, ?_, ?_, ?_⟩
  · simp [State.goto, hret]
  · simp [deliveredBytes, (fifoView_copies _).1, fifoView, gotAll, hb]
    rfl
  · simp [deliveredBytes, (fifoView_copies _).1, fifoView, gotAll, hb, hlen]
    rfl
  · simp [acceptedBytes, (fifoView_copies _).1, fifoView, putAll]
    rfl

/-- **The pipe is a bounded byte FIFO.** For every `pipe_size >= 1`, in every state of every run
    whose user copies succeed: a write that finds room accepts exactly the first
    `min (count, room)` bytes of its buffer, a read that finds data delivers exactly
    `min (count, data)` bytes, and the bytes delivered so far followed by the bytes still stored
    are the accepted prefixes of all writes, in lock order. -/
theorem pipe_refines_fifo (pipeSize : Int32) (hsize : 1 ≤ pipeSize.toInt) (mem : Nat → UInt8)
    (acts : List Act) (hcopy : ∀ a ∈ acts, a.CopiesSucceed) (s : State) (tr : List Event)
    (hr : driver.run (initState pipeSize mem) acts = some (s, tr)) :
    (∀ t x buf, s.pc t = .locked (.io (.write x buf)) → 0 < pipeRoom s.pipe →
      ∃ s' es, driver.step s (.critical t noFaults) = some (s', es) ∧
        s'.pc t = .waking (.write x buf) (min buf.length (pipeRoom s.pipe) : Nat) ∧
        acceptedBytes es = buf.take (min buf.length (pipeRoom s.pipe)) ∧
        deliveredBytes es = []) ∧
    (∀ t x count, s.pc t = .locked (.io (.read x count)) → 0 < pipeData s.pipe →
      ∃ s' es, driver.step s (.critical t noFaults) = some (s', es) ∧
        s'.pc t = .waking (.read x count) (min count (pipeData s.pipe) : Nat) ∧
        deliveredBytes es = (stored s.pipe).take (min count (pipeData s.pipe)) ∧
        (deliveredBytes es).length = min count (pipeData s.pipe) ∧ acceptedBytes es = []) ∧
    deliveredBytes tr ++ stored s.pipe = acceptedBytes tr := by
  obtain ⟨wf, hlaw⟩ := run_fifo_law hsize hcopy hr
  exact ⟨fun t x buf hpc hroom => write_step wf hpc hroom,
    fun t x count hpc hdata => read_step wf hpc hdata, hlaw⟩

/-- Two tasks on one pipe of size 4: a writer fills it and goes on after a read made room. -/
def twoTaskRun : List Act :=
  [.call 0 (.open .wrOnly), .lock 0, .critical 0 noFaults,
    .call 1 (.open .rdOnly), .lock 1, .critical 1 noFaults,
    .call 0 (.io (.write ⟨0, .wrOnly⟩ [1, 2, 3, 4, 5])), .lock 0, .critical 0 noFaults, .wake 0,
    .call 0 (.io (.write ⟨0, .wrOnly⟩ [4, 5])), .lock 0, .critical 0 noFaults, .enqueue 0,
    .call 1 (.io (.read ⟨1, .rdOnly⟩ 2)), .lock 1, .critical 1 noFaults,
    .lock 0, .test 0, .critical 0 noFaults]

theorem pipe_refines_fifo_twoTaskRun :
    ∃ s tr, driver.run (initState 4 fun _ => 0) twoTaskRun = some (s, tr) ∧
      deliveredBytes tr ++ stored s.pipe = acceptedBytes tr ∧
      deliveredBytes tr = [1, 2] ∧ stored s.pipe = [3, 4, 5] := by
  obtain ⟨s, tr, h, hends⟩ := driver.exists_of_check (initState 4 fun _ => 0) twoTaskRun
    (fun s tr => deliveredBytes tr = [1, 2] ∧ stored s.pipe = [3, 4, 5]) (by decide +kernel)
  have hcopy : ∀ a ∈ twoTaskRun, a.CopiesSucceed := by simp [twoTaskRun, Act.CopiesSucceed]
  exact ⟨s, tr, h, (pipe_refines_fifo 4 (by decide) _ twoTaskRun hcopy s tr h).2.2, hends⟩

end DemosOsLinux.KernelPipe
