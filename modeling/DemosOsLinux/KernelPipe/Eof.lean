/-
  The open counters of the named pipe and its end-of-file contract.

  `readers` and `writers` count the open files: `FileInv` says so, and carries what a release
  needs (its file is open, and no other task releases it). The counters are C `int`s; that
  2^31 files of one device are never open at a time is not modelled.
  `eof_contract`: a read of a positive count returns 0 only from its end-of-file branch, where
  the ring is empty and no open file can write, so every accepted byte has been delivered.
-/
import DemosOsLinux.KernelPipe.Fifo

namespace DemosOsLinux.KernelPipe

open Lib Function

/-- The file that a task at this point is about to release. -/
def Pc.releases : Pc → Option File
  | .locking (.release x) | .locked (.release x) => some x
  | _ => none

/-- The files that can read, and those that can write. -/
def readFiles (files : List File) : Nat := files.countP fun x => x.mode.canRead

def writeFiles (files : List File) : Nat := files.countP fun x => x.mode.canWrite

structure FileInv (s : State) : Prop where
  readers : s.pipe.readers = readFiles s.files
  writers : s.pipe.writers = writeFiles s.files
  releasing : ∀ t x, (s.pc t).releases = some x → x ∈ s.files ∧ x ∈ s.closing
  releaser : ∀ t u x, (s.pc t).releases = some x → (s.pc u).releases = some x → t = u

theorem fileInv_initState (pipeSize : Int32) (mem : Nat → UInt8) :
    FileInv (initState pipeSize mem) := by
  refine ⟨rfl, rfl, ?_, ?_⟩
  · intro t x h
    cases h
  · intro t u x h
    cases h

/-! ## One step -/

variable {s : State} {t : Tid}

/-- A step that moves one task and opens, closes and counts nothing. -/
theorem FileInv.keep {s' : State} {l : Pc} (inv : FileInv s) (hpc : s'.pc = update s.pc t l)
    (hl : l.releases = none ∨ l.releases = (s.pc t).releases) (hf : s'.files = s.files)
    (hc : s'.closing = s.closing) (hrd : s'.pipe.readers = s.pipe.readers)
    (hwr : s'.pipe.writers = s.pipe.writers) : FileInv s' := by
  have back (u : Tid) (x : File) (h : (s'.pc u).releases = some x) :
      (s.pc u).releases = some x := by
    rw [hpc] at h
    by_cases hu : u = t
    · subst hu
      rw [update_self] at h
      rcases hl with hl | hl
      · rw [hl] at h
        cases h
      · rw [← hl]
        exact h
    · rw [update_of_ne hu] at h
      exact h
  refine ⟨by rw [hrd, hf]; exact inv.readers, by rw [hwr, hf]; exact inv.writers, ?_, ?_⟩
  · intro u x h
    rw [hf, hc]
    exact inv.releasing u x (back u x h)
  · intro u v x hu hv
    exact inv.releaser u v x (back u x hu) (back v x hv)

/-- The call of `close`: the file was open, and nobody was releasing it. -/
theorem FileInv.callRelease (inv : FileInv s) (t : Tid) (x : File)
    (hc : s.admits (.release x) = true) : FileInv (s.enter t (.release x)) := by
  simp only [State.admits, Bool.and_eq_true, decide_eq_true_eq] at hc
  have cases_of (u : Tid) (y : File) (h : ((s.enter t (.release x)).pc u).releases = some y) :
      (u = t ∧ y = x) ∨ (u ≠ t ∧ (s.pc u).releases = some y) := by
    rw [enter_pc] at h
    by_cases hu : u = t
    · subst hu
      rw [update_self] at h
      exact Or.inl ⟨rfl, (Option.some.inj h).symm⟩
    · rw [update_of_ne hu] at h
      exact Or.inr ⟨hu, h⟩
  refine ⟨inv.readers, inv.writers, ?_, ?_⟩
  · intro u y h
    show y ∈ s.files ∧ y ∈ insert x s.closing
    rcases cases_of u y h with ⟨_, rfl⟩ | ⟨_, h⟩
    · exact ⟨hc.1, Finset.mem_insert_self _ _⟩
    · exact ⟨(inv.releasing u y h).1, Finset.mem_insert_of_mem (inv.releasing u y h).2⟩
  · intro u v y hu hv
    rcases cases_of u y hu with ⟨hut, hy⟩ | ⟨_, hu'⟩
    · rcases cases_of v y hv with ⟨hvt, _⟩ | ⟨_, hv'⟩
      · rw [hut, hvt]
      · rw [hy] at hv'
        exact absurd (inv.releasing v x hv').2 hc.2
    · rcases cases_of v y hv with ⟨_, hy⟩ | ⟨_, hv'⟩
      · rw [hy] at hu'
        exact absurd (inv.releasing u x hu').2 hc.2
      · exact inv.releaser u v y hu' hv'

theorem FileInv.opens (inv : FileInv s) (t : Tid) (m : Mode) : FileInv (pipeOpen s t m).1 := by
  have hrd := inv.readers
  have hwr := inv.writers
  have back (u : Tid) (x : File) (h : ((pipeOpen s t m).1.pc u).releases = some x) :
      (s.pc u).releases = some x := by
    by_cases hu : u = t
    · subst hu
      simp [pipeOpen, State.goto, Pc.releases] at h
    · simpa [pipeOpen, State.goto, update_of_ne hu] using h
  refine ⟨?_, ?_, ?_, ?_⟩
  · show (pipeOpen s t m).1.pipe.readers = readFiles (⟨s.nextId, m⟩ :: s.files)
    unfold readFiles at hrd ⊢
    rw [List.countP_cons]
    cases m <;> simp [pipeOpen, Mode.canRead, Mode.canWrite, hrd]
  · show (pipeOpen s t m).1.pipe.writers = writeFiles (⟨s.nextId, m⟩ :: s.files)
    unfold writeFiles at hwr ⊢
    rw [List.countP_cons]
    cases m <;> simp [pipeOpen, Mode.canRead, Mode.canWrite, hwr]
  · intro u x h
    obtain ⟨h1, h2⟩ := inv.releasing u x (back u x h)
    exact ⟨List.mem_cons_of_mem _ h1, h2⟩
  · intro u v x hu hv
    exact inv.releaser u v x (back u x hu) (back v x hv)

/-- Closing an open file takes one off the counters of its mode. -/
theorem countP_erase_of_mem {files : List File} {x : File} (hx : x ∈ files) (p : File → Bool) :
    ((files.erase x).countP p : Int) = files.countP p - if p x = true then 1 else 0 := by
  rw [List.countP_erase]
  by_cases hp : p x = true
  · have hpos : 0 < files.countP p := List.countP_pos_iff.mpr ⟨x, hx, hp⟩
    rw [if_pos ⟨hx, hp⟩, if_pos hp]
    omega
  · rw [if_neg (fun h => hp h.2), if_neg hp]
    omega

theorem FileInv.releases (inv : FileInv s) (t : Tid) (x : File) (ht : (s.pc t).releases = some x) :
    FileInv (pipeRelease s t x).1 := by
  have hx := (inv.releasing t x ht).1
  have hrd := countP_erase_of_mem hx fun x => x.mode.canRead
  have hwr := countP_erase_of_mem hx fun x => x.mode.canWrite
  have back (u : Tid) (y : File) (h : ((pipeRelease s t x).1.pc u).releases = some y) :
      u ≠ t ∧ (s.pc u).releases = some y := by
    rw [pipeRelease_pc] at h
    by_cases hu : u = t
    · subst hu
      rw [update_self] at h
      cases h
    · rw [update_of_ne hu] at h
      exact ⟨hu, h⟩
  refine ⟨?_, ?_, ?_, ?_⟩
  · show (pipeRelease s t x).1.pipe.readers = readFiles (s.files.erase x)
    unfold readFiles
    rw [hrd, ← readFiles, ← inv.readers]
    cases hm : x.mode <;> simp [pipeRelease, hm, Mode.canRead, Mode.canWrite]
  · show (pipeRelease s t x).1.pipe.writers = writeFiles (s.files.erase x)
    unfold writeFiles
    rw [hwr, ← writeFiles, ← inv.writers]
    cases hm : x.mode <;> simp [pipeRelease, hm, Mode.canRead, Mode.canWrite]
  · -- another task releases another file, which stays open
    intro u y h
    obtain ⟨hu, hy⟩ := back u y h
    obtain ⟨h1, h2⟩ := inv.releasing u y hy
    have hne : y ≠ x := by
      intro e
      rw [e] at hy
      exact hu (inv.releaser u t x hy ht)
    exact ⟨(List.mem_erase_of_ne hne).mpr h1, Finset.mem_erase.mpr ⟨hne, h2⟩⟩
  · intro u v y hu hv
    exact inv.releaser u v y (back u y hu).2 (back v y hv).2

theorem trans_files {s' : State} {a : Act} {es : List Event} (h : Trans s a es s') (wf : Wf s.pipe)
    (inv : FileInv s) : FileInv s' := by
  cases h with
  | call t c hpc hc =>
    cases c with
    | release x => exact inv.callRelease t x hc
    | «open» m => exact inv.keep rfl (Or.inl rfl) rfl rfl rfl rfl
    | io o => exact inv.keep rfl (Or.inl rfl) rfl rfl rfl rfl
  | badAccess t o hpc => exact inv
  | lock t c ho hpc =>
    refine inv.keep rfl (Or.inr ?_) rfl rfl rfl rfl
    rw [hpc]
    cases c <;> rfl
  | opens t m f hpc => exact inv.opens t m
  | releases t x f hpc => exact inv.releases t x (by rw [hpc]; rfl)
  | done t o f r cs mv hpc hw hm he hf =>
    obtain ⟨_, ⟨_, hrd, hwr⟩, _⟩ := hm.safe wf
    exact inv.keep rfl (Or.inl rfl) rfl rfl hrd hwr
  | fault t o f r cs mv hpc hm hf =>
    obtain ⟨_, ⟨_, hrd, hwr⟩, _⟩ := hm.safe wf
    exact inv.keep rfl (Or.inl rfl) rfl rfl hrd hwr
  | _ => exact inv.keep rfl (Or.inl rfl) rfl rfl rfl rfl

/-! ## The return value 0 -/

/-- The side that a task at this point is about to wake. -/
def Pc.wakes : Pc → Option Side
  | .waking o _ => some o.wakes
  | _ => none

/-- A read of a positive count that is past its transfer does not return 0. -/
def ReadInv (pc : Tid → Pc) : Prop :=
  ∀ t x count v, pc t = .waking (.read x count) v → 0 < count → v ≠ 0

/-- A read of a positive count returns 0 only when the pipe `p` of its deciding step is empty
    and has no writers. -/
def ReadReturnOk (p : Pipe) : Event → Prop
  | .ret _ (.io (.read _ count)) v _ =>
      v = 0 → 0 < count → pipeData p = 0 ∧ p.writers = 0
  | _ => True

theorem ReadInv.keep {pc : Tid → Pc} {l : Pc} (inv : ReadInv pc)
    (hl : ∀ x count v, l = .waking (.read x count) v → 0 < count → v ≠ 0) :
    ReadInv (update pc t l) := by
  intro u x count v h
  by_cases hu : u = t
  · subst hu
    rw [update_self] at h
    exact hl x count v h
  · rw [update_of_ne hu] at h
    exact inv u x count v h

theorem ReadInv.leave {pc : Tid → Pc} {l : Pc} (inv : ReadInv pc) (hl : l.wakes = none) :
    ReadInv (update pc t l) := by
  refine inv.keep ?_
  intro x count v h
  rw [h] at hl
  cases hl

theorem readInv_user : ReadInv fun _ => .user := by
  intro t x count v h
  cases h

theorem readReturnOk_of_moves {p : Pipe} {f : Faults} {o : Io} {r : Transfer} {cs : List Event}
    {mv : Event} (h : Moves t p f o r cs mv) (owner : Option Tid) :
    ∀ e ∈ cs ++ [mv, .unlock t owner], ReadReturnOk p e := by
  cases h with
  | read x count r h =>
    exact forall_transferEvents (List.forall_mem_map.mpr fun _ _ => trivial) trivial trivial
  | write x buf r h =>
    exact forall_transferEvents (List.forall_mem_map.mpr fun _ _ => trivial) trivial trivial

/-- A read that got past the end-of-file branch has found data. -/
theorem data_pos_of_not_eof (inv : FileInv s) (hw : ¬ (pipeData s.pipe = 0 ∧ 0 < s.pipe.writers))
    (he : ¬ (pipeData s.pipe = 0 ∧ s.pipe.writers = 0)) : 0 < pipeData s.pipe := by
  have hnonneg : 0 ≤ s.pipe.writers := by
    rw [inv.writers]
    exact Int.natCast_nonneg _
  rcases Nat.eq_zero_or_pos (pipeData s.pipe) with hd | hd
  · rcases Int.lt_or_eq_of_le hnonneg with h | h
    · exact absurd ⟨hd, h⟩ hw
    · exact absurd ⟨hd, h.symm⟩ he
  · exact hd

theorem trans_reads {s' : State} {a : Act} {es : List Event} (h : Trans s a es s')
    (ha : a.CopiesSucceed) (wf : Wf s.pipe) (files : FileInv s) (inv : ReadInv s.pc) :
    ReadInv s'.pc ∧ ∀ e ∈ es, ReadReturnOk s.pipe e := by
  cases h with
  | call t c =>
    rw [enter_pc]
    exact ⟨inv.leave rfl, by simp⟩
  | badAccess t o hpc =>
    refine ⟨inv, fun e he => ?_⟩
    obtain rfl := List.mem_singleton.mp he
    cases o with
    | read x count => exact fun h => absurd h (by decide)
    | write x buf => trivial
  | opens t m f hpc =>
    exact ⟨inv.leave rfl, by simp [pipeOpen, ReadReturnOk]⟩
  | releases t x f hpc =>
    rw [pipeRelease_pc]
    exact ⟨inv.leave rfl, by simp [pipeRelease, ReadReturnOk]⟩
  | eof t x count f hpc hd hw =>
    refine ⟨inv.leave rfl, fun e he => ?_⟩
    rcases List.mem_cons.mp he with rfl | he
    · trivial
    · obtain rfl := List.mem_singleton.mp he
      exact fun _ _ => ⟨hd, hw⟩
  | bug t o f hpc hb => exact absurd hb (not_bugs wf f o)
  | done t o f r cs mv hpc hw hm he hf =>
    obtain rfl : f = noFaults := ha
    refine ⟨inv.keep ?_, readReturnOk_of_moves hm s.owner⟩
    intro x count v hl hcount
    obtain ⟨rfl, rfl⟩ := Pc.waking.inj hl
    -- the transfer moved min (data, count) bytes, and both are positive
    have hdata := data_pos_of_not_eof files hw (he rfl)
    obtain ⟨x', count', ho, rfl, _⟩ | ⟨_, _, ho, _⟩ := hm.outcome wf
    · obtain ⟨_, rfl⟩ := Io.read.inj ho
      rw [(readOutcome_noFaults wf count rfl).2.1]
      omega
    · cases ho
  | fault t o f r cs mv hpc hm hf =>
    obtain rfl : f = noFaults := ha
    rw [(hm.simulates wf s.owner).1] at hf
    cases hf
  | bail t o hpc =>
    refine ⟨inv.leave rfl, fun e he => ?_⟩
    rcases List.mem_cons.mp he with rfl | he
    · trivial
    · obtain rfl := List.mem_singleton.mp he
      cases o with
      | read x count => exact fun h => absurd h (by decide)
      | write x buf => trivial
  | wake t o v hpc =>
    refine ⟨inv.leave rfl, fun e he => ?_⟩
    obtain rfl := List.mem_singleton.mp he
    cases o with
    | read x count => exact fun h hcount => absurd h (inv t x count v hpc hcount)
    | write x buf => trivial
  | _ => exact ⟨inv.leave rfl, by simp [ReadReturnOk]⟩

/-! ## Whole runs -/

/-- The invariants of runs whose user copies succeed. -/
structure EofInv (s : State) : Prop where
  ring : Wf s.pipe
  files : FileInv s
  reads : ReadInv s.pc

theorem run_eofInv {pipeSize : Int32} {mem : Nat → UInt8} {acts : List Act} {tr : List Event}
    (hsize : 1 ≤ pipeSize.toInt) (hcopy : ∀ a ∈ acts, a.CopiesSucceed)
    (hr : driver.run (initState pipeSize mem) acts = some (s, tr)) : EofInv s := by
  refine driver.run_inv Act.CopiesSucceed EofInv ?_ hcopy ?_ hr
  · intro u a u' es ha inv hs
    have ht := trans_of_step hs
    exact ⟨(trans_ring ht inv.ring).1, trans_files ht inv.ring inv.files,
      (trans_reads ht ha inv.ring inv.files inv.reads).1⟩
  · exact ⟨wf_pipeCtor pipeSize mem hsize, fileInv_initState pipeSize mem,
      readInv_user⟩

theorem no_writer_of_writeFiles_zero {files : List File} (h : writeFiles files = 0) :
    ∀ y ∈ files, y.mode.canWrite = false := by
  intro y hy
  have := List.countP_eq_zero.mp h y hy
  simpa using this

/-- **End of file.** In every state of every run whose user copies succeed, the counters are
    the numbers of open files of their mode; and a step in which a read of a positive count
    returns 0 is taken with an empty ring and no open file that can write, when every byte
    accepted so far has been delivered. -/
theorem eof_contract (pipeSize : Int32) (hsize : 1 ≤ pipeSize.toInt) (mem : Nat → UInt8)
    (acts : List Act) (hcopy : ∀ a ∈ acts, a.CopiesSucceed) (s : State) (tr : List Event)
    (hr : driver.run (initState pipeSize mem) acts = some (s, tr)) :
    s.pipe.readers = readFiles s.files ∧ s.pipe.writers = writeFiles s.files ∧
    0 ≤ s.pipe.readers ∧ 0 ≤ s.pipe.writers ∧
    ∀ a s' es t x count owner, a.CopiesSucceed → driver.step s a = some (s', es) →
      Event.ret t (.io (.read x count)) 0 owner ∈ es → 0 < count →
      pipeData s.pipe = 0 ∧ (∀ y ∈ s.files, y.mode.canWrite = false) ∧
        deliveredBytes tr = acceptedBytes tr := by
  have inv := run_eofInv hsize hcopy hr
  have hrd := inv.files.readers
  have hwr := inv.files.writers
  refine ⟨hrd, hwr, by rw [hrd]; exact Int.natCast_nonneg _,
    by rw [hwr]; exact Int.natCast_nonneg _, ?_⟩
  intro a s' es t x count owner ha hs hret hcount
  obtain ⟨_, hev⟩ := trans_reads (trans_of_step hs) ha inv.ring inv.files inv.reads
  obtain ⟨hd, hw⟩ := hev _ hret rfl hcount
  have hnone : writeFiles s.files = 0 := by
    rw [hw] at hwr
    exact Int.natCast_eq_zero.mp hwr.symm
  refine ⟨hd, no_writer_of_writeFiles_zero hnone, ?_⟩
  have hlaw := (run_fifo_law hsize hcopy hr).2
  have hnil : stored s.pipe = [] := by
    apply List.eq_nil_of_length_eq_zero
    rw [length_stored inv.ring, hd]
  rw [hnil, List.append_nil] at hlaw
  exact hlaw

/-- A writer writes one byte and closes; a reader takes it and reads again. -/
def closedRun : List Act :=
  [.call 0 (.open .wrOnly), .lock 0, .critical 0 noFaults,
    .call 1 (.open .rdOnly), .lock 1, .critical 1 noFaults,
    .call 0 (.io (.write ⟨0, .wrOnly⟩ [7])), .lock 0, .critical 0 noFaults, .wake 0,
    .call 0 (.release ⟨0, .wrOnly⟩), .lock 0, .critical 0 noFaults,
    .call 1 (.io (.read ⟨1, .rdOnly⟩ 9)), .lock 1, .critical 1 noFaults, .wake 1,
    .call 1 (.io (.read ⟨1, .rdOnly⟩ 9)), .lock 1]

theorem eof_contract_closedRun :
    ∃ s tr s' es, driver.run (initState 4 fun _ => 0) closedRun = some (s, tr) ∧
      driver.step s (.critical 1 noFaults) = some (s', es) ∧
      Event.ret 1 (.io (.read ⟨1, .rdOnly⟩ 9)) 0 none ∈ es ∧
      deliveredBytes tr = acceptedBytes tr ∧ acceptedBytes tr = [7] := by
  obtain ⟨s, tr, h, hpc, hd, hw, hacc⟩ := driver.exists_of_check (initState 4 fun _ => 0) closedRun
    (fun s tr => s.pc 1 = .locked (.io (.read ⟨1, .rdOnly⟩ 9)) ∧ pipeData s.pipe = 0 ∧
      s.pipe.writers = 0 ∧ acceptedBytes tr = [7]) (by decide +kernel)
  have hstep : driver.step s (.critical 1 noFaults) =
      some ({ s.goto 1 .user with owner := none },
        [.unlock 1 s.owner, .ret 1 (.io (.read ⟨1, .rdOnly⟩ 9)) 0 none]) := by
    simp [driver, step, hpc, pipeRead, hd, hw]
  have hcopy : ∀ a ∈ closedRun, a.CopiesSucceed := by simp [closedRun, Act.CopiesSucceed]
  have hret : Event.ret 1 (.io (.read ⟨1, .rdOnly⟩ 9)) 0 none ∈
      [Event.unlock 1 s.owner, .ret 1 (.io (.read ⟨1, .rdOnly⟩ 9)) 0 none] := by simp
  have hc := (eof_contract 4 (by decide) _ closedRun hcopy s tr h).2.2.2.2
    (.critical 1 noFaults) _ _ 1 _ 9 none rfl hstep hret (by decide)
  exact ⟨s, tr, _, _, h, hstep, hret, hc.2.2, hacc⟩

end DemosOsLinux.KernelPipe
