/-
  No lost wakeup in the named pipe.

  A task that found its wait condition false goes to sleep without the mutex. From then on
  somebody else may make the condition true; the sleeper must get marked by a `wake_up_all`.
  `WakeInv` is the invariant: a waiting task is on its queue, and if the condition of a task
  that was refused holds although the task is not marked, then another task is past its
  critical section and about to wake that side.
  `pipe_release` wakes the readers before it drops the mutex, `pipe_read` and `pipe_write` wake
  the other side after it: the two cases of `WakeInv.step` that need an argument.
-/
import DemosOsLinux.KernelPipe.Eof

namespace DemosOsLinux.KernelPipe

open Lib Function

/-- This step is not the work of a signal: it ends no sleep, interrupts no wait and is not the
    error return after that. -/
def Act.NoSignal : Act → Prop
  | .signal _ | .interrupt _ | .bail _ => False
  | _ => True

/-- The side on whose queue a task at this point is. -/
def Pc.waitsOn : Pc → Option Side
  | .queued o | .testing o | .refused o | .asleep o => some o.side
  | _ => none

/-- The side whose condition a task at this point has found false. -/
def Pc.refusedBy : Pc → Option Side
  | .refused o | .asleep o => some o.side
  | _ => none

variable {l : Pc} {d : Side}

theorem Pc.waitsOn_of_refusedBy (h : l.refusedBy = some d) : l.waitsOn = some d := by
  cases l <;> first | exact h | cases h

/-- Who is about to wake the readers is in `pipe_write`. -/
theorem Pc.eq_of_wakes_reader (h : l.wakes = some .reader) :
    ∃ y buf v, l = .waking (.write y buf) v := by
  cases l with
  | waking o v =>
    cases o with
    | write y buf => exact ⟨y, buf, v, rfl⟩
    | read y count => cases h
  | _ => cases h

theorem Pc.eq_of_wakes_writer (h : l.wakes = some .writer) :
    ∃ y count v, l = .waking (.read y count) v := by
  cases l with
  | waking o v =>
    cases o with
    | read y count => exact ⟨y, count, v, rfl⟩
    | write y buf => cases h
  | _ => cases h

theorem Pc.wakes_of_refusedBy (h : l.refusedBy = some d) : l.wakes = none := by
  cases l <;> first | rfl | cases h

structure WakeInv (s : State) : Prop where
  onQueue : ∀ t d, (s.pc t).waitsOn = some d → t ∈ s.queue d
  noLost : ∀ t d, (s.pc t).refusedBy = some d → t ∉ s.woken → shouldWakeUp d s.pipe = true →
    ∃ u, (s.pc u).wakes = some d

theorem wakeInv_initState (pipeSize : Int32) (mem : Nat → UInt8) :
    WakeInv (initState pipeSize mem) := by
  refine ⟨?_, ?_⟩
  · intro t d h
    cases h
  · intro t d h
    cases h

/-! ## One step -/

section Step

variable {s s' : State} {t : Tid} {l : Pc}

/-- A step of the task `t`, which is at `l` afterwards. The other tasks stay queued and marked
    (`hq`, `hw`). A condition that becomes true for an unmarked sleeper is one that `t` is now
    about to announce (`hcond`), and if `t` was about to wake a side it has done so (`hwake`). -/
theorem WakeInv.step (inv : WakeInv s) (hpc : s'.pc = update s.pc t l)
    (hq : ∀ u d, u ≠ t → u ∈ s.queue d → u ∈ s'.queue d)
    (hw : ∀ u, u ≠ t → u ∈ s.woken → u ∈ s'.woken) (hlq : ∀ d, l.waitsOn = some d → t ∈ s'.queue d)
    (hlr : ∀ d, l.refusedBy = some d → t ∉ s'.woken → shouldWakeUp d s'.pipe = true →
      (s.pc t).refusedBy = some d ∧ t ∉ s.woken ∧ shouldWakeUp d s.pipe = true)
    (hcond : ∀ u d, u ≠ t → u ∈ s.queue d → u ∉ s'.woken → shouldWakeUp d s'.pipe = true →
      shouldWakeUp d s.pipe = true ∨ l.wakes = some d)
    (hwake : ∀ u d, u ≠ t → (s.pc t).wakes = some d → u ∈ s.queue d → u ∈ s'.woken) :
    WakeInv s' := by
  have at_t : s'.pc t = l := by rw [hpc, update_self]
  have other (u : Tid) (hu : u ≠ t) : s'.pc u = s.pc u := by
    rw [hpc, update_of_ne hu]
  refine ⟨?_, ?_⟩
  · intro u d h
    by_cases hu : u = t
    · subst hu
      exact hlq d (by rw [← at_t]; exact h)
    · rw [other u hu] at h
      exact hq u d hu (inv.onQueue u d h)
  · intro u d h hnw hc
    by_cases hu : u = t
    · -- the moved task was refused before, and its waker is another task
      subst hu
      rw [at_t] at h
      obtain ⟨h1, h2, h3⟩ := hlr d h hnw hc
      obtain ⟨v, hv⟩ := inv.noLost u d h1 h2 h3
      have hvt : v ≠ u := by
        intro e
        rw [e, Pc.wakes_of_refusedBy h1] at hv
        cases hv
      exact ⟨v, by rw [other v hvt]; exact hv⟩
    · rw [other u hu] at h
      have hmem := inv.onQueue u d (Pc.waitsOn_of_refusedBy h)
      rcases hcond u d hu hmem hnw hc with hold | hl
      · obtain ⟨v, hv⟩ := inv.noLost u d h (fun hm => hnw (hw u hu hm)) hold
        by_cases hvt : v = t
        · rw [hvt] at hv
          exact absurd (hwake u d hu hv hmem) hnw
        · exact ⟨v, by rw [other v hvt]; exact hv⟩
      · exact ⟨t, by rw [at_t]; exact hl⟩

/-- The same for a task that was not about to wake anybody. -/
theorem WakeInv.move (inv : WakeInv s) (ht : (s.pc t).wakes = none) (hpc : s'.pc = update s.pc t l)
    (hq : ∀ u d, u ≠ t → u ∈ s.queue d → u ∈ s'.queue d)
    (hw : ∀ u, u ≠ t → u ∈ s.woken → u ∈ s'.woken) (hlq : ∀ d, l.waitsOn = some d → t ∈ s'.queue d)
    (hlr : ∀ d, l.refusedBy = some d → t ∉ s'.woken → shouldWakeUp d s'.pipe = true →
      (s.pc t).refusedBy = some d ∧ t ∉ s.woken ∧ shouldWakeUp d s.pipe = true)
    (hcond : ∀ u d, u ≠ t → u ∈ s.queue d → u ∉ s'.woken → shouldWakeUp d s'.pipe = true →
      shouldWakeUp d s.pipe = true ∨ l.wakes = some d) : WakeInv s' := by
  refine inv.step hpc hq hw hlq hlr hcond ?_
  intro u d _ h
  rw [ht] at h
  cases h

/-- The same when the task is on no queue afterwards. -/
theorem WakeInv.leave (inv : WakeInv s) (ht : (s.pc t).wakes = none) (hpc : s'.pc = update s.pc t l)
    (hl : l.waitsOn = none) (hq : ∀ u d, u ≠ t → u ∈ s.queue d → u ∈ s'.queue d)
    (hw : ∀ u, u ≠ t → u ∈ s.woken → u ∈ s'.woken)
    (hcond : ∀ u d, u ≠ t → u ∈ s.queue d → u ∉ s'.woken → shouldWakeUp d s'.pipe = true →
      shouldWakeUp d s.pipe = true ∨ l.wakes = some d) : WakeInv s' := by
  refine inv.move ht hpc hq hw ?_ ?_ hcond
  · intro d h
    rw [hl] at h
    cases h
  · intro d h
    have hd := Pc.waitsOn_of_refusedBy h
    rw [hl] at hd
    cases hd

/-- The same when nothing but the place of the task changes. -/
theorem WakeInv.quiet (inv : WakeInv s) (ht : (s.pc t).wakes = none) (hpc : s'.pc = update s.pc t l)
    (hl : l.waitsOn = none) (hpipe : s'.pipe = s.pipe) (hq : s'.queue = s.queue)
    (hw : s'.woken = s.woken) : WakeInv s' := by
  refine inv.leave ht hpc hl (fun u d _ h => by rw [hq]; exact h)
    (fun u _ h => by rw [hw]; exact h) ?_
  intro u d _ _ _ hc
  rw [hpipe] at hc
  exact Or.inl hc

end Step

/-! ## The wait conditions -/

theorem shouldWakeUp_reader (p : Pipe) :
    shouldWakeUp .reader p = true ↔ 0 < pipeData p ∨ p.writers = 0 := by
  simp [shouldWakeUp, readerShouldWakeUp]

theorem shouldWakeUp_writer (p : Pipe) : shouldWakeUp .writer p = true ↔ 0 < pipeRoom p := by
  simp [shouldWakeUp, writerShouldWakeUp]

variable {s : State} {q : Side → Finset Tid}

/-- Opening a file makes no condition true. -/
theorem shouldWakeUp_pipeOpen (files : FileInv s) (t : Tid) (m : Mode) (d : Side)
    (h : shouldWakeUp d (pipeOpen s t m).1.pipe = true) : shouldWakeUp d s.pipe = true := by
  have hring := sameRing_pipeOpen s t m
  have hnonneg : 0 ≤ s.pipe.writers := by
    rw [files.writers]
    exact Int.natCast_nonneg _
  cases d with
  | writer =>
    rw [shouldWakeUp_writer] at h ⊢
    rw [← hring.pipeRoom]
    exact h
  | reader =>
    rw [shouldWakeUp_reader, hring.pipeData] at h
    rw [shouldWakeUp_reader]
    rcases h with h | h
    · exact Or.inl h
    · right
      cases m with
      | rdOnly => exact h
      | wrOnly =>
        have h' : s.pipe.writers + 1 = 0 := h
        omega
      | rdWr =>
        have h' : s.pipe.writers + 1 = 0 := h
        omega

/-- A release that makes the readers' condition true marks all queued readers. -/
theorem shouldWakeUp_pipeRelease (s : State) (t : Tid) (x : File) (u : Tid) (d : Side)
    (hu : u ∈ s.queue d) (hnw : u ∉ (pipeRelease s t x).1.woken)
    (h : shouldWakeUp d (pipeRelease s t x).1.pipe = true) : shouldWakeUp d s.pipe = true := by
  have hring := sameRing_pipeRelease s t x
  cases d with
  | writer =>
    rw [shouldWakeUp_writer] at h ⊢
    rw [← hring.pipeRoom]
    exact h
  | reader =>
    rw [shouldWakeUp_reader, hring.pipeData] at h
    rw [shouldWakeUp_reader]
    rcases h with h | h
    · exact Or.inl h
    · right
      cases hm : x.mode with
      | rdOnly => simpa [pipeRelease, hm, Mode.canRead, Mode.canWrite] using h
      | wrOnly =>
        have h' : s.pipe.writers - 1 = 0 := by
          simpa [pipeRelease, hm, Mode.canRead, Mode.canWrite] using h
        refine absurd ?_ hnw
        simp [pipeRelease, hm, Mode.canRead, Mode.canWrite, h', State.goto, State.wakeUpAll, hu]
      | rdWr =>
        have h' : s.pipe.writers - 1 = 0 := by
          simpa [pipeRelease, hm, Mode.canRead, Mode.canWrite] using h
        refine absurd ?_ hnw
        simp [pipeRelease, hm, Mode.canRead, Mode.canWrite, h', State.goto, State.wakeUpAll, hu]

theorem pipeRelease_queue (s : State) (t : Tid) (x : File) :
    (pipeRelease s t x).1.queue = s.queue := by
  have hq (c : Prop) [Decidable c] :
      (if c then s.wakeUpAll .reader else s).queue = s.queue := by
    split <;> rfl
  simp only [pipeRelease, State.goto, hq]

theorem pipeRelease_woken (s : State) (t : Tid) (x : File) :
    s.woken ⊆ (pipeRelease s t x).1.woken := by
  have hw (c : Prop) [Decidable c] :
      s.woken ⊆ (if c then s.wakeUpAll .reader else s).woken := by
    split
    · exact Finset.subset_union_left
    · exact Finset.Subset.refl _
  simp only [pipeRelease, State.goto]
  exact hw _

/-- A transfer makes no condition of its own side true: it found that one true already. -/
theorem shouldWakeUp_done {o : Io} (files : FileInv s) (hw : ¬ mustWait o.side s.pipe)
    (he : o.side = .reader → ¬ (pipeData s.pipe = 0 ∧ s.pipe.writers = 0)) (d : Side) :
    shouldWakeUp d s.pipe = true ∨ o.wakes = d := by
  cases o with
  | read x count =>
    cases d with
    | reader =>
      have hd := data_pos_of_not_eof files hw (he rfl)
      exact Or.inl ((shouldWakeUp_reader _).mpr (Or.inl hd))
    | writer => exact Or.inr rfl
  | write x buf =>
    cases d with
    | reader => exact Or.inr rfl
    | writer => exact Or.inl ((shouldWakeUp_writer _).mpr (Nat.pos_of_ne_zero hw))

theorem mem_erase_queue {t u : Tid} {e : Side} (hu : u ≠ t) (h : u ∈ q d) :
    u ∈ update q e ((q e).erase t) d := by
  by_cases hd : d = e
  · subst hd
    rw [update_self]
    exact Finset.mem_erase.mpr ⟨hu, h⟩
  · rw [update_of_ne hd]
    exact h

theorem mem_insert_queue {t u : Tid} {e : Side} (h : u ∈ q d) :
    u ∈ update q e (insert t (q e)) d := by
  by_cases hd : d = e
  · subst hd
    rw [update_self]
    exact Finset.mem_insert_of_mem h
  · rw [update_of_ne hd]
    exact h

/-- Every step of a run without faults and signals keeps the invariant. -/
theorem trans_wake {s' : State} {a : Act} {es : List Event} (h : Trans s a es s')
    (ha : a.CopiesSucceed) (hs : a.NoSignal) (wf : Wf s.pipe) (files : FileInv s)
    (inv : WakeInv s) : WakeInv s' := by
  cases h with
  | call t c hpc =>
    exact inv.quiet (by rw [hpc]; rfl) (enter_pc s t c) rfl (enter_pipe s t c)
      (by cases c <;> rfl) (by cases c <;> rfl)
  | badAccess t o hpc => exact inv
  | lock t c ho hpc => exact inv.quiet (by rw [hpc]; rfl) rfl rfl rfl rfl rfl
  | lockTest t o ho hpc =>
    refine inv.move (by rw [hpc]; rfl) rfl (fun _ _ _ h => h) (fun _ _ h => h) ?_ ?_
      (fun _ _ _ _ _ hc => Or.inl hc)
    · intro d h
      exact inv.onQueue t d (by rw [hpc]; exact h)
    · intro d h
      cases h
  | opens t m f hpc =>
    exact inv.leave (by rw [hpc]; rfl) rfl rfl (fun _ _ _ h => h) (fun _ _ h => h)
      (fun u d _ _ _ hc => Or.inl (shouldWakeUp_pipeOpen files t m d hc))
  | releases t x f hpc =>
    exact inv.leave (by rw [hpc]; rfl) (pipeRelease_pc s t x) rfl
      (fun u d _ h => by rw [pipeRelease_queue]; exact h)
      (fun u _ h => pipeRelease_woken s t x h)
      (fun u d _ hu hnw hc => Or.inl (shouldWakeUp_pipeRelease s t x u d hu hnw hc))
  | wait t o f hpc hw => exact inv.quiet (by rw [hpc]; rfl) rfl rfl rfl rfl rfl
  | eof t x count f hpc hd hw => exact inv.quiet (by rw [hpc]; rfl) rfl rfl rfl rfl rfl
  | bug t o f hpc hb => exact absurd hb (not_bugs wf f o)
  | done t o f r cs mv hpc hw hm he hf =>
    refine inv.leave (by rw [hpc]; rfl) rfl rfl (fun _ _ _ h => h) (fun _ _ h => h) ?_
    intro u d _ _ _ _
    rcases shouldWakeUp_done files hw he d with h | h
    · exact Or.inl h
    · exact Or.inr (congrArg some h)
  | fault t o f r cs mv hpc hm hf =>
    obtain rfl : f = noFaults := ha
    rw [(hm.simulates wf s.owner).1] at hf
    cases hf
  | enqueue t o hpc =>
    refine inv.move (by rw [hpc]; rfl) rfl (fun _ _ _ h => mem_insert_queue h)
      (fun u hu h => Finset.mem_erase.mpr ⟨hu, h⟩) ?_ ?_ (fun _ _ _ _ _ hc => Or.inl hc)
    · intro d h
      obtain rfl := Option.some.inj h
      show t ∈ update s.queue o.side (insert t (s.queue o.side)) o.side
      rw [update_self]
      exact Finset.mem_insert_self _ _
    · intro d h
      cases h
  | testTrue t o hpc hc =>
    exact inv.leave (by rw [hpc]; rfl) rfl rfl (fun _ _ hu h => mem_erase_queue hu h)
      (fun _ _ h => h) (fun _ _ _ _ _ hc => Or.inl hc)
  | testFalse t o hpc hc =>
    -- the condition was evaluated with the mutex held: it is false now
    refine inv.move (by rw [hpc]; rfl) rfl (fun _ _ _ h => h) (fun _ _ h => h) ?_ ?_
      (fun _ _ _ _ _ hc => Or.inl hc)
    · intro d h
      exact inv.onQueue t d (by rw [hpc]; exact h)
    · intro d h _ hd
      obtain rfl := Option.some.inj h
      exact absurd (hc.symm.trans hd) (by decide)
  | sleep t o hpc =>
    refine inv.move (by rw [hpc]; rfl) rfl (fun _ _ _ h => h) (fun _ _ h => h) ?_ ?_
      (fun _ _ _ _ _ hc => Or.inl hc)
    · intro d h
      exact inv.onQueue t d (by rw [hpc]; exact h)
    · intro d h hnw hd
      exact ⟨by rw [hpc]; exact h, hnw, hd⟩
  | resume t o hpc hw => exact inv.quiet (by rw [hpc]; rfl) rfl rfl rfl rfl rfl
  | signal t o hpc => exact absurd hs (fun h => h)
  | interrupt t o hpc => exact absurd hs (fun h => h)
  | bail t o hpc => exact absurd hs (fun h => h)
  | wake t o v hpc =>
    refine inv.step rfl (fun _ _ _ h => h) (fun _ _ h => Finset.mem_union_left _ h) ?_ ?_
      (fun _ _ _ _ _ hc => Or.inl hc) ?_
    · intro d h
      cases h
    · intro d h
      cases h
    · -- the wake-up marks the whole queue of its side
      intro u d _ h hu
      rw [hpc] at h
      obtain rfl := Option.some.inj h
      exact Finset.mem_union_right _ hu

/-! ## Whole runs -/

theorem run_wakeInv {pipeSize : Int32} {mem : Nat → UInt8} {acts : List Act} {tr : List Event}
    (hsize : 1 ≤ pipeSize.toInt) (hacts : ∀ a ∈ acts, a.CopiesSucceed ∧ a.NoSignal)
    (hr : driver.run (initState pipeSize mem) acts = some (s, tr)) : WakeInv s := by
  have hinv : (Wf s.pipe ∧ FileInv s) ∧ WakeInv s := by
    refine driver.run_inv (fun a => a.CopiesSucceed ∧ a.NoSignal)
      (fun u => (Wf u.pipe ∧ FileInv u) ∧ WakeInv u) ?_ hacts ?_ hr
    · intro u a u' es ha inv hs
      have ht := trans_of_step hs
      obtain ⟨⟨wf, files⟩, wake⟩ := inv
      exact ⟨⟨(trans_ring ht wf).1, trans_files ht wf files⟩,
        trans_wake ht ha.1 ha.2 wf files wake⟩
    · exact ⟨⟨wf_pipeCtor pipeSize mem hsize, fileInv_initState pipeSize mem⟩,
        wakeInv_initState pipeSize mem⟩
  exact hinv.2

/-- **No lost wakeup.** In every state of every run without copy faults and signals: a task
    asleep in `pipe_read` is on `read_queue`, and if it is not marked runnable although there
    is data or no writer is left, then some write is past its critical section and about to
    wake the readers; and in the same way for a task asleep in `pipe_write` and room. -/
theorem no_lost_wakeup (pipeSize : Int32) (hsize : 1 ≤ pipeSize.toInt) (mem : Nat → UInt8)
    (acts : List Act) (hacts : ∀ a ∈ acts, a.CopiesSucceed ∧ a.NoSignal) (s : State)
    (tr : List Event) (hr : driver.run (initState pipeSize mem) acts = some (s, tr)) :
    (∀ t x count, s.pc t = .asleep (.read x count) → t ∈ s.queue .reader ∧
      (t ∉ s.woken → 0 < pipeData s.pipe ∨ s.pipe.writers = 0 →
        ∃ u y buf v, s.pc u = .waking (.write y buf) v)) ∧
    (∀ t x buf, s.pc t = .asleep (.write x buf) → t ∈ s.queue .writer ∧
      (t ∉ s.woken → 0 < pipeRoom s.pipe →
        ∃ u y count v, s.pc u = .waking (.read y count) v)) := by
  have inv := run_wakeInv hsize hacts hr
  refine ⟨?_, ?_⟩
  · intro t x count hpc
    refine ⟨inv.onQueue t .reader (by rw [hpc]; rfl), fun hnw hc => ?_⟩
    obtain ⟨u, hu⟩ := inv.noLost t .reader (by rw [hpc]; rfl) hnw ((shouldWakeUp_reader _).mpr hc)
    exact ⟨u, Pc.eq_of_wakes_reader hu⟩
  · intro t x buf hpc
    refine ⟨inv.onQueue t .writer (by rw [hpc]; rfl), fun hnw hc => ?_⟩
    obtain ⟨u, hu⟩ := inv.noLost t .writer (by rw [hpc]; rfl) hnw ((shouldWakeUp_writer _).mpr hc)
    exact ⟨u, Pc.eq_of_wakes_writer hu⟩

/-- A reader sleeps; a writer has stored a byte and dropped the mutex, but not woken it yet. -/
def pendingWakeRun : List Act :=
  [.call 0 (.open .wrOnly), .lock 0, .critical 0 noFaults,
    .call 1 (.open .rdOnly), .lock 1, .critical 1 noFaults,
    .call 1 (.io (.read ⟨1, .rdOnly⟩ 1)), .lock 1, .critical 1 noFaults, .enqueue 1, .lock 1,
    .test 1, .sleep 1,
    .call 0 (.io (.write ⟨0, .wrOnly⟩ [7])), .lock 0, .critical 0 noFaults]

theorem no_lost_wakeup_pendingWakeRun :
    ∃ s tr, driver.run (initState 4 fun _ => 0) pendingWakeRun = some (s, tr) ∧
      s.pc 1 = .asleep (.read ⟨1, .rdOnly⟩ 1) ∧ 1 ∉ s.woken ∧ 0 < pipeData s.pipe ∧
      ∃ u y buf v, s.pc u = .waking (.write y buf) v := by
  obtain ⟨s, tr, h, hpc, hnw, hpos⟩ := driver.exists_of_check (initState 4 fun _ => 0) pendingWakeRun
    (fun s _ => s.pc 1 = .asleep (.read ⟨1, .rdOnly⟩ 1) ∧ 1 ∉ s.woken ∧ 0 < pipeData s.pipe)
    (by decide +kernel)
  have hacts : ∀ a ∈ pendingWakeRun, a.CopiesSucceed ∧ a.NoSignal := by
    simp [pendingWakeRun, Act.CopiesSucceed, Act.NoSignal]
  have hw := ((no_lost_wakeup 4 (by decide) _ pendingWakeRun hacts s tr h).1 1 _ _ hpc).2
  exact ⟨s, tr, h, hpc, hnw, hpos, hw hnw (Or.inl hpos)⟩

end DemosOsLinux.KernelPipe
