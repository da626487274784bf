/-
  The lock discipline of the named pipe.

  The mutex is taken inside the wait condition and kept only when the condition is true, so a
  wait that returns 0 returns with the mutex held and a wait that is interrupted returns
  without it. `pipe_read` and `pipe_write` answer an interrupted wait with `pipe_unlock` and an
  error return: that unlock is the only one that is not made by the holder of the mutex.
  * `trans_lock`: every other step keeps "the holder of the mutex is the task whose code is
    between a lock and an unlock", and emits only good events.
  * `lock_discipline_iff`: a run keeps the discipline exactly when it has no such error return.
-/
import DemosOsLinux.KernelPipe.Trans

namespace DemosOsLinux.KernelPipe

open Lib Function

/-- Is a task at this point between a `pipe_lock` and the `pipe_unlock` after it? -/
def Pc.holds : Pc → Bool
  | .locked _ | .testing _ | .dead => true
  | _ => false

/-- The mutex is held by the task whose code says so. -/
def LockInv (owner : Option Tid) (pc : Tid → Pc) : Prop :=
  ∀ t, owner = some t ↔ (pc t).holds = true

/-- An unlock is made by the holder; an operation returns to a task that does not hold. -/
def LockEventOk : Event → Prop
  | .unlock t owner => owner = some t
  | .ret t _ _ owner => owner ≠ some t
  | _ => True

/-! ## The three ways in which a step moves a task -/

section Moves

variable {owner : Option Tid} {pc : Tid → Pc} {t : Tid} {l : Pc}

/-- The task neither takes nor drops the mutex. -/
theorem LockInv.keep (h : LockInv owner pc) (hl : l.holds = (pc t).holds) :
    LockInv owner (update pc t l) := by
  intro u
  rw [h u]
  by_cases hu : u = t
  · subst hu
    rw [update_self, hl]
  · rw [update_of_ne hu]

/-- The task takes the free mutex. -/
theorem LockInv.take (h : LockInv owner pc) (ho : owner = none) (hl : l.holds = true) :
    LockInv (some t) (update pc t l) := by
  intro u
  by_cases hu : u = t
  · subst hu
    simp [hl]
  · have hu' : (pc u).holds ≠ true := fun hh => by
      have := (h u).mpr hh
      rw [ho] at this
      cases this
    rw [update_of_ne hu, Option.some.injEq]
    exact ⟨fun e => absurd e.symm hu, fun hh => absurd hh hu'⟩

/-- The holder drops the mutex. -/
theorem LockInv.drop (h : LockInv owner pc) (ht : (pc t).holds = true) (hl : l.holds = false) :
    LockInv none (update pc t l) := by
  intro u
  by_cases hu : u = t
  · subst hu
    simp [hl]
  · have hu' : (pc u).holds ≠ true := fun hh => by
      have := ((h u).mpr hh).symm.trans ((h t).mpr ht)
      exact hu (Option.some.inj this)
    rw [update_of_ne hu]
    exact ⟨fun e => absurd e.symm (Option.some_ne_none u), fun hh => absurd hh hu'⟩

theorem LockInv.free_of_not_holds (h : LockInv owner pc) (ht : (pc t).holds = false) :
    owner ≠ some t := by
  intro ho
  rw [(h t).mp ho] at ht
  cases ht

end Moves

/-! ## One step -/

theorem lockEventOk_of_moves {t : Tid} {p : Pipe} {f : Faults} {o : Io} {r : Transfer}
    {cs : List Event} {mv : Event} (h : Moves t p f o r cs mv) :
    (∀ e ∈ cs, LockEventOk e) ∧ LockEventOk mv := by
  cases h with
  | read x count r h => exact ⟨List.forall_mem_map.mpr fun _ _ => trivial, trivial⟩
  | write x buf r h => exact ⟨List.forall_mem_map.mpr fun _ _ => trivial, trivial⟩

/-- Every step but the error return of an interrupted wait keeps the discipline. -/
theorem trans_lock {s s' : State} {a : Act} {es : List Event} (h : Trans s a es s')
    (ha : ∀ t, a ≠ .bail t) (inv : LockInv s.owner s.pc) :
    LockInv s'.owner s'.pc ∧ ∀ e ∈ es, LockEventOk e := by
  have holder {t : Tid} (ht : (s.pc t).holds = true) : s.owner = some t := (inv t).mpr ht
  cases h with
  | call t c hpc =>
    refine ⟨?_, by simp⟩
    rw [enter_owner, enter_pc]
    exact inv.keep (by rw [hpc]; rfl)
  | badAccess t o hpc =>
    refine ⟨inv, ?_⟩
    simpa [LockEventOk] using inv.free_of_not_holds (by rw [hpc]; rfl)
  | lock t c ho hpc => exact ⟨inv.take ho rfl, by simp⟩
  | lockTest t o ho hpc => exact ⟨inv.take ho rfl, by simp⟩
  | opens t m f hpc =>
    have ht : (s.pc t).holds = true := by rw [hpc]; rfl
    exact ⟨inv.drop ht rfl, by simp [pipeOpen, LockEventOk, holder ht]⟩
  | releases t x f hpc =>
    have ht : (s.pc t).holds = true := by rw [hpc]; rfl
    refine ⟨?_, by simp [pipeRelease, LockEventOk, holder ht]⟩
    rw [pipeRelease_pc]
    exact inv.drop ht rfl
  | wait t o f hpc hw =>
    have ht : (s.pc t).holds = true := by rw [hpc]; rfl
    exact ⟨inv.drop ht rfl, by simp [LockEventOk, holder ht]⟩
  | eof t x count f hpc hd hw =>
    have ht : (s.pc t).holds = true := by rw [hpc]; rfl
    exact ⟨inv.drop ht rfl, by simp [LockEventOk, holder ht]⟩
  | bug t o f hpc hb => exact ⟨inv.keep (by rw [hpc]; rfl), by simp [LockEventOk]⟩
  | done t o f r cs mv hpc hw hm he hf =>
    have ht : (s.pc t).holds = true := by rw [hpc]; rfl
    obtain ⟨hcs, hmv⟩ := lockEventOk_of_moves hm
    exact ⟨inv.drop ht rfl, forall_transferEvents hcs hmv (holder ht)⟩
  | fault t o f r cs mv hpc hm hf =>
    have ht : (s.pc t).holds = true := by rw [hpc]; rfl
    obtain ⟨hcs, -⟩ := lockEventOk_of_moves hm
    have hret : LockEventOk (.ret t (.io o) r.ret none) := (Option.some_ne_none t).symm
    exact ⟨inv.drop ht rfl, forall_transferEvents hcs (holder ht) hret⟩
  | enqueue t o hpc => exact ⟨inv.keep (by rw [hpc]; rfl), by simp⟩
  | testTrue t o hpc hc => exact ⟨inv.keep (by rw [hpc]; rfl), by simp⟩
  | testFalse t o hpc hc =>
    have ht : (s.pc t).holds = true := by rw [hpc]; rfl
    exact ⟨inv.drop ht rfl, by simp [LockEventOk, holder ht]⟩
  | sleep t o hpc => exact ⟨inv.keep (by rw [hpc]; rfl), by simp⟩
  | resume t o hpc hw => exact ⟨inv.keep (by rw [hpc]; rfl), by simp⟩
  | signal t o hpc => exact ⟨inv.keep (by rw [hpc]; rfl), by simp⟩
  | interrupt t o hpc => exact ⟨inv.keep (by rw [hpc]; rfl), by simp⟩
  | bail t o hpc => exact absurd rfl (ha t)
  | wake t o v hpc =>
    refine ⟨inv.keep (by rw [hpc]; rfl), ?_⟩
    simpa [LockEventOk] using inv.free_of_not_holds (by rw [hpc]; rfl)

/-- The error return of an interrupted wait unlocks a mutex that its task does not hold. -/
theorem bail_unlocks {s s' : State} {t : Tid} {es : List Event} (h : Trans s (.bail t) es s')
    (inv : LockInv s.owner s.pc) : ∃ o, Event.unlock t o ∈ es ∧ o ≠ some t := by
  cases h with
  | bail t o hpc =>
    exact ⟨s.owner, List.mem_cons_self, inv.free_of_not_holds (by rw [hpc]; rfl)⟩

/-! ## Whole runs -/

/-- **Lock discipline.** A run, with any signals, makes every `pipe_unlock` in the task that
    holds the mutex and returns every operation to a task that does not hold it, exactly when
    no interrupted wait of the run reaches its error return. -/
theorem lock_discipline_iff (pipeSize : Int32) (mem : Nat → UInt8) (acts : List Act) (s : State)
    (tr : List Event) (hr : driver.run (initState pipeSize mem) acts = some (s, tr)) :
    (∀ e ∈ tr, LockEventOk e) ↔ ∀ a ∈ acts, ∀ t, a ≠ .bail t := by
  have hinit : LockInv (initState pipeSize mem).owner (initState pipeSize mem).pc := by
    intro t
    simp [initState, Pc.holds]
  -- the induction carries the invariant up to the first error return
  generalize initState pipeSize mem = s₀ at hr hinit
  induction acts generalizing s₀ tr with
  | nil =>
    obtain ⟨_, rfl⟩ := result_inj hr
    simp
  | cons a acts ih =>
    obtain ⟨s₁, es, es₂, hs, hr₁, rfl⟩ := (Machine.run_cons_eq_some _ _ _ _ _ _).mp hr
    have htrans : Trans s₀ a es s₁ := trans_of_step hs
    by_cases ha : ∃ t, a = .bail t
    · obtain ⟨t, rfl⟩ := ha
      obtain ⟨o, hmem, ho⟩ := bail_unlocks htrans hinit
      constructor
      · intro hok
        exact absurd (hok _ (List.mem_append_left es₂ hmem)) ho
      · intro hno
        exact absurd rfl (hno _ List.mem_cons_self t)
    · have ha' : ∀ t, a ≠ .bail t := fun t e => ha ⟨t, e⟩
      obtain ⟨inv₁, hes⟩ := trans_lock htrans ha' hinit
      have htail := ih es₂ s₁ hr₁ inv₁
      constructor
      · intro hok b hb
        rcases List.mem_cons.mp hb with rfl | hb
        · exact ha'
        · exact htail.mp (fun e he => hok e (List.mem_append_right es he)) b hb
      · intro hno e he
        rcases List.mem_append.mp he with he | he
        · exact hes e he
        · exact htail.mpr (fun b hb => hno b (List.mem_cons_of_mem a hb)) e he

/-- A reader of an empty pipe with an open writer waits and is woken; no signal arrives. -/
def quietRun : List Act :=
  [.call 0 (.open .wrOnly), .lock 0, .critical 0 noFaults,
    .call 1 (.open .rdOnly), .lock 1, .critical 1 noFaults,
    .call 1 (.io (.read ⟨1, .rdOnly⟩ 1)), .lock 1, .critical 1 noFaults, .enqueue 1, .lock 1,
    .test 1, .sleep 1,
    .call 0 (.io (.write ⟨0, .wrOnly⟩ [7])), .lock 0, .critical 0 noFaults, .wake 0,
    .resume 1, .enqueue 1, .lock 1, .test 1, .critical 1 noFaults, .wake 1]

theorem lock_discipline_quietRun :
    ∃ s tr, driver.run (initState 4 fun _ => 0) quietRun = some (s, tr) ∧
      ∀ e ∈ tr, LockEventOk e := by
  have hrun : (driver.run (initState 4 fun _ => 0) quietRun).isSome = true := by decide +kernel
  obtain ⟨⟨s, tr⟩, h⟩ := Option.isSome_iff_exists.mp hrun
  refine ⟨s, tr, h, (lock_discipline_iff 4 _ quietRun s tr h).mpr ?_⟩
  simp [quietRun]

/-- The same reader, interrupted while a writer is in its critical section. -/
def interruptedRun : List Act :=
  [.call 0 (.open .wrOnly), .lock 0, .critical 0 noFaults,
    .call 1 (.open .rdOnly), .lock 1, .critical 1 noFaults,
    .call 1 (.io (.read ⟨1, .rdOnly⟩ 1)), .lock 1, .critical 1 noFaults, .enqueue 1, .lock 1,
    .test 1, .interrupt 1,
    .call 0 (.io (.write ⟨0, .wrOnly⟩ [7])), .lock 0, .bail 1]

/-- The interrupted reader unlocks the mutex that the writer holds. -/
theorem interrupted_read_unlocks_writer :
    ∃ s tr, driver.run (initState 4 fun _ => 0) interruptedRun = some (s, tr) ∧
      Event.unlock 1 (some 0) ∈ tr ∧ ¬ LockEventOk (.unlock 1 (some 0)) := by
  refine ⟨_, _, rfl, ?_, ?_⟩
  · simp
  · simp [LockEventOk]

end DemosOsLinux.KernelPipe
