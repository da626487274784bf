/-
  What one step of the driver can do.

  `Trans s a es s'` lists the transitions of `step` one by one, with the guard of each and the
  state it leads to. `trans_of_step` is the only place where `step` and the operations are
  unfolded: an invariant of the driver is proved by cases on `Trans`.
-/
import DemosOsLinux.KernelPipe.System

namespace DemosOsLinux.KernelPipe

open Lib

/-! ## What the operations do to the tasks -/

theorem enter_pc (s : State) (t : Tid) (c : Call) :
    (s.enter t c).pc = Function.update s.pc t (.locking c) := by
  cases c <;> rfl

theorem enter_owner (s : State) (t : Tid) (c : Call) : (s.enter t c).owner = s.owner := by
  cases c <;> rfl

theorem pipeRelease_pc (s : State) (t : Tid) (x : File) :
    (pipeRelease s t x).1.pc = Function.update s.pc t .user := by
  have hpc (c : Prop) [Decidable c] : (if c then s.wakeUpAll .reader else s).pc = s.pc := by
    split <;> rfl
  simp only [pipeRelease, State.goto, hpc]

/-! ## The transitions -/

/-- Must a transfer go on waiting at the head of its loop? -/
def mustWait : Side → Pipe → Prop
  | .reader, p => pipeData p = 0 ∧ 0 < p.writers
  | .writer, p => pipeRoom p = 0

/-- The copying part of a transfer, its copies and its main event. -/
inductive Moves (t : Tid) (p : Pipe) (f : Faults) : Io → Transfer → List Event → Event → Prop
  | read (x : File) (count : Nat) (r : Transfer) (h : pipeReadCopy p count f = some r) :
      Moves t p f (.read x count) r (r.copies.map .copyTo)
        (.delivered t count (pipeData p) r.bytes)
  | write (x : File) (buf : List UInt8) (r : Transfer) (h : pipeWriteCopy p buf f = some r) :
      Moves t p f (.write x buf) r (r.copies.map .copyFrom)
        (.accepted t buf (pipeRoom p) r.ret)

/-- The events of a transfer are its copies and two more. -/
theorem forall_transferEvents {P : Event → Prop} {cs : List Event} {e₁ e₂ : Event}
    (hcs : ∀ e ∈ cs, P e) (h₁ : P e₁) (h₂ : P e₂) : ∀ e ∈ cs ++ [e₁, e₂], P e :=
  List.forall_mem_append.mpr
    ⟨hcs, List.forall_mem_cons.mpr ⟨h₁, List.forall_mem_singleton.mpr h₂⟩⟩

/-- The copying part of a transfer stops in a `BUG_ON`. -/
inductive Bugs (p : Pipe) (f : Faults) : Io → Prop
  | read (x : File) (count : Nat) (h : pipeReadCopy p count f = none) : Bugs p f (.read x count)
  | write (x : File) (buf : List UInt8) (h : pipeWriteCopy p buf f = none) :
      Bugs p f (.write x buf)

inductive Trans (s : State) : Act → List Event → State → Prop
  | call (t : Tid) (c : Call) (hpc : s.pc t = .user) (hc : s.admits c = true) :
      Trans s (.call t c) [] (s.enter t c)
  | badAccess (t : Tid) (o : Io) (hpc : s.pc t = .user) :
      Trans s (.badAccess t o) [.ret t (.io o) eFault s.owner] s
  | lock (t : Tid) (c : Call) (ho : s.owner = none) (hpc : s.pc t = .locking c) :
      Trans s (.lock t) [] { s.goto t (.locked c) with owner := some t }
  | lockTest (t : Tid) (o : Io) (ho : s.owner = none) (hpc : s.pc t = .queued o) :
      Trans s (.lock t) [] { s.goto t (.testing o) with owner := some t }
  | opens (t : Tid) (m : Mode) (f : Faults) (hpc : s.pc t = .locked (.open m)) :
      Trans s (.critical t f) (pipeOpen s t m).2 (pipeOpen s t m).1
  | releases (t : Tid) (x : File) (f : Faults) (hpc : s.pc t = .locked (.release x)) :
      Trans s (.critical t f) (pipeRelease s t x).2 (pipeRelease s t x).1
  | wait (t : Tid) (o : Io) (f : Faults) (hpc : s.pc t = .locked (.io o))
      (hw : mustWait o.side s.pipe) :
      Trans s (.critical t f) [.unlock t s.owner]
        { s.goto t (.waitEnter o) with owner := none }
  | eof (t : Tid) (x : File) (count : Nat) (f : Faults)
      (hpc : s.pc t = .locked (.io (.read x count))) (hd : pipeData s.pipe = 0)
      (hw : s.pipe.writers = 0) :
      Trans s (.critical t f) [.unlock t s.owner, .ret t (.io (.read x count)) 0 none]
        { s.goto t .user with owner := none }
  | bug (t : Tid) (o : Io) (f : Faults) (hpc : s.pc t = .locked (.io o))
      (hb : Bugs s.pipe f o) :
      Trans s (.critical t f) [.bug t] (s.goto t .dead)
  | done (t : Tid) (o : Io) (f : Faults) (r : Transfer) (cs : List Event) (mv : Event)
      (hpc : s.pc t = .locked (.io o)) (hw : ¬ mustWait o.side s.pipe)
      (hm : Moves t s.pipe f o r cs mv)
      (he : o.side = .reader → ¬ (pipeData s.pipe = 0 ∧ s.pipe.writers = 0))
      (hf : r.finished = true) :
      Trans s (.critical t f) (cs ++ [mv, .unlock t s.owner])
        { s.goto t (.waking o r.ret) with pipe := r.pipe, owner := none }
  | fault (t : Tid) (o : Io) (f : Faults) (r : Transfer) (cs : List Event) (mv : Event)
      (hpc : s.pc t = .locked (.io o)) (hm : Moves t s.pipe f o r cs mv)
      (hf : r.finished = false) :
      Trans s (.critical t f) (cs ++ [.unlock t s.owner, .ret t (.io o) r.ret none])
        { s.goto t .user with pipe := r.pipe, owner := none }
  | enqueue (t : Tid) (o : Io) (hpc : s.pc t = .waitEnter o) :
      Trans s (.enqueue t) [] (joinQueue s t o)
  | testTrue (t : Tid) (o : Io) (hpc : s.pc t = .testing o)
      (hc : shouldWakeUp o.side s.pipe = true) :
      Trans s (.test t) [] ((leaveQueue s t o).goto t (.locked (.io o)))
  | testFalse (t : Tid) (o : Io) (hpc : s.pc t = .testing o)
      (hc : shouldWakeUp o.side s.pipe = false) :
      Trans s (.test t) [.unlock t s.owner] { s.goto t (.refused o) with owner := none }
  | sleep (t : Tid) (o : Io) (hpc : s.pc t = .refused o) :
      Trans s (.sleep t) [] (s.goto t (.asleep o))
  | resume (t : Tid) (o : Io) (hpc : s.pc t = .asleep o) (hw : t ∈ s.woken) :
      Trans s (.resume t) [] (s.goto t (.waitEnter o))
  | signal (t : Tid) (o : Io) (hpc : s.pc t = .asleep o) :
      Trans s (.signal t) [] (s.goto t (.waitEnter o))
  | interrupt (t : Tid) (o : Io) (hpc : s.pc t = .refused o) :
      Trans s (.interrupt t) [] ((leaveQueue s t o).goto t (.interrupted o))
  | bail (t : Tid) (o : Io) (hpc : s.pc t = .interrupted o) :
      Trans s (.bail t) [.unlock t s.owner, .ret t (.io o) eRestartSys none]
        { s.goto t .user with owner := none }
  | wake (t : Tid) (o : Io) (v : Int) (hpc : s.pc t = .waking o v) :
      Trans s (.wake t) [.ret t (.io o) v s.owner] ((s.wakeUpAll o.wakes).goto t .user)

variable {s : State}

theorem trans_transferEnd {t : Tid} {f : Faults} {o : Io} {r : Transfer} {cs : List Event}
    {mv : Event} (hpc : s.pc t = .locked (.io o)) (hw : ¬ mustWait o.side s.pipe)
    (hm : Moves t s.pipe f o r cs mv)
    (he : o.side = .reader → ¬ (pipeData s.pipe = 0 ∧ s.pipe.writers = 0)) :
    Trans s (.critical t f) (transferEnd s t o r cs mv).2 (transferEnd s t o r cs mv).1 := by
  unfold transferEnd
  cases hf : r.finished with
  | true => exact Trans.done t o f r cs mv hpc hw hm he hf
  | false => exact Trans.fault t o f r cs mv hpc hm hf

theorem trans_pipeRead {t : Tid} {x : File} {count : Nat} (f : Faults)
    (hpc : s.pc t = .locked (.io (.read x count))) :
    Trans s (.critical t f) (pipeRead s t x count f).2 (pipeRead s t x count f).1 := by
  unfold pipeRead
  split
  · rename_i hw
    exact Trans.wait t (.read x count) f hpc hw
  · rename_i hw
    split
    · rename_i he
      exact Trans.eof t x count f hpc he.1 he.2
    · rename_i he
      cases hr : pipeReadCopy s.pipe count f with
      | none => exact Trans.bug t _ f hpc (.read x count hr)
      | some r => exact trans_transferEnd hpc hw (.read x count r hr) (fun _ => he)

theorem trans_pipeWrite {t : Tid} {x : File} {buf : List UInt8} (f : Faults)
    (hpc : s.pc t = .locked (.io (.write x buf))) :
    Trans s (.critical t f) (pipeWrite s t x buf f).2 (pipeWrite s t x buf f).1 := by
  unfold pipeWrite
  split
  · rename_i hw
    exact Trans.wait t (.write x buf) f hpc hw
  · rename_i hw
    cases hr : pipeWriteCopy s.pipe buf f with
    | none => exact Trans.bug t _ f hpc (.write x buf hr)
    | some r => exact trans_transferEnd hpc hw (.write x buf r hr) (fun h => by cases h)

theorem trans_of_step {s' : State} {a : Act} {es : List Event} (h : step s a = some (s', es)) :
    Trans s a es s' := by
  cases a with
  | call t c =>
    simp only [step] at h
    obtain ⟨hg, rfl, rfl⟩ := guard_result_inj h
    exact Trans.call t c hg.1 hg.2
  | badAccess t o =>
    simp only [step] at h
    obtain ⟨hg, rfl, rfl⟩ := guard_result_inj h
    exact Trans.badAccess t o hg.1
  | lock t =>
    simp only [step] at h
    split at h
    · rename_i ho
      split at h
      · rename_i c hpc
        obtain ⟨rfl, rfl⟩ := result_inj h
        exact Trans.lock t c ho hpc
      · rename_i o hpc
        obtain ⟨rfl, rfl⟩ := result_inj h
        exact Trans.lockTest t o ho hpc
      · cases h
    · cases h
  | critical t f =>
    simp only [step] at h
    split at h
    · rename_i m hpc
      rw [← Prod.eta (pipeOpen s t m)] at h
      obtain ⟨rfl, rfl⟩ := result_inj h
      exact Trans.opens t m f hpc
    · rename_i x hpc
      rw [← Prod.eta (pipeRelease s t x)] at h
      obtain ⟨rfl, rfl⟩ := result_inj h
      exact Trans.releases t x f hpc
    · rename_i x count hpc
      rw [← Prod.eta (pipeRead s t x count f)] at h
      obtain ⟨rfl, rfl⟩ := result_inj h
      exact trans_pipeRead f hpc
    · rename_i x buf hpc
      rw [← Prod.eta (pipeWrite s t x buf f)] at h
      obtain ⟨rfl, rfl⟩ := result_inj h
      exact trans_pipeWrite f hpc
    · cases h
  | enqueue t =>
    simp only [step] at h
    split at h
    · rename_i o hpc
      obtain ⟨rfl, rfl⟩ := result_inj h
      exact Trans.enqueue t o hpc
    · cases h
  | test t =>
    simp only [step] at h
    split at h
    · rename_i o hpc
      unfold testCondition at h
      cases hc : shouldWakeUp o.side s.pipe with
      | true =>
        rw [if_pos hc] at h
        obtain ⟨rfl, rfl⟩ := result_inj h
        exact Trans.testTrue t o hpc hc
      | false =>
        rw [if_neg (by simp [hc])] at h
        obtain ⟨rfl, rfl⟩ := result_inj h
        exact Trans.testFalse t o hpc hc
    · cases h
  | sleep t =>
    simp only [step] at h
    split at h
    · rename_i o hpc
      obtain ⟨rfl, rfl⟩ := result_inj h
      exact Trans.sleep t o hpc
    · cases h
  | resume t =>
    simp only [step] at h
    split at h
    · rename_i o hpc
      obtain ⟨hw, rfl, rfl⟩ := guard_result_inj h
      exact Trans.resume t o hpc hw
    · cases h
  | signal t =>
    simp only [step] at h
    split at h
    · rename_i o hpc
      obtain ⟨rfl, rfl⟩ := result_inj h
      exact Trans.signal t o hpc
    · cases h
  | interrupt t =>
    simp only [step] at h
    split at h
    · rename_i o hpc
      obtain ⟨rfl, rfl⟩ := result_inj h
      exact Trans.interrupt t o hpc
    · cases h
  | bail t =>
    simp only [step] at h
    split at h
    · rename_i o hpc
      obtain ⟨rfl, rfl⟩ := result_inj h
      exact Trans.bail t o hpc
    · cases h
  | wake t =>
    simp only [step] at h
    split at h
    · rename_i o v hpc
      obtain ⟨rfl, rfl⟩ := result_inj h
      exact Trans.wake t o v hpc
    · cases h

end DemosOsLinux.KernelPipe
