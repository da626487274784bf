/-
  Workers that increment one counter (examples/atomics/trying_to_break.cc).

  `main` starts workers of one type, each bound to a core, and reads the counter when all have returned.
  `*(td->value)+=1` is a load and a store in each iteration, as the code is without optimisation: with
  `-O2` the loop of `regular_worker` becomes one load and one store, as its comment says. The memory is
  that of x86, with store buffers; `__sync_add_and_fetch` is one locked instruction.
  The `int`s are natural numbers: the number of increments is an `int` (`Setup.fits`), and no value
  passes it (`Counts.read_lt`).
  * `Exclusive`: with an atomic add or a mutex, the counter is the number of increments.
  * `Counts`: what is known of all types; the last writes are at least 2 if each worker makes two.
-/
import DemosOsLinux.Lib.Machine
import DemosOsLinux.Lib.StoreBuffer
import DemosOsLinux.Lib.Threads

namespace DemosOsLinux.TryingToBreak

open Lib StoreBuffer Function

/-- `type`. -/
inductive Kind where
  | atomic
  | machineBarrier
  | compilerBarrier
  | regular
  | volatile
  | mutex
  deriving DecidableEq

/-- Where a worker is. -/
inductive Pc where
  /-- At the condition of the loop and the first instruction after it. -/
  | loop
  /-- With the mutex, at the load. -/
  | load
  /-- The value has been loaded. -/
  | store (x : Nat)
  /-- At `__sync_synchronize`. -/
  | fence
  /-- At `pthread_mutex_unlock`. -/
  | unlock
  deriving DecidableEq

structure Worker where
  pc : Pc
  i : Nat

structure Setup (κ : Type) (n : Nat) where
  kind : Kind
  core : Fin n → κ
  attempts : Nat
  /-- The counter does not overflow. -/
  fits : n * attempts < 2 ^ 31

structure State (κ : Type) (n : Nat) where
  /-- The counter. -/
  mem : StoreBuffer κ Unit Nat
  locked : Bool
  worker : Fin n → Worker

inductive Act (κ : Type) (n : Nat) where
  | worker (t : Fin n)
  | flush (c : κ)

section Step

variable {κ : Type} {n : Nat} [DecidableEq κ] (S : Setup κ n) (s : State κ n)

def State.become (t : Fin n) (w : Worker) : State κ n :=
  { s with worker := update s.worker t w }

/-- The place after the store of iteration `i`. -/
def afterStore (kind : Kind) (i : Nat) : Worker :=
  match kind with
  | .mutex => ⟨.unlock, i⟩
  | .machineBarrier => ⟨.fence, i⟩
  | .atomic | .compilerBarrier | .regular | .volatile => ⟨.loop, i + 1⟩

/-- `atomic_worker`, `machine_barrier_worker`, `compiler_barrier_worker`, `regular_worker`,
    `volatile_worker` and `mutex_worker`. -/
def workerStep (t : Fin n) : Option (State κ n) :=
  let c := S.core t
  let i := (s.worker t).i
  match (s.worker t).pc with
  | .loop =>
    if i < S.attempts then
      match S.kind with
      | .atomic =>
        if s.mem.Drained c then
          some ({ s with mem := ⟨fun _ => s.mem.mem () + 1, s.mem.buf⟩ }.become t ⟨.loop, i + 1⟩)
        else none
      | .mutex =>
        if s.locked = false ∧ s.mem.Drained c then
          some ({ s with locked := true }.become t ⟨.load, i⟩)
        else none
      | .machineBarrier | .compilerBarrier | .regular | .volatile =>
        some (s.become t ⟨.store (s.mem.read c ()), i⟩)
    else none
  | .load => some (s.become t ⟨.store (s.mem.read c ()), i⟩)
  | .store x =>
    some ({ s with mem := s.mem.write c () (x + 1) }.become t (afterStore S.kind i))
  | .fence => if s.mem.Drained c then some (s.become t ⟨.loop, i + 1⟩) else none
  | .unlock =>
    if s.mem.Drained c then some ({ s with locked := false }.become t ⟨.loop, i + 1⟩) else none

def step : Act κ n → Option (State κ n)
  | .worker t => workerStep S s t
  | .flush c => (s.mem.flush c).map fun m => { s with mem := m }

def machine : Machine (State κ n) (Act κ n) Empty :=
  ⟨fun s a => (step S s a).map fun s' => (s', [])⟩

end Step

def initState (κ : Type) (n : Nat) : State κ n := ⟨settled fun _ => 0, false, fun _ => ⟨.loop, 0⟩⟩

/-- All workers have returned, and what they wrote is in memory: `main` has joined them. -/
def Joined {κ : Type} {n : Nat} (S : Setup κ n) (s : State κ n) : Prop :=
  (∀ t, s.worker t = ⟨.loop, S.attempts⟩) ∧ ∀ c, s.mem.Drained c

/-! ## Transitions -/

/-- A load, then a store, with nothing that keeps the other workers off. -/
def Kind.racing : Kind → Bool
  | .atomic | .mutex => false
  | .machineBarrier | .compilerBarrier | .regular | .volatile => true

section Trans

variable {κ : Type} {n : Nat} [DecidableEq κ] {S : Setup κ n} {s s' : State κ n} {a : Act κ n}
  {t : Fin n} {es : List Empty}

inductive WorkerTrans (S : Setup κ n) (s : State κ n) (t : Fin n) : State κ n → Prop where
  | add (hpc : (s.worker t).pc = .loop) (hi : (s.worker t).i < S.attempts) (hk : S.kind = .atomic)
      (hd : s.mem.Drained (S.core t)) :
      WorkerTrans S s t ({ s with mem := ⟨fun _ => s.mem.mem () + 1, s.mem.buf⟩ }.become t
        ⟨.loop, (s.worker t).i + 1⟩)
  | lock (hpc : (s.worker t).pc = .loop) (hi : (s.worker t).i < S.attempts) (hk : S.kind = .mutex)
      (hl : s.locked = false) (hd : s.mem.Drained (S.core t)) :
      WorkerTrans S s t ({ s with locked := true }.become t ⟨.load, (s.worker t).i⟩)
  | race (hpc : (s.worker t).pc = .loop) (hi : (s.worker t).i < S.attempts)
      (hk : S.kind.racing = true) :
      WorkerTrans S s t (s.become t ⟨.store (s.mem.read (S.core t) ()), (s.worker t).i⟩)
  | load (hpc : (s.worker t).pc = .load) :
      WorkerTrans S s t (s.become t ⟨.store (s.mem.read (S.core t) ()), (s.worker t).i⟩)
  | store (x : Nat) (hpc : (s.worker t).pc = .store x) :
      WorkerTrans S s t ({ s with mem := s.mem.write (S.core t) () (x + 1) }.become t
        (afterStore S.kind (s.worker t).i))
  | fence (hpc : (s.worker t).pc = .fence) (hd : s.mem.Drained (S.core t)) :
      WorkerTrans S s t (s.become t ⟨.loop, (s.worker t).i + 1⟩)
  | unlock (hpc : (s.worker t).pc = .unlock) (hd : s.mem.Drained (S.core t)) :
      WorkerTrans S s t ({ s with locked := false }.become t ⟨.loop, (s.worker t).i + 1⟩)

theorem workerTrans_iff : workerStep S s t = some s' ↔ WorkerTrans S s t s' := by
  constructor
  · intro h
    simp only [workerStep] at h
    split at h
    · obtain ⟨hi, h⟩ := Option.ite_none_right_eq_some.mp h
      split at h
      · obtain ⟨hd, rfl⟩ := guard_inj h
        exact .add ‹_› hi ‹_› hd
      · obtain ⟨⟨hl, hd⟩, h⟩ := Option.ite_none_right_eq_some.mp h
        obtain rfl := Option.some.inj h
        exact .lock ‹_› hi ‹_› hl hd
      all_goals
        rename_i hk
        obtain rfl := Option.some.inj h
        exact .race ‹_› hi (by rw [hk]; rfl)
    · obtain rfl := Option.some.inj h
      exact .load ‹_›
    · obtain rfl := Option.some.inj h
      exact .store _ ‹_›
    · obtain ⟨hd, rfl⟩ := guard_inj h
      exact .fence ‹_› hd
    · obtain ⟨hd, rfl⟩ := guard_inj h
      exact .unlock ‹_› hd
  · intro h
    cases h with
    | add hpc hi hk hd => simp only [workerStep, hpc, if_pos hi, hk, if_pos hd]
    | lock hpc hi hk hl hd => simp only [workerStep, hpc, if_pos hi, hk, if_pos (And.intro hl hd)]
    | race hpc hi hk =>
      simp only [workerStep, hpc, if_pos hi]
      cases hkind : S.kind <;> rw [hkind] at hk <;> first | rfl | cases hk
    | load hpc => simp only [workerStep, hpc]
    | store x hpc => simp only [workerStep, hpc]
    | fence hpc hd => simp only [workerStep, hpc, if_pos hd]
    | unlock hpc hd => simp only [workerStep, hpc, if_pos hd]

inductive Trans (S : Setup κ n) (s : State κ n) : Act κ n → State κ n → Prop where
  | worker {s' : State κ n} (t : Fin n) (h : WorkerTrans S s t s') : Trans S s (.worker t) s'
  | flush (c : κ) (m : StoreBuffer κ Unit Nat) (h : s.mem.flush c = some m) :
      Trans S s (.flush c) { s with mem := m }

theorem trans_of_step (h : (machine S).step s a = some (s', es)) : Trans S s a s' := by
  have h := (Machine.quiet_step h).1
  cases a with
  | worker t => exact .worker t (workerTrans_iff.mp h)
  | flush c =>
    obtain ⟨m, hm, rfl⟩ := Option.map_eq_some_iff.mp h
    exact .flush c m hm

theorem step_of_worker (h : WorkerTrans S s t s') :
    (machine S).step s (.worker t) = some (s', []) :=
  Option.map_eq_some_iff.mpr ⟨s', workerTrans_iff.mpr h, rfl⟩

end Trans

/-! ## All types -/

/-- How many increments a worker has stored. -/
def Worker.made (w : Worker) : Nat :=
  match w.pc with
  | .fence | .unlock => w.i + 1
  | .loop | .load | .store _ => w.i

/-- In an iteration. -/
def Pc.inside : Pc → Bool
  | .loop => false
  | _ => true

theorem Joined.total {κ : Type} {n : Nat} {S : Setup κ n} {s : State κ n} (h : Joined S s) :
    Lib.total s.worker Worker.made = n * S.attempts := by
  simp [Lib.total, h.1, Worker.made]

/-- The invariant of all types. -/
structure Counts {κ : Type} {n : Nat} (S : Setup κ n) (s : State κ n) : Prop where
  le : ∀ t, (s.worker t).i ≤ S.attempts
  lt : ∀ t, (s.worker t).pc.inside = true → (s.worker t).i < S.attempts
  /-- No value passes the number of increments. -/
  mem_le : s.mem.mem () ≤ total s.worker Worker.made
  pending_le : ∀ c v, ((), v) ∈ s.mem.buf c → v ≤ total s.worker Worker.made
  loaded_le : ∀ t x, (s.worker t).pc = .store x → x ≤ total s.worker Worker.made
  /-- What is stored is not 0. -/
  pending_pos : ∀ c v, ((), v) ∈ s.mem.buf c → 0 < v
  /-- A worker that has stored sees a value that is not 0. -/
  seen_pos : ∀ t, 0 < (s.worker t).made → 0 < s.mem.read (S.core t) ()
  loaded_pos : ∀ t x, (s.worker t).pc = .store x → 0 < (s.worker t).made → 0 < x
  /-- After a pending 1 there is a larger write, pending or to be made. -/
  early : ∀ c before v after, s.mem.buf c = before ++ ((), v) :: after →
    2 ≤ v ∨ (∃ t, S.core t = c ∧ (s.worker t).made ≤ 1) ∨ ∃ w, ((), w) ∈ after ∧ 2 ≤ w
  last : 2 ≤ s.mem.mem () ∨ (∃ t, (s.worker t).made ≤ 1) ∨ ∃ c w, ((), w) ∈ s.mem.buf c ∧ 2 ≤ w

section Counts

variable {κ : Type} {n : Nat} {S : Setup κ n} {s s' : State κ n} {t : Fin n} {w : Worker}

theorem Counts.read_le (inv : Counts S s) (c : κ) :
    s.mem.read c () ≤ total s.worker Worker.made := by
  rcases s.mem.read_cases c () with h | h
  · rw [h]
    exact inv.mem_le
  · exact inv.pending_le c _ h

theorem total_update_made (s : State κ n) (h : w.made = (s.worker t).made) :
    total (update s.worker t w) Worker.made = total s.worker Worker.made := by
  have h' := total_update s.worker t w Worker.made
  omega

/-- A worker goes on without a store. -/
theorem Counts.become (inv : Counts S s) {locked : Bool} (hmade : w.made = (s.worker t).made)
    (hle : w.i ≤ S.attempts) (hlt : w.pc.inside = true → w.i < S.attempts)
    (hload : ∀ x, w.pc = .store x → x = s.mem.read (S.core t) ()) :
    Counts S ({ s with locked := locked }.become t w) := by
  have htotal := total_update_made s hmade
  have hsame : ∀ u, (update s.worker t w u).made = (s.worker u).made := by
    intro u
    by_cases e : u = t
    · rw [e, update_self, hmade]
    · rw [update_of_ne e]
  refine ⟨?_, ?_, ?_, ?_, ?_, inv.pending_pos, ?_, ?_, ?_, ?_⟩ <;>
    simp only [State.become, htotal, hsame]
  · exact forall_update (fun w : Worker => w.i ≤ S.attempts) inv.le hle
  · exact forall_update (fun w : Worker => w.pc.inside = true → w.i < S.attempts) inv.lt hlt
  · exact inv.mem_le
  · exact inv.pending_le
  · refine forall_update (fun w : Worker => ∀ x, w.pc = .store x → x ≤ _) inv.loaded_le ?_
    intro x hx
    rw [hload x hx]
    exact inv.read_le _
  · exact inv.seen_pos
  · intro u x
    by_cases e : u = t
    · rw [e, update_self]
      intro hx hpos
      rw [hload x hx]
      exact inv.seen_pos t hpos
    · rw [update_of_ne e]
      exact inv.loaded_pos u x
  · exact inv.early
  · exact inv.last

theorem made_afterStore (kind : Kind) (i : Nat) : (afterStore kind i).made = i + 1 := by
  cases kind <;> rfl

theorem i_afterStore_le (kind : Kind) (i : Nat) : (afterStore kind i).i ≤ i + 1 := by
  cases kind <;> simp [afterStore]

theorem i_afterStore {kind : Kind} {i : Nat} (h : (afterStore kind i).pc.inside = true) :
    (afterStore kind i).i = i := by
  cases kind <;> first | rfl | cases h

theorem pc_afterStore (kind : Kind) (i x : Nat) : (afterStore kind i).pc ≠ .store x := by
  cases kind <;> nofun

variable [DecidableEq κ]

theorem Counts.flush (inv : Counts S s) {c : κ} {m : StoreBuffer κ Unit Nat}
    (hm : s.mem.flush c = some m) : Counts S { s with mem := m } := by
  have hpending : ∀ d v, ((), v) ∈ m.buf d → ((), v) ∈ s.mem.buf d := fun d v h => pending_flush hm h
  obtain ⟨⟨⟩, v, rest, hbuf, rfl⟩ := flush_eq_some.mp hm
  have hhead : ((), v) ∈ s.mem.buf c := by
    rw [hbuf]
    exact List.mem_cons_self
  refine ⟨inv.le, inv.lt, inv.pending_le c v hhead, fun d x h => inv.pending_le d x (hpending d x h),
    inv.loaded_le, fun d x h => inv.pending_pos d x (hpending d x h), fun t _ => ?_, inv.loaded_pos, ?_,
    ?_⟩
  · rcases read_cases ⟨update s.mem.mem () v, update s.mem.buf c rest⟩ (S.core t) ()
      with h | h
    · simp only [h, update_self]
      exact inv.pending_pos c v hhead
    · exact inv.pending_pos _ _ (hpending _ _ h)
  · intro d before x after h
    by_cases e : d = c
    · subst e
      simp only [update_self] at h
      refine inv.early d (((), v) :: before) x after ?_
      rw [hbuf, h]
      rfl
    · simp only [update_of_ne e] at h
      exact inv.early d before x after h
  · rcases inv.early c [] v rest hbuf with h2 | ⟨t, _, ht⟩ | ⟨x, hx, h2⟩
    · exact Or.inl h2
    · exact Or.inr (Or.inl ⟨t, ht⟩)
    · refine Or.inr (Or.inr ⟨c, x, ?_, h2⟩)
      simp only [update_self]
      exact hx

omit [DecidableEq κ] in
/-- A worker that has made one increment at most still is such a one, unless it makes its second. -/
theorem made_store {u : Fin n} (hlate : (s.worker t).i = 0 ∨ u ≠ t) (hu : (s.worker u).made ≤ 1) :
    (update s.worker t (afterStore S.kind (s.worker t).i) u).made ≤ 1 := by
  by_cases e : u = t
  · rw [e, update_self, made_afterStore]
    have h0 := hlate.resolve_right (not_not_intro e)
    omega
  · rw [update_of_ne e]
    exact hu

/-- One more write at the end of a queue: it is larger than 1, or it is the first one of its worker. -/
theorem Counts.early_store (inv : Counts S s) {x : Nat}
    (hlate : 2 ≤ x + 1 ∨ ((s.worker t).i = 0 ∧ (s.worker t).made = 0)) (c : κ)
    (before : List (Unit × Nat)) (v : Nat) (after : List (Unit × Nat))
    (h : (s.mem.write (S.core t) () (x + 1)).buf c = before ++ ((), v) :: after) :
    2 ≤ v ∨ (∃ u, S.core u = c ∧
        (update s.worker t (afterStore S.kind (s.worker t).i) u).made ≤ 1) ∨
      ∃ w, ((), w) ∈ after ∧ 2 ≤ w := by
  by_cases e : c = S.core t
  · subst e
    simp only [write, update_self] at h
    rcases List.eq_nil_or_concat after with rfl | ⟨after', y, rfl⟩
    · obtain ⟨_, hv⟩ := List.append_inj_right' h rfl |> List.cons.inj |>.1 |> Prod.mk.inj
      rcases hlate with h2 | ⟨h0, hmade⟩
      · exact Or.inl (hv ▸ h2)
      · exact Or.inr (Or.inl ⟨t, rfl, made_store (Or.inl h0) (by omega)⟩)
    · rw [List.concat_eq_append, ← List.cons_append, ← List.append_assoc] at h
      obtain ⟨hold, hy⟩ := List.append_inj' h rfl
      obtain rfl := (List.cons.inj hy).1
      rcases hlate with h2 | ⟨h0, _⟩
      · exact Or.inr (Or.inr ⟨x + 1, by simp, h2⟩)
      · rcases inv.early _ before v after' hold with h2 | ⟨u, hc, hu⟩ | ⟨w, hw, h2⟩
        · exact Or.inl h2
        · exact Or.inr (Or.inl ⟨u, hc, made_store (Or.inl h0) hu⟩)
        · exact Or.inr (Or.inr ⟨w, by simp [hw], h2⟩)
  · simp only [write, update_of_ne e] at h
    rcases inv.early c before v after h with h2 | ⟨u, hc, hu⟩ | hw
    · exact Or.inl h2
    · have hut : u ≠ t := fun h => e (by rw [← hc, h])
      exact Or.inr (Or.inl ⟨u, hc, made_store (Or.inr hut) hu⟩)
    · exact Or.inr (Or.inr hw)

theorem last_store {x : Nat} (hlate : 2 ≤ x + 1 ∨ ((s.worker t).i = 0 ∧ (s.worker t).made = 0)) :
    2 ≤ s.mem.mem () ∨
      (∃ u, (update s.worker t (afterStore S.kind (s.worker t).i) u).made ≤ 1) ∨
      ∃ c w, ((), w) ∈ (s.mem.write (S.core t) () (x + 1)).buf c ∧ 2 ≤ w := by
  rcases hlate with h2 | ⟨h0, hmade⟩
  · exact Or.inr (Or.inr ⟨S.core t, x + 1, pending_write.mpr (Or.inr ⟨rfl, rfl, rfl⟩), h2⟩)
  · exact Or.inr (Or.inl ⟨t, made_store (Or.inl h0) (by omega)⟩)

/-- A worker stores. -/
theorem Counts.store (inv : Counts S s) {x : Nat} (hpc : (s.worker t).pc = .store x) :
    Counts S ({ s with mem := s.mem.write (S.core t) () (x + 1) }.become t
      (afterStore S.kind (s.worker t).i)) := by
  have hi : (s.worker t).i < S.attempts := inv.lt t (by rw [hpc]; rfl)
  have hmade : (s.worker t).made = (s.worker t).i := by
    rw [Worker.made, hpc]
  have hmade' := made_afterStore S.kind (s.worker t).i
  have htotal : total (update s.worker t (afterStore S.kind (s.worker t).i)) Worker.made =
      total s.worker Worker.made + 1 := by
    have h := total_update s.worker t (afterStore S.kind (s.worker t).i) Worker.made
    omega
  have hx := inv.loaded_le t x hpc
  -- a worker's second store is of a value that is larger than 1
  have hlate : 2 ≤ x + 1 ∨ ((s.worker t).i = 0 ∧ (s.worker t).made = 0) := by
    rcases Nat.eq_zero_or_pos (s.worker t).i with h0 | hpos
    · exact Or.inr ⟨h0, hmade.trans h0⟩
    · have hxpos := inv.loaded_pos t x hpc (by omega)
      omega
  have hwrite : ∀ {c : κ} {v : Nat}, ((), v) ∈ (s.mem.write (S.core t) () (x + 1)).buf c →
      ((), v) ∈ s.mem.buf c ∨ (c = S.core t ∧ v = x + 1) := by
    intro c v h
    rcases pending_write.mp h with h | ⟨hc, _, hv⟩
    · exact Or.inl h
    · exact Or.inr ⟨hc, hv⟩
  refine ⟨?_, ?_, Nat.le_succ_of_le inv.mem_le |>.trans_eq htotal.symm, ?_, ?_, ?_, ?_, ?_, ?_, ?_⟩ <;>
    simp only [State.become, htotal]
  · refine forall_update (fun w : Worker => w.i ≤ S.attempts) inv.le ?_
    exact (i_afterStore_le _ _).trans hi
  · refine forall_update (fun w : Worker => w.pc.inside = true → w.i < S.attempts) inv.lt fun h => ?_
    rw [i_afterStore h]
    exact hi
  · intro c v h
    rcases hwrite h with h | ⟨_, rfl⟩
    · exact Nat.le_succ_of_le (inv.pending_le c v h)
    · omega
  · intro u y
    by_cases e : u = t
    · rw [e, update_self]
      exact fun h => absurd h (pc_afterStore _ _ _)
    · rw [update_of_ne e]
      exact fun h => Nat.le_succ_of_le (inv.loaded_le u y h)
  · intro c v h
    rcases hwrite h with h | ⟨_, rfl⟩
    · exact inv.pending_pos c v h
    · exact Nat.succ_pos x
  · intro u hu
    by_cases e : S.core u = S.core t
    · rw [e, read_write_self, update_self]
      exact Nat.succ_pos x
    · have hut : u ≠ t := fun h => e (congrArg S.core h)
      rw [update_of_ne hut] at hu
      rw [read_write_of_core_ne e]
      exact inv.seen_pos u hu
  · intro u y
    by_cases e : u = t
    · rw [e, update_self]
      exact fun h => absurd h (pc_afterStore _ _ _)
    · rw [update_of_ne e]
      exact inv.loaded_pos u y
  · exact inv.early_store hlate
  · exact last_store hlate

/-- An atomic add is a load, a store and a flush with nothing in between. -/
theorem Counts.add (inv : Counts S s) (hpc : (s.worker t).pc = .loop)
    (hi : (s.worker t).i < S.attempts) (hk : S.kind = .atomic) (hd : s.mem.Drained (S.core t)) :
    Counts S ({ s with mem := ⟨fun _ => s.mem.mem () + 1, s.mem.buf⟩ }.become t
      ⟨.loop, (s.worker t).i + 1⟩) := by
  let s₁ := s.become t ⟨.store (s.mem.read (S.core t) ()), (s.worker t).i⟩
  have hload : Counts S s₁ := by
    refine inv.become (by simp only [Worker.made, hpc]) (inv.le t) (fun _ => hi) fun x hx => ?_
    exact (Pc.store.inj hx).symm
  have hworker : s₁.worker t = ⟨.store (s.mem.read (S.core t) ()), (s.worker t).i⟩ :=
    update_self ..
  have hstore := hload.store (t := t) (x := s.mem.read (S.core t) ()) (by rw [hworker])
  have hflush := hstore.flush (flush_write (m := s.mem) hd () _)
  have hmem : update s.mem.mem () (s.mem.read (S.core t) () + 1) =
      fun _ => s.mem.mem () + 1 := by
    funext u
    rw [hd.read, update_self]
  simp only [hworker, hk, afterStore, hmem] at hflush
  simpa only [State.become, s₁, update_idem] using hflush

theorem Counts.trans (inv : Counts S s) {a : Act κ n} (h : Trans S s a s') : Counts S s' := by
  cases h with
  | flush c m hm => exact inv.flush hm
  | worker t h =>
    cases h with
    | add hpc hi hk hd => exact inv.add hpc hi hk hd
    | lock hpc hi hk hl hd =>
      exact inv.become (by simp only [Worker.made, hpc]) (inv.le t) (fun _ => hi) nofun
    | race hpc hi hk =>
      refine inv.become (by simp only [Worker.made, hpc]) (inv.le t) (fun _ => hi) fun x hx => ?_
      exact (Pc.store.inj hx).symm
    | load hpc =>
      have hi := inv.lt t (by rw [hpc]; rfl)
      refine inv.become (by simp only [Worker.made, hpc]) (inv.le t) (fun _ => hi) fun x hx => ?_
      exact (Pc.store.inj hx).symm
    | store x hpc => exact inv.store hpc
    | fence hpc hd =>
      have hi := inv.lt t (by rw [hpc]; rfl)
      exact inv.become (by simp only [Worker.made, hpc]) hi nofun nofun
    | unlock hpc hd =>
      have hi := inv.lt t (by rw [hpc]; rfl)
      exact inv.become (by simp only [Worker.made, hpc]) hi nofun nofun

omit [DecidableEq κ] in
/-- The value when all have returned. -/
theorem Counts.joined (inv : Counts S s) (h : Joined S s) :
    min S.attempts 2 ≤ s.mem.mem () ∧ s.mem.mem () ≤ n * S.attempts := by
  have hmade : ∀ t, (s.worker t).made = S.attempts := by
    intro t
    rw [h.1 t]
    rfl
  refine ⟨?_, h.total ▸ inv.mem_le⟩
  rcases inv.last with h2 | ⟨t, ht⟩ | ⟨c, w, hw, _⟩
  · omega
  · have hseen := inv.seen_pos t
    rw [(h.2 _).read, hmade] at hseen
    rw [hmade] at ht
    omega
  · rw [h.2 c] at hw
    cases hw

end Counts

/-! ## An atomic add, or a mutex -/

/-- The invariant of the types that do not race: at most one worker is within an increment, only its
    writes are pending, and it sees the number of increments. -/
structure Exclusive {κ : Type} {n : Nat} (S : Setup κ n) (s : State κ n) : Prop where
  one : ∀ t u, (s.worker t).pc.inside = true → (s.worker u).pc.inside = true → t = u
  locked : ∀ t, (s.worker t).pc.inside = true → s.locked = true ∧ S.kind ≠ .atomic
  drained : ∀ c, (∀ t, (s.worker t).pc.inside = true → c ≠ S.core t) → s.mem.Drained c
  out : (∀ t, (s.worker t).pc.inside = false) → s.mem.mem () = total s.worker Worker.made
  view : ∀ t, (s.worker t).pc.inside = true →
    s.mem.read (S.core t) () = total s.worker Worker.made ∧
      ∀ x, (s.worker t).pc = .store x → x = total s.worker Worker.made

section Exclusive

variable {κ : Type} {n : Nat} {S : Setup κ n} {s s' : State κ n} {t : Fin n} {w : Worker}

/-- Nobody is inside: nothing is pending. -/
theorem Exclusive.all_drained (inv : Exclusive S s) (h : ∀ t, (s.worker t).pc.inside = false) (c : κ) :
    s.mem.Drained c := by
  refine inv.drained c fun t ht => ?_
  rw [h t] at ht
  cases ht

/-- Worker `t`, who is alone, goes inside or goes on inside. -/
theorem Exclusive.enter {m : StoreBuffer κ Unit Nat}
    (hothers : ∀ u, u ≠ t → (s.worker u).pc.inside = false) (hk : S.kind ≠ .atomic)
    (hinside : w.pc.inside = true) (hd : ∀ c, c ≠ S.core t → m.Drained c)
    (hread : m.read (S.core t) () = total (update s.worker t w) Worker.made)
    (hload : ∀ x, w.pc = .store x → x = total (update s.worker t w) Worker.made) :
    Exclusive S (({ s with mem := m, locked := true } : State κ n).become t w) := by
  have honly : ∀ u, ((update s.worker t w) u).pc.inside = true → u = t := by
    intro u hu
    by_contra e
    rw [update_of_ne e, hothers u e] at hu
    cases hu
  refine ⟨?_, fun _ _ => ⟨rfl, hk⟩, ?_, ?_, ?_⟩ <;> simp only [State.become]
  · exact fun u v hu hv => (honly u hu).trans (honly v hv).symm
  · exact fun c hc => hd c (hc t (by rw [update_self]; exact hinside))
  · intro h
    have ht := h t
    rw [update_self, hinside] at ht
    cases ht
  · intro u hu
    obtain rfl := honly u hu
    rw [update_self]
    exact ⟨hread, hload⟩

/-- Worker `t`, who is alone, comes out, with all that it wrote in memory. -/
theorem Exclusive.leave {m : StoreBuffer κ Unit Nat} {locked : Bool}
    (hothers : ∀ u, u ≠ t → (s.worker u).pc.inside = false) (hout : w.pc.inside = false)
    (hd : ∀ c, m.Drained c) (hmem : m.mem () = total (update s.worker t w) Worker.made) :
    Exclusive S (({ s with mem := m, locked := locked } : State κ n).become t w) := by
  have hnone : ∀ u, ((update s.worker t w) u).pc.inside = false := by
    intro u
    by_cases e : u = t
    · rw [e, update_self, hout]
    · rw [update_of_ne e, hothers u e]
  refine ⟨?_, ?_, fun c _ => hd c, fun _ => hmem, ?_⟩ <;> simp only [State.become]
  · intro u v hu
    rw [hnone u] at hu
    cases hu
  · intro u hu
    rw [hnone u] at hu
    cases hu
  · intro u hu
    rw [hnone u] at hu
    cases hu

theorem Exclusive.others (inv : Exclusive S s) (ht : (s.worker t).pc.inside = true) (u : Fin n)
    (hu : u ≠ t) : (s.worker u).pc.inside = false := by
  cases h : (s.worker u).pc.inside with
  | false => rfl
  | true => exact absurd (inv.one u t h ht) hu

theorem Exclusive.drained_others (inv : Exclusive S s) (ht : (s.worker t).pc.inside = true) (c : κ)
    (hc : c ≠ S.core t) : s.mem.Drained c :=
  inv.drained c fun u hu => inv.one u t hu ht ▸ hc

/-- Worker `t` comes out with the same number of increments. -/
theorem Exclusive.comes_out (inv : Exclusive S s) (ht : (s.worker t).pc.inside = true)
    (hd : s.mem.Drained (S.core t)) {locked : Bool} (hout : w.pc.inside = false)
    (hmade : w.made = (s.worker t).made) :
    Exclusive S (({ s with locked := locked } : State κ n).become t w) := by
  refine Exclusive.leave (m := s.mem) (inv.others ht) hout (fun c => ?_) ?_
  · by_cases e : c = S.core t
    · rw [e]
      exact hd
    · exact inv.drained_others ht c e
  · rw [total_update_made s hmade, ← (inv.view t ht).1, hd.read]

variable [DecidableEq κ]

theorem Exclusive.flush (inv : Exclusive S s) {c : κ} {m : StoreBuffer κ Unit Nat}
    (hm : s.mem.flush c = some m) : Exclusive S { s with mem := m } := by
  have hne := not_drained_of_flush hm
  refine ⟨inv.one, inv.locked, fun d hd => (inv.drained d hd).flush hm, fun h => ?_, fun t ht => ?_⟩
  · exact absurd (inv.all_drained h c) hne
  · have hc : c = S.core t := by
      by_contra e
      exact hne (inv.drained_others ht c e)
    subst hc
    simp only [read_flush_self hm]
    exact inv.view t ht

theorem Exclusive.trans (inv : Exclusive S s) (hk : S.kind.racing = false) {a : Act κ n}
    (h : Trans S s a s') : Exclusive S s' := by
  cases h with
  | flush c m hm => exact inv.flush hm
  | worker t h =>
    cases h with
    | add hpc hi hatomic hd =>
      have hnone : ∀ u, (s.worker u).pc.inside = false := by
        intro u
        cases hu : (s.worker u).pc.inside with
        | false => rfl
        | true => exact absurd hatomic (inv.locked u hu).2
      refine Exclusive.leave (fun u _ => hnone u) rfl (fun c => inv.all_drained hnone c) ?_
      have h := total_update s.worker t ⟨.loop, (s.worker t).i + 1⟩ Worker.made
      have hmade : (s.worker t).made = (s.worker t).i := by
        simp only [Worker.made, hpc]
      have hmade' : (⟨.loop, (s.worker t).i + 1⟩ : Worker).made = (s.worker t).i + 1 := rfl
      have hout := inv.out hnone
      show s.mem.mem () + 1 = _
      omega
    | lock hpc hi hmutex hl hd =>
      have hnone : ∀ u, (s.worker u).pc.inside = false := by
        intro u
        cases hu : (s.worker u).pc.inside with
        | false => rfl
        | true =>
          have h := (inv.locked u hu).1
          rw [hl] at h
          cases h
      refine Exclusive.enter (m := s.mem) (fun u _ => hnone u) (by rw [hmutex]; decide) rfl
        (fun c _ => inv.all_drained hnone c) ?_ nofun
      rw [total_update_made s (by simp only [Worker.made, hpc]), hd.read]
      exact inv.out hnone
    | race hpc hi hrace =>
      rw [hk] at hrace
      cases hrace
    | load hpc =>
      have ht : (s.worker t).pc.inside = true := by rw [hpc]; rfl
      have hmade : (⟨.store (s.mem.read (S.core t) ()), (s.worker t).i⟩ : Worker).made =
          (s.worker t).made := by simp only [Worker.made, hpc]
      have hview := (inv.view t ht).1
      have h := Exclusive.enter (m := s.mem) (inv.others ht) (inv.locked t ht).2
        (w := ⟨.store (s.mem.read (S.core t) ()), (s.worker t).i⟩) rfl (inv.drained_others ht)
        (by rw [total_update_made s hmade, hview])
        (fun x hx => by rw [total_update_made s hmade, ← Pc.store.inj hx, hview])
      rw [← (inv.locked t ht).1] at h
      exact h
    | store x hpc =>
      have ht : (s.worker t).pc.inside = true := by rw [hpc]; rfl
      have hmutex : S.kind = .mutex := by
        have hne := (inv.locked t ht).2
        cases hkind : S.kind <;> rw [hkind] at hk hne <;> first | rfl | exact absurd rfl hne | cases hk
      obtain ⟨hview, hload⟩ := inv.view t ht
      have htotal := total_update s.worker t ⟨.unlock, (s.worker t).i⟩ Worker.made
      have hmade : (s.worker t).made = (s.worker t).i := by simp only [Worker.made, hpc]
      have hmade' : (⟨.unlock, (s.worker t).i⟩ : Worker).made = (s.worker t).i + 1 := rfl
      have hx := hload x hpc
      rw [hmutex]
      have h := Exclusive.enter (m := s.mem.write (S.core t) () (x + 1)) (inv.others ht)
        (inv.locked t ht).2 (w := ⟨.unlock, (s.worker t).i⟩) rfl
        (fun c hc => by
          rw [Drained, write]
          simp only [update_of_ne hc]
          exact inv.drained_others ht c hc)
        (by rw [read_write_self, update_self]; omega) nofun
      rw [← (inv.locked t ht).1] at h
      exact h
    | fence hpc hd =>
      exact inv.comes_out (by rw [hpc]; rfl) hd rfl (by simp only [Worker.made, hpc])
    | unlock hpc hd =>
      exact inv.comes_out (by rw [hpc]; rfl) hd rfl (by simp only [Worker.made, hpc])

end Exclusive

end DemosOsLinux.TryingToBreak
