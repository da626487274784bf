/-
  Mutual exclusion of the readers-writer lock on the eventfd condition variable.

  The counters are what they are named after: `locked m` counts the threads that hold the lock in
  mode `m`, `waiting m` those in the waiting part of its lock function. `unlock` reads its
  caller's mode off the counters, so that they are right and that the two modes exclude each
  other is one invariant (`CountInv`); what a thread has tested stays true while it has the mutex
  (`Place.Fact`).
  * `rwlock_exclusion`: the statement about every run of at most `maxFd` threads.
-/
import DemosOsLinux.EventRwLock.Lock

namespace DemosOsLinux.EventRwLock

open Lib EventCond Function

variable {n : Nat} {m : Mode} {t : Fin n} {l l' : Lock n} {x x' : Place} {s : State n}

/-! ## The mutex and the condition variables -/

/-- The place in the functions of the condition variable of mode `m`. -/
def Place.pc (m : Mode) : Place → Option Pc
  | .cond m' p => if m' = m then some p else none
  | _ => none

/-- The places where the thread has the mutex. -/
def Place.holds : Place → Bool
  | .cond _ p => p.holds
  | .idle | .lock _ | .held _ | .ulLock _ | .aborted => false
  | _ => true

def State.pc (s : State n) (m : Mode) (t : Fin n) : Option Pc := (s.place t).pc m

structure MutexInv (s : State n) : Prop where
  cond : ∀ m, CondInv (s.lock.cond m) s.lock.owner (s.pc m)
  mutex : ∀ t, (s.place t).holds = true → s.lock.owner = some t

theorem pc_cond (m : Mode) (p : Pc) : (Place.cond m p).pc m = some p := if_pos rfl

theorem pc_cond_ne {m' : Mode} (h : m' ≠ m) (p : Pc) : (Place.cond m' p).pc m = none := if_neg h

theorem pc_nextPlace (m : Mode) (p : Pc) (x : Next) : (nextPlace m p x).pc m = x.pc := by
  cases x with
  | go q => exact pc_cond m q
  | ret =>
    simp only [nextPlace, retPlace]
    split <;> rfl
  | abort => rfl

theorem pc_nextPlace_ne {m' : Mode} (h : m' ≠ m) (p : Pc) (x : Next) :
    (nextPlace m' p x).pc m = none := by
  cases x with
  | go q => exact pc_cond_ne h q
  | ret =>
    simp only [nextPlace, retPlace]
    split <;> rfl
  | abort => rfl

theorem pc_set (s : State n) (m : Mode) (t : Fin n) (r : Lock n × Place) :
    (s.set t r).pc m = update (s.pc m) t (r.2.pc m) :=
  funext fun u => apply_update (fun _ x => x.pc m) s.place t r.2 u

/-- What a step does to the mutex. -/
theorem Moves.owner (h : Moves t l x l' x') (hx : x.holds = true → l.owner = some t) :
    OwnerStep t l.owner l'.owner ∧ (x'.holds = true → l'.owner = some t) := by
  cases h with
  | lock m hfree => exact ⟨hfree ▸ .get, fun _ => rfl⟩
  | ulLock m hfree => exact ⟨hfree ▸ .get, fun _ => rfl⟩
  | give m => exact ⟨hx rfl ▸ .give, fun h => by cases h⟩
  | ulUnlock => exact ⟨hx rfl ▸ .give, fun h => by cases h⟩
  | cond m p o ho =>
    refine ⟨ho.ownerStep hx, ?_⟩
    intro h
    apply ho.owner_self hx
    cases hn : o.next with
    | go q =>
      rw [hn] at h
      exact Or.inr ⟨q, rfl, h⟩
    | ret => exact Or.inl rfl
    | abort =>
      rw [hn] at h
      cases h
  | call m => exact ⟨.same _, fun h => by cases h⟩
  | unlock m => exact ⟨.same _, fun h => by cases h⟩
  | spurious m k => exact ⟨.same _, fun h => by cases h⟩
  | _ => exact ⟨.same _, fun _ => hx rfl⟩

theorem condInv_of_moves (h : Moves t s.lock (s.place t) l' x') (inv : MutexInv s) (m : Mode) :
    CondInv (l'.cond m) l'.owner (update (s.pc m) t (x'.pc m)) := by
  have hstep := (h.owner (inv.mutex t)).1
  -- a step outside the functions of this condition variable
  have hother (hx : (s.place t).pc m = none) (hx' : x'.pc m = none)
      (hc : l'.cond m = s.lock.cond m) :
      CondInv (l'.cond m) l'.owner (update (s.pc m) t (x'.pc m)) := by
    have hpc : update (s.pc m) t (x'.pc m) = s.pc m := by
      rw [hx', ← hx]
      exact update_eq_self t (s.pc m)
    rw [hpc, hc]
    apply (inv.cond m).ownerStep hstep
    intro p hp
    rw [State.pc, hx] at hp
    cases hp
  -- a call of one of its functions
  have henter {p : Pc} (hx : (s.place t).pc m = none) (hx' : x' = .cond m p)
      (hslot : p.slot = none) (hseen : p.Seen (s.lock.cond m)) (hl : l' = s.lock)
      (hholds : (s.place t).holds = true) :
      CondInv (l'.cond m) l'.owner (update (s.pc m) t (x'.pc m)) := by
    have hcond := inv.cond m
    rw [hl, hx', pc_cond]
    rw [inv.mutex t hholds] at hcond ⊢
    exact hcond.enter hx hslot hseen
  generalize hp : s.place t = x at h hother henter
  have hpc : s.pc m t = x.pc m := by rw [State.pc, hp]
  cases h with
  | testBlocked m' hb =>
    by_cases e : m' = m
    · subst e
      refine henter rfl rfl rfl ?_ rfl rfl
      intro j hj
      cases hj
    · exact hother rfl (pc_cond_ne e _) rfl
  | ulSignal hww hr =>
    by_cases e : Mode.wr = m
    · subst e
      refine henter rfl rfl rfl ?_ rfl rfl
      intro j hj
      cases hj
    · exact hother rfl (pc_cond_ne e _) rfl
  | ulBroadcast hno hrw hw =>
    by_cases e : Mode.rd = m
    · subst e
      exact henter rfl rfl rfl trivial rfl rfl
    · exact hother rfl (pc_cond_ne e _) rfl
  | cond m' p o ho =>
    by_cases e : m' = m
    · subst e
      rw [pc_cond] at hpc
      rw [pc_nextPlace]
      simp only [update_self]
      exact (inv.cond m').step hpc ho
    · exact hother (pc_cond_ne e _) (pc_nextPlace_ne e _ _) (update_of_ne (Ne.symm e) _ _)
  | spurious m' k =>
    by_cases e : m' = m
    · subst e
      rw [pc_cond] at hpc ⊢
      refine (inv.cond m').move ?_ ?_ ?_
      · rw [hpc]
        rfl
      · rintro _ ⟨rfl⟩ hh
        cases hh
      · rintro _ ⟨rfl⟩
        trivial
    · exact hother (pc_cond_ne e _) (pc_cond_ne e _) rfl
  | _ => exact hother rfl rfl rfl

theorem mutexInv_of_moves {r : Lock n × Place} (h : Moves t s.lock (s.place t) r.1 r.2)
    (inv : MutexInv s) : MutexInv (s.set t r) := by
  refine ⟨?_, ?_⟩
  · intro m
    rw [pc_set]
    exact condInv_of_moves h inv m
  · intro u hu
    obtain ⟨hstep, hself⟩ := h.owner (inv.mutex t)
    by_cases e : u = t
    · subst e
      simp only [State.set, update_self] at hu
      exact hself hu
    · simp only [State.set, update_of_ne e] at hu
      exact hstep.other e (inv.mutex u hu)

theorem mutexInv_initState : MutexInv (initState n) := by
  refine ⟨fun m => condInv_init none, ?_⟩
  intro t h
  cases h

/-! ## The counters -/

/-- The thread holds the lock in mode `m`: `locked m` has been incremented for it and not
    decremented. -/
def Place.holding (m : Mode) : Place → Bool
  | .leave m' | .give m' | .held m' | .ulLock m' | .ulRole m' | .ulDec m' _ => m' = m
  | _ => false

/-- The thread is in the waiting part of the lock function of mode `m`. -/
def Place.waits (m : Mode) : Place → Bool
  | .test m' | .take m' | .leave m' => m' = m
  | .cond m' p => m' = m ∧ p.inWait
  | _ => false

/-- What a thread at this place has found out about the counters. -/
def Place.Fact (l : Lock n) : Place → Prop
  | .take m => l.blocked m = false
  | .cond m (.search _) | .cond m (.claim _) | .cond m (.release _) => l.blocked m = true
  | .cond m (.signal _) => m = .wr ∧ l.readers = 0 ∧ l.writers = 0 ∧ 0 < l.writersWaiting
  | .cond m (.broadcast _) => m = .rd
  | .ulDec m b => b = m
  | .ulTest => l.writers = 0
  | .aborted => False
  | _ => True

structure CountInv (s : State n) : Prop where
  base : MutexInv s
  locked : ∀ m, s.lock.locked m = count s.place (Place.holding m)
  waiting : ∀ m, s.lock.waiting m = count s.place (Place.waits m)
  exclusive : Exclusive s.lock.locked
  fact : ∀ t, (s.place t).Fact s.lock

theorem incr_of_lt {x : Nat} (h : x < 100) : incr x = x + 1 := by
  unfold incr
  omega

theorem decr_add_one {x : Nat} (hpos : 0 < x) (h : x ≤ 100) : decr x + 1 = x := by
  unfold decr
  omega

theorem Lock.blocked_rd : l.blocked .rd = false ↔ l.writers = 0 ∧ l.writersWaiting = 0 := by
  simp [Lock.blocked]

theorem Lock.blocked_wr : l.blocked .wr = false ↔ l.readers = 0 ∧ l.writers = 0 := by
  simp [Lock.blocked]

/-- Only a thread that has the mutex changes the counters. -/
theorem Moves.counters (h : Moves t l x l' x') :
    l'.locked = l.locked ∧ l'.waiting = l.waiting ∨ x.holds = true := by
  cases h with
  | enter m => exact Or.inr rfl
  | take m => exact Or.inr rfl
  | leave m => exact Or.inr rfl
  | ulDec m b => exact Or.inr rfl
  | _ => exact Or.inl ⟨rfl, rfl⟩

theorem Lock.blocked_congr (hl : l'.locked = l.locked) (hw : l'.waiting = l.waiting) (m : Mode) :
    l'.blocked m = l.blocked m := by
  unfold Lock.blocked Lock.readers Lock.writers Lock.writersWaiting
  rw [hl, hw]

theorem Place.Fact.congr (hl : l'.locked = l.locked) (hw : l'.waiting = l.waiting) (h : x.Fact l) :
    x.Fact l' := by
  unfold Place.Fact at h ⊢
  simp only [Lock.blocked_congr hl hw, Lock.readers, Lock.writers, Lock.writersWaiting, hl,
    hw] at h ⊢
  exact h

/-- Without the mutex a thread relies on nothing. -/
theorem Place.Fact.of_not_holds (hx : x.holds = false) (h : x.Fact l) : x.Fact l' := by
  cases x with
  | cond m p =>
    cases p with
    | read k => trivial
    | relock k => trivial
    | _ => cases hx
  | take m => cases hx
  | ulDec m b => cases hx
  | ulTest => cases hx
  | aborted => exact h
  | _ => trivial

theorem CountInv.fact_other {u : Fin n} (inv : CountInv s) (h : Moves t s.lock (s.place t) l' x')
    (hne : u ≠ t) : (s.place u).Fact l' := by
  rcases h.counters with ⟨hl, hw⟩ | hholds
  · exact (inv.fact u).congr hl hw
  · apply (inv.fact u).of_not_holds
    by_contra hu
    have ht := inv.base.mutex t hholds
    rw [inv.base.mutex u (Bool.not_eq_false _ ▸ hu)] at ht
    exact hne (Option.some.inj ht)

theorem CountInv.locked_pos (inv : CountInv s) (h : (s.place t).holding m = true) :
    0 < s.lock.locked m := by
  rw [inv.locked m]
  exact count_pos.mpr ⟨t, h⟩

theorem CountInv.waiting_pos (inv : CountInv s) (h : (s.place t).waits m = true) :
    0 < s.lock.waiting m := by
  rw [inv.waiting m]
  exact count_pos.mpr ⟨t, h⟩

/-- `if(lock->readers)` finds the mode of the caller. -/
theorem CountInv.role_eq (inv : CountInv s) (h : (s.place t).holding m = true) :
    s.lock.role = m := by
  exact inv.exclusive.mode_eq (inv.locked_pos h)

/-- The search for a slot does not fail. -/
theorem CountInv.search_lt (inv : CountInv s) (hn : n ≤ maxFd) {i : Nat}
    (h : s.place t = .cond m (.search i)) : i < maxFd := by
  apply (inv.base.cond m).search_lt (t := t)
  · rw [State.pc, h, pc_cond]
  · exact Nat.le_trans (count_le_card _ _) ((Fintype.card_fin n).trans_le hn)

/-! ## One step -/

/-- A counter of threads, when one more comes to be counted: with `n ≤ 100` threads it does not
    wrap. -/
theorem incr_count {f : Fin n → Place} {a : Place} {P : Place → Bool} (hn : n ≤ 100)
    (h : P (f t) = false) (ha : P a = true) : incr (count f P) = count (update f t a) P := by
  have hcount := count_update_enter h ha
  have hle := (count_le_card (update f t a) P).trans_eq (Fintype.card_fin n)
  rw [hcount, incr_of_lt]
  omega

theorem decr_count {f : Fin n → Place} {a : Place} {P : Place → Bool} (hn : n ≤ 100)
    (h : P (f t) = true) (ha : P a = false) : decr (count f P) = count (update f t a) P := by
  have hcount := count_update_leave h ha
  have hle := (count_le_card f P).trans_eq (Fintype.card_fin n)
  have hdecr := decr_add_one (count_pos.mpr ⟨t, h⟩) (Nat.le_trans hle hn)
  omega

theorem locked_of_moves (inv : CountInv s) (hn : n ≤ 100) (h : Moves t s.lock (s.place t) l' x')
    (m : Mode) : l'.locked m = count (update s.place t x') (Place.holding m) := by
  have hsame (hl : l'.locked m = s.lock.locked m) (hx : x'.holding m = (s.place t).holding m) :
      l'.locked m = count (update s.place t x') (Place.holding m) := by
    rw [hl, inv.locked m, count_update_same hx]
  have hfact := inv.fact t
  generalize hp : s.place t = x at h hsame hfact
  cases h with
  | take m' =>
    apply update_follows inv.locked
    · rw [inv.locked m']
      exact incr_count hn (by rw [hp]; rfl) (by simp [Place.holding])
    · intro m e
      apply count_update_same
      simp [hp, Place.holding, Ne.symm e]
  | ulDec m' b =>
    obtain rfl : b = m' := hfact
    apply update_follows inv.locked
    · rw [inv.locked b]
      exact decr_count hn (by simp [hp, Place.holding]) rfl
    · intro m e
      apply count_update_same
      simp [hp, Place.holding, Ne.symm e]
  | cond m' p o ho =>
    refine hsame rfl ?_
    cases o.next with
    | ret =>
      simp only [nextPlace, retPlace]
      split <;> rfl
    | _ => rfl
  | _ => exact hsame rfl rfl

theorem waiting_of_moves (inv : CountInv s) (hn : n ≤ 100) (h : Moves t s.lock (s.place t) l' x')
    (m : Mode) : l'.waiting m = count (update s.place t x') (Place.waits m) := by
  have hsame (hl : l'.waiting m = s.lock.waiting m) (hx : x'.waits m = (s.place t).waits m) :
      l'.waiting m = count (update s.place t x') (Place.waits m) := by
    rw [hl, inv.waiting m, count_update_same hx]
  generalize hp : s.place t = x at h hsame
  cases h with
  | enter m' =>
    apply update_follows inv.waiting
    · rw [inv.waiting m']
      exact incr_count hn (by rw [hp]; rfl) (by simp [Place.waits])
    · intro m e
      apply count_update_same
      simp [hp, Place.waits, Ne.symm e]
  | leave m' =>
    apply update_follows inv.waiting
    · rw [inv.waiting m']
      exact decr_count hn (by simp [hp, Place.waits]) rfl
    · intro m e
      apply count_update_same
      simp [hp, Place.waits, Ne.symm e]
  | testBlocked m' hb => exact hsame rfl (by simp [Place.waits, Pc.inWait])
  | ulSignal hww hr => exact hsame rfl (by simp [Place.waits, Pc.inWait])
  | ulBroadcast hno hrw hw => exact hsame rfl (by simp [Place.waits, Pc.inWait])
  | spurious m' k => exact hsame rfl (by simp [Place.waits, Pc.inWait])
  | cond m' p o ho =>
    refine hsame rfl ?_
    cases hx : o.next with
    | go q =>
      simp only [nextPlace, Place.waits]
      rw [ho.inWait hx]
    | ret =>
      simp only [nextPlace, retPlace]
      split
      · rename_i hw
        simp [Place.waits, hw]
      · rename_i hw
        simp [Place.waits, hw]
    | abort =>
      cases ho with
      | searchFail i hi => exact absurd (inv.search_lt hn hp) (Nat.not_lt.mpr hi)
      | _ => cases hx
  | _ => exact hsame rfl rfl

/-- There is no writer after `readers--` or `writers--`. -/
theorem CountInv.writers_ulDec (inv : CountInv s) (hn : n ≤ 100) {b : Mode}
    (hp : s.place t = .ulDec m b) : (s.lock.setLocked b (decr (s.lock.locked b))).writers = 0 := by
  obtain rfl : b = m := by
    have hfact := inv.fact t
    rw [hp] at hfact
    exact hfact
  have hpos : 0 < s.lock.locked b := inv.locked_pos (t := t) (by simp [hp, Place.holding])
  have hle : s.lock.locked b ≤ n := by
    rw [inv.locked b]
    exact (count_le_card _ _).trans_eq (Fintype.card_fin n)
  exact inv.exclusive.release (decr_add_one hpos (Nat.le_trans hle hn))

/-- The two modes exclude each other after a step. -/
theorem exclusive_of_moves (inv : CountInv s) (hn : n ≤ 100)
    (h : Moves t s.lock (s.place t) l' x') : Exclusive l'.locked := by
  have hfact := inv.fact t
  generalize hp : s.place t = x at h hfact
  cases h with
  | take m =>
    cases m with
    | rd => exact .take_rd (Lock.blocked_rd.mp hfact).1 _
    | wr =>
      obtain ⟨hr, hw⟩ := Lock.blocked_wr.mp hfact
      have hone : incr (s.lock.locked .wr) = 1 := by
        rw [show s.lock.locked .wr = 0 from hw, incr_of_lt (Nat.zero_lt_succ 99)]
      simp only [Lock.setLocked, hone]
      exact .take_wr hr
  | ulDec m b => exact .of_noWriter (inv.writers_ulDec hn hp)
  | _ => exact inv.exclusive

/-- What the stepping thread relies on at its new place. -/
theorem fact_of_moves (inv : CountInv s) (hn : n ≤ 100) (h : Moves t s.lock (s.place t) l' x') :
    x'.Fact l' := by
  have hfact := inv.fact t
  have hrole {m : Mode} (hm : (s.place t).holding m = true) : s.lock.role = m := inv.role_eq hm
  generalize hp : s.place t = x at h hfact hrole
  cases h with
  | testBlocked m hb => exact hb
  | testFree m hb => exact hb
  | cond m p o ho =>
    cases ho with
    | searchFail i hi => exact absurd (inv.search_lt hn hp) (Nat.not_lt.mpr hi)
    | searchNext i hi hw => exact hfact
    | searchFound i hi hw => exact hfact
    | claim k => exact hfact
    | signalNext i hi hw => exact hfact
    | broadcastNext i hi hw => exact hfact
    | broadcastWrite i hi hw => exact hfact
    | _ => trivial
  | ulRole m => exact hrole (by simp [Place.holding])
  | ulDec m b => exact inv.writers_ulDec hn hp
  | ulSignal hww hr => exact ⟨rfl, hr, hfact, hww⟩
  | ulBroadcast hno hrw hw => rfl
  | _ => trivial

theorem countInv_of_moves {r : Lock n × Place} (hn : n ≤ 100)
    (h : Moves t s.lock (s.place t) r.1 r.2) (inv : CountInv s) : CountInv (s.set t r) := by
  refine ⟨mutexInv_of_moves h inv.base, locked_of_moves inv hn h, waiting_of_moves inv hn h,
    exclusive_of_moves inv hn h, ?_⟩
  intro u
  by_cases e : u = t
  · subst e
    simp only [State.set, update_self]
    exact fact_of_moves inv hn h
  · simp only [State.set, update_of_ne e]
    exact inv.fact_other h e

theorem countInv_initState : CountInv (initState n) := by
  refine ⟨mutexInv_initState, ?_, ?_, .of_noWriter rfl, fun t => trivial⟩
  · intro m
    exact (count_eq_zero.mpr fun t => rfl).symm
  · intro m
    exact (count_eq_zero.mpr fun t => rfl).symm

/-! ## Whole runs -/

structure RwExclusion (s : State n) : Prop where
  oneWriter : s.lock.writers ≤ 1
  notBoth : ¬(0 < s.lock.readers ∧ 0 < s.lock.writers)
  readers : s.lock.readers = count s.place (Place.holding .rd)
  writers : s.lock.writers = count s.place (Place.holding .wr)
  readersWaiting : s.lock.readersWaiting = count s.place (Place.waits .rd)
  writersWaiting : s.lock.writersWaiting = count s.place (Place.waits .wr)
  /-- `unlock` is in the branch of the mode that its caller holds. -/
  role : ∀ t m b, s.place t = .ulDec m b → b = m
  /-- A reader that is about to take the lock. -/
  preference : ∀ t, s.place t = .take .rd → s.lock.writersWaiting = 0

theorem run_countInv (hn : n ≤ 100) {acts : List (Act n)} {tr : List Empty}
    (hr : (threads n).run (initState n) acts = some (s, tr)) : CountInv s := by
  refine (threads n).run_inv (fun _ => True) CountInv ?_ (fun _ _ => trivial) countInv_initState hr
  intro s a s' es _ inv hs
  obtain ⟨t, r, hm, rfl⟩ := exists_moves hs
  exact countInv_of_moves hn hm inv

/-- **Mutual exclusion.** At most 100 threads that lock and unlock in any order, with spurious
    returns from the condition variables: in every state that is reached the counters count the
    holders and the waiters, writers exclude everybody else, `unlock` knows its caller's mode and
    no reader gets in before a waiting writer. -/
theorem rwlock_exclusion (n : Nat) (hn : n ≤ 100) (acts : List (Act n)) (s : State n)
    (tr : List Empty) (hr : (threads n).run (initState n) acts = some (s, tr)) : RwExclusion s := by
  have inv := run_countInv hn hr
  refine ⟨inv.exclusive.oneWriter, ?_, inv.locked .rd, inv.locked .wr, inv.waiting .rd,
    inv.waiting .wr, ?_, ?_⟩
  · rintro ⟨hr, hw⟩
    exact absurd (inv.exclusive.noWriter hr) (Nat.ne_of_gt hw)
  · intro t m b hp
    have hfact := inv.fact t
    rw [hp] at hfact
    exact hfact
  · intro t hp
    have hfact := inv.fact t
    rw [hp] at hfact
    exact (Lock.blocked_rd.mp hfact).2

/-- A call of thread `t` and its next `k` steps. -/
def callThen (x : Act n) (t : Fin n) (k : Nat) : List (Act n) := x :: List.replicate k (.run t)

/-- Thread `a` reads, the writer `b` blocks behind it and the reader `c` behind the writer;
    thread `a` unlocks and is about to signal. -/
def queueRun (a b c : Fin n) : List (Act n) :=
  callThen (.rdlock a) a 6 ++ callThen (.wrlock b) b 6 ++ callThen (.rdlock c) c 6 ++
    callThen (.unlock a) a 4

theorem rwlock_exclusion_queueRun :
    ∃ s tr, (threads 3).run (initState 3) (queueRun 0 1 2) = some (s, tr) ∧
      (s.place 0 = .cond .wr (.signal 0) ∧ s.place 1 = .cond .wr (.read 0) ∧
        s.place 2 = .cond .rd (.read 0)) ∧ RwExclusion s := by
  obtain ⟨s, tr, hr, hs⟩ := (threads 3).exists_of_check (initState 3) (queueRun 0 1 2)
    (fun s _ => s.place 0 = .cond .wr (.signal 0) ∧ s.place 1 = .cond .wr (.read 0) ∧
      s.place 2 = .cond .rd (.read 0)) (by decide +kernel)
  exact ⟨s, tr, hr, hs, rwlock_exclusion 3 (by decide) (queueRun 0 1 2) s tr hr⟩

end DemosOsLinux.EventRwLock
