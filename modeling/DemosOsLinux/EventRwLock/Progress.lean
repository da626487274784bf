/-
  No stuck state in the readers-writer lock on the eventfd condition variable.

  A signal may be wasted on a writer that was signalled before, and readers also wait for waiting
  writers. Still, whenever the lock is free:
  * if a writer waits, some writer is on its way to the lock, or a thread in `unlock` is about to
    signal one (`WakeInv.writer`);
  * if none waits, every reader that is blocked has a wake-up, or a thread in `unlock` is about to
    broadcast, and its loop has not passed the reader's slot (`WakeInv.reader`).
  `rwlock_not_stuck` follows when nobody has the mutex.
-/
import DemosOsLinux.EventRwLock.Exclusion

namespace DemosOsLinux.EventRwLock

open Lib EventCond Function

variable {n : Nat} {u : Fin n}

/-- Nobody holds the lock. -/
def Lock.Free (l : Lock n) : Prop := l.readers = 0 ∧ l.writers = 0

/-- A writer at this place comes back to its loop condition without a further wake-up, or a
    thread at this place may still signal one. -/
def Place.helps (c : Cond) : Place → Bool
  | .test .wr | .take .wr | .cond .wr (.relock _) | .cond .wr (.clear _) => true
  | .cond .wr (.read k) => 0 < c.efd k
  | .ulTest | .cond .wr (.signal _) => true
  | _ => false

structure WakeInv (s : State n) : Prop where
  counts : CountInv s
  writer : s.lock.Free → 0 < s.lock.writersWaiting →
    ∃ u, (s.place u).helps (s.lock.cond .wr) = true
  reader : s.lock.Free → s.lock.writersWaiting = 0 → ∀ u k, s.place u = .cond .rd (.read k) →
    0 < (s.lock.cond .rd).efd k ∨ (∃ v, s.place v = .ulTest) ∨
      ∃ v, ∃ i ≤ k, s.place v = .cond .rd (.broadcast i)

/-! ## One step -/

section Step

variable {s : State n} {t : Fin n} {l' : Lock n} {x' : Place} {m : Mode}

theorem place_of_pc {p : Pc} (h : s.pc m u = some p) : s.place u = .cond m p := by
  unfold State.pc Place.pc at h
  split at h
  · rename_i m' q hq
    split at h
    · rename_i e
      rw [hq, e, Option.some.inj h]
    · cases h
  · cases h

/-- A token is only taken by the thread that it was given to. -/
theorem CountInv.efd_pos (inv : CountInv s) (h : Moves t s.lock (s.place t) l' x') (hne : t ≠ u)
    {k : Nat} (hu : s.place u = .cond m (.read k)) (hpos : 0 < (s.lock.cond m).efd k) :
    0 < (l'.cond m).efd k := by
  generalize hp : s.place t = x at h
  cases h with
  | cond m' p o ho =>
    by_cases e : m' = m
    · subst e
      simp only [update_self]
      apply (inv.base.cond m').efd_pos (u := u) (t := t) (p := p) _ _ hne ho hpos
      · rw [State.pc, hu, pc_cond]
      · rw [State.pc, hp, pc_cond]
    · simp only [update_of_ne (Ne.symm e)]
      exact hpos
  | _ => exact hpos

/-- The threads that do not step help as before. -/
theorem CountInv.helps_other (inv : CountInv s) (h : Moves t s.lock (s.place t) l' x') (hne : t ≠ u)
    (hu : (s.place u).helps (s.lock.cond .wr) = true) : (s.place u).helps (l'.cond .wr) = true := by
  cases hx : s.place u with
  | cond m p =>
    rw [hx] at hu
    cases m with
    | rd => cases hu
    | wr =>
      cases p with
      | read k => exact decide_eq_true (inv.efd_pos h hne hx (of_decide_eq_true hu))
      | _ => exact hu
  | test m =>
    rw [hx] at hu
    cases m <;> exact hu
  | take m =>
    rw [hx] at hu
    cases m <;> exact hu
  | _ => rwa [hx] at hu

/-- The writer that a signal goes to needs no further one. -/
theorem CountInv.signal_reaches (inv : CountInv s) {i : Nat}
    (ht : s.place t = .cond .wr (.signal i)) {o : Outcome (Fin n)}
    (ho : Steps t (s.lock.cond .wr) s.lock.owner (.signal i) o) :
    o.next = .go (.signal (i + 1)) ∨ ∃ u, t ≠ u ∧ (s.place u).helps o.cond = true := by
  have hpt : s.pc .wr t = some (.signal i) := by rw [State.pc, ht, pc_cond]
  have hown := (inv.base.cond .wr).locks t _ hpt rfl
  have hfact := inv.fact t
  rw [ht] at hfact
  obtain ⟨-, hr, hw, hww⟩ := hfact
  -- another thread does not have the mutex
  have hout {u : Fin n} (hne : t ≠ u) : (s.place u).holds = false := by
    by_contra hu
    have := inv.base.mutex u (Bool.not_eq_false _ ▸ hu)
    rw [hown] at this
    exact hne (Option.some.inj this)
  cases ho with
  | signalNext _ hi hfree => exact Or.inl rfl
  | signalWrite _ hi hflag =>
    right
    obtain ⟨u, p, hu, hslot⟩ := ((inv.base.cond .wr).owned i).mp hflag
    have hne : t ≠ u := by
      rintro rfl
      rw [hpt] at hu
      obtain rfl := Option.some.inj hu
      cases hslot
    have hplace := place_of_pc hu
    have hno := hout hne
    refine ⟨u, hne, ?_⟩
    rw [hplace] at hno ⊢
    cases p with
    | read k =>
      obtain rfl := Option.some.inj hslot
      simp [Place.helps]
    | relock k => rfl
    | clear k => rfl
    | release k => cases hno
    | _ => cases hslot
  | signalEnd _ hi =>
    -- a writer that waits without the mutex owns a slot, but no flag is set
    exfalso
    have hpos : 0 < s.lock.waiting .wr := hww
    rw [inv.waiting .wr] at hpos
    obtain ⟨u, hu⟩ := count_pos.mp hpos
    have hne : t ≠ u := by
      rintro rfl
      rw [ht] at hu
      simp [Place.waits, Pc.inWait] at hu
    have hno := hout hne
    have hslot {p : Pc} (hp : s.place u = .cond .wr p) {k : Nat} : p.slot ≠ some k :=
      (inv.base.cond .wr).no_slot_of_signalEnd hpt hi (by rw [State.pc, hp, pc_cond]) k
    unfold Place.waits at hu
    split at hu
    · rename_i hp
      rw [hp] at hno
      cases hno
    · rename_i hp
      rw [hp] at hno
      cases hno
    · rename_i hp
      rw [hp] at hno
      cases hno
    · rename_i m p hp
      obtain ⟨rfl, hwait⟩ := of_decide_eq_true hu
      rw [hp] at hno
      cases p with
      | read k => exact hslot hp rfl
      | relock k => exact hslot hp rfl
      | signal j => cases hwait
      | broadcast j => cases hwait
      | _ => cases hno
    · cases hu

theorem CountInv.not_free (inv : CountInv s) (h : (s.place t).holding m = true) : ¬s.lock.Free := by
  intro hfree
  have hpos := inv.locked_pos h
  cases m with
  | rd => exact absurd hfree.1 (Nat.ne_of_gt hpos)
  | wr => exact absurd hfree.2 (Nat.ne_of_gt hpos)

/-- `readers++` and `writers++` leave the lock not free. -/
theorem CountInv.not_free_take {l : Lock n} (inv : CountInv (s.set t (l, .leave m))) : ¬l.Free := by
  apply inv.not_free (t := t) (m := m)
  simp [State.set, Place.holding]

/-- Where the lock is free after a step, it was so before, unless the step is the decrement in
    `unlock`; and no writer is new, unless the step is its increment. -/
theorem CountInv.free_before (inv : CountInv s) (inv' : CountInv (s.set t (l', x')))
    (h : Moves t s.lock (s.place t) l' x') (hfree : l'.Free) :
    x' = .ulTest ∨ (x' = .test .wr ∧ 0 < l'.writersWaiting) ∨
      (s.lock.Free ∧ l'.writersWaiting = s.lock.writersWaiting) := by
  have hself : (s.set t (l', x')).place t = x' := update_self ..
  generalize hp : s.place t = x at h
  cases h with
  | ulDec m b => exact Or.inl rfl
  | enter m =>
    right
    cases m with
    | rd => exact Or.inr ⟨hfree, Lock.writersWaiting_setWaiting_rd ..⟩
    | wr => exact Or.inl ⟨rfl, inv'.waiting_pos (t := t) (by rw [hself]; rfl)⟩
  | take m => exact absurd hfree inv'.not_free_take
  | leave m => exact absurd hfree (inv.not_free (t := t) (m := m) (by simp [hp, Place.holding]))
  | _ => exact Or.inr (Or.inr ⟨hfree, rfl⟩)

/-- A thread that helps goes on helping, or it has passed this on. -/
theorem CountInv.helps_self (inv : CountInv s) (inv' : CountInv (s.set t (l', x')))
    (h : Moves t s.lock (s.place t) l' x') (hfree : l'.Free) (hww : 0 < l'.writersWaiting)
    (hx : (s.place t).helps (s.lock.cond .wr) = true) :
    x'.helps (l'.cond .wr) = true ∨ ∃ u, t ≠ u ∧ (s.place u).helps (l'.cond .wr) = true := by
  generalize hp : s.place t = x at h hx
  cases h with
  | testBlocked m hb =>
    cases m with
    | rd => cases hx
    | wr =>
      rw [Lock.blocked_wr.mpr hfree] at hb
      cases hb
  | testFree m hb =>
    cases m with
    | rd => cases hx
    | wr => exact Or.inl rfl
  | take m => exact absurd hfree inv'.not_free_take
  | ulSignal hww hr => exact Or.inl rfl
  | ulBroadcast hno hrw hw => exact absurd ⟨hww, hfree.1⟩ hno
  | ulQuiet hno hnone => exact absurd ⟨hww, hfree.1⟩ hno
  | spurious m k =>
    cases m with
    | rd => cases hx
    | wr => exact Or.inl rfl
  | cond m p o ho =>
    cases m with
    | rd => cases hx
    | wr =>
      simp only [update_self]
      cases p with
      | signal i =>
        rcases inv.signal_reaches hp ho with hnext | hu
        · rw [hnext]
          exact Or.inl rfl
        · exact Or.inr hu
      | read k =>
        cases ho
        exact Or.inl rfl
      | relock k =>
        cases ho
        exact Or.inl rfl
      | clear k =>
        cases ho
        exact Or.inl rfl
      | _ => cases hx
  | _ => cases hx

theorem writer_of_moves (inv : WakeInv s) (inv' : CountInv (s.set t (l', x')))
    (h : Moves t s.lock (s.place t) l' x') (hfree : l'.Free) (hww : 0 < l'.writersWaiting) :
    ∃ u, (update s.place t x' u).helps (l'.cond .wr) = true := by
  have hself (hx : x'.helps (l'.cond .wr) = true) :
      ∃ u, (update s.place t x' u).helps (l'.cond .wr) = true :=
    ⟨t, by rwa [update_self]⟩
  have hother {u : Fin n} (hne : t ≠ u) (hu : (s.place u).helps (l'.cond .wr) = true) :
      ∃ u, (update s.place t x' u).helps (l'.cond .wr) = true :=
    ⟨u, by rwa [update_of_ne (Ne.symm hne)]⟩
  rcases inv.counts.free_before inv' h hfree with hx | ⟨hx, _⟩ | ⟨hf, hw⟩
  · exact hself (by rw [hx]; rfl)
  · exact hself (by rw [hx]; rfl)
  · obtain ⟨u, hu⟩ := inv.writer hf (hw ▸ hww)
    by_cases e : t = u
    · subst e
      rcases inv.counts.helps_self inv' h hfree hww hu with hx | ⟨v, hne, hv⟩
      · exact hself hx
      · exact hother hne hv
    · exact hother e (inv.counts.helps_other h e hu)

/-- A thread that comes to its read has found its loop condition true. -/
theorem CountInv.blocked_of_read (inv : CountInv s) (h : Moves t s.lock (s.place t) l' x') {k : Nat}
    (hx : x' = .cond m (.read k)) : l'.blocked m = true := by
  have hfact := inv.fact t
  generalize s.place t = x at h hfact
  cases h with
  | cond m' p o ho =>
    cases ho with
    | release k' =>
      obtain ⟨rfl, rfl⟩ : m' = m ∧ k' = k := by
        cases hx
        exact ⟨rfl, rfl⟩
      exact hfact
    | _ => cases hx
  | _ => cases hx

theorem reader_of_moves (inv : WakeInv s) (inv' : CountInv (s.set t (l', x')))
    (h : Moves t s.lock (s.place t) l' x') (hfree : l'.Free) (hww : l'.writersWaiting = 0)
    (u : Fin n) (k : Nat) (hu : update s.place t x' u = .cond .rd (.read k)) :
    0 < (l'.cond .rd).efd k ∨ (∃ v, update s.place t x' v = .ulTest) ∨
      ∃ v, ∃ i ≤ k, update s.place t x' v = .cond .rd (.broadcast i) := by
  rcases inv.counts.free_before inv' h hfree with hx | ⟨_, hpos⟩ | ⟨hf, hw⟩
  · exact Or.inr (Or.inl ⟨t, by rw [update_self, hx]⟩)
  · exact absurd hww (Nat.ne_of_gt hpos)
  · by_cases e : t = u
    · -- a reader that goes to sleep has found a writer
      subst e
      rw [update_self] at hu
      have hblocked : l'.blocked .rd = true := inv.counts.blocked_of_read h hu
      rw [Lock.blocked_rd.mpr ⟨hfree.2, hww⟩] at hblocked
      cases hblocked
    · rw [update_of_ne (Ne.symm e)] at hu
      rcases inv.reader hf (hw ▸ hww) u k hu with hpos | ⟨v, hv⟩ | ⟨v, i, hik, hv⟩
      · exact Or.inl (inv.counts.efd_pos h e hu hpos)
      · right
        by_cases ev : v = t
        · subst ev
          rw [hv] at h
          cases h with
          | ulSignal hpos hr => exact absurd hww (Nat.ne_of_gt hpos)
          | ulBroadcast hno hrw hw =>
            exact Or.inr ⟨v, 0, Nat.zero_le k, update_self ..⟩
          | ulQuiet hno hnone =>
            have hrw : 0 < s.lock.readersWaiting :=
              inv.counts.waiting_pos (t := u) (by simp [hu, Place.waits, Pc.inWait])
            exact absurd ⟨hrw, hfree.2⟩ hnone
        · exact Or.inl ⟨v, by rw [update_of_ne ev, hv]⟩
      · by_cases ev : v = t
        · subst ev
          rw [hv] at h
          cases h with
          | cond m p o ho =>
            have hpu : s.pc .rd u = some (.read k) := by rw [State.pc, hu, pc_cond]
            rcases (inv.counts.base.cond .rd).broadcast_reaches hpu hik ho with hpos | ⟨hx, hlt⟩
            · left
              simp only [update_self]
              exact hpos
            · exact Or.inr (Or.inr ⟨v, i + 1, hlt, by rw [update_self, hx]; rfl⟩)
        · exact Or.inr (Or.inr ⟨v, i, hik, by rw [update_of_ne ev, hv]⟩)

end Step

variable {s : State n}

theorem wakeInv_of_moves {t : Fin n} {r : Lock n × Place} (hn : n ≤ 100)
    (h : Moves t s.lock (s.place t) r.1 r.2) (inv : WakeInv s) : WakeInv (s.set t r) := by
  have inv' := countInv_of_moves hn h inv.counts
  exact ⟨inv', writer_of_moves inv inv' h, reader_of_moves inv inv' h⟩

theorem wakeInv_initState : WakeInv (initState n) := by
  refine ⟨countInv_initState, ?_, ?_⟩
  · intro _ h
    exact absurd h (Nat.lt_irrefl 0)
  · intro _ _ u k h
    cases h

/-! ## Whole runs -/

/-- In `mypthread_cond_wait`. -/
def Place.inWait : Place → Bool
  | .cond _ p => p.inWait
  | _ => false

/-- The thread can go on and take the lock: its read returns or has returned, and its loop
    condition is false. -/
structure CanAcquire (s : State n) (t : Fin n) (m : Mode) (p : Pc) : Prop where
  place : s.place t = .cond m p
  passes : ∃ k, (p = .read k ∧ 0 < (s.lock.cond m).efd k) ∨ p = .relock k
  loop : s.lock.blocked m = false

theorem CountInv.not_holds (inv : CountInv s) (hmutex : s.lock.owner = none) (t : Fin n) :
    (s.place t).holds = false := by
  by_contra h
  have := inv.base.mutex t (Bool.not_eq_false _ ▸ h)
  rw [hmutex] at this
  cases this

/-- A helping thread, when nobody has the mutex, is a writer that can go on. -/
theorem CountInv.canAcquire_of_helps (inv : CountInv s) (hfree : s.lock.Free)
    (hmutex : s.lock.owner = none) (hu : (s.place u).helps (s.lock.cond .wr) = true) :
    ∃ p, CanAcquire s u .wr p := by
  have hno := inv.not_holds hmutex u
  have hloop := Lock.blocked_wr.mpr hfree
  cases hx : s.place u with
  | cond m p =>
    rw [hx] at hu hno
    cases m with
    | rd => cases hu
    | wr =>
      cases p with
      | read k => exact ⟨_, hx, ⟨k, Or.inl ⟨rfl, of_decide_eq_true hu⟩⟩, hloop⟩
      | relock k => exact ⟨_, hx, ⟨k, Or.inr rfl⟩, hloop⟩
      | clear k => cases hno
      | signal i => cases hno
      | _ => cases hu
  | test m =>
    rw [hx] at hno
    cases hno
  | take m =>
    rw [hx] at hno
    cases hno
  | ulTest =>
    rw [hx] at hno
    cases hno
  | _ =>
    rw [hx] at hu
    cases hu

/-- **No stuck state.** At most 100 threads, any interleaving: when nobody holds the lock or the
    mutex and a thread is in `mypthread_cond_wait`, one of these threads can go on and take the
    lock. -/
theorem rwlock_not_stuck (n : Nat) (hn : n ≤ 100) (acts : List (Act n)) (s : State n)
    (tr : List Empty) (hr : (threads n).run (initState n) acts = some (s, tr))
    (hreaders : s.lock.readers = 0) (hwriters : s.lock.writers = 0) (hmutex : s.lock.owner = none)
    (hwait : ∃ t, (s.place t).inWait = true) : ∃ t m p, CanAcquire s t m p := by
  have inv : WakeInv s := by
    refine (threads n).run_inv (fun _ => True) WakeInv ?_ (fun _ _ => trivial) wakeInv_initState hr
    intro s a s' es _ inv hs
    obtain ⟨t, r, hm, rfl⟩ := exists_moves hs
    exact wakeInv_of_moves hn hm inv
  have hfree : s.lock.Free := ⟨hreaders, hwriters⟩
  rcases Nat.eq_zero_or_pos s.lock.writersWaiting with hww | hww
  · -- no writer waits: the thread in `wait` is a reader
    obtain ⟨t, ht⟩ := hwait
    have hno := inv.counts.not_holds hmutex
    have hnot := hno t
    have hloop := Lock.blocked_rd.mpr ⟨hwriters, hww⟩
    cases hx : s.place t with
    | cond m p =>
      rw [hx] at ht hnot
      obtain rfl : m = .rd := by
        cases m with
        | rd => rfl
        | wr =>
          have hpos : 0 < s.lock.writersWaiting :=
            inv.counts.waiting_pos (t := t) (by rw [hx]; exact decide_eq_true ⟨rfl, ht⟩)
          exact absurd hww (Nat.ne_of_gt hpos)
      cases p with
      | read k =>
        rcases inv.reader hfree hww t k hx with hpos | ⟨v, hv⟩ | ⟨v, i, _, hv⟩
        · exact ⟨t, .rd, _, hx, ⟨k, Or.inl ⟨rfl, hpos⟩⟩, hloop⟩
        · have := hno v
          rw [hv] at this
          cases this
        · have := hno v
          rw [hv] at this
          cases this
      | relock k => exact ⟨t, .rd, _, hx, ⟨k, Or.inr rfl⟩, hloop⟩
      | _ => cases hnot
    | _ =>
      rw [hx] at ht
      cases ht
  · obtain ⟨u, hu⟩ := inv.writer hfree hww
    obtain ⟨p, hp⟩ := inv.counts.canAcquire_of_helps hfree hmutex hu
    exact ⟨u, .wr, p, hp⟩

/-- The queue of `queueRun`; thread `a` has signalled and left. -/
def leftRun (a b c : Fin n) : List (Act n) := queueRun a b c ++ [.run a, .run a]

theorem rwlock_not_stuck_leftRun :
    ∃ s tr, (threads 3).run (initState 3) (leftRun 0 1 2) = some (s, tr) ∧
      (s.place 0 = .idle ∧ (s.place 1).inWait = true ∧ (s.place 2).inWait = true) ∧
      ∃ t m p, CanAcquire s t m p := by
  obtain ⟨s, tr, hr, hplaces, hreaders, hwriters, hmutex⟩ :=
    (threads 3).exists_of_check (initState 3) (leftRun 0 1 2)
    (fun s _ => (s.place 0 = .idle ∧ (s.place 1).inWait = true ∧ (s.place 2).inWait = true) ∧
      s.lock.readers = 0 ∧ s.lock.writers = 0 ∧ s.lock.owner = none) (by decide +kernel)
  exact ⟨s, tr, hr, hplaces, rwlock_not_stuck 3 (by decide) (leftRun 0 1 2) s tr hr hreaders
    hwriters hmutex ⟨1, hplaces.2.1⟩⟩

end DemosOsLinux.EventRwLock
