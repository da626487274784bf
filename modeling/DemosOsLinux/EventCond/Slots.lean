/-
  The slot protocol of the eventfd condition variable, for any program that uses it.

  `pc t` is the place of thread `t` in the functions of one condition variable, `none` while it
  is elsewhere. `CondInv` ties flags, places and mutex together: the flag of a slot is set
  exactly while a thread owns it, no two threads own the same slot, and a thread at a place that
  touches the flags holds the mutex. The lemmas say that a step of a thread in the functions
  keeps it, and so does what the rest of the program may do: take and give up the mutex, call
  one of the functions.
-/
import DemosOsLinux.Lib.Threads
import DemosOsLinux.EventCond.Cond

namespace DemosOsLinux.EventCond

open Lib Function

/-- The slot that a thread owns: it has set the flag and not cleared it. -/
def Pc.slot : Pc → Option Nat
  | .release k | .read k | .relock k | .clear k => some k
  | _ => none

/-- The places where the thread holds the mutex. -/
def Pc.holds : Pc → Bool
  | .read _ | .relock _ => false
  | _ => true

/-- The places in `mypthread_cond_wait`. -/
def Pc.inWait : Pc → Bool
  | .signal _ | .broadcast _ => false
  | _ => true

/-- What a loop has seen so far. -/
def Pc.Seen (c : Cond) : Pc → Prop
  | .search i => ∀ j < i, j < maxFd → c.waiting j = true
  | .claim k => k < maxFd ∧ c.waiting k = false
  | .signal i => ∀ j < i, c.waiting j = false
  | _ => True

/-- The place after a step. -/
def Next.pc : Next → Option Pc
  | .go p => some p
  | _ => none

variable {ι : Type} {o : Outcome ι} {p : Pc} {i k : Nat}

structure CondInv (c : Cond) (owner : Option ι) (pc : ι → Option Pc) : Prop where
  owned : ∀ i, c.waiting i = true ↔ ∃ t p, pc t = some p ∧ p.slot = some i
  inj : ∀ t u p q i, pc t = some p → pc u = some q → p.slot = some i → q.slot = some i → t = u
  bound : ∀ t p i, pc t = some p → p.slot = some i → i < maxFd
  locks : ∀ t p, pc t = some p → p.holds = true → owner = some t
  seen : ∀ t p, pc t = some p → p.Seen c

theorem condInv_init (owner : Option ι) : CondInv Cond.init owner (fun _ => none) := by
  refine ⟨?_, ?_, ?_, ?_, ?_⟩
  · intro i
    simp [Cond.init]
  · intro t u p q i h
    cases h
  · intro t p i h
    cases h
  · intro t p h
    cases h
  · intro t p h
    cases h

section Frame

variable {c : Cond} {owner : Option ι} {pc : ι → Option Pc} {t u : ι}

/-- The counters are not part of the protocol. -/
theorem CondInv.counter (inv : CondInv c owner pc) (i v : Nat) :
    CondInv { c with efd := update c.efd i v } owner pc := by
  refine ⟨inv.owned, inv.inj, inv.bound, inv.locks, ?_⟩
  intro u p h
  have hseen := inv.seen u p h
  cases p <;> exact hseen

/-- The mutex is taken while it is free. -/
theorem CondInv.lock (inv : CondInv c none pc) (t : ι) : CondInv c (some t) pc := by
  refine ⟨inv.owned, inv.inj, inv.bound, ?_, inv.seen⟩
  intro u p h hp
  have := inv.locks u p h hp
  cases this

/-- The mutex is given up by a thread at a place that does not need it. -/
theorem CondInv.unlock (inv : CondInv c (some t) pc)
    (ht : ∀ p, pc t = some p → p.holds = false) : CondInv c none pc := by
  refine ⟨inv.owned, inv.inj, inv.bound, ?_, inv.seen⟩
  intro u p h hp
  obtain rfl := Option.some.inj (inv.locks u p h hp)
  rw [ht p h] at hp
  cases hp

/-- What a step of thread `t` can do to the mutex. -/
inductive OwnerStep (t : ι) : Option ι → Option ι → Prop
  | same (o : Option ι) : OwnerStep t o o
  | get : OwnerStep t none (some t)
  | give : OwnerStep t (some t) none

theorem OwnerStep.other {o o' : Option ι} (h : OwnerStep t o o') (hne : u ≠ t) (hu : o = some u) :
    o' = some u := by
  cases h with
  | same => exact hu
  | get => cases hu
  | give => exact absurd (Option.some.inj hu).symm hne

theorem CondInv.ownerStep (inv : CondInv c owner pc) {o : Option ι} (h : OwnerStep t owner o)
    (ht : ∀ p, pc t = some p → p.holds = false) : CondInv c o pc := by
  cases h with
  | same => exact inv
  | get => exact inv.lock t
  | give => exact inv.unlock ht

theorem Steps.ownerStep (h : Steps t c owner p o) (hp : p.holds = true → owner = some t) :
    OwnerStep t owner o.owner := by
  cases h with
  | release k =>
    obtain rfl := hp rfl
    exact .give
  | relock k hfree =>
    subst hfree
    exact .get
  | _ => exact .same _

/-- The mutex after a step: a thread that comes to a place that holds it, or that returns, has
    it. -/
theorem Steps.owner_self (h : Steps t c owner p o) (hp : p.holds = true → owner = some t)
    (hn : o.next = .ret ∨ ∃ q, o.next = .go q ∧ q.holds = true) : o.owner = some t := by
  cases h with
  | searchFail i hi =>
    rcases hn with hn | ⟨q, hn, _⟩
    · cases hn
    · cases hn
  | release k =>
    rcases hn with hn | ⟨q, hn, hq⟩
    · cases hn
    · cases hn
      cases hq
  | read k hk =>
    rcases hn with hn | ⟨q, hn, hq⟩
    · cases hn
    · cases hn
      cases hq
  | relock k hfree => rfl
  | _ => exact hp rfl

/-- A step stays in its function. -/
theorem Steps.inWait {q : Pc} (h : Steps t c owner p o) (hn : o.next = .go q) :
    q.inWait = p.inWait := by
  cases h <;> cases hn <;> rfl

/-- The owner of the mutex is the only thread at a place that holds it. -/
theorem CondInv.eq_of_holds (inv : CondInv c (some t) pc) (h : pc u = some p)
    (hp : p.holds = true) : u = t :=
  (Option.some.inj (inv.locks u p h hp)).symm

/-- While `t` holds the mutex and changes a flag, no other thread relies on what it saw. -/
theorem CondInv.seen_setWaiting (inv : CondInv c (some t) pc) {b : Bool} (h : pc u = some p)
    (hne : u ≠ t) : p.Seen (c.setWaiting k b) := by
  have hno : p.holds = false := by
    by_contra hp
    exact hne (inv.eq_of_holds h (Bool.not_eq_false _ ▸ hp))
  cases p with
  | read k => trivial
  | relock k => trivial
  | _ => cases hno

/-- Nobody else reads the counter of a slot that is owned. -/
theorem CondInv.efd_pos (inv : CondInv c owner pc) (hu : pc u = some (.read k)) (ht : pc t = some p)
    (hne : t ≠ u) (ho : Steps t c owner p o) (hpos : 0 < c.efd k) : 0 < o.cond.efd k := by
  have hother {i v : Nat} (hv : i = k → 0 < v) : 0 < update c.efd i v k := by
    by_cases e : k = i
    · rw [e, update_self]
      exact hv e.symm
    · rw [update_of_ne e]
      exact hpos
  cases ho with
  | read i hi =>
    apply hother
    rintro rfl
    exact absurd (inv.inj t u _ _ i ht hu rfl rfl) hne
  | signalWrite i hi hw => exact hother fun _ => Nat.succ_pos _
  | broadcastWrite i hi hw => exact hother fun _ => Nat.succ_pos _
  | _ => exact hpos

/-- A broadcast that has not passed the slot of a blocked thread gives it a wake-up or goes on
    towards it. -/
theorem CondInv.broadcast_reaches (inv : CondInv c owner pc) (hu : pc u = some (.read k))
    (hik : i ≤ k) (ho : Steps t c owner (.broadcast i) o) :
    0 < o.cond.efd k ∨ o.next = .go (.broadcast (i + 1)) ∧ i + 1 ≤ k := by
  have hk : k < maxFd := inv.bound u _ k hu rfl
  have hwk : c.waiting k = true := (inv.owned k).mpr ⟨u, _, hu, rfl⟩
  cases ho with
  | broadcastNext _ hi hw =>
    have hne : i ≠ k := by
      rintro rfl
      rw [hwk] at hw
      cases hw
    exact Or.inr ⟨rfl, Nat.lt_of_le_of_ne hik hne⟩
  | broadcastWrite _ hi hw =>
    by_cases hne : i = k
    · subst hne
      left
      simp only [update_self]
      exact Nat.succ_pos _
    · exact Or.inr ⟨rfl, Nat.lt_of_le_of_ne hik hne⟩
  | broadcastEnd _ hi => exact absurd (Nat.lt_of_le_of_lt hik hk) (Nat.not_lt.mpr hi)

/-- A signal that comes to the end of the table: nobody owns a slot. -/
theorem CondInv.no_slot_of_signalEnd (inv : CondInv c owner pc) (ht : pc t = some (.signal i))
    (hi : maxFd ≤ i) (hu : pc u = some p) (k : Nat) : p.slot ≠ some k := by
  intro hp
  have hk := inv.bound u p k hu hp
  have hclear : c.waiting k = false := inv.seen t _ ht k (Nat.lt_of_lt_of_le hk hi)
  rw [(inv.owned k).mpr ⟨u, p, hu, hp⟩] at hclear
  cases hclear

end Frame

section Moves

variable [DecidableEq ι] {c : Cond} {owner : Option ι} {pc : ι → Option Pc} {t : ι}

/-- Who owns a slot that `t` does not own is not concerned by a move of `t`. -/
theorem owner_update {p₀ : Pc} (ht : pc t = some p₀) (hne : p₀.slot ≠ some i) (x : Option Pc)
    (h : ∃ u p, pc u = some p ∧ p.slot = some i) :
    ∃ u p, update pc t x u = some p ∧ p.slot = some i := by
  obtain ⟨u, p, hu, hp⟩ := h
  have hut : u ≠ t := by
    rintro rfl
    rw [ht] at hu
    obtain rfl := Option.some.inj hu
    exact hne hp
  exact ⟨u, p, by rw [update_of_ne hut, hu], hp⟩

/-- Thread `t` moves to a place with the same slot. -/
theorem CondInv.move (inv : CondInv c owner pc) {x : Option Pc}
    (hslot : x.bind Pc.slot = (pc t).bind Pc.slot)
    (hlock : ∀ p, x = some p → p.holds = true → owner = some t)
    (hseen : ∀ p, x = some p → p.Seen c) : CondInv c owner (update pc t x) := by
  have hback {u : ι} {p : Pc} {i : Nat} (h : update pc t x u = some p)
      (hp : p.slot = some i) : ∃ q, pc u = some q ∧ q.slot = some i := by
    by_cases e : u = t
    · subst e
      rw [update_self] at h
      rw [h, Option.bind_some, hp] at hslot
      exact Option.bind_eq_some_iff.mp hslot.symm
    · rw [update_of_ne e] at h
      exact ⟨p, h, hp⟩
  refine ⟨?_, ?_, ?_, ?_, ?_⟩
  · intro i
    rw [inv.owned i]
    constructor
    · rintro ⟨u, q, h, hq⟩
      by_cases e : u = t
      · subst e
        rw [h, Option.bind_some, hq] at hslot
        obtain ⟨p, hp, hpi⟩ := Option.bind_eq_some_iff.mp hslot
        exact ⟨u, p, by rw [update_self, hp], hpi⟩
      · exact ⟨u, q, by rw [update_of_ne e, h], hq⟩
    · rintro ⟨u, p, h, hp⟩
      obtain ⟨q, hq, hqi⟩ := hback h hp
      exact ⟨u, q, hq, hqi⟩
  · intro u v p q i hu hv hp hq
    obtain ⟨p', hp', hpi⟩ := hback hu hp
    obtain ⟨q', hq', hqi⟩ := hback hv hq
    exact inv.inj u v p' q' i hp' hq' hpi hqi
  · intro u p i hu hp
    obtain ⟨p', hp', hpi⟩ := hback hu hp
    exact inv.bound u p' i hp' hpi
  · exact (forall_update_iff pc fun u y =>
      ∀ p, y = some p → p.holds = true → owner = some u).mpr ⟨hlock, fun u _ => inv.locks u⟩
  · exact (forall_update_iff pc fun _ y => ∀ p, y = some p → p.Seen c).mpr
      ⟨hseen, fun u _ => inv.seen u⟩

/-- A thread that holds the mutex calls one of the functions. -/
theorem CondInv.enter (inv : CondInv c (some t) pc) (ht : pc t = none) (hslot : p.slot = none)
    (hseen : p.Seen c) : CondInv c (some t) (update pc t (some p)) := by
  apply inv.move
  · rw [ht, Option.bind_some, hslot]
    rfl
  · intro _ _ _
    rfl
  · rintro _ h
    obtain rfl := Option.some.inj h
    exact hseen

theorem CondInv.claim (inv : CondInv c owner pc) (ht : pc t = some (.claim k)) :
    CondInv (c.setWaiting k true) owner (update pc t (some (.release k))) := by
  obtain rfl := inv.locks t _ ht rfl
  obtain ⟨hk, hfree⟩ : k < maxFd ∧ c.waiting k = false := inv.seen t _ ht
  have hnone {u : ι} {p : Pc} (h : pc u = some p) : p.slot ≠ some k := by
    intro hp
    rw [(inv.owned k).mpr ⟨u, p, h, hp⟩] at hfree
    cases hfree
  -- an owner in the new state is `t` with `k`, or an old one with another slot
  have hcases {u : ι} {p : Pc} {i : Nat}
      (h : update pc t (some (.release k)) u = some p) (hp : p.slot = some i) :
      (u = t ∧ i = k) ∨ (u ≠ t ∧ i ≠ k ∧ pc u = some p) := by
    by_cases e : u = t
    · rw [e, update_self] at h
      obtain rfl := Option.some.inj h
      exact Or.inl ⟨e, (Option.some.inj hp).symm⟩
    · rw [update_of_ne e] at h
      refine Or.inr ⟨e, ?_, h⟩
      rintro rfl
      exact hnone h hp
  refine ⟨?_, ?_, ?_, ?_, ?_⟩
  · intro i
    by_cases e : i = k
    · simp only [Cond.setWaiting, e, update_self, true_iff]
      exact ⟨t, .release k, update_self .., rfl⟩
    · simp only [Cond.setWaiting, update_of_ne e]
      rw [inv.owned i]
      refine ⟨owner_update ht (Option.some_ne_none i).symm _, ?_⟩
      rintro ⟨u, p, h, hp⟩
      rcases hcases h hp with ⟨_, hik⟩ | ⟨_, _, h⟩
      · exact absurd hik e
      · exact ⟨u, p, h, hp⟩
  · intro u v p q i hu hv hp hq
    rcases hcases hu hp with ⟨hut, hik⟩ | ⟨_, hik, hu⟩
    · rcases hcases hv hq with ⟨hvt, _⟩ | ⟨_, hne, _⟩
      · rw [hut, hvt]
      · exact absurd hik hne
    · rcases hcases hv hq with ⟨_, hne⟩ | ⟨_, _, hv⟩
      · exact absurd hne hik
      · exact inv.inj u v p q i hu hv hp hq
  · intro u p i hu hp
    rcases hcases hu hp with ⟨_, rfl⟩ | ⟨_, _, hu⟩
    · exact hk
    · exact inv.bound u p i hu hp
  · exact (forall_update_iff pc fun u y =>
      ∀ p, y = some p → p.holds = true → some t = some u).mpr
      ⟨fun _ _ _ => rfl, fun u _ => inv.locks u⟩
  · refine (forall_update_iff pc fun _ y =>
      ∀ p, y = some p → p.Seen (c.setWaiting k true)).mpr
      ⟨?_, fun u e p hu => inv.seen_setWaiting hu e⟩
    rintro _ ⟨rfl⟩
    trivial

theorem CondInv.clear (inv : CondInv c owner pc) (ht : pc t = some (.clear k)) :
    CondInv (c.setWaiting k false) owner (update pc t none) := by
  obtain rfl := inv.locks t _ ht rfl
  have hcases {u : ι} {p : Pc} (h : update pc t none u = some p) :
      u ≠ t ∧ pc u = some p := by
    by_cases e : u = t
    · rw [e, update_self] at h
      cases h
    · rw [update_of_ne e] at h
      exact ⟨e, h⟩
  have hother {u : ι} {p : Pc} {i : Nat} (hne : u ≠ t) (h : pc u = some p)
      (hp : p.slot = some i) : i ≠ k := by
    rintro rfl
    exact hne (inv.inj u t p _ i h ht hp rfl)
  refine ⟨?_, ?_, ?_, ?_, ?_⟩
  · intro i
    by_cases e : i = k
    · simp only [Cond.setWaiting, e, update_self, Bool.false_eq_true, false_iff]
      rintro ⟨u, p, h, hp⟩
      obtain ⟨hne, h⟩ := hcases h
      exact hother hne h hp rfl
    · simp only [Cond.setWaiting, update_of_ne e]
      rw [inv.owned i]
      refine ⟨owner_update ht (fun hp => e (Option.some.inj hp).symm) _, ?_⟩
      rintro ⟨u, p, h, hp⟩
      exact ⟨u, p, (hcases h).2, hp⟩
  · intro u v p q i hu hv hp hq
    exact inv.inj u v p q i (hcases hu).2 (hcases hv).2 hp hq
  · intro u p i hu hp
    exact inv.bound u p i (hcases hu).2 hp
  · intro u p hu hp
    exact inv.locks u p (hcases hu).2 hp
  · intro u p hu
    exact inv.seen_setWaiting (hcases hu).2 (hcases hu).1

/-- Every step in the functions keeps the protocol. -/
theorem CondInv.step (inv : CondInv c owner pc) (ht : pc t = some p) (h : Steps t c owner p o) :
    CondInv o.cond o.owner (update pc t o.next.pc) := by
  have hlock (hp : p.holds = true) : owner = some t := inv.locks t p ht hp
  have hseen : p.Seen c := inv.seen t p ht
  cases h with
  | searchNext i hi hw =>
    refine inv.move (by rw [ht]; rfl) (fun _ _ _ => hlock rfl) ?_
    rintro _ ⟨rfl⟩ j hj hjm
    rcases Nat.lt_succ_iff_lt_or_eq.mp hj with hj | rfl
    · exact hseen j hj hjm
    · exact hw
  | searchFound i hi hw =>
    refine inv.move (by rw [ht]; rfl) (fun _ _ _ => hlock rfl) ?_
    rintro _ ⟨rfl⟩
    exact ⟨hi, hw⟩
  | searchFail i hi =>
    refine inv.move (by rw [ht]; rfl) ?_ ?_
    · rintro _ ⟨⟩
    · rintro _ ⟨⟩
  | claim k => exact inv.claim ht
  | release k =>
    obtain rfl := hlock rfl
    have hmove : CondInv c (some t) (update pc t (some (.read k))) := by
      refine inv.move (by rw [ht]; rfl) (fun _ _ _ => rfl) ?_
      rintro _ ⟨rfl⟩
      trivial
    refine hmove.unlock (t := t) ?_
    rw [update_self]
    rintro _ ⟨rfl⟩
    rfl
  | read k hk =>
    refine (inv.counter k 0).move (by rw [ht]; rfl) ?_ ?_
    · rintro _ ⟨rfl⟩ hp
      cases hp
    · rintro _ ⟨rfl⟩
      trivial
  | relock k hfree =>
    subst hfree
    refine (inv.lock t).move (by rw [ht]; rfl) (fun _ _ _ => rfl) ?_
    rintro _ ⟨rfl⟩
    trivial
  | clear k => exact inv.clear ht
  | signalNext i hi hw =>
    refine inv.move (by rw [ht]; rfl) (fun _ _ _ => hlock rfl) ?_
    rintro _ ⟨rfl⟩ j hj
    rcases Nat.lt_succ_iff_lt_or_eq.mp hj with hj | rfl
    · exact hseen j hj
    · exact hw
  | signalWrite i hi hw =>
    refine (inv.counter i (c.efd i + 1)).move (by rw [ht]; rfl) ?_ ?_
    · rintro _ ⟨⟩
    · rintro _ ⟨⟩
  | signalEnd i hi =>
    refine inv.move (by rw [ht]; rfl) ?_ ?_
    · rintro _ ⟨⟩
    · rintro _ ⟨⟩
  | broadcastNext i hi hw =>
    refine inv.move (by rw [ht]; rfl) (fun _ _ _ => hlock rfl) ?_
    rintro _ ⟨rfl⟩
    trivial
  | broadcastWrite i hi hw =>
    refine (inv.counter i (c.efd i + 1)).move (by rw [ht]; rfl) (fun _ _ _ => hlock rfl) ?_
    rintro _ ⟨rfl⟩
    trivial
  | broadcastEnd i hi =>
    refine inv.move (by rw [ht]; rfl) ?_ ?_
    · rintro _ ⟨⟩
    · rintro _ ⟨⟩

/-- With at most `maxFd` threads in `wait` the search for a slot finds one: a thread that
    searches owns none. -/
theorem CondInv.search_lt [Fintype ι] (inv : CondInv c owner pc) (ht : pc t = some (.search i))
    (hcount : count pc (Option.any Pc.inWait) ≤ maxFd) : i < maxFd := by
  by_contra hi
  have hall : ∀ j < maxFd, c.waiting j = true := fun j hj =>
    inv.seen t _ ht j (Nat.lt_of_lt_of_le hj (Nat.not_lt.mp hi)) hj
  have hle : maxFd ≤ count (update pc t none) (Option.any Pc.inWait) := by
    refine le_count_of_owners (fun u => (pc u).bind Pc.slot) maxFd ?_
    intro j hj
    obtain ⟨u, p, hu, hp⟩ := (inv.owned j).mp (hall j hj)
    have hne : u ≠ t := by
      rintro rfl
      rw [ht] at hu
      obtain rfl := Option.some.inj hu
      cases hp
    refine ⟨u, by rw [hu, Option.bind_some, hp], ?_⟩
    rw [update_of_ne hne, hu]
    cases p with
    | signal i => cases hp
    | broadcast i => cases hp
    | _ => rfl
  have hupd := count_update pc t none (Option.any Pc.inWait)
  rw [ht] at hupd
  simp only [Option.any_some, Pc.inWait, Bool.toNat_true, Option.any_none, Bool.toNat_false] at hupd
  omega

end Moves

end DemosOsLinux.EventCond
