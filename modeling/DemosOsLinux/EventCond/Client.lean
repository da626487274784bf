/-
  Threads that use one eventfd condition variable with its mutex, in any order.

  `n` threads take and give up the mutex and call `wait`, `signal` and `broadcast` while they
  hold it; a run is any interleaving of their steps.
  * `slot_protocol`: with at most `maxFd` threads in `wait`, a slot's flag is set exactly while
    one thread owns it, the search always finds a slot, a thread owns its slot from before it
    gives up the mutex until it has it back, and what a broadcast has given to a blocked thread
    nobody but that thread can take.
-/
import DemosOsLinux.Lib.Machine
import DemosOsLinux.EventCond.Slots

namespace DemosOsLinux.EventCond

open Lib Function

inductive Place where
  /-- Without the mutex. -/
  | out
  /-- With the mutex, in the code of the caller. -/
  | inside
  | call (p : Pc)
  /-- The assertion in `wait` failed. -/
  | aborted
  deriving DecidableEq

structure State (n : Nat) where
  cond : Cond
  owner : Option (Fin n)
  place : Fin n → Place

inductive Act (n : Nat) where
  | lock (t : Fin n)
  | unlock (t : Fin n)
  | wait (t : Fin n)
  | signal (t : Fin n)
  | broadcast (t : Fin n)
  /-- The next step in the function that `t` is in. -/
  | run (t : Fin n)

def Act.thread {n : Nat} : Act n → Fin n
  | .lock t | .unlock t | .wait t | .signal t | .broadcast t | .run t => t

inductive Event (n : Nat) where
  /-- A function returned. -/
  | waited (t : Fin n)
  | signalled (t : Fin n)
  | broadcasted (t : Fin n)
  deriving DecidableEq

variable {n : Nat} {es : List (Event n)} {s s' : State n} {t : Fin n} {p : Pc} {a : Act n}

def retEvent (t : Fin n) : Pc → Event n
  | .signal _ => .signalled t
  | .broadcast _ => .broadcasted t
  | _ => .waited t

def Next.place : Next → Place
  | .go p => .call p
  | .ret => .inside
  | .abort => .aborted

/-- The events of a step from `p`. -/
def Next.events (t : Fin n) (p : Pc) : Next → List (Event n)
  | .ret => [retEvent t p]
  | _ => []

def State.move (s : State n) (t : Fin n) (x : Place) : State n :=
  { s with place := update s.place t x }

/-- The state after a step of `t` in one of the functions. -/
def State.after (s : State n) (t : Fin n) (o : Outcome (Fin n)) : State n :=
  ⟨o.cond, o.owner, update s.place t o.next.place⟩

def State.enter (s : State n) (t : Fin n) (p : Pc) : Option (State n × List (Event n)) :=
  if s.place t = .inside then some (s.move t (.call p), []) else none

def step (s : State n) : Act n → Option (State n × List (Event n))
  | .lock t =>
      if s.place t = .out ∧ s.owner = none then
        some ({ s.move t .inside with owner := some t }, [])
      else none
  | .unlock t =>
      if s.place t = .inside then some ({ s.move t .out with owner := none }, []) else none
  | .wait t => s.enter t (.search 0)
  | .signal t => s.enter t (.signal 0)
  | .broadcast t => s.enter t (.broadcast 0)
  | .run t =>
      match s.place t with
      | .call p =>
          (p.step t s.cond s.owner).map fun o => (s.after t o, o.next.events t p)
      | _ => none

def threads (n : Nat) : Machine (State n) (Act n) (Event n) := ⟨step⟩

def initState (n : Nat) : State n := ⟨Cond.init, none, fun _ => .out⟩

/-! ## What one step can do -/

inductive Trans (s : State n) : Act n → List (Event n) → State n → Prop
  | lock (t : Fin n) (hp : s.place t = .out) (hfree : s.owner = none) :
      Trans s (.lock t) [] { s.move t .inside with owner := some t }
  | unlock (t : Fin n) (hp : s.place t = .inside) :
      Trans s (.unlock t) [] { s.move t .out with owner := none }
  | wait (t : Fin n) (hp : s.place t = .inside) :
      Trans s (.wait t) [] (s.move t (.call (.search 0)))
  | signal (t : Fin n) (hp : s.place t = .inside) :
      Trans s (.signal t) [] (s.move t (.call (.signal 0)))
  | broadcast (t : Fin n) (hp : s.place t = .inside) :
      Trans s (.broadcast t) [] (s.move t (.call (.broadcast 0)))
  | run (t : Fin n) (p : Pc) (o : Outcome (Fin n)) (hp : s.place t = .call p)
      (ho : Steps t s.cond s.owner p o) :
      Trans s (.run t) (o.next.events t p) (s.after t o)

theorem enter_eq_some (h : s.enter t p = some (s', es)) :
    s.place t = .inside ∧ s' = s.move t (.call p) ∧ es = [] := by
  unfold State.enter at h
  obtain ⟨hp, rfl, rfl⟩ := guard_result_inj h
  exact ⟨hp, rfl, rfl⟩

theorem trans_of_step (h : (threads n).step s a = some (s', es)) : Trans s a es s' := by
  cases a with
  | lock t =>
    simp only [threads, step] at h
    obtain ⟨hg, rfl, rfl⟩ := guard_result_inj h
    exact .lock t hg.1 hg.2
  | unlock t =>
    simp only [threads, step] at h
    obtain ⟨hp, rfl, rfl⟩ := guard_result_inj h
    exact .unlock t hp
  | wait t =>
    obtain ⟨hp, rfl, rfl⟩ := enter_eq_some h
    exact .wait t hp
  | signal t =>
    obtain ⟨hp, rfl, rfl⟩ := enter_eq_some h
    exact .signal t hp
  | broadcast t =>
    obtain ⟨hp, rfl, rfl⟩ := enter_eq_some h
    exact .broadcast t hp
  | run t =>
    simp only [threads, step] at h
    split at h
    · rename_i p hp
      obtain ⟨o, ho, he⟩ := Option.map_eq_some_iff.mp h
      obtain ⟨rfl, rfl⟩ := Prod.mk.inj he
      exact .run t p o hp (steps_of_step ho)
    · cases h

/-- A step moves its own thread only. -/
theorem trans_place (h : Trans s a es s') {u : Fin n} (hu : u ≠ a.thread) :
    s'.place u = s.place u := by
  cases h <;> exact update_of_ne hu _ _

/-! ## The invariant -/

/-- The place in the functions of the condition variable. -/
def Place.pc : Place → Option Pc
  | .call p => some p
  | _ => none

def Place.inWait (x : Place) : Bool := x.pc.any Pc.inWait

def State.pc (s : State n) (t : Fin n) : Option Pc := (s.place t).pc

structure ClientInv (s : State n) : Prop where
  cond : CondInv s.cond s.owner s.pc
  inside : ∀ t, s.place t = .inside → s.owner = some t

theorem pc_of_place (h : s.place t = .call p) : s.pc t = some p := by
  rw [State.pc, h]
  rfl

theorem place_of_pc (h : s.pc t = some p) : s.place t = .call p := by
  unfold State.pc Place.pc at h
  split at h
  · rename_i q hq
    rw [hq, Option.some.inj h]
  · cases h

theorem pc_update (f : Fin n → Place) (t : Fin n) (x : Place) :
    (fun u => (update f t x u).pc) = update (fun u => (f u).pc) t x.pc :=
  funext fun u => apply_update (fun _ => Place.pc) f t x u

theorem Next.place_pc (x : Next) : x.place.pc = x.pc := by
  cases x <;> rfl

theorem pc_move (s : State n) (t : Fin n) (x : Place) : (s.move t x).pc = update s.pc t x.pc :=
  pc_update s.place t x

theorem pc_after (s : State n) (t : Fin n) (o : Outcome (Fin n)) :
    (s.after t o).pc = update s.pc t o.next.pc := by
  rw [← Next.place_pc]
  exact pc_update s.place t _

/-- A call of one of the functions. -/
theorem ClientInv.call (inv : ClientInv s) (hp : s.place t = .inside) (hslot : p.slot = none)
    (hseen : p.Seen s.cond) : ClientInv (s.move t (.call p)) := by
  have hown := inv.inside t hp
  have hcond := inv.cond
  rw [hown] at hcond
  refine ⟨?_, ?_⟩
  · show CondInv s.cond s.owner (s.move t (.call p)).pc
    rw [pc_move, hown]
    exact hcond.enter (by rw [State.pc, hp]; rfl) hslot hseen
  · intro u hu
    by_cases e : u = t
    · rw [e]
      exact hown
    · exact inv.inside u ((update_of_ne e _ _).symm.trans hu)

theorem trans_client (h : Trans s a es s') (inv : ClientInv s) : ClientInv s' := by
  have hout {t : Fin n} {x : Place} (hx : x.pc = none) (hp : (s.place t).pc = none) :
      (s.move t x).pc = s.pc := by
    rw [pc_move, hx, ← hp]
    exact update_eq_self t s.pc
  cases h with
  | lock t hp hfree =>
    have hpc : (s.move t .inside).pc = s.pc := hout rfl (by rw [hp]; rfl)
    have hcond := inv.cond
    rw [hfree] at hcond
    refine ⟨?_, ?_⟩
    · show CondInv s.cond (some t) (s.move t .inside).pc
      rw [hpc]
      exact hcond.lock t
    · intro u hu
      by_cases e : u = t
      · rw [e]
      · have hin := inv.inside u ((update_of_ne e _ _).symm.trans hu)
        rw [hfree] at hin
        cases hin
  | unlock t hp =>
    have hown := inv.inside t hp
    have hpt : s.pc t = none := by rw [State.pc, hp]; rfl
    have hpc : (s.move t .out).pc = s.pc := hout rfl (by rw [hp]; rfl)
    have hcond := inv.cond
    rw [hown] at hcond
    refine ⟨?_, ?_⟩
    · show CondInv s.cond none (s.move t .out).pc
      rw [hpc]
      refine hcond.unlock (t := t) ?_
      intro p h
      rw [hpt] at h
      cases h
    · intro u hu
      by_cases e : u = t
      · rw [e] at hu
        simp only [State.move, update_self] at hu
        cases hu
      · have hin := inv.inside u ((update_of_ne e _ _).symm.trans hu)
        rw [hown] at hin
        exact absurd (Option.some.inj hin).symm e
  | wait t hp => exact inv.call hp rfl (by intro j hj; cases hj)
  | signal t hp => exact inv.call hp rfl (by intro j hj; cases hj)
  | broadcast t hp => exact inv.call hp rfl trivial
  | run t p o hp ho =>
    have hpt := pc_of_place hp
    refine ⟨?_, ?_⟩
    · show CondInv o.cond o.owner (s.after t o).pc
      rw [pc_after]
      exact inv.cond.step hpt ho
    · intro u hu
      by_cases e : u = t
      · subst e
        simp only [State.after, update_self] at hu
        have hret : o.next = .ret := by
          cases hn : o.next with
          | ret => rfl
          | go q =>
            rw [hn] at hu
            cases hu
          | abort =>
            rw [hn] at hu
            cases hu
        exact ho.owner_self (inv.cond.locks u p hpt) (Or.inl hret)
      · have hin := inv.inside u ((update_of_ne e _ _).symm.trans hu)
        exact (ho.ownerStep (inv.cond.locks t p hpt)).other e hin

theorem clientInv_initState : ClientInv (initState n) := by
  refine ⟨condInv_init none, ?_⟩
  intro t h
  cases h

/-! ## The search finds a slot -/

/-- The number of threads in `wait`. -/
def State.inWait (s : State n) : Nat := count s.place Place.inWait

/-- If this step calls `wait`, fewer than `maxFd` threads are in it. -/
def fits (s : State n) : Act n → Bool
  | .wait _ => decide (s.inWait < maxFd)
  | _ => true

theorem trans_inWait (h : Trans s a es s') (hfit : fits s a = true) (hle : s.inWait ≤ maxFd) :
    s'.inWait ≤ maxFd := by
  have hle' {t : Fin n} {x : Place} (hx : x.inWait = true → (s.place t).inWait = true) :
      count (update s.place t x) Place.inWait ≤ maxFd := by
    have hupd := count_update s.place t x Place.inWait
    have hmono : x.inWait.toNat ≤ (s.place t).inWait.toNat := by
      cases hn : x.inWait with
      | false => exact Nat.zero_le _
      | true => rw [hx hn]
    unfold State.inWait at hle
    omega
  cases h with
  | wait t hp =>
    have hupd := count_update s.place t (.call (.search 0)) Place.inWait
    rw [hp] at hupd
    exact Nat.le_trans (Nat.le_of_eq hupd) (of_decide_eq_true hfit)
  | run t p o hp ho =>
    refine hle' (t := t) fun hn => ?_
    rw [hp]
    cases hx : o.next with
    | go q =>
      rw [hx] at hn
      exact (ho.inWait hx).symm.trans hn
    | ret =>
      rw [hx] at hn
      cases hn
    | abort =>
      rw [hx] at hn
      cases hn
  | lock t hp hfree => exact hle' (t := t) (by rintro ⟨⟩)
  | unlock t hp => exact hle' (t := t) (by rintro ⟨⟩)
  | signal t hp => exact hle' (t := t) (by rintro ⟨⟩)
  | broadcast t hp => exact hle' (t := t) (by rintro ⟨⟩)

/-- With at most `maxFd` threads in `wait` the assertion holds. -/
theorem trans_noAbort (h : Trans s a es s') (inv : ClientInv s) (hle : s.inWait ≤ maxFd)
    (hno : ∀ t, s.place t ≠ .aborted) : ∀ t, s'.place t ≠ .aborted := by
  have hmove {t : Fin n} {x : Place} (hx : x ≠ .aborted) (u : Fin n) :
      update s.place t x u ≠ .aborted := by
    by_cases e : u = t
    · rw [e, update_self]
      exact hx
    · rw [update_of_ne e]
      exact hno u
  cases h with
  | run t p o hp ho =>
    refine hmove ?_
    cases ho with
    | searchFail i hi =>
      have hlt := inv.cond.search_lt (pc_of_place hp) hle
      exact absurd hlt (Nat.not_lt.mpr hi)
    | _ => simp [Next.place]
  | _ => exact hmove (by simp)

/-! ## What a broadcast gives -/

/-- `t` is blocked in its read of slot `k`, and either it has been given a wake-up or the
    broadcast of `b` has not come to its slot yet. -/
structure Promised (b t : Fin n) (k : Nat) (s : State n) (tr : List (Event n)) : Prop where
  client : ClientInv s
  blocked : s.place t = .call (.read k)
  given : 0 < s.cond.efd k ∨
    ∃ i ≤ k, s.place b = .call (.broadcast i) ∧ Event.broadcasted b ∉ tr

theorem trans_promised {b : Fin n} {k : Nat} {tr : List (Event n)} (h : Trans s a es s')
    (ha : a.thread ≠ t) (pr : Promised b t k s tr) : Promised b t k s' (tr ++ es) := by
  refine ⟨trans_client h pr.client, (trans_place h ha.symm).trans pr.blocked, ?_⟩
  -- a step that leaves the counters and the place of `b` alone
  have hquiet (hefd : s'.cond.efd = s.cond.efd) (hb : s'.place b = s.place b)
      (hev : Event.broadcasted b ∉ es) : 0 < s'.cond.efd k ∨
      ∃ i ≤ k, s'.place b = .call (.broadcast i) ∧ Event.broadcasted b ∉ tr ++ es := by
    rw [hefd, hb]
    refine pr.given.imp_right ?_
    rintro ⟨i, hi, hpb, hno⟩
    exact ⟨i, hi, hpb, by rw [List.mem_append]; exact not_or.mpr ⟨hno, hev⟩⟩
  -- a thread outside the functions is not `b` while that broadcasts
  have hcaller {u : Fin n} {x : Place} (hu : (s.place u).pc = none)
      (hefd : s'.cond.efd = s.cond.efd) (hs : s'.place = update s.place u x)
      (hes : es = []) : 0 < s'.cond.efd k ∨
      ∃ i ≤ k, s'.place b = .call (.broadcast i) ∧ Event.broadcasted b ∉ tr ++ es := by
    by_cases e : b = u
    · subst e
      rcases pr.given with h | ⟨i, _, hpb, _⟩
      · exact Or.inl (hefd ▸ h)
      · rw [hpb] at hu
        cases hu
    · exact hquiet hefd (by rw [hs, update_of_ne e]) (by rw [hes]; simp)
  cases h with
  | lock u hp hfree => exact hcaller (u := u) (by rw [hp]; rfl) rfl rfl rfl
  | unlock u hp => exact hcaller (u := u) (by rw [hp]; rfl) rfl rfl rfl
  | wait u hp => exact hcaller (u := u) (by rw [hp]; rfl) rfl rfl rfl
  | signal u hp => exact hcaller (u := u) (by rw [hp]; rfl) rfl rfl rfl
  | broadcast u hp => exact hcaller (u := u) (by rw [hp]; rfl) rfl rfl rfl
  | run u p o hp ho =>
    rcases pr.given with hpos | ⟨i, hik, hpb, hno⟩
    · exact Or.inl (pr.client.cond.efd_pos (pc_of_place pr.blocked) (pc_of_place hp) ha ho hpos)
    · by_cases e : u = b
      · subst e
        obtain rfl := Place.call.inj (hpb.symm.trans hp)
        rcases pr.client.cond.broadcast_reaches (pc_of_place pr.blocked) hik ho with
          hpos | ⟨hx, hlt⟩
        · exact Or.inl hpos
        · right
          have hplace : (s.after u o).place u = .call (.broadcast (i + 1)) := by
            simp only [State.after, update_self, hx, Next.place]
          refine ⟨i + 1, hlt, hplace, ?_⟩
          rw [hx]
          exact (List.append_nil tr).symm ▸ hno
      · right
        refine ⟨i, hik, (update_of_ne (Ne.symm e) _ _).trans hpb, ?_⟩
        rw [List.mem_append]
        refine not_or.mpr ⟨hno, ?_⟩
        unfold Next.events retEvent
        split
        · split <;> simp [Ne.symm e]
        · simp

/-! ## Whole runs -/

/-- `t` owns slot `i`: it has set its flag and not cleared it. -/
def State.Owns (s : State n) (t : Fin n) (i : Nat) : Prop :=
  ∃ p, s.place t = .call p ∧ p.slot = some i

structure SlotProtocol (s : State n) : Prop where
  /-- The flag is set exactly while one thread owns the slot, -/
  flag : ∀ i, s.cond.waiting i = true ↔ ∃! t, s.Owns t i
  /-- and no two do. -/
  once : ∀ i t u, s.Owns t i → s.Owns u i → t = u
  found : ∀ t, s.place t ≠ .aborted
  /-- A thread in `wait` without the mutex owns a slot, -/
  kept : ∀ t p, s.place t = .call p → p.inWait = true → s.owner ≠ some t → ∃ i, s.Owns t i
  /-- has it before it gives up the mutex -/
  before : ∀ t k, s.place t = .call (.release k) → s.owner = some t ∧ s.Owns t k
  /-- and still has it when the mutex is its own again. -/
  after : ∀ t k, s.place t = .call (.clear k) → s.owner = some t ∧ s.Owns t k

theorem ClientInv.slotProtocol (inv : ClientInv s) (hno : ∀ t, s.place t ≠ .aborted) :
    SlotProtocol s := by
  have honce (i : Nat) (t u : Fin n) (ht : s.Owns t i) (hu : s.Owns u i) : t = u := by
    obtain ⟨p, hp, hpi⟩ := ht
    obtain ⟨q, hq, hqi⟩ := hu
    exact inv.cond.inj t u p q i (pc_of_place hp) (pc_of_place hq) hpi hqi
  refine ⟨?_, honce, hno, ?_, ?_, ?_⟩
  · intro i
    rw [inv.cond.owned i]
    constructor
    · rintro ⟨t, p, hp, hpi⟩
      have hown : s.Owns t i := ⟨p, place_of_pc hp, hpi⟩
      exact ⟨t, hown, fun u hu => honce i u t hu hown⟩
    · rintro ⟨t, ⟨p, hp, hpi⟩, _⟩
      exact ⟨t, p, pc_of_place hp, hpi⟩
  · intro t p hp hw hne
    have hnh : p.holds = false := by
      by_contra hh
      exact hne (inv.cond.locks t p (pc_of_place hp) (Bool.not_eq_false _ ▸ hh))
    cases p with
    | read k => exact ⟨k, _, hp, rfl⟩
    | relock k => exact ⟨k, _, hp, rfl⟩
    | _ => cases hnh
  · intro t k hp
    exact ⟨inv.cond.locks t _ (pc_of_place hp) rfl, _, hp, rfl⟩
  · intro t k hp
    exact ⟨inv.cond.locks t _ (pc_of_place hp) rfl, _, hp, rfl⟩

/-- **The slot protocol.** In every run in which `wait` is called only while fewer than `maxFd`
    threads are in it, the slots are owned as `SlotProtocol` says; and if a thread is blocked in
    its read when a broadcast starts, then after the end of that broadcast, whatever the other
    threads have done, it has a nonzero counter until it reads it itself. -/
theorem slot_protocol (n : Nat) (acts : List (Act n)) (s : State n) (tr : List (Event n))
    (hfit : (threads n).Along (fun s a => fits s a = true) (initState n) acts)
    (hr : (threads n).run (initState n) acts = some (s, tr)) :
    SlotProtocol s ∧
    ∀ b t k acts₂ s₂ tr₂, s.place b = .call (.broadcast 0) → s.place t = .call (.read k) →
      (threads n).run s acts₂ = some (s₂, tr₂) → (∀ a ∈ acts₂, a.thread ≠ t) →
      Event.broadcasted b ∈ tr₂ → s₂.place t = .call (.read k) ∧ 0 < s₂.cond.efd k := by
  have inv := (threads n).run_induct_along (fun s a => fits s a = true)
    (fun s _ => ClientInv s ∧ s.inWait ≤ maxFd ∧ ∀ t, s.place t ≠ .aborted) ?_ acts (initState n)
    [] s tr hfit ?_ hr
  · obtain ⟨hclient, _, hno⟩ := inv
    refine ⟨hclient.slotProtocol hno, ?_⟩
    intro b t k acts₂ s₂ tr₂ hb ht hr₂ hothers hdone
    have pr : Promised b t k s₂ tr₂ :=
      (threads n).run_induct (fun a => a.thread ≠ t) (Promised b t k)
        (fun _ _ _ _ _ ha pr hs => trans_promised (trans_of_step hs) ha pr) hothers
        ⟨hclient, ht, Or.inr ⟨0, Nat.zero_le k, hb, by simp⟩⟩ hr₂
    refine ⟨pr.blocked, pr.given.resolve_right ?_⟩
    rintro ⟨_, _, _, hnot⟩
    exact hnot hdone
  · rintro s tr a s₁ es hfit ⟨hclient, hle, hno⟩ hs
    have htrans := trans_of_step hs
    exact ⟨trans_client htrans hclient, trans_inWait htrans hfit hle,
      trans_noAbort htrans hclient hle hno⟩
  · refine ⟨clientInv_initState, ?_, ?_⟩
    · have hzero : (initState n).inWait = 0 := count_eq_zero.mpr fun _ => rfl
      rw [hzero]
      exact Nat.zero_le _
    · intro t h
      cases h

/-- Threads `a` and `b` block in `wait`, in slots 0 and 1. -/
def twoBlocked (a b : Fin n) : List (Act n) :=
  [.lock a, .wait a, .run a, .run a, .run a, .lock b, .wait b, .run b, .run b, .run b, .run b]

/-- Then thread `c` calls `broadcast`. -/
def broadcastRun (a b c : Fin n) : List (Act n) := twoBlocked a b ++ [.lock c, .broadcast c]

theorem slot_protocol_broadcastRun :
    ∃ s tr s₂ tr₂, (threads 3).run (initState 3) (broadcastRun 0 1 2) = some (s, tr) ∧
      (threads 3).run s (.replicate 101 (.run 2)) = some (s₂, tr₂) ∧ SlotProtocol s ∧
      Event.broadcasted 2 ∈ tr₂ ∧ s₂.place 1 = .call (.read 1) ∧ 0 < s₂.cond.efd 1 := by
  have hrun : ((threads 3).run (initState 3) (broadcastRun 0 1 2)).bind (fun u =>
      ((threads 3).run u.1 (.replicate 101 (.run 2))).map fun v =>
        decide (u.1.place 2 = .call (.broadcast 0) ∧ u.1.place 1 = .call (.read 1) ∧
          Event.broadcasted 2 ∈ v.2)) = some true := by
    decide +kernel
  obtain ⟨⟨s, tr⟩, hr, h⟩ := Option.bind_eq_some_iff.mp hrun
  obtain ⟨⟨s₂, tr₂⟩, hr₂, hu⟩ := Option.map_eq_some_iff.mp h
  obtain ⟨hb, ht, hdone⟩ := of_decide_eq_true hu
  have hfit := (threads 3).along_of_check fits (broadcastRun 0 1 2) (initState 3)
    (by decide +kernel)
  obtain ⟨hprot, hgiven⟩ := slot_protocol 3 (broadcastRun 0 1 2) s tr hfit hr
  have hothers : ∀ a ∈ List.replicate 101 (Act.run (2 : Fin 3)), a.thread ≠ 1 := by
    intro a ha
    rw [List.eq_of_mem_replicate ha]
    decide
  exact ⟨s, tr, s₂, tr₂, hr, hr₂, hprot, hdone,
    hgiven 2 1 1 _ s₂ tr₂ hb ht hr₂ hothers hdone⟩

end DemosOsLinux.EventCond
