/-
  Turns under a home-made spin lock (exercises/c/spinlock/solution.c).

  `n` workers compete for a lock that is taken by compare-and-swap and given back by a plain store.
  The worker whose number is `counter % n` increments `counter`; the others look and let go. A step
  is one access to shared memory; `counter++` is a load and a store. Its event is the number of the
  worker that made it. `counter` and `success` are `int`s that wrap around (in C an overflow has no
  defined result), and `%` is that of C.
  * `WorkerOk`: what is known of one worker after `k` increments. It has made its share of them.
  * `Inv`: `val` is the number of workers inside the lock, and all workers are well.
  * `step_inv`, `run_inv`: a step keeps it, hence a run, as long as `n * loops` is an `int`
    (`Inv.length_lt`: the worker whose turn it is has not made all its increments).
  * `counter_wraps`: two workers with `2 ^ 30` loops each take `counter` past the largest `int`.
-/
import DemosOsLinux.AceTurns.Counter
import DemosOsLinux.Lib.Machine
import DemosOsLinux.Lib.MachineInt
import DemosOsLinux.Lib.Threads
import Mathlib.Data.Nat.Count

namespace DemosOsLinux.SpinLock

open Lib AceTurns Function

/-- Where a worker is. -/
inductive Place where
  /-- At the condition of `while(success<loops)`. -/
  | looping
  /-- In `mypthread_spin_lock`, at the compare-and-swap. -/
  | locking
  /-- At the condition of the `if`. -/
  | checking
  /-- In its branch, before `counter++`. -/
  | caught
  /-- Within `counter++`, with the value that was read. -/
  | adding (v : Int)
  /-- In `mypthread_spin_unlock`, at the store. -/
  | unlocking
  | ended
deriving DecidableEq

/-- Between a successful compare-and-swap and the store that unlocks. -/
def Place.inside : Place → Bool
  | .checking | .caught | .adding _ | .unlocking => true
  | _ => false

/-- In the branch of the worker whose turn it is. -/
def Place.inTurn : Place → Bool
  | .caught | .adding _ => true
  | _ => false

theorem inside_of_inTurn {p : Place} (h : p.inTurn = true) : p.inside = true := by
  cases p <;> first | rfl | cases h

/-- In an iteration that has not counted yet. -/
def Place.wanting : Place → Bool
  | .locking | .checking | .caught | .adding _ => true
  | _ => false

theorem wanting_of_inTurn {p : Place} (h : p.inTurn = true) : p.wanting = true := by
  cases p <;> first | rfl | cases h

structure Worker where
  place : Place
  success : Int
deriving DecidableEq

structure State (n : Nat) where
  /-- `lock.val`. -/
  val : Nat
  counter : Int
  worker : Fin n → Worker

def initState (n : Nat) : State n := ⟨0, 0, fun _ => ⟨.looping, 0⟩⟩

variable {n loops : Nat}

/-- Worker `num` goes on as `w`. -/
def State.become (s : State n) (num : Fin n) (w : Worker) : State n :=
  { s with worker := update s.worker num w }

/-- `++` on an `int`. -/
def increment (v : Int) : Int := (v + 1).bmod (2 ^ 32)

theorem increment_natCast {k : Nat} (h : k + 1 < 2 ^ 31) : increment k = (k + 1 : Nat) :=
  FitsI32.bmod (by unfold FitsI32; omega)

/-- One step of worker `num`; a failed compare-and-swap is one too. -/
def worker (loops : Nat) (s : State n) (num : Fin n) : Option (State n × List Nat) :=
  let w := s.worker num
  match w.place with
  | .looping => some (s.become num ⟨if w.success < loops then .locking else .ended, w.success⟩, [])
  | .locking =>
    if s.val = 0 then some ({ s with val := 1 }.become num ⟨.checking, w.success⟩, [])
    else some (s, [])
  | .checking =>
    some (s.become num ⟨if s.counter.tmod n = num then .caught else .unlocking, w.success⟩, [])
  | .caught => some (s.become num ⟨.adding s.counter, w.success⟩, [])
  | .adding v =>
    some ({ s with counter := increment v }.become num ⟨.unlocking, increment w.success⟩, [num])
  | .unlocking => some ({ s with val := 0 }.become num ⟨.looping, w.success⟩, [])
  | .ended => none

def workers (n loops : Nat) : Machine (State n) (Fin n) Nat := ⟨worker loops⟩

/-! ## The invariant -/

/-- Worker `t` after `k` increments of `counter`. -/
structure WorkerOk (n loops k : Nat) (t : Nat) (w : Worker) : Prop where
  made : w.success = share n k t
  le : share n k t ≤ loops
  wanting : w.place.wanting = true → share n k t < loops
  ended : w.place = .ended → share n k t = loops
  inTurn : w.place.inTurn = true → k % n = t
  read : ∀ v, w.place = .adding v → v = k

/-- The number of workers inside. -/
def insiders (s : State n) : Nat := count s.worker fun w => w.place.inside

structure Inv (loops : Nat) (s : State n) (tr : List Nat) : Prop where
  val : s.val = insiders s
  le : s.val ≤ 1
  counter : s.counter = tr.length
  worker : ∀ t : Fin n, WorkerOk n loops tr.length t (s.worker t)
  trace : tr = (List.range tr.length).map (· % n)

variable {s s' : State n} {tr es : List Nat} {num : Fin n} {w : Worker}

section Steps

variable (h : Inv loops s tr)
include h

theorem Inv.eq_of_inside {t u : Fin n}
    (ht : (s.worker t).place.inside = true) (hu : (s.worker u).place.inside = true) : t = u := by
  refine Decidable.byContradiction fun htu => ?_
  have htwo : 2 ≤ insiders s :=
    two_le_count (f := s.worker) (P := fun w => w.place.inside) htu ht hu
  have hone := h.le
  rw [h.val] at hone
  omega

theorem Inv.workers (hw : WorkerOk n loops tr.length num w) (u : Fin n) :
    WorkerOk n loops tr.length u (update s.worker num w u) := by
  by_cases hu : u = num
  · rw [hu, update_self]
    exact hw
  · rw [update_of_ne hu]
    exact h.worker u

/-- A worker goes on, on the same side of the lock. -/
theorem Inv.become (hw : WorkerOk n loops tr.length num w)
    (hside : w.place.inside = (s.worker num).place.inside) :
    Inv loops (s.become num w) tr where
  val := h.val.trans (count_update_same (f := s.worker) (P := fun w => w.place.inside) hside).symm
  le := h.le
  counter := h.counter
  worker := h.workers hw
  trace := h.trace

/-- A successful compare-and-swap. -/
theorem Inv.enter (hval : s.val = 0)
    (hw : WorkerOk n loops tr.length num w) (hbefore : (s.worker num).place.inside = false)
    (hafter : w.place.inside = true) : Inv loops ({ s with val := 1 }.become num w) tr where
  val := by
    have hcount := count_update_enter (f := s.worker) (P := fun w => w.place.inside) hbefore hafter
    show 1 = count (update s.worker num w) _
    rw [hcount, show count s.worker _ = 0 from h.val.symm.trans hval]
  le := Nat.le_refl 1
  counter := h.counter
  worker := h.workers hw
  trace := h.trace

/-- The store that unlocks: the worker that makes it was the only one inside. -/
theorem Inv.leave (hw : WorkerOk n loops tr.length num w)
    (hbefore : (s.worker num).place.inside = true) (hafter : w.place.inside = false) :
    Inv loops ({ s with val := 0 }.become num w) tr where
  val := by
    have hcount := count_update_leave (f := s.worker) (P := fun w => w.place.inside) hbefore hafter
    have hone : count s.worker (fun w => w.place.inside) ≤ 1 := le_of_eq_of_le h.val.symm h.le
    show 0 = count (update s.worker num w) _
    omega
  le := Nat.zero_le 1
  counter := h.counter
  worker := h.workers hw
  trace := h.trace

/-- The worker whose turn it is has increments to make, so `counter` has not come to its end. -/
theorem Inv.length_lt (hplace : (s.worker num).place.inTurn = true) : tr.length < n * loops := by
  have hok := h.worker num
  have hturn := hok.inTurn hplace
  have hlt := hok.wanting (wanting_of_inTurn hplace)
  rw [← hturn, share_turn, Nat.div_lt_iff_lt_mul num.pos, Nat.mul_comm] at hlt
  exact hlt

/-- The store of `counter++`. No other worker is inside, so none has read `counter` or found that
it is its turn; and the shares of the others stay as they are. -/
theorem Inv.add (hfits : n * loops < 2 ^ 31) {v : Int} (hplace : (s.worker num).place = .adding v) :
    Inv loops ({ s with counter := increment v }.become num
      ⟨.unlocking, increment (s.worker num).success⟩) (tr ++ [num.val]) := by
  have hnum := h.worker num
  have hin : (s.worker num).place.inTurn = true := by rw [hplace]; rfl
  have hturn : tr.length % n = num := hnum.inTurn hin
  have hinside := inside_of_inTurn hin
  have hlt := h.length_lt hin
  have hval := count_update_same (f := s.worker) (P := fun w => w.place.inside)
    (a := ⟨.unlocking, increment (s.worker num).success⟩) hinside.symm
  have hlength : (tr ++ [num.val]).length = tr.length + 1 := List.length_append
  refine ⟨h.val.trans hval.symm, h.le, ?_, ?_, ?_⟩
  · show increment v = _
    rw [hnum.read v hplace, hlength, increment_natCast (by omega)]
  · intro u
    rw [hlength]
    show WorkerOk n loops (tr.length + 1) u (update s.worker num _ u)
    by_cases hu : u = num
    · rw [hu, update_self]
      have hshare : share n (tr.length + 1) num = share n tr.length num + 1 := by
        rw [share_succ num.isLt, if_pos hturn.symm]
      have hmore : share n tr.length num < loops := hnum.wanting (by rw [hplace]; rfl)
      have hloops : loops ≤ n * loops := Nat.le_mul_of_pos_left loops num.pos
      refine ⟨?_, le_of_eq_of_le hshare hmore, nofun, nofun, nofun, nofun⟩
      rw [hshare, hnum.made, increment_natCast (by omega)]
    · rw [update_of_ne hu]
      have hok := h.worker u
      have hout : (s.worker u).place.inside ≠ true := fun hin => hu (h.eq_of_inside hin hinside)
      have hne : (u : Nat) ≠ tr.length % n := fun heq => hu (Fin.ext (heq.trans hturn))
      have hshare : share n (tr.length + 1) u = share n tr.length u := by
        rw [share_succ u.isLt, if_neg hne, Nat.add_zero]
      refine ⟨hshare ▸ hok.made, hshare ▸ hok.le, hshare ▸ hok.wanting, hshare ▸ hok.ended,
        fun hin => absurd (inside_of_inTurn hin) hout, fun v hv => absurd (by rw [hv]; rfl) hout⟩
  · rw [hlength, List.range_succ, List.map_append, ← h.trace, ← hturn]
    rfl

end Steps

theorem step_inv (hfits : n * loops < 2 ^ 31) (h : Inv loops s tr)
    (hs : worker loops s num = some (s', es)) : Inv loops s' (tr ++ es) := by
  have hok := h.worker num
  unfold worker at hs
  dsimp only at hs
  cases hplace : (s.worker num).place with
  | looping =>
    rw [hplace] at hs
    obtain ⟨rfl, rfl⟩ := result_inj hs
    rw [List.append_nil]
    split
    · next hlt =>
      rw [hok.made] at hlt
      exact h.become ⟨hok.made, hok.le, fun _ => Int.ofNat_lt.mp hlt, nofun, nofun, nofun⟩
        (by rw [hplace]; rfl)
    · next hge =>
      rw [hok.made] at hge
      exact h.become ⟨hok.made, hok.le, nofun, fun _ => by have := hok.le; omega, nofun, nofun⟩
        (by rw [hplace]; rfl)
  | locking =>
    rw [hplace] at hs
    dsimp only at hs
    have hlt : share n tr.length num < loops := hok.wanting (by rw [hplace]; rfl)
    split at hs
    · next hval =>
      obtain ⟨rfl, rfl⟩ := result_inj hs
      rw [List.append_nil]
      exact h.enter hval ⟨hok.made, hok.le, fun _ => hlt, nofun, nofun, nofun⟩ (by rw [hplace]; rfl)
        rfl
    · obtain ⟨rfl, rfl⟩ := result_inj hs
      rw [List.append_nil]
      exact h
  | checking =>
    rw [hplace] at hs
    obtain ⟨rfl, rfl⟩ := result_inj hs
    have hlt : share n tr.length num < loops := hok.wanting (by rw [hplace]; rfl)
    rw [List.append_nil]
    split
    · next hturn =>
      rw [h.counter, ← Int.ofNat_tmod] at hturn
      have hturn := Int.ofNat_inj.mp hturn
      exact h.become ⟨hok.made, hok.le, fun _ => hlt, nofun, fun _ => hturn, nofun⟩
        (by rw [hplace]; rfl)
    · exact h.become ⟨hok.made, hok.le, nofun, nofun, nofun, nofun⟩ (by rw [hplace]; rfl)
  | caught =>
    rw [hplace] at hs
    obtain ⟨rfl, rfl⟩ := result_inj hs
    have hlt : share n tr.length num < loops := hok.wanting (by rw [hplace]; rfl)
    have hturn : tr.length % n = num := hok.inTurn (by rw [hplace]; rfl)
    rw [List.append_nil]
    exact h.become ⟨hok.made, hok.le, fun _ => hlt, nofun, fun _ => hturn,
      fun v hv => (Place.adding.inj hv).symm.trans h.counter⟩ (by rw [hplace]; rfl)
  | adding v =>
    rw [hplace] at hs
    obtain ⟨rfl, rfl⟩ := result_inj hs
    exact h.add hfits hplace
  | unlocking =>
    rw [hplace] at hs
    obtain ⟨rfl, rfl⟩ := result_inj hs
    rw [List.append_nil]
    exact h.leave ⟨hok.made, hok.le, nofun, nofun, nofun, nofun⟩ (by rw [hplace]; rfl) rfl
  | ended =>
    rw [hplace] at hs
    cases hs

theorem init_inv (n loops : Nat) : Inv loops (initState n) [] where
  val := (count_eq_zero.mpr fun _ => rfl).symm
  le := Nat.zero_le 1
  counter := rfl
  worker := fun _ => ⟨congrArg Nat.cast share_zero.symm,
    le_of_eq_of_le share_zero (Nat.zero_le loops), nofun, nofun, nofun, nofun⟩
  trace := rfl

theorem run_inv (hfits : n * loops < 2 ^ 31) {nums : List (Fin n)}
    (hr : (workers n loops).run (initState n) nums = some (s, tr)) : Inv loops s tr :=
  (workers n loops).run_induct (fun _ => True) (Inv loops)
    (fun _ _ _ _ _ _ h hs => step_inv hfits h hs) (fun _ _ => trivial) (init_inv n loops) hr

/-! ## Whole runs -/

theorem share_eq_count {v : Nat} (hv : v < n) (k : Nat) :
    share n k v = Nat.count (fun j => j % n = v) k := by
  induction k with
  | zero => rw [share_zero, Nat.count_zero]
  | succ k ih =>
    rw [share_succ hv, Nat.count_succ, ih]
    simp only [eq_comm]

/-- Mutual exclusion; the order of the increments; each worker's part in them; and the end. -/
theorem spin_round_robin (n loops : Nat) (hn : 0 < n) (hfits : n * loops < 2 ^ 31)
    (nums : List (Fin n)) (s : State n) (tr : List Nat)
    (hr : (workers n loops).run (initState n) nums = some (s, tr)) :
    (∀ t u, (s.worker t).place.inside = true → (s.worker u).place.inside = true → t = u) ∧
    s.counter = tr.length ∧ (∀ k < tr.length, tr[k]? = some (k % n)) ∧
    (∀ t, (s.worker t).success = Nat.count (fun k => k % n = t) tr.length) ∧
    (s.counter < n * loops → (s.worker ⟨tr.length % n, Nat.mod_lt _ hn⟩).place ≠ .ended) ∧
    ((∀ t, (s.worker t).place = .ended) → s.counter = n * loops) := by
  have h := run_inv hfits hr
  refine ⟨fun t u => h.eq_of_inside, h.counter, fun k hk => ?_, fun t => ?_, fun hlt hended => ?_,
    fun hall => ?_⟩
  · rw [h.trace, List.getElem?_map, List.getElem?_range hk]
    rfl
  · rw [(h.worker t).made, share_eq_count t.isLt]
  · have hdone := (h.worker ⟨tr.length % n, Nat.mod_lt _ hn⟩).ended hended
    rw [share_turn] at hdone
    rw [h.counter] at hlt
    have hdiv : tr.length / n < loops := Nat.div_lt_of_lt_mul (by exact_mod_cast hlt)
    omega
  · have hend : tr.length = n * loops :=
      eq_of_share hn fun v hv => (h.worker ⟨v, hv⟩).ended (hall ⟨v, hv⟩)
    rw [h.counter, hend]
    push_cast
    rfl

/-- Two workers, one turn each; the second spins and looks in vain before the first one's turn. -/
theorem spin_round_robin_two : ∃ s tr,
    (workers 2 1).run (initState 2) [1, 1, 0, 0, 1, 1, 0, 0, 0, 0, 0, 0, 1, 1, 1, 1, 1, 1, 1] =
      some (s, tr) ∧ (∀ t, (s.worker t).place = .ended) ∧ s.counter = 2 * 1 := by
  obtain ⟨s, tr, hr, hall⟩ := (workers 2 1).exists_of_check (initState 2)
    [1, 1, 0, 0, 1, 1, 0, 0, 0, 0, 0, 0, 1, 1, 1, 1, 1, 1, 1]
    (fun s _ => ∀ t, (s.worker t).place = .ended) (by decide)
  obtain ⟨-, -, -, -, -, hend⟩ :=
    spin_round_robin 2 1 (by decide) (by decide) _ s tr hr
  exact ⟨s, tr, hr, hall, hend hall⟩

/-! ## An overflow -/

/-- All workers are before the condition of their loops; worker `t` has made `a t` increments. -/
def between (c : Int) (a : Fin n → Int) : State n := ⟨0, c, fun t => ⟨.looping, a t⟩⟩

/-- A worker whose turn it is takes the lock, increments and comes back, while the others wait. -/
theorem reachable_turn (loops : Nat) (num : Fin n) {c : Int} {a : Fin n → Int}
    (ha : a num < loops) (hturn : c.tmod n = num) : (workers n loops).Reachable (between c a)
      (between (increment c) (update a num (increment (a num)))) := by
  refine ⟨List.replicate 6 num, [num.val], ?_⟩
  have hworker : update (between c a).worker num ⟨.looping, increment (a num)⟩ =
      fun t => ⟨.looping, update a num (increment (a num)) t⟩ := by
    funext t
    by_cases ht : t = num <;> simp [between, ht]
  simpa [List.replicate, Machine.run, workers, worker, State.become, between, ha, hturn]
    using hworker

theorem reachable_round {k : Nat} (hk : k < 2 ^ 30) :
    (workers 2 (2 ^ 30)).Reachable (between (2 * k : Nat) fun _ => k)
      (between (increment (2 * k + 1 : Nat)) fun _ => (k + 1 : Nat)) := by
  have heven : ((2 * k : Nat) : Int).tmod 2 = 0 := by
    rw [Int.tmod_eq_emod_of_nonneg (Int.natCast_nonneg _)]
    omega
  have hodd : ((2 * k + 1 : Nat) : Int).tmod 2 = 1 := by
    rw [Int.tmod_eq_emod_of_nonneg (Int.natCast_nonneg _)]
    omega
  have hfirst := reachable_turn (2 ^ 30) 0 (a := fun _ => k) (by omega) heven
  rw [increment_natCast (by omega), increment_natCast (by omega)] at hfirst
  have hsecond := reachable_turn (2 ^ 30) 1 (a := update (fun _ => k) 0 (k + 1 : Nat))
    (by simp; omega) hodd
  convert hfirst.trans hsecond using 2
  refine funext (Fin.forall_fin_two.mpr ⟨?_, ?_⟩)
  · simp
  · simp [increment_natCast (k := k) (by omega)]

theorem reachable_rounds {k : Nat} (hk : k < 2 ^ 30) :
    (workers 2 (2 ^ 30)).Reachable (initState 2) (between (2 * k : Nat) fun _ => k) := by
  induction k with
  | zero => exact Machine.Reachable.refl _ _
  | succ k ih =>
    have hround := reachable_round (k := k) (by omega)
    rw [increment_natCast (by omega)] at hround
    exact (ih (by omega)).trans hround

/-- After `2 ^ 31` increments `counter` is the least `int`, and not their number. -/
theorem counter_wraps : ∃ nums s tr,
    (workers 2 (2 ^ 30)).run (initState 2) nums = some (s, tr) ∧
    (∀ t, (s.worker t).place = .ended) ∧ s.counter = -2 ^ 31 := by
  have hlast := (reachable_rounds (k := 2 ^ 30 - 1) (by decide)).trans (reachable_round (by decide))
  have hend : ∀ c, (workers 2 (2 ^ 30)).Reachable (between c fun _ => (2 ^ 30 : Nat))
      (((between c fun _ => (2 ^ 30 : Nat)).become 0 ⟨.ended, (2 ^ 30 : Nat)⟩).become 1
        ⟨.ended, (2 ^ 30 : Nat)⟩) := by
    intro c
    refine ⟨[0, 1], [], ?_⟩
    simp [Machine.run, workers, worker, between, State.become]
  obtain ⟨nums, tr, hr⟩ := hlast.trans (hend _)
  refine ⟨nums, _, tr, hr, fun t => ?_, by decide⟩
  match t with
  | 0 => rfl
  | 1 => rfl

end DemosOsLinux.SpinLock
