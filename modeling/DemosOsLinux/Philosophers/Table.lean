/-
  The dining philosophers with a semaphore set
  (exercises/multi_threading/semaphores/solution.cc and waiter.cc).

  Fork `i` is semaphore `i`; a philosopher takes or puts down both forks in one semop(2). The
  waiter sets every semaphore to 1 before the philosophers start. `N` stands for `NPHIL`; a process
  is its local variable `id`, which `main` checks to be in range, and its place in the loop, and
  several processes may have the same `id`.
  * `Laid`: a semaphore and the processes that hold its fork make 1.
  * `philosophers_safe`: so neighbours do not eat together, and who waits at a table without holders
    can go on.
-/
import DemosOsLinux.Lib.Machine
import DemosOsLinux.Lib.Semaphores
import DemosOsLinux.Lib.Threads

namespace DemosOsLinux.Philosophers

open Lib Function

variable {N n : Nat}

/-- `next` of `forks`. -/
def next (id : Fin N) : Fin N :=
  if h : id.val = N - 1 then ⟨0, id.pos⟩
  else ⟨id + 1, by omega⟩

/-- The operations of `forks`. -/
def forks (id : Fin N) (amount : Int) : List (Sembuf (Fin N)) :=
  [⟨id, amount⟩, ⟨next id, amount⟩]

/-- The loop of the waiter: `semctl(semid, i, SETVAL, 1)` for each `i`. -/
def waiter (vals : Fin N → Int) : Fin N → Int :=
  (List.finRange N).foldl (fun vals i => update vals i 1) vals

/-- Where a philosopher is: in `forks` with amount -1 or 1, in an activity, or ended by a failed
    check. -/
inductive Place where
  | taking
  | eating
  | giving
  | sleeping
  | failed
  deriving DecidableEq

structure Phil (N : Nat) where
  id : Fin N
  place : Place

structure State (N n : Nat) where
  vals : Fin N → Int
  phils : Fin n → Phil N

inductive Act (n : Nat) where
  /-- The `semop` of process `p` returns. -/
  | semop (p : Fin n)
  /-- Process `p` finishes its activity. -/
  | finish (p : Fin n)

/-- Process `p` in `forks`, on its way to `dest`. -/
def doForks (s : State N n) (p : Fin n) (amount : Int) (dest : Place) : Option (State N n) :=
  let x := s.phils p
  match semop s.vals (forks x.id amount) with
  | .done vals => some ⟨vals, update s.phils p ⟨x.id, dest⟩⟩
  | .wouldBlock => none
  | .outOfRange => some ⟨s.vals, update s.phils p ⟨x.id, .failed⟩⟩

def step (s : State N n) : Act n → Option (State N n)
  | .semop p =>
      match (s.phils p).place with
      | .taking => doForks s p (-1) .eating
      | .giving => doForks s p 1 .sleeping
      | _ => none
  | .finish p =>
      let x := s.phils p
      match x.place with
      | .eating => some ⟨s.vals, update s.phils p ⟨x.id, .giving⟩⟩
      | .sleeping => some ⟨s.vals, update s.phils p ⟨x.id, .taking⟩⟩
      | _ => none

def table (N n : Nat) : Machine (State N n) (Act n) Empty where
  step s a := (step s a).map fun s' => (s', [])

/-- The table after the waiter's loop; `vals` is what semget(2) found. -/
def initState (vals : Fin N → Int) (ids : Fin n → Fin N) : State N n :=
  ⟨waiter vals, fun p => ⟨ids p, .taking⟩⟩

/-! ## The forks -/

def Phil.holdsAny (x : Phil N) : Bool := x.place = .eating || x.place = .giving

/-- Fork `f` is one of the two of this process, and it has them. -/
def holds (f : Fin N) (x : Phil N) : Bool := x.holdsAny && (f = x.id || f = next x.id)

theorem next_val (id : Fin N) : (next id).val = (id + 1) % N := by
  have hlt := id.isLt
  unfold next
  split
  · rename_i h
    rw [h, Nat.sub_add_cancel (by omega), Nat.mod_self]
  · exact (Nat.mod_eq_of_lt (by omega)).symm

theorem next_ne (hN : 2 ≤ N) (id : Fin N) : next id ≠ id := by
  intro h
  have hval := congrArg Fin.val h
  unfold next at hval
  split at hval
  · simp only at hval
    omega
  · simp only at hval
    omega

theorem waiter_apply (vals : Fin N → Int) (f : Fin N) : waiter vals f = 1 := by
  have hfold (is : List (Fin N)) (vals : Fin N → Int) (h : vals f = 1 ∨ f ∈ is) :
      is.foldl (fun vals i => update vals i 1) vals f = 1 := by
    induction is generalizing vals with
    | nil => exact h.resolve_right List.not_mem_nil
    | cons i is ih =>
      apply ih
      by_cases e : f = i
      · left
        rw [e]
        exact update_self i 1 vals
      · refine h.imp (fun h => ?_) fun h => (List.mem_cons.mp h).resolve_left e
        exact (update_of_ne e 1 vals).trans h
  exact hfold _ vals (Or.inr (List.mem_finRange f))

theorem op_forks {id : Fin N} {amount : Int} {b : Sembuf (Fin N)} (h : b ∈ forks id amount) :
    b.op = amount := by
  simp only [forks, List.mem_cons, List.not_mem_nil, or_false] at h
  rcases h with rfl | rfl <;> rfl

/-- What `forks` adds to a semaphore. -/
theorem change_forks (hN : 2 ≤ N) (id f : Fin N) (amount : Int) :
    semChange f (forks id amount) = if f = id ∨ f = next id then amount else 0 := by
  have hne := next_ne hN id
  simp only [forks, semChange, Int.add_zero]
  by_cases h1 : id = f
  · subst h1
    rw [if_pos rfl, if_neg hne, if_pos (Or.inl rfl), Int.add_zero]
  · rw [if_neg h1, Int.zero_add]
    by_cases h2 : next id = f
    · rw [if_pos h2, if_pos (Or.inr h2.symm)]
    · rw [if_neg h2, if_neg]
      rintro (h | h)
      · exact h1 h.symm
      · exact h2 h.symm

/-! ## The invariant -/

/-- A semaphore and the holders of its fork make 1. -/
structure Laid (s : State N n) : Prop where
  sum : ∀ f, s.vals f + count s.phils (holds f) = 1
  nonneg : ∀ f, 0 ≤ s.vals f
  running : ∀ p, (s.phils p).place ≠ .failed

section Step

variable {s s' : State N n} {p : Fin n}

theorem Laid.le_one (inv : Laid s) (f : Fin N) : s.vals f ≤ 1 := by
  have := inv.sum f
  omega

/-- A change of place that takes and gives no forks. -/
theorem Laid.moves (inv : Laid s) {dest : Place} (hdest : dest ≠ .failed)
    (hsame : ∀ id : Fin N, (⟨id, dest⟩ : Phil N).holdsAny = (s.phils p).holdsAny) :
    Laid ⟨s.vals, update s.phils p ⟨(s.phils p).id, dest⟩⟩ := by
  refine ⟨?_, inv.nonneg, forall_update (fun x : Phil N => x.place ≠ .failed) inv.running hdest⟩
  intro f
  have hcount : count (update s.phils p ⟨(s.phils p).id, dest⟩) (holds f) =
      count s.phils (holds f) := by
    apply count_update_same
    simp only [holds, hsame]
  simp only [hcount]
  exact inv.sum f

/-- A philosopher takes both forks, or puts both down. -/
theorem Laid.changes (inv : Laid s) (hN : 2 ≤ N) {amount : Int} {dest : Place} (hdest : dest ≠ .failed)
    (hamount : ∀ id : Fin N, ((⟨id, dest⟩ : Phil N).holdsAny.toNat : Int) =
      (s.phils p).holdsAny.toNat - amount) {vals : Fin N → Int}
    (hsem : semop s.vals (forks (s.phils p).id amount) = .done vals) :
    Laid ⟨vals, update s.phils p ⟨(s.phils p).id, dest⟩⟩ := by
  refine ⟨?_, ?_, forall_update (fun x : Phil N => x.place ≠ .failed) inv.running hdest⟩
  · intro f
    have hchange := semop_done hsem f
    rw [change_forks hN] at hchange
    have hcount := count_update s.phils p ⟨(s.phils p).id, dest⟩ (holds f)
    have hold := inv.sum f
    have hplace := hamount (s.phils p).id
    simp only
    by_cases hf : f = (s.phils p).id ∨ f = next (s.phils p).id
    · rw [if_pos hf] at hchange
      have htrue : (f = (s.phils p).id || f = next (s.phils p).id) = true := by
        simpa using hf
      simp only [holds, htrue, Bool.and_true] at hcount hold ⊢
      omega
    · rw [if_neg hf] at hchange
      have hfalse : (f = (s.phils p).id || f = next (s.phils p).id) = false := by
        simpa using hf
      simp only [holds, hfalse, Bool.and_false] at hcount hold ⊢
      omega
  · intro f
    exact semop_nonneg hsem (inv.nonneg f)

theorem holdsAny_of_place {x : Phil N} {y : Place} (h : x.place = y) :
    x.holdsAny = (decide (y = .eating) || decide (y = .giving)) := by
  rw [Phil.holdsAny, h]

theorem forks_nodup (hN : 2 ≤ N) (id : Fin N) (amount : Int) :
    ((forks id amount).map Sembuf.num).Nodup := by
  simp [forks, Ne.symm (next_ne hN id)]

/-- Putting forks down does not block and does not fail. -/
theorem Laid.give_enabled (inv : Laid s) (hN : 2 ≤ N) (id : Fin N) :
    ∃ vals, semop s.vals (forks id 1) = .done vals := by
  apply semop_enabled (forks_nodup hN id 1)
  intro b hb
  have := inv.nonneg b.num
  have := inv.le_one b.num
  rw [op_forks hb, semvmx]
  omega

theorem laid_of_step (hN : 2 ≤ N) {a : Act n} {es : List Empty} (inv : Laid s)
    (h : (table N n).step s a = some (s', es)) : Laid s' := by
  obtain ⟨hs, _⟩ := Machine.quiet_step h
  cases a with
  | semop p =>
    simp only [step] at hs
    split at hs
    · -- takes
      rename_i hp
      simp only [doForks] at hs
      split at hs
      · rename_i vals hsem
        obtain rfl := Option.some.inj hs
        exact inv.changes hN (by decide) (fun id => by rw [holdsAny_of_place hp]; rfl) hsem
      · cases hs
      · rename_i hsem
        refine absurd hsem (semop_ne_outOfRange ?_ fun f => ?_)
        · intro b hb
          rw [op_forks hb]
          decide
        · exact Int.le_trans (inv.le_one f) (by decide)
    · -- gives
      rename_i hp
      obtain ⟨vals, hsem⟩ := inv.give_enabled hN (s.phils p).id
      simp only [doForks, hsem] at hs
      obtain rfl := Option.some.inj hs
      exact inv.changes hN (by decide) (fun id => by rw [holdsAny_of_place hp]; rfl) hsem
    · cases hs
  | finish p =>
    simp only [step] at hs
    split at hs
    · rename_i hp
      obtain rfl := Option.some.inj hs
      exact inv.moves (by decide) fun id => by rw [holdsAny_of_place hp]; rfl
    · rename_i hp
      obtain rfl := Option.some.inj hs
      exact inv.moves (by decide) fun id => by rw [holdsAny_of_place hp]; rfl
    · cases hs

end Step

theorem laid_initState (vals : Fin N → Int) (ids : Fin n → Fin N) : Laid (initState vals ids) := by
  refine ⟨?_, ?_, ?_⟩
  · intro f
    have hcount : count (initState vals ids).phils (holds f) = 0 :=
      count_eq_zero.mpr fun p => rfl
    rw [hcount]
    exact congrArg (· + 0) (waiter_apply vals f)
  · intro f
    have hone := waiter_apply vals f
    show 0 ≤ waiter vals f
    omega
  · intro p h
    cases h

/-! ## All runs -/

section Runs

variable {s : State N n}

/-- Philosophers who share a fork do not hold it together. -/
theorem Laid.exclusive (inv : Laid s) {p q : Fin n} (hpq : p ≠ q)
    (hp : (s.phils p).holdsAny = true) (hq : (s.phils q).holdsAny = true) (f : Fin N)
    (hpf : f = (s.phils p).id ∨ f = next (s.phils p).id)
    (hqf : f = (s.phils q).id ∨ f = next (s.phils q).id) : False := by
  have htwo : 2 ≤ count s.phils (holds f) := by
    apply two_le_count hpq
    · simpa [holds, hp] using hpf
    · simpa [holds, hq] using hqf
  have := inv.sum f
  have := inv.nonneg f
  omega

/-- At a table without holders, taking forks does not block. -/
theorem Laid.take_enabled (inv : Laid s) (hN : 2 ≤ N) (hfree : ∀ p, (s.phils p).holdsAny = false)
    {p : Fin n} (hp : (s.phils p).place = .taking) :
    ∃ s' es, (table N n).step s (.semop p) = some (s', es) ∧ (s'.phils p).place = .eating := by
  have hone (f : Fin N) : s.vals f = 1 := by
    have hcount : count s.phils (holds f) = 0 :=
      count_eq_zero.mpr fun p => by rw [holds, hfree p, Bool.false_and]
    have := inv.sum f
    omega
  obtain ⟨vals, hsem⟩ : ∃ vals, semop s.vals (forks (s.phils p).id (-1)) =
      .done vals := by
    apply semop_enabled (forks_nodup hN _ _)
    intro b hb
    rw [op_forks hb, hone]
    decide
  refine ⟨⟨vals, update s.phils p ⟨(s.phils p).id, .eating⟩⟩, [], ?_, ?_⟩
  · simp only [table, step, hp, doForks, hsem, Option.map_some]
  · simp only [update_self]

end Runs

/-- **The dining philosophers.** For every table of at least two places, every number of processes
    with any `id`s on it, every interleaving: no check fails, and every semaphore is 0 or 1, namely
    1 minus the number of processes that hold its fork; two processes whose `id`s are equal or
    adjacent do not eat at the same time; and when nobody holds a fork, every process that waits
    for its forks can take them. -/
theorem philosophers_safe (N : Nat) (hN : 2 ≤ N) (n : Nat) (vals : Fin N → Int)
    (ids : Fin n → Fin N) (acts : List (Act n)) (s : State N n) (tr : List Empty)
    (hr : (table N n).run (initState vals ids) acts = some (s, tr)) :
    (∀ p, (s.phils p).place ≠ .failed) ∧
    (∀ f, (s.vals f = 0 ∨ s.vals f = 1) ∧ s.vals f = 1 - count s.phils (holds f)) ∧
    (∀ p q, p ≠ q → (s.phils p).place = .eating → (s.phils q).place = .eating →
      (s.phils p).id ≠ (s.phils q).id ∧ ((s.phils p).id + 1) % N ≠ (s.phils q).id.val ∧
        ((s.phils q).id + 1) % N ≠ (s.phils p).id.val) ∧
    ((∀ p, (s.phils p).holdsAny = false) → ∀ p, (s.phils p).place = .taking →
      ∃ s' es, (table N n).step s (.semop p) = some (s', es) ∧
        (s'.phils p).place = .eating) := by
  have inv : Laid s := (table N n).run_inv (fun _ => True) Laid
    (fun _ _ _ _ _ inv hs => laid_of_step hN inv hs) (fun _ _ => trivial)
    (laid_initState vals ids) hr
  refine ⟨inv.running, ?_, ?_, fun hfree p hp => inv.take_enabled hN hfree hp⟩
  · intro f
    have hforks := inv.sum f
    have hnonneg := inv.nonneg f
    omega
  · intro p q hpq hp hq
    have hp' : (s.phils p).holdsAny = true := by rw [holdsAny_of_place hp]; rfl
    have hq' : (s.phils q).holdsAny = true := by rw [holdsAny_of_place hq]; rfl
    have hex := inv.exclusive hpq hp' hq'
    refine ⟨?_, ?_, ?_⟩
    · intro h
      exact hex (s.phils p).id (Or.inl rfl) (Or.inl h)
    · intro h
      rw [← next_val] at h
      exact hex (s.phils q).id (Or.inr (Fin.ext h.symm)) (Or.inl rfl)
    · intro h
      rw [← next_val] at h
      exact hex (s.phils p).id (Or.inl rfl) (Or.inr (Fin.ext h.symm))

/-- Three philosophers at a table for five. -/
def threeIds (p : Fin 3) : Fin 5 := ⟨2 * p, by omega⟩

/-- Two philosophers who are not neighbours eat together and put their forks down. -/
def dinnerRun (p q : Fin n) : List (Act n) :=
  [.semop p, .semop q, .finish p, .semop p, .finish q, .semop q]

theorem philosophers_safe_dinnerRun :
    ∃ s tr, (table 5 3).run (initState (fun _ => 0) threeIds) (dinnerRun 0 1) = some (s, tr) ∧
      (s.phils 2).place = .taking ∧
      ∃ s' es, (table 5 3).step s (.semop 2) = some (s', es) ∧ (s'.phils 2).place = .eating := by
  obtain ⟨s, tr, hr, hfree, htaking⟩ := (table 5 3).exists_of_check
    (initState (fun _ => 0) threeIds) (dinnerRun 0 1)
    (fun s _ => (∀ p, (s.phils p).holdsAny = false) ∧ (s.phils 2).place = .taking)
    (by decide +kernel)
  exact ⟨s, tr, hr, htaking,
    (philosophers_safe 5 (by decide) 3 _ _ (dinnerRun 0 1) s tr hr).2.2.2 hfree 2 htaking⟩

end DemosOsLinux.Philosophers
