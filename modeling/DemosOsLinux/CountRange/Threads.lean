/-
  Two threads that count in turn, by ranges (examples/pthreads/synchronization/condition.cc).

  `functionCount1` counts while `count` is outside a range, `functionCount2` while it is inside, and the
  first one ends both. The mutex and the one condition variable make a monitor. A thread looks at `done`
  once more after it has unlocked the mutex: that look is a section of its own. The event of an increment
  is the thread that made it and the value that it prints. The range and the end are parameters.
  * `turn`: the thread that counts from `k` to `k + 1`.
  * `Turns`: the counting so far, and who may sleep.
  * `counted_in_turn`: so each number is counted once, by the right thread, nobody sleeps when it is its
    turn, and nobody sleeps when all is done.
-/
import DemosOsLinux.Lib.Monitor

namespace DemosOsLinux.CountRange

open Lib Lib.Monitor Function

/-- `COUNT_RANGE_MIN`, `COUNT_RANGE_MAX` and `COUNT_DONE`. -/
structure Config where
  rangeMin : Nat
  rangeMax : Nat
  countDone : Nat
  /-- `functionCount1` counts to the end, not `functionCount2`. -/
  max_lt : rangeMax + 1 < countDone

/-- The values of the source. -/
def Config.source : Config := ⟨3, 6, 10, by decide⟩

structure Shared where
  count : Nat
  done : Bool

inductive Role where
  | count1
  | count2
  deriving DecidableEq

inductive Place where
  /-- At `while(true)`. -/
  | looping
  /-- At `if(done)`, after the unlock. -/
  | unlocked
  | exited
  deriving DecidableEq

structure Local where
  role : Role
  place : Place
  deriving DecidableEq

inductive Code where
  | lock (role : Role)
  /-- After `pthread_cond_wait`. -/
  | awake (role : Role)
  | check (role : Role)
  deriving DecidableEq

def Code.role : Code → Role
  | .lock r | .awake r | .check r => r

abbrev Sec := Section Shared Unit Code Local (Role × Nat)

/-- The condition of the inner loop. -/
def waits (C : Config) (role : Role) (s : Shared) : Bool :=
  match role with
  | .count1 => (C.rangeMin ≤ s.count && s.count ≤ C.rangeMax) && !s.done
  | .count2 => (s.count < C.rangeMin || s.count > C.rangeMax) && !s.done

/-- `count++`, and who is signalled. -/
def increment (C : Config) (role : Role) (s : Shared) : Sec :=
  let count := s.count + 1
  match role with
  | .count1 =>
    if count = C.countDone then
      ⟨⟨count, true⟩, .signal (), .leave ⟨.count1, .unlocked⟩, [(.count1, count)]⟩
    else
      ⟨⟨count, s.done⟩, if count = C.rangeMin then .signal () else .none, .leave ⟨.count1, .unlocked⟩,
        [(.count1, count)]⟩
  | .count2 =>
    ⟨⟨count, s.done⟩, if count = C.rangeMax + 1 then .signal () else .none,
      .leave ⟨.count2, .unlocked⟩, [(.count2, count)]⟩

/-- From the inner loop to the unlock. -/
def whileLoop (C : Config) (role : Role) (s : Shared) : Sec :=
  if waits C role s then ⟨s, .none, .wait () (.awake role), []⟩
  else if s.done then ⟨s, .none, .leave ⟨role, .unlocked⟩, []⟩
  else increment C role s

/-- `functionCount1` and `functionCount2`. -/
def program (C : Config) : Program Shared Unit Code Local Unit (Role × Nat) where
  call l _ :=
    match l.place with
    | .looping => some (.lock l.role)
    | .unlocked => some (.check l.role)
    | .exited => none
  body
    | .lock r | .awake r => whileLoop C r
    | .check r => fun s => ⟨s, .none, .leave ⟨r, if s.done then .exited else .looping⟩, []⟩

abbrev St := Status Unit Code Local

/-- `main` starts one thread of each function. -/
def roleOf (t : Fin 2) : Role := if t = 0 then .count1 else .count2

def initState : State Shared Unit Code Local 2 :=
  ⟨⟨0, false⟩, fun t => .outside ⟨roleOf t, .looping⟩⟩

/-! ## Turns -/

/-- Who counts from `k` to `k + 1`. -/
def turn (C : Config) (k : Nat) : Role :=
  if C.rangeMin ≤ k ∧ k ≤ C.rangeMax then .count2 else .count1

theorem waits_iff (C : Config) (role : Role) (s : Shared) :
    waits C role s = true ↔ s.done = false ∧ turn C s.count ≠ role := by
  obtain ⟨count, done⟩ := s
  cases done <;> cases role <;> simp [waits, turn]
  omega

/-- The role of a thread. -/
def role : St → Role
  | .outside l => l.role
  | .asleep _ p | .woken p => p.role

structure Turns (C : Config) (s : Shared) (status : Fin 2 → St) (tr : List (Role × Nat)) : Prop where
  trace : tr = (List.range s.count).map fun k => (turn C k, k + 1)
  le : s.count ≤ C.countDone
  done : s.done = true ↔ s.count = C.countDone
  role : ∀ t, role (status t) = roleOf t
  /-- Who sleeps has nothing to do. -/
  asleep : ∀ t p, status t = .asleep () p → s.done = false ∧ turn C s.count ≠ roleOf t
  exited : ∀ t r, status t = .outside ⟨r, .exited⟩ → s.done = true

section Step

variable {C : Config} {s : Shared} {status st : Fin 2 → St} {tr : List (Role × Nat)} {w : Wake Unit}
  {t : Fin 2}

theorem role_wakes (hw : Wakes status w st) (u : Fin 2) : role (st u) = role (status u) := by
  rcases hw.same_or_woken u with h | ⟨c, p, hc, hp⟩
  · rw [h]
  · rw [hc, hp]
    rfl

theorem exited_wakes (hw : Wakes status w st) {u : Fin 2} {r : Role}
    (h : st u = .outside ⟨r, .exited⟩) : status u = .outside ⟨r, .exited⟩ := by
  rcases hw.same_or_woken u with h' | ⟨c, p, _, hp⟩
  · rw [← h', h]
  · rw [h] at hp
    cases hp

/-- A section of thread `t` that changes nothing and does not signal. -/
theorem Turns.stays (inv : Turns C s status tr) {x : St} (hrole : CountRange.role x = roleOf t)
    (hasleep : ∀ p, x = .asleep () p → s.done = false ∧ turn C s.count ≠ roleOf t)
    (hexited : ∀ r, x = .outside ⟨r, .exited⟩ → s.done = true) :
    Turns C s (update status t x) tr := by
  refine ⟨inv.trace, inv.le, inv.done, fun u => ?_, fun u p => ?_, fun u r => ?_⟩
  · by_cases e : u = t
    · rw [e, update_self, hrole]
    · rw [update_of_ne e]
      exact inv.role u
  · by_cases e : u = t
    · rw [e, update_self]
      exact hasleep p
    · rw [update_of_ne e]
      exact inv.asleep u p
  · by_cases e : u = t
    · rw [e, update_self]
      exact hexited r
    · rw [update_of_ne e]
      exact inv.exited u r

/-- The next number, by the thread whose turn it is. -/
theorem Turns.counts (inv : Turns C s status tr) (hdone : s.done = false)
    (hturn : turn C s.count = roleOf t) (ht : ∀ p, status t ≠ .asleep () p)
    (hw : Wakes status w st) (done' : Bool) (hdone' : done' = true ↔ s.count + 1 = C.countDone)
    (hwake : w = .signal () ∨ (done' = false ∧ turn C (s.count + 1) = turn C s.count)) :
    Turns C ⟨s.count + 1, done'⟩ (update st t (.outside ⟨roleOf t, .unlocked⟩))
      (tr ++ [(roleOf t, s.count + 1)]) := by
  have hlt : s.count < C.countDone := by
    refine Nat.lt_of_le_of_ne inv.le fun h => ?_
    rw [inv.done.mpr h] at hdone
    cases hdone
  refine ⟨?_, hlt, hdone', fun u => ?_, fun u p hu => ?_, fun u r hu => ?_⟩
  · rw [inv.trace, List.range_succ, List.map_append, List.map_singleton, hturn]
  · by_cases e : u = t
    · rw [e, update_self]
      rfl
    · rw [update_of_ne e, role_wakes hw]
      exact inv.role u
  · rcases hw.asleep_after hu with h | ⟨hst, hbefore⟩
    · cases h
    · rcases hwake with rfl | ⟨hd, hsame⟩
      · -- the other thread was the only one that could sleep
        refine absurd hst (hw.signal_asleep fun u v p q hu hv => ?_)
        have hut : u ≠ t := fun e => ht p (e ▸ hu)
        have hvt : v ≠ t := fun e => ht q (e ▸ hv)
        omega
      · rw [hsame]
        exact ⟨hd, (inv.asleep u p hbefore).2⟩
  · by_cases e : u = t
    · rw [e, update_self] at hu
      cases hu
    · rw [update_of_ne e] at hu
      have h := inv.exited u r (exited_wakes hw hu)
      rw [hdone] at h
      cases h

theorem turn_succ {k : Nat} (h : turn C k = .count1) (hk : k + 1 ≠ C.rangeMin) :
    turn C (k + 1) = turn C k := by
  unfold turn at h ⊢
  split at h
  · cases h
  · rw [if_neg (by omega), if_neg (by omega)]

theorem turn_succ' {k : Nat} (h : turn C k = .count2) (hk : k + 1 ≠ C.rangeMax + 1) :
    turn C (k + 1) = turn C k := by
  unfold turn at h ⊢
  split at h
  · rw [if_pos (by omega), if_pos (by omega)]
  · cases h

theorem Turns.increment (inv : Turns C s status tr) (hdone : s.done = false)
    (hturn : turn C s.count = roleOf t) (ht : ∀ p, status t ≠ .asleep () p)
    (hw : Wakes status (increment C (roleOf t) s).wake st) :
    Turns C (increment C (roleOf t) s).shared
      (update st t (increment C (roleOf t) s).exit.status)
      (tr ++ (increment C (roleOf t) s).events) := by
  have hmax := C.max_lt
  have hcounts := fun w (hw : Wakes status w st) => inv.counts hdone hturn ht hw
  generalize hr : roleOf t = r at hturn hw hcounts ⊢
  cases r with
  | count1 =>
    simp only [CountRange.increment] at hw ⊢
    by_cases hlast : s.count + 1 = C.countDone
    · simp only [if_pos hlast] at hw ⊢
      exact hcounts _ hw true (by simp [hlast]) (Or.inl rfl)
    · simp only [if_neg hlast] at hw ⊢
      refine hcounts _ hw s.done (by simp [hdone, hlast]) ?_
      by_cases hmin : s.count + 1 = C.rangeMin
      · exact Or.inl (if_pos hmin)
      · exact Or.inr ⟨hdone, turn_succ hturn hmin⟩
  | count2 =>
    simp only [CountRange.increment] at hw ⊢
    have hle : s.count ≤ C.rangeMax := by
      unfold turn at hturn
      split at hturn
      · omega
      · cases hturn
    refine hcounts _ hw s.done (by simp [hdone]; omega) ?_
    by_cases hend : s.count + 1 = C.rangeMax + 1
    · exact Or.inl (if_pos hend)
    · exact Or.inr ⟨hdone, turn_succ' hturn hend⟩

theorem Turns.whileLoop (inv : Turns C s status tr) (ht : ∀ p, status t ≠ .asleep () p)
    (hw : Wakes status (whileLoop C (roleOf t) s).wake st) :
    Turns C (whileLoop C (roleOf t) s).shared
      (update st t (whileLoop C (roleOf t) s).exit.status)
      (tr ++ (whileLoop C (roleOf t) s).events) := by
  unfold CountRange.whileLoop at hw ⊢
  split
  · rename_i hwaits
    rw [if_pos hwaits] at hw
    obtain rfl := hw.eq_of_none
    rw [List.append_nil]
    exact inv.stays rfl (fun _ _ => (waits_iff C _ s).mp hwaits) nofun
  · rename_i hwaits
    rw [if_neg hwaits] at hw
    split
    · rename_i hdone
      rw [if_pos hdone] at hw
      obtain rfl := hw.eq_of_none
      rw [List.append_nil]
      exact inv.stays rfl nofun fun r h => by simp [Exit.status] at h
    · rename_i hdone
      rw [if_neg hdone] at hw
      have hdone := Bool.eq_false_of_not_eq_true hdone
      have hturn : turn C s.count = roleOf t := by
        by_contra hne
        exact hwaits ((waits_iff C _ s).mpr ⟨hdone, hne⟩)
      exact inv.increment hdone hturn ht hw

theorem turns_of_trans {σ σ' : State Shared Unit Code Local 2} {a : Act Unit 2}
    {es : List (Role × Nat)} (h : Trans (program C) σ a es σ') (inv : Turns C σ.shared σ.status tr) :
    Turns C σ'.shared σ'.status (tr ++ es) := by
  cases h with
  | spurious t c p ht =>
    rw [List.append_nil]
    have hrole := inv.role t
    rw [ht] at hrole
    exact inv.stays hrole nofun nofun
  | run _ t p st ha ht hw =>
    have hrole := inv.role t
    have hawake : ∀ p, σ.status t ≠ .asleep () p := by
      intro q hq
      rw [hq] at ht
      cases ht
    have hp : p.role = roleOf t := by
      rcases ht.outside_or_woken with ⟨l, o, hl, hcall⟩ | hwoken
      · rw [hl] at hrole
        simp only [program] at hcall
        split at hcall
        · obtain rfl := Option.some.inj hcall
          exact hrole
        · obtain rfl := Option.some.inj hcall
          exact hrole
        · cases hcall
      · rw [hwoken] at hrole
        exact hrole
    cases p with
    | lock r =>
      obtain rfl : r = roleOf t := hp
      exact inv.whileLoop hawake hw
    | awake r =>
      obtain rfl : r = roleOf t := hp
      exact inv.whileLoop hawake hw
    | check r =>
      obtain rfl : r = roleOf t := hp
      obtain rfl := hw.eq_of_none
      show Turns C σ.shared (update σ.status t
        (.outside ⟨roleOf t, if σ.shared.done then .exited else .looping⟩)) (tr ++ [])
      rw [List.append_nil]
      refine inv.stays rfl nofun fun r h => ?_
      have hplace := congrArg Local.place (Status.outside.inj h)
      dsimp only at hplace
      split at hplace
      · assumption
      · cases hplace

end Step

theorem turns_initState (C : Config) : Turns C initState.shared initState.status [] := by
  have hpos := C.max_lt
  refine ⟨rfl, Nat.zero_le _, ?_, fun _ => rfl, nofun, fun t r h => ?_⟩
  · simp only [initState, Bool.false_eq_true, false_iff]
    omega
  · simp [initState] at h

/-- **Counting in turn.** Whatever the schedule, with spurious wake-ups: number `k + 1` is printed once,
    after `k`, by `functionCount2` if `k` is in the range and by `functionCount1` if not, and nothing is
    printed after `COUNT_DONE`. Between the sections: the thread whose turn it is does not sleep, and
    when `done` is set nobody sleeps; a thread exits only then. -/
theorem counted_in_turn (C : Config) (acts : List (Act Unit 2)) (s : State Shared Unit Code Local 2)
    (tr : List (Role × Nat)) (hr : (threads (program C) 2).run initState acts = some (s, tr)) :
    (tr.length = s.shared.count ∧ s.shared.count ≤ C.countDone ∧
      ∀ k e, tr[k]? = some e →
        e = (if C.rangeMin ≤ k ∧ k ≤ C.rangeMax then .count2 else .count1, k + 1)) ∧
    (s.shared.done = true ↔ s.shared.count = C.countDone) ∧
    (∀ t, (s.status t).isAsleep = true →
      s.shared.done = false ∧ turn C s.shared.count ≠ roleOf t) ∧
    (∀ t r, s.status t = .outside ⟨r, .exited⟩ → tr.length = C.countDone) := by
  have inv := (threads (program C) 2).run_induct (fun _ => True)
    (fun s tr => Turns C s.shared s.status tr)
    (fun _ _ _ _ _ _ inv hs => turns_of_trans (trans_of_step hs) inv) (fun _ _ => trivial)
    (turns_initState C) hr
  have hlength : tr.length = s.shared.count := by
    rw [inv.trace, List.length_map, List.length_range]
  refine ⟨⟨hlength, inv.le, fun k e hk => ?_⟩, inv.done, fun t ht => ?_, fun t r ht => ?_⟩
  · rw [inv.trace, List.getElem?_map, Option.map_eq_some_iff] at hk
    obtain ⟨j, hj, rfl⟩ := hk
    obtain ⟨_, hj⟩ := List.getElem?_eq_some_iff.mp hj
    rw [← hj, List.getElem_range]
    rfl
  · cases hx : s.status t with
    | outside l =>
      rw [hx] at ht
      cases ht
    | woken p =>
      rw [hx] at ht
      cases ht
    | asleep c p => exact inv.asleep t p hx
  · rw [hlength]
    exact inv.done.mp (inv.exited t r ht)

/-- Thread 2 sleeps, thread 1 counts to the range and wakes it; thread 2 counts through it, and so on to
    the end. -/
def fullRun : List (Act Unit 2) :=
  [.call 1 () none, .call 0 () none, .call 0 () none, .call 0 () none, .call 0 () none,
    .call 0 () (some 1), .call 0 () none, .call 0 () none, .resume 1 none, .call 1 () none,
    .spurious 0, .resume 0 none, .call 1 () none, .call 1 () none, .call 1 () none, .call 1 () none,
    .call 1 () (some 0), .call 1 () none, .call 1 () none, .resume 0 none, .call 0 () none,
    .call 0 () none, .call 0 () none, .call 0 () (some 1), .call 0 () none, .resume 1 none,
    .call 1 () none]

theorem counted_in_turn_fullRun :
    ∃ s tr, (threads (program .source) 2).run initState fullRun = some (s, tr) ∧
      (∀ t, s.status t = .outside ⟨roleOf t, .exited⟩) ∧ tr.length = 10 := by
  obtain ⟨s, tr, hr, hexited⟩ := (threads (program .source) 2).exists_of_check initState fullRun
    (fun s _ => ∀ t, s.status t = .outside ⟨roleOf t, .exited⟩) (by decide +kernel)
  exact ⟨s, tr, hr, hexited,
    (counted_in_turn .source fullRun s tr hr).2.2.2 0 (roleOf 0) (hexited 0)⟩

end DemosOsLinux.CountRange
