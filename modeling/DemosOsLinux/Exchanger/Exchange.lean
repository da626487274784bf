/-
  The exchanger (exercises/cpp/multi_threading/exchanger/solution.cc).

  A monitor with the condition variables `cv_main` and `cv_overflow`. `exchange(t)` takes its
  argument by reference: `ptr` names the thread whose variable it points to, and the variables of
  the callers are part of the shared data, since the second thread of a pair writes the variable
  of the first. A thread that has called `exchange` and not had the mutex yet is `entering`.
  Each call has a name (`Call`: its thread, and how many calls this thread made before) and
  carries the value it brought; both are only recorded, the code does not look at them.
  * `Place`: what holds of the shared data for a thread at each place of `exchange`.
  * `Moves`, `moves_of_trans`: what one step can do when every thread is in its place; no
    `CHECK_ASSERT` fails.
  * `placed_of_moves`: every step keeps the threads in their places.
-/
import DemosOsLinux.Lib.Monitor

namespace DemosOsLinux.Exchanger

open Lib Lib.Monitor Function

variable {T : Type} {n : Nat}

/-- `enum { EMPTY, FIRST_ARRIVED, SECOND_ARRIVED } state`. -/
inductive Phase where
  | empty
  | firstArrived
  | secondArrived
  deriving DecidableEq

/-- The call of `exchange` that thread `me` makes after `k` others. -/
structure Call (n : Nat) where
  me : Fin n
  k : Nat
  deriving DecidableEq

def Call.next (c : Call n) : Call n := ⟨c.me, c.k + 1⟩

/-- `Exchanger<T>` without its mutex and condition variables, and the callers' variables. -/
structure Shared (T : Type) (n : Nat) where
  ptr : Option (Fin n)
  state : Phase
  arg : Fin n → T

inductive Cond where
  | main
  | overflow
  deriving DecidableEq

/-- What a thread runs when it has the mutex; `v` is the value it brought. -/
inductive Code (T : Type) (n : Nat) where
  /-- The caller: it sets its variable and calls `exchange`. -/
  | arrive (c : Call n) (v : T)
  /-- `exchange` from its first `while` on. -/
  | enter (c : Call n) (v : T)
  /-- The first thread of a pair, from its `while (state == FIRST_ARRIVED)` on. -/
  | main (c : Call n) (v : T)

inductive Local (T : Type) (n : Nat) where
  | idle (c : Call n)
  | entering (c : Call n) (v : T)

inductive Op (T : Type) where
  | exchange (v : T)
  | lock

/-- The `CHECK_ASSERT`s of `exchange`, in the order of the source. -/
inductive Assertion where
  | arrived
  | ptrNull
  | exchanged
  | ptrSet

/-- A call that has returned: the value it brought and the value its variable ended with. -/
structure Done (T : Type) (n : Nat) where
  call : Call n
  brought : T
  ended : T
  deriving DecidableEq

inductive Event (T : Type) (n : Nat) where
  | done (d : Done T n)
  | failed (a : Assertion)

abbrev Sec (T : Type) (n : Nat) := Section (Shared T n) Cond (Code T n) (Local T n) (Event T n)

abbrev St (T : Type) (n : Nat) := Status Cond (Code T n) (Local T n)

abbrev Sys (T : Type) (n : Nat) := State (Shared T n) Cond (Code T n) (Local T n) n

/-- `CHECK_ASSERT`; a failure ends the program, here it is an event. -/
def checkAssert (ok : Bool) (a : Assertion) (c : Call n) (x : Shared T n) (rest : Sec T n) :
    Sec T n :=
  if ok then rest else ⟨x, .none, .leave (.idle c.next), [.failed a]⟩

def arrive (c : Call n) (v : T) (x : Shared T n) : Sec T n :=
  ⟨{ x with arg := update x.arg c.me v }, .none, .leave (.entering c v), []⟩

/-- `while (state == FIRST_ARRIVED)` and what follows it. -/
def mainLoop (c : Call n) (v : T) (x : Shared T n) : Sec T n :=
  if x.state = .firstArrived then ⟨x, .none, .wait .main (.main c v), []⟩
  else
    checkAssert (x.state = .secondArrived) .exchanged c x
      ⟨{ x with ptr := none, state := .empty }, .broadcast .overflow, .leave (.idle c.next),
        [.done ⟨c, v, x.arg c.me⟩]⟩

/-- `case EMPTY`. -/
def first (c : Call n) (v : T) (x : Shared T n) : Sec T n :=
  checkAssert x.ptr.isNone .ptrNull c x
    (mainLoop c v { x with ptr := some c.me, state := .firstArrived })

/-- `swap(t, *ptr)` with `t` the variable of `me` and `ptr` that of `q`. -/
def swap (arg : Fin n → T) (me q : Fin n) : Fin n → T :=
  update (update arg me (arg q)) q (arg me)

/-- `case FIRST_ARRIVED`. -/
def second (c : Call n) (v : T) (x : Shared T n) : Sec T n :=
  match x.ptr with
  | none => checkAssert false .ptrSet c x ⟨x, .none, .leave (.idle c.next), []⟩
  | some q =>
      ⟨{ x with state := .secondArrived, arg := swap x.arg c.me q }, .signal .main,
        .leave (.idle c.next), [.done ⟨c, v, swap x.arg c.me q c.me⟩]⟩

/-- `exchange`. -/
def exchange (c : Call n) (v : T) (x : Shared T n) : Sec T n :=
  if x.state = .secondArrived then ⟨x, .none, .wait .overflow (.enter c v), []⟩
  else
    checkAssert (x.state = .empty || x.state = .firstArrived) .arrived c x
      (match x.state with
        | .empty => first c v x
        | .firstArrived => second c v x
        | .secondArrived => ⟨x, .none, .leave (.idle c.next), [.done ⟨c, v, x.arg c.me⟩]⟩)

def program : Program (Shared T n) Cond (Code T n) (Local T n) (Op T) (Event T n) where
  call
    | .idle c, .exchange v => some (.arrive c v)
    | .entering c v, .lock => some (.enter c v)
    | _, _ => none
  body
    | .arrive c v => arrive c v
    | .enter c v => exchange c v
    | .main c v => mainLoop c v

/-- `arg` is what the callers' variables hold at first. -/
def initState (arg : Fin n → T) : Sys T n :=
  ⟨⟨none, .empty, arg⟩, fun t => .outside (.idle ⟨t, 0⟩)⟩

/-! ## The places of the threads -/

/-- What holds of the shared data while thread `t` has status `x`. -/
def Place (d : Shared T n) (t : Fin n) : St T n → Prop
  | .outside (.idle c) => c.me = t
  | .outside (.entering c v) => c.me = t ∧ d.arg t = v
  | .asleep .overflow (.enter c v) => (c.me = t ∧ d.arg t = v) ∧ d.state = .secondArrived
  | .woken (.enter c v) => c.me = t ∧ d.arg t = v
  | .asleep .main (.main c v) =>
      c.me = t ∧ d.ptr = some t ∧ d.state = .firstArrived ∧ d.arg t = v
  | .woken (.main c v) =>
      c.me = t ∧ d.ptr = some t ∧ d.state ≠ .empty ∧ (d.state = .firstArrived → d.arg t = v)
  | _ => False

/-- Asleep or woken in `cv_main.wait`. -/
def inMain : St T n → Bool
  | .asleep .main _ | .woken (.main _ _) => true
  | _ => false

structure Placed (s : Sys T n) : Prop where
  place : ∀ t, Place s.shared t (s.status t)
  empty : s.shared.state = .empty → s.shared.ptr = none
  pointed : s.shared.state ≠ .empty → ∃ t, s.shared.ptr = some t ∧ inMain (s.status t) = true

/-! ## What one step can do -/

inductive Moves (s : Sys T n) : List (Event T n) → Sys T n → Prop
  | arrive (t : Fin n) (c : Call n) (v : T) (ht : s.status t = .outside (.idle c)) :
      Moves s [] ⟨{ s.shared with arg := update s.shared.arg c.me v },
        update s.status t (.outside (.entering c v))⟩
  | overflow (t : Fin n) (c : Call n) (v : T)
      (ht : s.status t = .outside (.entering c v) ∨ s.status t = .woken (.enter c v))
      (hs : s.shared.state = .secondArrived) :
      Moves s [] ⟨s.shared, update s.status t (.asleep .overflow (.enter c v))⟩
  | first (t : Fin n) (c : Call n) (v : T)
      (ht : s.status t = .outside (.entering c v) ∨ s.status t = .woken (.enter c v))
      (hs : s.shared.state = .empty) :
      Moves s [] ⟨{ s.shared with ptr := some c.me, state := .firstArrived },
        update s.status t (.asleep .main (.main c v))⟩
  | second (t : Fin n) (c : Call n) (v : T) (q : Fin n) (st : Fin n → St T n)
      (ht : s.status t = .outside (.entering c v) ∨ s.status t = .woken (.enter c v))
      (hs : s.shared.state = .firstArrived) (hq : s.shared.ptr = some q)
      (hw : Wakes s.status (.signal .main) st) :
      Moves s [.done ⟨c, v, swap s.shared.arg c.me q c.me⟩]
        ⟨{ s.shared with state := .secondArrived, arg := swap s.shared.arg c.me q },
          update st t (.outside (.idle c.next))⟩
  | again (t : Fin n) (c : Call n) (v : T) (ht : s.status t = .woken (.main c v))
      (hs : s.shared.state = .firstArrived) :
      Moves s [] ⟨s.shared, update s.status t (.asleep .main (.main c v))⟩
  | last (t : Fin n) (c : Call n) (v : T) (st : Fin n → St T n)
      (ht : s.status t = .woken (.main c v)) (hs : s.shared.state = .secondArrived)
      (hw : Wakes s.status (.broadcast .overflow) st) :
      Moves s [.done ⟨c, v, s.shared.arg c.me⟩]
        ⟨{ s.shared with ptr := none, state := .empty },
          update st t (.outside (.idle c.next))⟩
  | spurious (t : Fin n) (c : Cond) (p : Code T n) (ht : s.status t = .asleep c p) :
      Moves s [] ⟨s.shared, update s.status t (.woken p)⟩

variable {c : Call n} {v : T} {p : Code T n}

section Moves

variable {s s' : Sys T n} {es : List (Event T n)}
  {t : Fin n} {st : Fin n → St T n}

theorem moves_of_exchange (inv : Placed s)
    (ht : s.status t = .outside (.entering c v) ∨ s.status t = .woken (.enter c v))
    (hw : Wakes s.status (exchange c v s.shared).wake st) :
    Moves s (exchange c v s.shared).events ⟨(exchange c v s.shared).shared,
      update st t (exchange c v s.shared).exit.status⟩ := by
  cases hs : s.shared.state with
  | secondArrived =>
    have hbody : exchange c v s.shared =
        ⟨s.shared, .none, .wait .overflow (.enter c v), []⟩ := if_pos hs
    rw [hbody] at hw ⊢
    obtain rfl := hw.eq_of_none
    exact .overflow t c v ht hs
  | empty =>
    have hbody : exchange c v s.shared =
        ⟨{ s.shared with ptr := some c.me, state := .firstArrived }, .none,
          .wait .main (.main c v), []⟩ := by
      simp [exchange, hs, checkAssert, Exchanger.first, inv.empty hs, mainLoop]
    rw [hbody] at hw ⊢
    obtain rfl := hw.eq_of_none
    exact .first t c v ht hs
  | firstArrived =>
    obtain ⟨q, hq, _⟩ := inv.pointed (by rw [hs]; decide)
    have hbody : exchange c v s.shared =
        ⟨{ s.shared with state := .secondArrived, arg := swap s.shared.arg c.me q },
          .signal .main, .leave (.idle c.next),
          [.done ⟨c, v, swap s.shared.arg c.me q c.me⟩]⟩ := by
      simp [exchange, hs, checkAssert, Exchanger.second, hq]
    rw [hbody] at hw ⊢
    exact .second t c v q st ht hs hq hw

theorem moves_of_mainLoop (inv : Placed s) (ht : s.status t = .woken (.main c v))
    (hw : Wakes s.status (mainLoop c v s.shared).wake st) :
    Moves s (mainLoop c v s.shared).events ⟨(mainLoop c v s.shared).shared,
      update st t (mainLoop c v s.shared).exit.status⟩ := by
  have hplace := inv.place t
  rw [ht] at hplace
  cases hs : s.shared.state with
  | empty => exact absurd hs hplace.2.2.1
  | firstArrived =>
    have hbody : mainLoop c v s.shared =
        ⟨s.shared, .none, .wait .main (.main c v), []⟩ := if_pos hs
    rw [hbody] at hw ⊢
    obtain rfl := hw.eq_of_none
    exact .again t c v ht hs
  | secondArrived =>
    have hbody : mainLoop c v s.shared =
        ⟨{ s.shared with ptr := none, state := .empty }, .broadcast .overflow,
          .leave (.idle c.next), [.done ⟨c, v, s.shared.arg c.me⟩]⟩ := by
      simp [mainLoop, hs, checkAssert]
    rw [hbody] at hw ⊢
    exact .last t c v st ht hs hw

theorem moves_of_trans {a : Act (Op T) n} (inv : Placed s) (h : Trans program s a es s') :
    Moves s es s' := by
  cases h with
  | spurious t c p ht => exact .spurious t c p ht
  | run _ t p st ha ht hw =>
    rcases ht.outside_or_woken with ⟨l, o, hx, hcall⟩ | hx
    · cases l with
      | idle c =>
        cases o with
        | exchange v =>
          obtain rfl := Option.some.inj hcall
          obtain rfl : st = s.status := Wakes.eq_of_none hw
          exact .arrive t c v hx
        | lock => cases hcall
      | entering c v =>
        cases o with
        | exchange w => cases hcall
        | lock =>
          obtain rfl := Option.some.inj hcall
          exact moves_of_exchange inv (Or.inl hx) hw
    · have hplace := inv.place t
      rw [hx] at hplace
      cases p with
      | arrive c v => exact hplace.elim
      | enter c v => exact moves_of_exchange inv (Or.inr hx) hw
      | main c v => exact moves_of_mainLoop inv hx hw

end Moves

/-! ## Every step keeps the places -/

/-- Neither asleep nor in `cv_main.wait`. -/
def calm (x : St T n) : Bool := !x.isAsleep && !inMain x

section Place

variable {d d' : Shared T n} {t : Fin n} {x : St T n}

/-- A place depends on the thread's own variable, on `ptr` and on `state`. -/
theorem Place.congr (h : Place d t x) (harg : d'.arg t = d.arg t) (hptr : d'.ptr = d.ptr)
    (hstate : d'.state = d.state) : Place d' t x := by
  unfold Place at h ⊢
  simp only [harg, hptr, hstate]
  exact h

/-- The place of a calm thread depends on its own variable only. -/
theorem Place.of_calm (h : Place d t x) (hc : calm x = true) (harg : d'.arg t = d.arg t) :
    Place d' t x := by
  cases x with
  | outside l =>
    cases l with
    | idle c => exact h
    | entering c v => exact ⟨h.1, harg.trans h.2⟩
  | asleep c p => cases hc
  | woken p =>
    cases p with
    | arrive c v => exact h
    | enter c v => exact ⟨h.1, harg.trans h.2⟩
    | main c v => cases hc

theorem Place.wake {c : Cond} (h : Place d t (.asleep c p)) : Place d t (.woken p) := by
  cases c with
  | main =>
    cases p with
    | main c v =>
      obtain ⟨hme, hptr, hstate, harg⟩ := h
      exact ⟨hme, hptr, by rw [hstate]; decide, fun _ => harg⟩
    | _ => exact h.elim
  | overflow =>
    cases p with
    | enter c v => exact h.1
    | _ => exact h.elim

theorem Place.ptr_of_inMain (h : Place d t x) (hx : inMain x = true) : d.ptr = some t := by
  unfold inMain at hx
  split at hx
  · rename_i p
    cases p with
    | main c v => exact h.2.1
    | _ => exact h.elim
  · exact h.2.1
  · cases hx

theorem Place.state_of_asleep {c : Cond} (h : Place d t (.asleep c p)) :
    (c = .main → d.state = .firstArrived) ∧ (c = .overflow → d.state = .secondArrived) := by
  cases c with
  | main =>
    cases p with
    | main c v => exact ⟨fun _ => h.2.2.1, fun hc => by cases hc⟩
    | _ => exact h.elim
  | overflow =>
    cases p with
    | enter c v => exact ⟨fun hc => (by cases hc), fun _ => h.2⟩
    | _ => exact h.elim

end Place

section Keep

variable {s s' : Sys T n} {es : List (Event T n)}
  {t q : Fin n} {st : Fin n → St T n}

theorem Placed.entering (inv : Placed s)
    (ht : s.status t = .outside (.entering c v) ∨ s.status t = .woken (.enter c v)) :
    (c.me = t ∧ s.shared.arg t = v) ∧ inMain (s.status t) = false := by
  have hplace := inv.place t
  rcases ht with ht | ht
  · rw [ht] at hplace ⊢
    exact ⟨hplace, rfl⟩
  · rw [ht] at hplace ⊢
    exact ⟨hplace, rfl⟩

/-- The thread that `ptr` points to stays there when another thread moves. -/
theorem pointed_update {x : St T n} (hq : inMain (s.status q) = true)
    (ht : inMain (s.status t) = false) : inMain (update s.status t x q) = true := by
  have hne : q ≠ t := by
    rintro rfl
    rw [hq] at ht
    cases ht
  rw [update_of_ne hne]
  exact hq

/-- Outside a hand-over, all threads are calm but the one that `ptr` points to. -/
theorem Placed.calm (inv : Placed s) {u : Fin n} (hu : s.shared.ptr ≠ some u)
    (hs : s.shared.state ≠ .secondArrived) : calm (s.status u) = true := by
  have hplace := inv.place u
  have hmain : inMain (s.status u) = false := by
    apply Bool.eq_false_iff.mpr
    intro h
    exact hu (hplace.ptr_of_inMain h)
  cases hx : s.status u with
  | asleep c p =>
    rw [hx] at hplace hmain
    cases c with
    | main => cases hmain
    | overflow => exact absurd (hplace.state_of_asleep.2 rfl) hs
  | _ =>
    rw [hx] at hmain
    simp [Exchanger.calm, hmain, Status.isAsleep]

/-- At the end of a hand-over `notify_all` wakes the threads that kept out of the way. -/
theorem Placed.calm_of_broadcast (inv : Placed s) (hw : Wakes s.status (.broadcast .overflow) st)
    (hs : s.shared.state = .secondArrived) {u : Fin n} (hu : s.shared.ptr ≠ some u) :
    Exchanger.calm (st u) = true := by
  have hplace := inv.place u
  cases hx : s.status u with
  | asleep c p =>
    rw [hx] at hplace
    cases c with
    | main =>
      have hfirst := hplace.state_of_asleep.1 rfl
      rw [hs] at hfirst
      cases hfirst
    | overflow =>
      rcases hw.same_or_woken u with h | ⟨_, q, hc, hq⟩
      · rw [hx] at h
        exact absurd h hw.broadcast_asleep
      · rw [hx] at hc
        cases hc
        rw [hq]
        cases p with
        | enter c v => rfl
        | _ => exact hplace.elim
  | _ =>
    have hst : st u = s.status u := hw.not_asleep fun c p => by rw [hx]; simp
    have hmain : inMain (s.status u) = false := by
      apply Bool.eq_false_iff.mpr
      intro h
      exact hu (hplace.ptr_of_inMain h)
    rw [hx] at hmain
    rw [hst, hx]
    simp [Exchanger.calm, hmain, Status.isAsleep]

theorem Placed.wakes (inv : Placed s) {w : Wake Cond} (hw : Wakes s.status w st) (u : Fin n) :
    Place s.shared u (st u) := by
  have hplace := inv.place u
  rcases hw.same_or_woken u with h | ⟨c, p, hc, hp⟩
  · rwa [h]
  · rw [hc] at hplace
    rw [hp]
    exact hplace.wake

/-- The second thread's `notify_one` finds the first one asleep, or awake already. -/
theorem Placed.handOver (inv : Placed s) (hs : s.shared.state = .firstArrived)
    (hq : s.shared.ptr = some q) (hw : Wakes s.status (.signal .main) st) :
    ∃ c v, st q = .woken (.main c v) ∧ c.me = q ∧ s.shared.arg q = v := by
  obtain ⟨q', hq', hmain⟩ := inv.pointed (by rw [hs]; decide)
  obtain rfl : q = q' := Option.some.inj (hq.symm.trans hq')
  have hplace := inv.place q
  cases hx : s.status q with
  | outside l =>
    rw [hx] at hmain
    cases hmain
  | woken p =>
    rw [hx] at hmain hplace
    cases p with
    | main c v =>
      have hst : st q = s.status q := hw.not_asleep fun c p => by rw [hx]; simp
      exact ⟨c, v, hst.trans hx, hplace.1, hplace.2.2.2 hs⟩
    | _ => cases hmain
  | asleep c p =>
    rw [hx] at hmain hplace
    cases c with
    | overflow => cases hmain
    | main =>
      cases p with
      | main c v =>
        obtain ⟨hme, _, _, harg⟩ := hplace
        refine ⟨c, v, ?_, hme, harg⟩
        cases hw with
        | lost _ hnone => exact absurd hx (hnone q _)
        | signal _ u p hu =>
          -- only the thread that `ptr` points to sleeps on `cv_main`
          have hptr : s.shared.ptr = some u := (inv.place u).ptr_of_inMain (by rw [hu]; rfl)
          obtain rfl : q = u := Option.some.inj (hq.symm.trans hptr)
          rw [hx] at hu
          cases hu
          exact update_self ..
      | _ => exact hplace.elim

theorem Placed.pointed_ne (inv : Placed s)
    (ht : s.status t = .outside (.entering c v) ∨ s.status t = .woken (.enter c v))
    (hs : s.shared.state = .firstArrived) (hq : s.shared.ptr = some q) : q ≠ t := by
  rintro rfl
  obtain ⟨q', hq', hmain⟩ := inv.pointed (by rw [hs]; decide)
  rw [← Option.some.inj (hq.symm.trans hq'), (inv.entering ht).2] at hmain
  cases hmain

theorem swap_of_ne {arg : Fin n → T} {me u : Fin n} (h1 : u ≠ me) (h2 : u ≠ q) :
    swap arg me q u = arg u := by
  rw [swap, update_of_ne h2, update_of_ne h1]

/-- The second thread swaps the values and signals the first one, which is still in its call. -/
theorem Placed.second (inv : Placed s)
    (ht : s.status t = .outside (.entering c v) ∨ s.status t = .woken (.enter c v))
    (hs : s.shared.state = .firstArrived) (hq : s.shared.ptr = some q)
    (hw : Wakes s.status (.signal .main) st) :
    Placed ⟨{ s.shared with state := .secondArrived, arg := swap s.shared.arg c.me q },
      update st t (.outside (.idle c.next))⟩ := by
  obtain ⟨⟨rfl, harg⟩, _⟩ := inv.entering ht
  obtain ⟨c', v', hstq, hmeq, _⟩ := inv.handOver hs hq hw
  have hqt : q ≠ c.me := inv.pointed_ne ht hs hq
  refine ⟨(forall_update_iff _ _).mpr ⟨rfl, ?_⟩, fun h => (by cases h), fun _ => ?_⟩
  · intro u hu
    by_cases e : u = q
    · rw [e, hstq]
      exact ⟨hmeq, hq, by simp, fun h => (by cases h)⟩
    · have hcalm := inv.calm (u := u) (by rw [hq]; simpa using Ne.symm e) (by rw [hs]; decide)
      have hst : st u = s.status u := by
        apply hw.not_asleep
        intro c p hx
        rw [hx] at hcalm
        cases hcalm
      rw [hst]
      exact (inv.place u).of_calm hcalm (swap_of_ne hu e)
  · refine ⟨q, hq, ?_⟩
    simp only [update_of_ne hqt, hstq]
    rfl

/-- A thread in `mainLoop` is still there when it or another thread wakes. -/
theorem Placed.inMain_wake (inv : Placed s) {c : Cond} (ht : s.status t = .asleep c p)
    (hmain : inMain (s.status q) = true) : inMain (update s.status t (.woken p) q) = true := by
  by_cases e : q = t
  · have hplace := inv.place t
    rw [ht] at hplace
    rw [e, ht] at hmain
    rw [e, update_self]
    cases c with
    | overflow => cases hmain
    | main =>
      cases p with
      | main c v => rfl
      | _ => exact hplace.elim
  · rw [update_of_ne e]
    exact hmain

theorem placed_of_moves (inv : Placed s) (h : Moves s es s') : Placed s' := by
  cases h with
  | arrive t c v ht =>
    have hme := inv.place t
    rw [ht] at hme
    obtain rfl : c.me = t := hme
    refine ⟨(forall_update_iff _ _).mpr ⟨⟨rfl, update_self ..⟩, ?_⟩,
      inv.empty, ?_⟩
    · intro u hu
      exact (inv.place u).congr (update_of_ne hu _ _) rfl rfl
    · intro hs
      obtain ⟨q, hq, hmain⟩ := inv.pointed hs
      exact ⟨q, hq, pointed_update hmain (by rw [ht]; rfl)⟩
  | overflow t c v ht hs =>
    obtain ⟨hplace, hmain⟩ := inv.entering ht
    refine ⟨(forall_update_iff _ _).mpr ⟨⟨hplace, hs⟩, fun u _ => inv.place u⟩,
      inv.empty, ?_⟩
    intro hne
    obtain ⟨q, hq, hq'⟩ := inv.pointed hne
    exact ⟨q, hq, pointed_update hq' hmain⟩
  | first t c v ht hs =>
    obtain ⟨⟨rfl, harg⟩, _⟩ := inv.entering ht
    have hnull := inv.empty hs
    refine ⟨(forall_update_iff _ _).mpr ⟨⟨rfl, rfl, rfl, harg⟩, ?_⟩, ?_, ?_⟩
    · intro u _
      refine (inv.place u).of_calm (inv.calm ?_ ?_) rfl
      · rw [hnull]
        simp
      · rw [hs]
        decide
    · intro h
      cases h
    · intro _
      refine ⟨c.me, rfl, ?_⟩
      simp only [update_self]
      rfl
  | second t c v q st ht hs hq hw => exact inv.second ht hs hq hw
  | again t c v ht hs =>
    have hplace := inv.place t
    rw [ht] at hplace
    obtain ⟨hme, hptr, _, harg⟩ := hplace
    refine ⟨(forall_update_iff _ _).mpr
      ⟨⟨hme, hptr, hs, harg hs⟩, fun u _ => inv.place u⟩, inv.empty, ?_⟩
    intro _
    refine ⟨t, hptr, ?_⟩
    simp only [update_self]
    rfl
  | last t c v st ht hs hw =>
    have hplace := inv.place t
    rw [ht] at hplace
    obtain ⟨rfl, hptr, _⟩ := hplace
    refine ⟨(forall_update_iff _ _).mpr ⟨rfl, ?_⟩, fun _ => rfl, fun h => absurd rfl h⟩
    intro u hu
    have hcalm := inv.calm_of_broadcast hw hs (u := u) (by rw [hptr]; simpa using Ne.symm hu)
    exact (inv.wakes hw u).of_calm hcalm rfl
  | spurious t c p ht =>
    have hplace := inv.place t
    rw [ht] at hplace
    refine ⟨(forall_update_iff _ _).mpr ⟨hplace.wake, fun u _ => inv.place u⟩,
      inv.empty, ?_⟩
    intro hne
    obtain ⟨q, hq, hmain⟩ := inv.pointed hne
    exact ⟨q, hq, inv.inMain_wake ht hmain⟩

theorem placed_init (arg : Fin n → T) : Placed (initState arg) :=
  ⟨fun _ => rfl, fun _ => rfl, fun h => absurd rfl h⟩

end Keep

end DemosOsLinux.Exchanger
