/-
  Exchanges come in pairs.

  The second thread of a pair returns at once; the first one returns when it has the mutex again,
  and until then no other exchange can start. So the calls that have returned are pairs, but for
  one call while `state` is `SECOND_ARRIVED`: its partner is the thread in `cv_main.wait`, whose
  variable already holds the value it will end with (`HalfDone`).
  * `Numbered`: a call returns once.
  * `paired_of_moves`: what one step does to the pairs.
  * `exchange_pairs`: in every run the calls are in disjoint pairs that swapped their values, no
    `CHECK_ASSERT` fails, `ptr` is null or points into a call in progress, and at most one thread
    waits on `cv_main`.
-/
import DemosOsLinux.Exchanger.Exchange

namespace DemosOsLinux.Exchanger

open Lib Lib.Monitor Function

variable {T : Type} {n : Nat}

def completed (tr : List (Event T n)) : List (Done T n) :=
  tr.filterMap fun
    | .done d => some d
    | .failed _ => none

theorem completed_append (tr es : List (Event T n)) :
    completed (tr ++ es) = completed tr ++ completed es := List.filterMap_append

/-- The calls fall into pairs; each call of a pair ends with what the other one brought. -/
def Paired (ds : List (Done T n)) : Prop :=
  ∃ pairs : List (Done T n × Done T n), (pairs.flatMap fun p => [p.1, p.2]).Perm ds ∧
    ∀ p ∈ pairs, p.1.ended = p.2.brought ∧ p.2.ended = p.1.brought

theorem Paired.append {ds : List (Done T n)} (h : Paired ds) {a b : Done T n}
    (hab : a.ended = b.brought) (hba : b.ended = a.brought) : Paired (ds ++ [a, b]) := by
  obtain ⟨pairs, hperm, hpairs⟩ := h
  refine ⟨pairs ++ [(a, b)], ?_, List.forall_mem_append.mpr ⟨hpairs, ?_⟩⟩
  · rw [List.flatMap_append]
    exact hperm.append_right [a, b]
  · exact List.forall_mem_singleton.mpr ⟨hab, hba⟩

/-! ## A call returns once -/

def Code.call : Code T n → Call n
  | .arrive c _ | .enter c _ | .main c _ => c

/-- The call in progress, or the next one. -/
def callOf : St T n → Call n
  | .outside (.idle c) | .outside (.entering c _) => c
  | .asleep _ p | .woken p => p.call

structure Numbered (s : Sys T n) (tr : List (Event T n)) : Prop where
  once : ((completed tr).map Done.call).Nodup
  before : ∀ d ∈ completed tr, d.call.k < (callOf (s.status d.call.me)).k

section Numbered

variable {s s' : Sys T n} {es tr : List (Event T n)} {t : Fin n}

theorem callOf_wakes {status st : Fin n → St T n} {w : Wake Cond} (hw : Wakes status w st)
    (u : Fin n) : callOf (st u) = callOf (status u) := by
  rcases hw.same_or_woken u with h | ⟨c, p, hc, hp⟩
  · rw [h]
  · rw [hc, hp]
    rfl

theorem callOf_update {status : Fin n → St T n} {x : St T n} (h : callOf x = callOf (status t))
    (u : Fin n) : callOf (update status t x u) = callOf (status u) := by
  by_cases e : u = t
  · rw [e, update_self, h]
  · rw [update_of_ne e]

theorem callOf_entering {c : Call n} {v : T}
    (ht : s.status t = .outside (.entering c v) ∨ s.status t = .woken (.enter c v)) :
    callOf (s.status t) = c := by
  rcases ht with ht | ht
  · rw [ht]
    rfl
  · rw [ht]
    rfl

/-- A step that ends no call keeps the calls in progress; one that ends a call starts the number
    of the next. -/
theorem callOf_of_moves (inv : Placed s) (h : Moves s es s') :
    (es = [] ∧ ∀ u, callOf (s'.status u) = callOf (s.status u)) ∨
    ∃ d, es = [.done d] ∧ callOf (s.status d.call.me) = d.call ∧
      callOf (s'.status d.call.me) = d.call.next ∧
      ∀ u, u ≠ d.call.me → callOf (s'.status u) = callOf (s.status u) := by
  cases h with
  | arrive t c v ht => exact Or.inl ⟨rfl, callOf_update (by rw [ht]; rfl)⟩
  | overflow t c v ht hs => exact Or.inl ⟨rfl, callOf_update (callOf_entering ht).symm⟩
  | first t c v ht hs => exact Or.inl ⟨rfl, callOf_update (callOf_entering ht).symm⟩
  | again t c v ht hs => exact Or.inl ⟨rfl, callOf_update (by rw [ht]; rfl)⟩
  | spurious t c p ht => exact Or.inl ⟨rfl, callOf_update (by rw [ht]; rfl)⟩
  | second t c v q st ht hs hq hw =>
    obtain ⟨⟨rfl, _⟩, _⟩ := inv.entering ht
    refine Or.inr ⟨_, rfl, callOf_entering ht, ?_, ?_⟩
    · simp only [update_self]
      rfl
    · intro u hu
      simp only [update_of_ne hu]
      exact callOf_wakes hw u
  | last t c v st ht hs hw =>
    have hplace := inv.place t
    rw [ht] at hplace
    obtain ⟨rfl, _⟩ := hplace
    refine Or.inr ⟨_, rfl, by simp only [ht]; rfl, ?_, ?_⟩
    · simp only [update_self]
      rfl
    · intro u hu
      simp only [update_of_ne hu]
      exact callOf_wakes hw u

/-- The call in progress of a thread has not returned. -/
theorem Numbered.not_mem (h : Numbered s tr) {c : Call n} (hc : callOf (s.status c.me) = c) :
    c ∉ (completed tr).map Done.call := by
  intro hmem
  obtain ⟨d, hd, rfl⟩ := List.mem_map.mp hmem
  have hlt := h.before d hd
  rw [hc] at hlt
  exact Nat.lt_irrefl _ hlt

theorem numbered_of_moves (inv : Placed s) (hn : Numbered s tr) (h : Moves s es s') :
    Numbered s' (tr ++ es) := by
  rcases callOf_of_moves inv h with ⟨rfl, hcall⟩ | ⟨d, rfl, hcall, hnext, hother⟩
  · rw [List.append_nil]
    refine ⟨hn.once, fun d hd => ?_⟩
    rw [hcall]
    exact hn.before d hd
  · have hdone : completed (tr ++ [.done d]) = completed tr ++ [d] := completed_append ..
    refine ⟨?_, ?_⟩
    · rw [hdone, List.map_append]
      refine List.Nodup.append hn.once (List.nodup_singleton _) ?_
      rw [List.map_singleton, List.disjoint_singleton]
      exact hn.not_mem hcall
    · rw [hdone]
      intro e he
      rcases List.mem_append.mp he with he | he
      · have hlt := hn.before e he
        by_cases hme : e.call.me = d.call.me
        · rw [hme, hcall] at hlt
          rw [hme, hnext]
          exact Nat.lt_succ_of_lt hlt
        · rw [hother _ hme]
          exact hlt
      · obtain rfl := List.mem_singleton.mp he
        rw [hnext]
        exact Nat.lt_succ_self _

end Numbered

/-! ## The pairs -/

/-- The call `d` is in progress, and its variable already holds the value it will end with. -/
def Ending (s : Sys T n) (d : Done T n) : Prop :=
  s.status d.call.me = .woken (.main d.call d.brought) ∧ s.shared.arg d.call.me = d.ended

/-- The other call of the pair of which one call has returned: `none` unless a hand-over is on. -/
def HalfDone (s : Sys T n) : Option (Done T n) → Prop
  | none => s.shared.state ≠ .secondArrived
  | some d => s.shared.state = .secondArrived ∧ Ending s d

section Pairs

variable {s s' : Sys T n} {es tr : List (Event T n)} {t : Fin n} {o : Option (Done T n)}

/-- A thread that is not the one in `cv_main.wait` moves, and no hand-over starts or ends. -/
theorem HalfDone.frame (h : HalfDone s o) (hstate : s'.shared.state = s.shared.state)
    (hkeep : ∀ u, (s.status u).isWoken = true → inMain (s.status u) = true →
      s'.status u = s.status u ∧ s'.shared.arg u = s.shared.arg u) : HalfDone s' o := by
  cases o with
  | none => exact fun hs => h (hstate ▸ hs)
  | some d =>
    obtain ⟨hs, hst, harg⟩ := h
    obtain ⟨h1, h2⟩ := hkeep d.call.me (by rw [hst]; rfl) (by rw [hst]; rfl)
    exact ⟨hstate.trans hs, h1.trans hst, h2.trans harg⟩

theorem HalfDone.none_of_state (h : HalfDone s o) (hs : s.shared.state ≠ .secondArrived) :
    o = none := by
  cases o with
  | none => rfl
  | some d => exact absurd h.1 hs

/-- The pairs after a step. -/
theorem paired_of_moves (inv : Placed s) (h : Moves s es s') (ho : HalfDone s o)
    (hp : Paired (completed tr ++ o.toList)) :
    ∃ o', HalfDone s' o' ∧ Paired (completed (tr ++ es) ++ o'.toList) := by
  have hkeep : Paired (completed (tr ++ []) ++ o.toList) := by rwa [List.append_nil]
  cases h with
  | arrive t c v ht =>
    have hme := inv.place t
    rw [ht] at hme
    refine ⟨o, ho.frame rfl fun u hu _ => ?_, hkeep⟩
    have hne : u ≠ t := by
      rintro rfl
      rw [ht] at hu
      cases hu
    exact ⟨update_of_ne hne _ _, update_of_ne (fun e => hne (e.trans hme)) _ _⟩
  | overflow t c v ht hs =>
    refine ⟨o, ho.frame rfl fun u _ hu => ?_, hkeep⟩
    have hne : u ≠ t := by
      rintro rfl
      rw [(inv.entering ht).2] at hu
      cases hu
    exact ⟨update_of_ne hne _ _, rfl⟩
  | first t c v ht hs =>
    obtain rfl := ho.none_of_state (by rw [hs]; decide)
    exact ⟨none, (by simp [HalfDone]), hkeep⟩
  | again t c v ht hs =>
    obtain rfl := ho.none_of_state (by rw [hs]; decide)
    exact ⟨none, ho, hkeep⟩
  | spurious t c p ht =>
    refine ⟨o, ho.frame rfl fun u hu _ => ?_, hkeep⟩
    have hne : u ≠ t := by
      rintro rfl
      rw [ht] at hu
      cases hu
    exact ⟨update_of_ne hne _ _, rfl⟩
  | second t c v q st ht hs hq hw =>
    obtain rfl := ho.none_of_state (by rw [hs]; decide)
    obtain ⟨⟨rfl, harg⟩, _⟩ := inv.entering ht
    obtain ⟨c', v', hst, rfl, harg'⟩ := inv.handOver hs hq hw
    have hne : c'.me ≠ c.me := inv.pointed_ne ht hs hq
    have hmine : swap s.shared.arg c.me c'.me c.me = v' := by
      rw [swap, update_of_ne (Ne.symm hne), update_self, harg']
    have hother : swap s.shared.arg c.me c'.me c'.me = v := by
      rw [swap, update_self, harg]
    refine ⟨some ⟨c', v', v⟩, ⟨rfl, ?_, hother⟩, ?_⟩
    · exact (update_of_ne hne _ _).trans hst
    · have h := (show Paired (completed tr) by simpa using hp).append (a := ⟨c, v, v'⟩)
        (b := ⟨c', v', v⟩) rfl rfl
      rw [completed_append, List.append_assoc, hmine]
      exact h
  | last t c v st ht hs hw =>
    cases o with
    | none => exact absurd hs ho
    | some d =>
      obtain ⟨_, hst, harg⟩ := ho
      -- the call that is half done is the one that returns
      obtain ⟨_, hptr, _⟩ := (hst ▸ inv.place d.call.me : Place s.shared d.call.me (.woken _))
      have hplace := inv.place t
      rw [ht] at hplace
      obtain ⟨rfl, hptr', _⟩ := hplace
      have hme : d.call.me = c.me := Option.some.inj (hptr.symm.trans hptr')
      rw [hme, ht] at hst
      cases hst
      refine ⟨none, (by simp [HalfDone]), ?_⟩
      rw [completed_append, harg, Option.toList_none, List.append_nil]
      exact hp

end Pairs

/-! ## All runs -/

structure PairInv (s : Sys T n) (tr : List (Event T n)) : Prop where
  placed : Placed s
  numbered : Numbered s tr
  paired : ∃ o, HalfDone s o ∧ Paired (completed tr ++ o.toList)
  checked : ∀ a, Event.failed a ∉ tr

theorem pairInv_of_run {arg : Fin n → T} {acts : List (Act (Op T) n)} {s : Sys T n}
    {tr : List (Event T n)}
    (hr : (threads program n).run (initState arg) acts = some (s, tr)) : PairInv s tr := by
  refine (threads program n).run_induct (fun _ => True) PairInv ?_ (fun _ _ => trivial) ?_ hr
  · intro s tr a s' es _ inv hs
    have hm := moves_of_trans inv.placed (trans_of_step hs)
    obtain ⟨o, ho, hp⟩ := inv.paired
    refine ⟨placed_of_moves inv.placed hm, numbered_of_moves inv.placed inv.numbered hm,
      paired_of_moves inv.placed hm ho hp, ?_⟩
    intro a ha
    rcases List.mem_append.mp ha with ha | ha
    · exact inv.checked a ha
    · rcases callOf_of_moves inv.placed hm with ⟨rfl, _⟩ | ⟨d, rfl, _⟩
      · cases ha
      · cases List.mem_singleton.mp ha
  · refine ⟨placed_init arg, ⟨List.nodup_nil, fun d hd => (by cases hd)⟩,
      ⟨none, (by simp [HalfDone, initState]), [], List.Perm.refl _, fun p hp => (by cases hp)⟩, ?_⟩
    intro a ha
    cases ha

/-- In a call of `exchange`. -/
def inExchange : St T n → Bool
  | .outside (.idle _) => false
  | _ => true

theorem inExchange_of_inMain {x : St T n} (h : inMain x = true) : inExchange x = true := by
  cases x with
  | outside l => cases h
  | _ => rfl

/-- **Pairs.** Any number of threads that call `exchange` again and again with any values, any
    interleaving with spurious wake-ups: the calls that have returned, with at most one call that
    is about to, fall into disjoint pairs, and each call of a pair ends with the value the other
    one brought. No `CHECK_ASSERT` fails, `ptr` is null or points to the variable of a call in
    progress, and at most one thread is in `cv_main.wait`. -/
theorem exchange_pairs (arg : Fin n → T) (acts : List (Act (Op T) n))
    (s : State (Shared T n) Cond (Code T n) (Local T n) n) (tr : List (Event T n))
    (hr : (threads program n).run (initState arg) acts = some (s, tr)) :
    (∃ rest : List (Done T n), rest.length ≤ 1 ∧ (∀ d ∈ rest, Ending s d) ∧
      Paired (completed tr ++ rest) ∧ ((completed tr ++ rest).map Done.call).Nodup) ∧
    (∀ a, Event.failed a ∉ tr) ∧
    (∀ t, s.shared.ptr = some t → inExchange (s.status t) = true) ∧
    (∀ t u, inMain (s.status t) = true → inMain (s.status u) = true → t = u) := by
  have inv := pairInv_of_run hr
  obtain ⟨o, ho, hp⟩ := inv.paired
  refine ⟨⟨o.toList, ?_, ?_, hp, ?_⟩, inv.checked, ?_, ?_⟩
  · cases o <;> simp
  · intro d hd
    obtain rfl := Option.mem_toList.mp hd
    exact ho.2
  · rw [List.map_append]
    refine List.Nodup.append inv.numbered.once (by cases o <;> simp) ?_
    intro c hc hmem
    obtain ⟨d, hd, rfl⟩ := List.mem_map.mp hmem
    obtain rfl := Option.mem_toList.mp hd
    refine inv.numbered.not_mem ?_ hc
    rw [ho.2.1]
    rfl
  · intro t ht
    obtain ⟨q, hq, hmain⟩ := inv.placed.pointed (fun h => by
      rw [inv.placed.empty h] at ht
      cases ht)
    rw [ht] at hq
    obtain rfl := Option.some.inj hq
    exact inExchange_of_inMain hmain
  · intro t u ht hu
    have h1 := (inv.placed.place t).ptr_of_inMain ht
    have h2 := (inv.placed.place u).ptr_of_inMain hu
    exact Option.some.inj (h1.symm.trans h2)

/-- Two threads exchange 1 and 2 while a third comes in the hand-over; then it exchanges with one
    that is back already. -/
def overflowRun (a b c : Fin n) : List (Act (Op Nat) n) :=
  [.call a (.exchange 1) none, .call a .lock none, .call b (.exchange 2) none,
    .call b .lock (some a), .call c (.exchange 3) none, .call c .lock none, .resume a none,
    .resume c none, .call b (.exchange 4) none, .call b .lock (some c)]

theorem exchange_pairs_overflowRun :
    ∃ s tr, (threads program 3).run (initState fun _ => 0) (overflowRun 0 1 2) = some (s, tr) ∧
      completed tr = [⟨⟨1, 0⟩, 2, 1⟩, ⟨⟨0, 0⟩, 1, 2⟩, ⟨⟨1, 1⟩, 4, 3⟩] ∧
      ∃ rest : List (Done Nat 3), rest.length ≤ 1 ∧ (∀ d ∈ rest, Ending s d) ∧
        Paired (completed tr ++ rest) := by
  obtain ⟨s, tr, hr, hu⟩ := (threads program 3).exists_of_check (initState fun _ => 0)
    (overflowRun 0 1 2)
    (fun _ tr => completed tr = [⟨⟨1, 0⟩, 2, 1⟩, ⟨⟨0, 0⟩, 1, 2⟩, ⟨⟨1, 1⟩, 4, 3⟩])
    (by decide +kernel)
  obtain ⟨rest, hlen, hend, hpair, _⟩ := (exchange_pairs _ (overflowRun 0 1 2) s tr hr).1
  exact ⟨s, tr, hr, hu, rest, hlen, hend, hpair⟩

end DemosOsLinux.Exchanger
