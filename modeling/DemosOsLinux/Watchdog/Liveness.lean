/-
  Which children the watchdog restarts at a timeout.

  A heartbeat flag means: a heartbeat since the last moment at which both had been collected
  (`After.got`), for the flags are reset only then, and not at a timeout. What a timeout should
  ask is whether there was a heartbeat since that moment and since the last timeout, whichever is
  later (`Silent`). The two differ if a flag is still set from before the last timeout. A
  heartbeat of either child in between removes the difference: the same child's renews the flag,
  the other child's completes the pair and resets it.
  * `restart_iff_silent`: after any history of signals the next timeout restarts exactly the silent
    children, unless it follows a timeout directly and finds a flag set.
  * `silent_child_not_restarted`: a child that was silent for a whole interval and is kept.
-/
import Mathlib.Data.List.Induction
import DemosOsLinux.Watchdog.Handlers

namespace DemosOsLinux.Watchdog

open Lib Function

inductive Sig where
  | usr (i : Child)
  | alrm
  deriving DecidableEq

def Sig.act : Sig → Act
  | .usr i => .usr i
  | .alrm => .alrm

/-! ## Histories -/

/-- Heartbeats of both children are among these signals. -/
def collected (w : List Sig) : Bool := Sig.usr .one ∈ w && Sig.usr .two ∈ w

/-- The signals since the last `SIGALRM`. -/
def sinceAlarm (h : List Sig) : List Sig :=
  h.foldl (fun w sig => if sig = .alrm then [] else w ++ [sig]) []

/-- The signals since the last moment at which both heartbeats had been collected. -/
def sinceCollected (h : List Sig) : List Sig :=
  h.foldl (fun w sig => if collected (w ++ [sig]) then [] else w ++ [sig]) []

/-- The signals since the later of the two. -/
def sinceLater (h : List Sig) : List Sig :=
  if (sinceAlarm h).length ≤ (sinceCollected h).length then sinceAlarm h else sinceCollected h

/-- No heartbeat of child `i` since then. -/
def Silent (i : Child) (h : List Sig) : Prop := Sig.usr i ∉ sinceLater h

instance (i : Child) (h : List Sig) : Decidable (Silent i h) := inferInstanceAs (Decidable (¬_))

theorem sinceAlarm_append (h : List Sig) (sig : Sig) :
    sinceAlarm (h ++ [sig]) = if sig = .alrm then [] else sinceAlarm h ++ [sig] :=
  List.foldl_append

theorem sinceCollected_append (h : List Sig) (sig : Sig) :
    sinceCollected (h ++ [sig]) =
      if collected (sinceCollected h ++ [sig]) then [] else sinceCollected h ++ [sig] :=
  List.foldl_append

/-- A window that is emptied at some signals is an end of the history. -/
theorem window_suffix (reset : List Sig → Sig → Prop) [∀ w sig, Decidable (reset w sig)]
    (h : List Sig) : h.foldl (fun w sig => if reset w sig then [] else w ++ [sig]) [] <:+ h := by
  induction h using List.reverseRecOn with
  | nil => exact List.suffix_refl _
  | append_singleton h sig ih =>
    rw [List.foldl_append, List.foldl_cons, List.foldl_nil]
    split
    · exact List.nil_suffix
    · obtain ⟨l, hl⟩ := ih
      exact ⟨l, by rw [← List.append_assoc, hl]⟩

theorem sinceAlarm_suffix (h : List Sig) : sinceAlarm h <:+ h :=
  window_suffix (fun _ sig => sig = .alrm) h

theorem sinceCollected_suffix (h : List Sig) : sinceCollected h <:+ h :=
  window_suffix (fun w sig => collected (w ++ [sig]) = true) h

theorem collected_sinceCollected (h : List Sig) : collected (sinceCollected h) = false := by
  induction h using List.reverseRecOn with
  | nil => rfl
  | append_singleton h sig ih =>
    rw [sinceCollected_append]
    split
    · rfl
    · rename_i hc
      exact Bool.eq_false_iff.mpr hc

variable {h : List Sig} {s : State}

theorem mem_sinceCollected_of_later {sig : Sig} (hm : sig ∈ sinceLater h) :
    sig ∈ sinceCollected h := by
  unfold sinceLater at hm
  split at hm
  · rename_i hle
    have hsuf := List.suffix_of_suffix_length_le (sinceAlarm_suffix h) (sinceCollected_suffix h) hle
    exact hsuf.subset hm
  · exact hm

theorem mem_sinceLater_of_last {sig : Sig} (hlast : h.getLast? = some sig) (hne : sig ≠ .alrm)
    (hm : sig ∈ sinceCollected h) : sig ∈ sinceLater h := by
  unfold sinceLater
  split
  · obtain ⟨h', rfl⟩ := List.getLast?_eq_some_iff.mp hlast
    rw [sinceAlarm_append, if_neg hne]
    exact List.mem_append_right _ (List.mem_singleton_self sig)
  · exact hm

/-! ## The flags -/

/-- What holds after the history `h` of signals. -/
structure After (h : List Sig) (s : State) : Prop where
  running : s.ended = none
  known : s.dog.Known
  has : ∀ i, s.dog.has i = true
  got : ∀ i, s.dog.got i = true ↔ Sig.usr i ∈ sinceCollected h
  /-- A heartbeat sets the flag of its child and leaves no other set. -/
  last : ∀ i j, h.getLast? = some (.usr j) → s.dog.got i = true → i = j

theorem handlers_eq (e : Exercise) : handlers e = ⟨heartbeat, timeout, reapChildren⟩ := by
  cases e <;> rfl

theorem after_usr (ha : After h s) (j : Child) :
    After (h ++ [.usr j]) ⟨(heartbeat j s.dog).1, none⟩ := by
  -- the flag before the test is the heartbeat seen or just received
  have hflag (i : Child) : update s.dog.got j true i = true ↔
      Sig.usr i ∈ sinceCollected h ++ [.usr j] := by
    by_cases e : i = j
    · simp [e]
    · simp [e, ha.got i]
  have hboth : collected (sinceCollected h ++ [.usr j]) =
      (update s.dog.got j true .one && update s.dog.got j true .two) := by
    rw [Bool.eq_iff_iff, collected, Bool.and_eq_true, Bool.and_eq_true, decide_eq_true_eq,
      decide_eq_true_eq, hflag .one, hflag .two]
  have hlast (j' : Child) (hl : (h ++ [Sig.usr j]).getLast? = some (.usr j')) : j = j' := by
    simpa using hl
  rw [heartbeat_dog]
  cases hb : update s.dog.got j true .one && update s.dog.got j true .two with
  | true =>
    refine ⟨rfl, ha.known, ha.has, fun i => ?_, fun i j' _ hg => by cases hg⟩
    rw [sinceCollected_append, hboth, hb]
    simp
  | false =>
    refine ⟨rfl, ha.known, ha.has, fun i => ?_, fun i j' hl hg => ?_⟩
    · rw [sinceCollected_append, hboth, hb]
      exact hflag i
    · -- the flag of another child would have completed the pair
      obtain rfl := hlast j' hl
      have hg : update s.dog.got j true i = true := hg
      have hj : update s.dog.got j true j = true := update_self ..
      by_contra hne
      cases i <;> cases j <;> simp_all

theorem after_alrm (ha : After h s) : After (h ++ [.alrm]) ⟨startAll s.dog.silent s.dog, none⟩ := by
  obtain ⟨hgot, hknown, hhas⟩ := startAll_spec s.dog.silent ha.known
  refine ⟨rfl, hknown, fun i => (hhas i).mpr (Or.inr (ha.has i)), fun i => ?_, fun i j hl => ?_⟩
  · have hc : collected (sinceCollected h ++ [.alrm]) = false := by
      have := collected_sinceCollected h
      simpa [collected] using this
    simp only [hgot]
    rw [ha.got i, sinceCollected_append, hc]
    simp
  · simp at hl

/-- Signals alone never make a check fail. -/
theorem after_of_signals (e : Exercise) (h : List Sig) :
    ∃ s tr, (machine e).run initState (h.map Sig.act) = some (s, tr) ∧ After h s := by
  induction h using List.reverseRecOn with
  | nil =>
    refine ⟨initState, [], rfl, rfl, ?_, ?_, ?_, ?_⟩
    · intro i
      cases i <;> exact ⟨.live, rfl⟩
    · intro i
      cases i <;> rfl
    · intro i
      simp [initState, startChild1, startChild2, startChild, sinceCollected]
    · intro i j hl
      cases hl
  | append_singleton h sig ih =>
    obtain ⟨s, tr, hr, ha⟩ := ih
    cases sig with
    | usr j =>
      refine ⟨_, tr ++ (heartbeat j s.dog).2, ?_, after_usr ha j⟩
      rw [List.map_append, Machine.run_append_eq_some]
      refine ⟨s, tr, (heartbeat j s.dog).2, hr, ?_, rfl⟩
      simp [Machine.run, machine, step, Sig.act, ha.running, handlers_eq]
    | alrm =>
      refine ⟨_, tr ++ s.dog.silent.map .restarted, ?_, after_alrm ha⟩
      rw [List.map_append, Machine.run_append_eq_some]
      refine ⟨s, tr, s.dog.silent.map .restarted, hr, ?_, rfl⟩
      simp [Machine.run, machine, step, Sig.act, ha.running, handlers_eq,
        timeout_eq_ok ha.known fun i _ => ha.has i]

/-- When the flags say who is silent. -/
theorem flags_right_iff (ha : After h s) :
    (∀ i, s.dog.got i = false ↔ Silent i h) ↔
      ¬(h.getLast? = some .alrm ∧ ∃ i, s.dog.got i = true) := by
  constructor
  · rintro hright ⟨hlast, i, hi⟩
    have hsilent : Silent i h := by
      obtain ⟨h', rfl⟩ := List.getLast?_eq_some_iff.mp hlast
      simp [Silent, sinceLater, sinceAlarm_append]
    rw [(hright i).mpr hsilent] at hi
    cases hi
  · intro hnot i
    constructor
    · intro hi hm
      rw [(ha.got i).mpr (mem_sinceCollected_of_later hm)] at hi
      cases hi
    · intro hsilent
      by_contra hi
      have hi : s.dog.got i = true := by simpa using hi
      have hm := (ha.got i).mp hi
      apply hsilent
      cases hl : h.getLast? with
      | none =>
        rw [List.getLast?_eq_none_iff.mp hl] at hm
        cases hm
      | some sig =>
        cases sig with
        | alrm => exact absurd ⟨hl, i, hi⟩ hnot
        | usr j =>
          obtain rfl := ha.last i j hl hi
          exact mem_sinceLater_of_last hl (by simp) hm

/-- **The decision at a timeout.** For both programs and every history of `SIGUSR1`, `SIGUSR2` and
    `SIGALRM`: at a `SIGALRM` after it the children that are killed and started again are exactly
    those without a heartbeat since the later of the previous `SIGALRM` and the last moment at
    which both heartbeats had been collected, if and only if that `SIGALRM` does not directly
    follow another one with a heartbeat flag set. This is about the handlers: `main` of the pipe
    watchdog ends after the first one, at its check of sigsuspend(2). -/
theorem restart_iff_silent (e : Exercise) (h : List Sig) :
    ∃ s tr s' es, (machine e).run initState (h.map Sig.act) = some (s, tr) ∧
      (machine e).step s .alrm = some (s', es) ∧ s'.ended = none ∧
      ((∀ i, Event.restarted i ∈ es ↔ Silent i h) ↔
        ¬(h.getLast? = some .alrm ∧ ∃ i, s.dog.got i = true)) := by
  obtain ⟨s, tr, hr, ha⟩ := after_of_signals e h
  have hstep : (machine e).step s .alrm =
      some (⟨startAll s.dog.silent s.dog, none⟩, s.dog.silent.map .restarted) := by
    simp [machine, step, ha.running, handlers_eq, timeout_eq_ok ha.known fun i _ => ha.has i]
  have hmem (i : Child) : Event.restarted i ∈ s.dog.silent.map Event.restarted ↔
      s.dog.got i = false := by
    rw [List.mem_map_of_injective (fun a b h => by cases h; rfl), mem_silent]
  refine ⟨s, tr, _, _, hr, hstep, rfl, ?_⟩
  simp only [hmem]
  exact flags_right_iff ha

/-- Child 1 sends one heartbeat and then none until after the second timeout; it is not
    restarted. -/
theorem silent_child_not_restarted :
    ∃ s tr s' es, (machine .watchdog).run initState [.usr .one, .alrm] = some (s, tr) ∧
      (machine .watchdog).step s .alrm = some (s', es) ∧ s'.ended = none ∧
      Event.restarted .one ∉ es ∧ Silent .one [.usr .one, .alrm] := by
  have hrun : (((machine .watchdog).run initState [.usr .one, .alrm]).bind fun u =>
      ((machine .watchdog).step u.1 .alrm)).map (fun u =>
        decide (u.1.ended = none ∧ Event.restarted .one ∉ u.2)) = some true := by
    decide +kernel
  obtain ⟨⟨s', es⟩, hs, hu⟩ := Option.map_eq_some_iff.mp hrun
  obtain ⟨⟨s, tr⟩, hr, hs⟩ := Option.bind_eq_some_iff.mp hs
  obtain ⟨hended, hkept⟩ := of_decide_eq_true hu
  exact ⟨s, tr, s', es, hr, hs, hended, hkept, by decide⟩

end DemosOsLinux.Watchdog
