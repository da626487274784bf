/-
  tee(1) that does not wait for splice(2) (examples/io/zero_copy/tee_bug.cc).

  Each round tees what is in the pipe and splices what it can of it; the rest is left to the next
  round. But tee does not remember what it has teed: the rest is still in the pipe and is teed
  again, as the source's own comment says. `tee_pos - splice_pos` then counts bytes that are not
  in the pipe, and a later splice moves bytes that were never teed.
  * `tee_bug_copies`: when the program exits, both copies are complete if every tee was called with
    `splice_pos` equal to `tee_pos`, and, for a stream without repeated bytes, only then.
  * `tee_repeats_rest`: a run that exits with a byte twice and another one missing.
-/
import DemosOsLinux.Tee.Streams

namespace DemosOsLinux.Tee.Bug

open Lib

variable {β : Type}

/-- The places of `main` where it makes a call, with its variables; `done` is the normal exit. -/
inductive Pc where
  | tee (splicePos teePos : Int)
  | splice (ret splicePos teePos : Int)
  /-- The second loop. -/
  | tail (splicePos teePos : Int)
  | done
  deriving DecidableEq

/-- The test of the second loop. -/
def tailLoop (splicePos teePos : Int) : Pc :=
  if splicePos < teePos then .tail splicePos teePos else .done

/-- The test of the first loop. -/
def loop (ret splicePos teePos : Int) : Pc :=
  if 0 < ret then .tee splicePos teePos else tailLoop splicePos teePos

def prog : Prog Pc where
  call
    | .tee _ _ => some (.tee intMax false)
    | .splice _ splicePos teePos => some (.splice (teePos - splicePos) true)
    | .tail splicePos teePos => some (.splice (teePos - splicePos) false)
    | .done => none
  ret
    | .tee splicePos teePos, r => checkNotM1 r (.splice r splicePos (teePos + r))
    | .splice ret splicePos teePos, r => checkNotM1 r (loop ret (splicePos + r) teePos)
    | .tail splicePos teePos, r => checkNotM1 r (tailLoop (splicePos + r) teePos)
    | .done, _ => none

def owed : Pc → Nat
  | .tee splicePos teePos | .splice _ splicePos teePos | .tail splicePos teePos =>
      (teePos - splicePos).toNat
  | .done => 0

def ended : Pc → Bool
  | .tee _ _ => false
  | .splice ret _ _ => ret = 0
  | .tail _ _ | .done => true

def Ok : Pc → Prop
  | .tee splicePos teePos | .tail splicePos teePos => splicePos ≤ teePos
  | .splice ret splicePos teePos => 0 ≤ ret ∧ splicePos ≤ teePos
  | .done => True

theorem starts : Starts owed ended Ok (.tee 0 0) := ⟨Int.le_refl 0, rfl, rfl⟩

theorem tailLoop_spec {splicePos teePos : Int} (h : splicePos ≤ teePos) :
    Ok (tailLoop splicePos teePos) ∧
      owed (tailLoop splicePos teePos) = (teePos - splicePos).toNat := by
  unfold tailLoop
  split
  · exact ⟨h, rfl⟩
  · exact ⟨trivial, by simp only [owed]; omega⟩

theorem loop_spec {ret splicePos teePos : Int} (hret : 0 ≤ ret) (h : splicePos ≤ teePos) :
    Ok (loop ret splicePos teePos) ∧
      owed (loop ret splicePos teePos) = (teePos - splicePos).toNat ∧
      (ended (loop ret splicePos teePos) = true → ret = 0) := by
  unfold loop
  split
  · exact ⟨h, rfl, fun hend => (by cases hend)⟩
  · obtain ⟨hok, howed⟩ := tailLoop_spec h
    exact ⟨hok, howed, fun _ => by omega⟩

theorem follows : Follows prog owed ended Ok where
  tee := by
    intro pc pc' len nonblock k hok hc hret
    cases pc with
    | tee splicePos teePos =>
      cases hc
      obtain rfl := checkNotM1_eq_some
        (show checkNotM1 k (Pc.splice k splicePos (teePos + k)) = some pc' from hret)
      have hle : splicePos ≤ teePos := hok
      refine ⟨by decide, ⟨by omega, by omega⟩, ?_, fun hend => ?_⟩
      · simp only [owed]
        omega
      · have hk : (k : Int) = 0 := of_decide_eq_true hend
        omega
    | _ => cases hc
  splice := by
    intro pc pc' len nonblock k hok hc hle hret
    cases pc with
    | splice ret splicePos teePos =>
      cases hc
      obtain rfl := checkNotM1_eq_some
        (show checkNotM1 k (loop ret (splicePos + k) teePos) = some pc' from hret)
      obtain ⟨hret0, hpos⟩ := hok
      have hk := hle (by omega)
      obtain ⟨hok', howed, hend⟩ := loop_spec hret0 (show splicePos + k ≤ teePos by omega)
      refine ⟨hok', howed.trans ?_, fun h => decide_eq_true (hend h)⟩
      simp only [owed]
      omega
    | tail splicePos teePos =>
      cases hc
      obtain rfl := checkNotM1_eq_some
        (show checkNotM1 k (tailLoop (splicePos + k) teePos) = some pc' from hret)
      have hpos : splicePos ≤ teePos := hok
      have hk := hle (by omega)
      obtain ⟨hok', howed⟩ := tailLoop_spec (show splicePos + k ≤ teePos by omega)
      refine ⟨hok', howed.trans ?_, fun _ => rfl⟩
      simp only [owed]
      omega
    | _ => cases hc
  eagain := by
    intro pc pc' hok hret
    cases pc <;> cases hret

/-- If this step is a tee, all that was teed has been spliced. -/
def teesSynced (s : State Pc β) (a : Act β) : Bool :=
  match s.pc, a with
  | some (.tee splicePos teePos), .call _ => splicePos = teePos
  | _, _ => true

section Steps

variable {s s' : State Pc β} {a : Act β}

theorem onCount_of_teesSynced (h : Steps prog s a s') (inv : Sound ended Ok s)
    (hcount : OnCount owed s) (hin : teesSynced s a = true) : OnCount owed s' := by
  refine onCount_of_steps follows h inv hcount ?_
  rintro k pc c rfl hpc hc hk
  have hok := inv.ok pc hpc
  cases pc with
  | tee splicePos teePos =>
    cases hc
    simp only [teesSynced, hpc] at hin
    have hpos : splicePos = teePos := of_decide_eq_true hin
    simp only [owed]
    omega
  | splice ret splicePos teePos =>
    cases hc
    obtain ⟨_, hpos⟩ := hok
    have hle := moves_le_len hk (by simp only [Call.len]; omega)
    simp only [Call.len] at hle
    simp only [owed]
    omega
  | tail splicePos teePos =>
    cases hc
    have hpos : splicePos ≤ teePos := hok
    have hle := moves_le_len hk (by simp only [Call.len]; omega)
    simp only [Call.len] at hle
    simp only [owed]
    omega
  | done => cases hc

theorem doubled_of_not_teesSynced (h : Steps prog s a s') (inv : Sound ended Ok s)
    (hcount : OnCount owed s) (hin : ¬teesSynced s a = true) : ¬s'.streams.out.Nodup := by
  cases h with
  | call k pc c hpc hc hk =>
    have hok := inv.ok pc hpc
    cases pc with
    | tee splicePos teePos =>
      cases hc
      simp only [teesSynced, hpc] at hin
      have hpos : splicePos ≤ teePos := hok
      have hne : ¬splicePos = teePos := fun e => hin (decide_eq_true e)
      obtain ⟨d, hd, howed⟩ := hcount
      have hd' := howed _ hpc
      simp only [owed] at hd'
      exact doubled_of_tee hd (by omega) hk (by decide)
    | _ => simp [teesSynced, hpc] at hin
  | _ => simp [teesSynced] at hin

theorem doubled_of_steps (h : Steps prog s a s') (hdup : ¬s.streams.out.Nodup) :
    ¬s'.streams.out.Nodup := by
  intro hnodup
  exact hdup (hnodup.sublist (out_of_steps h).sublist)

end Steps

/-- **tee_bug.** Any input stream, any interleaving of the producer with the program, any lengths
    of the transfers, no failed call: when the program exits the producer has closed the pipe, and
    standard output and the file are both the whole input if every tee was called with
    `splice_pos == tee_pos`. If the bytes of the stream are all different and standard output is
    the whole input, then every tee was. -/
theorem tee_bug_copies (acts : List (Act β)) (s : State Pc β) (tr : List Empty)
    (hr : (machine prog).run (initState (.tee 0 0)) acts = some (s, tr))
    (hexit : s.pc = some .done) :
    s.streams.closed = true ∧
    ((machine prog).Along (fun s a => teesSynced s a = true) (initState (.tee 0 0)) acts →
      s.streams.out = s.streams.input ∧ s.streams.file = s.streams.input) ∧
    (s.streams.input.Nodup → s.streams.out = s.streams.input →
      (machine prog).Along (fun s a => teesSynced s a = true) (initState (.tee 0 0)) acts) := by
  have inv := sound_of_run follows starts hr
  have hdrained := inv.drained .done hexit rfl
  refine ⟨hdrained.1, ?_, ?_⟩
  · intro hal
    obtain ⟨d, hd, _⟩ := onCount_of_run follows starts onCount_of_teesSynced hal hr
    exact hd.complete inv.conserved hdrained
  · intro hnodup hout
    refine along_of_run follows starts onCount_of_teesSynced doubled_of_not_teesSynced
      (fun h _ hdup => doubled_of_steps h hdup) hr ?_
    rw [hout]
    exact fun h => h hnodup

/-- Short tees, and splices that take all that was teed while bytes arrive. -/
def wholeRun : List (Act Nat) :=
  [.write [1, 2], .call 1, .write [3], .call 1, .call 2, .call 2, .close, .call 0, .call 0]

theorem tee_bug_wholeRun :
    ∃ s tr, (machine prog).run (initState (.tee 0 0)) wholeRun = some (s, tr) ∧
      (s.pc = some .done ∧ s.streams.input = [1, 2, 3]) ∧
      s.streams.out = s.streams.input ∧ s.streams.file = s.streams.input := by
  obtain ⟨s, tr, hr, hu⟩ := (machine prog).exists_of_check (initState (.tee 0 0)) wholeRun
    (fun s _ => s.pc = some .done ∧ s.streams.input = [1, 2, 3]) (by decide +kernel)
  have hal := (machine prog).along_of_check teesSynced wholeRun (initState (.tee 0 0))
    (by decide +kernel)
  exact ⟨s, tr, hr, hu, (tee_bug_copies wholeRun s tr hr hu.1).2.1 hal⟩

/-- The first splice is short. The byte it leaves is teed again, and the next splice takes a byte
    that has just arrived. -/
def shortRun : List (Act Nat) :=
  [.write [1, 2], .call 2, .call 1, .call 1, .write [3], .call 2, .close, .call 0, .call 0]

/-- Byte 2 is on standard output twice, byte 3 is missing there. -/
theorem tee_repeats_rest :
    ∃ s tr, (machine prog).run (initState (.tee 0 0)) shortRun = some (s, tr) ∧
      s.pc = some .done ∧ s.streams.input = [1, 2, 3] ∧ s.streams.file = [1, 2, 3] ∧
      s.streams.out = [1, 2, 2] := by
  exact (machine prog).exists_of_check (initState (.tee 0 0)) shortRun
    (fun s _ => s.pc = some .done ∧ s.streams.input = [1, 2, 3] ∧ s.streams.file = [1, 2, 3] ∧
      s.streams.out = [1, 2, 2]) (by decide +kernel)

end DemosOsLinux.Tee.Bug
