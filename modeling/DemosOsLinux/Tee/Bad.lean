/-
  tee(1) with a tee(2) that does not block (examples/io/zero_copy/tee_bad.cc).

  The program spins while the pipe is empty: `tee` fails with `EAGAIN` and is called again. Each
  round splices no more than it has teed, so the file follows standard output at every point.
  * `tee_bad_copies`: the three streams at every point of a run, and at its end.
-/
import DemosOsLinux.Tee.Streams

namespace DemosOsLinux.Tee.Bad

open Lib

variable {β : Type}

/-- The places of `main` where it makes a call, with its variables; `done` is the normal exit. -/
inductive Pc where
  | tee
  | splice (len : Int)
  | done
  deriving DecidableEq

/-- The test of the inner loop; after it the outer loop starts again. -/
def loop (len : Int) : Pc := if 0 < len then .splice len else .tee

def prog : Prog Pc where
  call
    | .tee => some (.tee intMax true)
    | .splice len => some (.splice len false)
    | .done => none
  ret
    | .tee, len => if len = -1 then some .tee else if len = 0 then some .done else some (loop len)
    | .splice len, r => checkNotM1 r (loop (len - r))
    | .done, _ => none

def owed : Pc → Nat
  | .splice len => len.toNat
  | _ => 0

def ended : Pc → Bool
  | .done => true
  | _ => false

def Ok : Pc → Prop
  | .splice len => 0 < len
  | _ => True

theorem loop_spec (len : Int) :
    Ok (loop len) ∧ owed (loop len) = len.toNat ∧ ended (loop len) = false := by
  unfold loop
  split
  · rename_i hlen
    exact ⟨hlen, rfl, rfl⟩
  · exact ⟨trivial, by simp only [owed]; omega, rfl⟩

theorem starts : Starts owed ended Ok .tee := ⟨trivial, rfl, rfl⟩

theorem follows : Follows prog owed ended Ok where
  tee := by
    intro pc pc' len nonblock k hok hc hret
    cases pc with
    | tee =>
      cases hc
      refine ⟨by decide, ?_⟩
      simp only [prog] at hret
      rw [if_neg (by omega)] at hret
      split at hret
      · rename_i hk
        obtain rfl := Option.some.inj hret
        exact ⟨trivial, by simp only [owed]; omega, fun _ => by omega⟩
      · obtain rfl := Option.some.inj hret
        obtain ⟨hok', howed, hend⟩ := loop_spec k
        refine ⟨hok', howed.trans ?_, fun h => ?_⟩
        · simp only [owed, Int.toNat_natCast, Nat.zero_add]
        · rw [hend] at h
          cases h
    | _ => cases hc
  splice := by
    intro pc pc' len nonblock k hok hc hle hret
    cases pc with
    | splice len =>
      cases hc
      obtain rfl := checkNotM1_eq_some (show checkNotM1 k (loop (len - k)) = some pc' from hret)
      obtain ⟨hok', howed, hend⟩ := loop_spec (len - k)
      refine ⟨hok', howed.trans ?_, fun h => ?_⟩
      · simp only [owed]
        omega
      · rw [hend] at h
        cases h
    | _ => cases hc
  eagain := by
    intro pc pc' hok hret
    cases pc with
    | tee =>
      obtain rfl := Option.some.inj hret
      exact ⟨trivial, rfl, id⟩
    | splice len => cases hret
    | done => cases hret

/-- It tees when nothing is owed and splices at most what is owed. -/
theorem onCount_of_tee_bad {s s' : State Pc β} {a : Act β} (h : Steps prog s a s')
    (inv : Sound ended Ok s) (hcount : OnCount owed s) : OnCount owed s' := by
  refine onCount_of_steps follows h inv hcount ?_
  rintro k pc c rfl hpc hc hk
  cases pc with
  | tee =>
    cases hc
    rfl
  | splice len =>
    cases hc
    have hlen : 0 < len := inv.ok _ hpc
    have hle : (k : Int) ≤ len := moves_le_len hk (Int.le_of_lt hlen)
    simp only [owed]
    omega
  | done => cases hc

/-- **tee_bad.** Any input stream, any interleaving of the producer with the program, any lengths
    of the transfers: at every point the file is a prefix of standard output and standard output
    is a prefix of the input, and when the program exits the producer has closed the pipe and both
    are the whole input. -/
theorem tee_bad_copies (acts : List (Act β)) (s : State Pc β) (tr : List Empty)
    (hr : (machine prog).run (initState .tee) acts = some (s, tr)) :
    (s.streams.file <+: s.streams.out ∧ s.streams.out <+: s.streams.input) ∧
    (s.pc = some .done → s.streams.closed = true ∧
      s.streams.out = s.streams.input ∧ s.streams.file = s.streams.input) := by
  have inv := sound_of_run follows starts hr
  obtain ⟨d, hd, _⟩ := onCount_of_run follows starts
    (fun h inv hcount _ => onCount_of_tee_bad h inv hcount)
    ((machine prog).along_of_forall (fun _ => True) acts (fun _ _ => trivial) _) hr
  refine ⟨hd.prefixes inv.conserved, ?_⟩
  intro hexit
  have hdrained := inv.drained .done hexit rfl
  exact ⟨hdrained.1, hd.complete inv.conserved hdrained⟩

/-- The program spins twice, and a byte arrives between the tee and the splice. -/
def spinRun : List (Act Nat) :=
  [.eagain, .write [1, 2], .call 2, .write [3], .call 1, .call 1, .call 1, .call 1, .eagain,
    .close, .call 0]

theorem tee_bad_spinRun :
    ∃ s tr, (machine prog).run (initState .tee) spinRun = some (s, tr) ∧
      (s.pc = some .done ∧ s.streams.input = [1, 2, 3]) ∧
      s.streams.out = s.streams.input ∧ s.streams.file = s.streams.input := by
  obtain ⟨s, tr, hr, hu⟩ := (machine prog).exists_of_check (initState .tee) spinRun
    (fun s _ => s.pc = some .done ∧ s.streams.input = [1, 2, 3]) (by decide +kernel)
  exact ⟨s, tr, hr, hu, ((tee_bad_copies spinRun s tr hr).2 hu.1).2⟩

end DemosOsLinux.Tee.Bad
