/-
  tee(1) with a blocking tee(2) (examples/io/zero_copy/tee_basic.cc).

  Each round tees what is in the pipe and then splices until that many bytes are moved, but asks
  each splice for `INT_MAX` bytes. Bytes that arrive between the tee and a splice can then be
  moved to the file without having been teed: `len` becomes negative and the bytes are missing
  from standard output for good.
  * `tee_basic_copies`: when the program exits, both copies are complete if and only if no splice
    moved more than `len` bytes. The comment in the source that `INT_MAX` could be replaced by
    `len` describes the program that always copies.
-/
import DemosOsLinux.Tee.Streams

namespace DemosOsLinux.Tee.Basic

open Lib

variable {β : Type}

/-- The places of `main` where it makes a call, with its variables; `done` is the normal exit. -/
inductive Pc where
  | tee
  | splice (ret len : Int)
  | done
  deriving DecidableEq

/-- The tests of the two loops. -/
def loop (ret len : Int) : Pc :=
  if 0 < len then .splice ret len else if 0 < ret then .tee else .done

def prog : Prog Pc where
  call
    | .tee => some (.tee intMax false)
    | .splice _ _ => some (.splice intMax false)
    | .done => none
  ret
    | .tee, r => checkNotM1 r (loop r r)
    | .splice ret len, r => checkNotM1 r (loop ret (len - r))
    | .done, _ => none

def owed : Pc → Nat
  | .splice _ len => len.toNat
  | _ => 0

def ended : Pc → Bool
  | .done => true
  | _ => false

def Ok : Pc → Prop
  | .splice ret len => 0 < ret ∧ 0 < len
  | _ => True

theorem loop_spec {ret len : Int} (h : 0 < ret ∨ len = ret) :
    Ok (loop ret len) ∧ owed (loop ret len) = len.toNat ∧
      (ended (loop ret len) = true → ret ≤ 0) := by
  unfold loop
  split
  · rename_i hlen
    refine ⟨⟨by omega, hlen⟩, rfl, fun h => (by cases h)⟩
  · rename_i hlen
    have hzero : 0 = len.toNat := by omega
    split
    · exact ⟨trivial, hzero, fun h => (by cases h)⟩
    · exact ⟨trivial, hzero, fun _ => by omega⟩

theorem follows : Follows prog owed ended Ok where
  tee := by
    intro pc pc' len nonblock k hok hc hret
    cases pc with
    | tee =>
      cases hc
      obtain rfl := checkNotM1_eq_some (show checkNotM1 k (loop k k) = some pc' from hret)
      obtain ⟨hok', howed, hend⟩ := loop_spec (Or.inr (Eq.refl (k : Int)))
      refine ⟨by decide, hok', howed.trans ?_, fun h => ?_⟩
      · simp only [owed, Int.toNat_natCast, Nat.zero_add]
      · have := hend h
        omega
    | _ => cases hc
  splice := by
    intro pc pc' len nonblock k hok hc hle hret
    cases pc with
    | splice ret len =>
      cases hc
      obtain rfl := checkNotM1_eq_some
        (show checkNotM1 k (loop ret (len - k)) = some pc' from hret)
      obtain ⟨hret0, _⟩ := hok
      obtain ⟨hok', howed, hend⟩ := loop_spec (Or.inl hret0)
      refine ⟨hok', howed.trans ?_, fun h => ?_⟩
      · simp only [owed]
        omega
      · have := hend h
        omega
    | _ => cases hc
  eagain := by
    intro pc pc' hok hret
    cases pc <;> cases hret

theorem starts : Starts owed ended Ok .tee := ⟨trivial, rfl, rfl⟩

/-- If this step is a splice, it moves at most `len` bytes. -/
def withinLen (s : State Pc β) (a : Act β) : Bool :=
  match s.pc, a with
  | some (.splice _ len), .call k => k ≤ len
  | _, _ => true

section Steps

variable {s s' : State Pc β} {a : Act β}

theorem onCount_of_withinLen (h : Steps prog s a s') (inv : Sound ended Ok s)
    (hcount : OnCount owed s) (hin : withinLen s a = true) : OnCount owed s' := by
  refine onCount_of_steps follows h inv hcount ?_
  rintro k pc c rfl hpc hc _
  cases pc with
  | tee =>
    cases hc
    rfl
  | splice ret len =>
    cases hc
    simp only [withinLen, hpc] at hin
    have hk : (k : Int) ≤ len := of_decide_eq_true hin
    simp only [owed]
    omega
  | done => cases hc

theorem short_of_not_withinLen (h : Steps prog s a s') (inv : Sound ended Ok s)
    (hcount : OnCount owed s) (hin : ¬withinLen s a = true) : Short owed s' := by
  cases h with
  | call k pc c hpc hc hk =>
    cases pc with
    | splice ret len =>
      cases hc
      simp only [withinLen, hpc] at hin
      have hlen := (inv.ok _ hpc).2
      have hmore : ¬(k : Int) ≤ len := fun h => hin (decide_eq_true h)
      refine short_of_splice hcount hpc hk ?_ _
      simp only [owed]
      omega
    | _ => simp [withinLen, hpc] at hin
  | _ => simp [withinLen] at hin

end Steps

/-- At the exit the file is complete. Standard output is complete too if no splice moved too much,
    and otherwise bytes are missing there. -/
theorem complete_or_short {acts : List (Act β)} {s : State Pc β} {tr : List Empty}
    (hr : (machine prog).run (initState .tee) acts = some (s, tr)) (hexit : s.pc = some .done) :
    s.streams.closed = true ∧ s.streams.file = s.streams.input ∧
    (((machine prog).Along (fun s a => withinLen s a = true) (initState .tee) acts ∧
        s.streams.out = s.streams.input) ∨
      (¬(machine prog).Along (fun s a => withinLen s a = true) (initState .tee) acts ∧
        s.streams.out.length < s.streams.input.length)) := by
  have inv := sound_of_run follows starts hr
  have hdrained := inv.drained .done hexit rfl
  have hfile : s.streams.file = s.streams.input := by
    rw [← inv.conserved, hdrained.2, List.append_nil]
  refine ⟨hdrained.1, hfile, ?_⟩
  by_cases hal : (machine prog).Along (fun s a => withinLen s a = true) (initState .tee) acts
  · obtain ⟨d, hd, _⟩ := onCount_of_run follows starts onCount_of_withinLen hal hr
    exact Or.inl ⟨hal, (hd.complete inv.conserved hdrained).1⟩
  · refine Or.inr ⟨hal, ?_⟩
    by_contra hlong
    refine hal (along_of_run follows starts onCount_of_withinLen short_of_not_withinLen
      (short_of_steps follows) hr ?_)
    intro hshort
    have hlt := hshort .done hexit
    rw [hfile] at hlt
    exact hlong hlt

/-- **tee_basic.** Any input stream, any interleaving of the producer with the program, any
    lengths of the transfers: when the program exits the producer has closed the pipe, and
    standard output and the file are both the whole input if and only if no splice moved more
    bytes than were still to be moved of those just teed. -/
theorem tee_basic_copies (acts : List (Act β)) (s : State Pc β) (tr : List Empty)
    (hr : (machine prog).run (initState .tee) acts = some (s, tr)) (hexit : s.pc = some .done) :
    s.streams.closed = true ∧
    ((s.streams.out = s.streams.input ∧ s.streams.file = s.streams.input) ↔
      (machine prog).Along (fun s a => withinLen s a = true) (initState .tee) acts) := by
  obtain ⟨hclosed, hfile, ⟨hal, hout⟩ | ⟨hal, hshort⟩⟩ := complete_or_short hr hexit
  · exact ⟨hclosed, iff_of_true ⟨hout, hfile⟩ hal⟩
  · refine ⟨hclosed, iff_of_false ?_ hal⟩
    rintro ⟨hout, _⟩
    rw [hout] at hshort
    exact Nat.lt_irrefl _ hshort

/-- A byte arrives between the two splices of a round, and another one before the next. -/
def pacedRun : List (Act Nat) :=
  [.write [1, 2], .call 2, .call 1, .write [3], .call 1, .call 1, .write [4], .call 1, .call 1,
    .close, .call 1, .call 0]

theorem tee_basic_pacedRun :
    ∃ s tr, (machine prog).run (initState .tee) pacedRun = some (s, tr) ∧
      (s.pc = some .done ∧ s.streams.input = [1, 2, 3, 4]) ∧
      s.streams.out = s.streams.input ∧ s.streams.file = s.streams.input := by
  obtain ⟨s, tr, hr, hu⟩ := (machine prog).exists_of_check (initState .tee) pacedRun
    (fun s _ => s.pc = some .done ∧ s.streams.input = [1, 2, 3, 4]) (by decide +kernel)
  have hal := (machine prog).along_of_check withinLen pacedRun (initState .tee) (by decide +kernel)
  exact ⟨s, tr, hr, hu, (tee_basic_copies pacedRun s tr hr hu.1).2.mpr hal⟩

/-- A byte arrives between the tee and the splice. -/
def lateRun : List (Act Nat) := [.write [1], .call 1, .write [2], .call 2, .close, .call 0]

/-- The late byte is moved to the file and missing from standard output. -/
theorem splice_takes_unteed :
    ∃ s tr, (machine prog).run (initState .tee) lateRun = some (s, tr) ∧ s.pc = some .done ∧
      s.streams.input = [1, 2] ∧ s.streams.file = [1, 2] ∧ s.streams.out = [1] := by
  exact (machine prog).exists_of_check (initState .tee) lateRun
    (fun s _ => s.pc = some .done ∧ s.streams.input = [1, 2] ∧ s.streams.file = [1, 2] ∧
      s.streams.out = [1]) (by decide +kernel)

end DemosOsLinux.Tee.Basic
