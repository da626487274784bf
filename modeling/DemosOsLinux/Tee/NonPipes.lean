/-
  tee(1) for any standard input and output (examples/io/zero_copy/tee_handling_non_pipes.cc).

  If standard input is not a pipe the program moves it into a private pipe first (`pipeIn`), and if
  standard output is not a pipe it tees into a private pipe (`pipeOut`) and moves that on. Each
  round makes one transfer into `pipeIn`, one tee, one transfer out of `pipeOut`, and then splices
  to the file until the bytes it has teed are moved. No call fails; how much a call transfers is the
  kernel's choice, within what there is and what fits.
  * `refines_basic`: with `pipeIn` counted to the input and `pipeOut` to the output this is the
    program of `Tee.Basic`, and the extra calls are not seen.
  * `tee_non_pipes_copies`: when the program exits, both copies are complete if and only if no splice
    to the file moved more than `len` bytes and nothing is left in `pipeOut`.
-/
import DemosOsLinux.Tee.Basic

namespace DemosOsLinux.Tee.NonPipes

open Lib

variable {β : Type}

structure Config where
  isPipeIn : Bool
  isPipeOut : Bool
  /-- The capacities of the private pipes. -/
  capIn : Nat
  capOut : Nat

/-- The places of `main` where it makes a call, with its variables; `done` is the normal exit. -/
inductive Pc where
  | spliceIn
  | tee
  | spliceOut (ret : Int)
  | splice (ret len : Int)
  | done
  deriving DecidableEq

/-- `input` is all that the producer has written, `closed` says that it will write no more, and
    `source` is what waits in standard input if that is not a pipe. `pipeIn` is the pipe behind
    `real_fdin`: standard input itself, or the private pipe. -/
structure State (β : Type) where
  input : List β
  closed : Bool
  source : List β
  pipeIn : List β
  stopInput : Bool
  pipeOut : List β
  stopOutput : Bool
  stdout : List β
  file : List β
  pc : Pc

inductive Act (β : Type) where
  | write (bs : List β)
  | close
  | spliceIn (k : Nat)
  | tee (k : Nat)
  | spliceOut (k : Nat)
  | splice (k : Nat)

section Program

variable (c : Config)

/-- The first test of a round. -/
def roundTop (stopInput : Bool) : Pc := if !c.isPipeIn && !stopInput then .spliceIn else .tee

/-- The tests of the two loops. -/
def loop (stopInput : Bool) (ret len : Int) : Pc :=
  if 0 < len then .splice ret len else if 0 < ret then roundTop c stopInput else .done

def afterTee (stopInput stopOutput : Bool) (ret : Int) : Pc :=
  if !c.isPipeOut && !stopOutput && 0 < ret then .spliceOut ret else loop c stopInput ret ret

/-- Has the last write end of `real_fdin` been closed? -/
def ended (s : State β) : Bool := if c.isPipeIn then s.closed else s.stopInput

/-- May a call transfer `k` bytes of `src`, with room for `room` of them? It returns 0 only at the
    end. -/
def moves (src : List β) (atEnd : Bool) (room : Option Nat) (k : Nat) : Bool :=
  if src.isEmpty then atEnd && k = 0
  else 0 < k && k ≤ src.length && room.all (k ≤ ·) && k ≤ intMax

def doSpliceIn (s : State β) (k : Nat) : State β :=
  { s with
    source := s.source.drop k
    pipeIn := s.pipeIn ++ s.source.take k
    stopInput := k = 0
    pc := .tee }

def doTee (s : State β) (k : Nat) : State β :=
  { s with
    stdout := if c.isPipeOut then s.stdout ++ s.pipeIn.take k else s.stdout
    pipeOut := if c.isPipeOut then s.pipeOut else s.pipeOut ++ s.pipeIn.take k
    pc := afterTee c s.stopInput s.stopOutput k }

def doSpliceOut (s : State β) (ret : Int) (k : Nat) : State β :=
  { s with
    pipeOut := s.pipeOut.drop k
    stdout := s.stdout ++ s.pipeOut.take k
    stopOutput := k = 0
    pc := loop c s.stopInput ret ret }

def doSplice (s : State β) (ret len : Int) (k : Nat) : State β :=
  { s with
    pipeIn := s.pipeIn.drop k
    file := s.file ++ s.pipeIn.take k
    pc := loop c s.stopInput ret (len - k) }

/-- The producer writes to standard input. -/
def doWrite (s : State β) (bs : List β) : State β :=
  { s with
    input := s.input ++ bs
    source := if c.isPipeIn then s.source else s.source ++ bs
    pipeIn := if c.isPipeIn then s.pipeIn ++ bs else s.pipeIn }

def step (s : State β) : Act β → Option (State β)
  | .write bs => if s.closed then none else some (doWrite c s bs)
  | .close => if s.closed then none else some { s with closed := true }
  | .spliceIn k =>
      if s.pc = .spliceIn && moves s.source s.closed (some (c.capIn - s.pipeIn.length)) k then
        some (doSpliceIn s k)
      else none
  | .tee k =>
      let room := if c.isPipeOut then none else some (c.capOut - s.pipeOut.length)
      if s.pc = .tee && moves s.pipeIn (ended c s) room k then some (doTee c s k) else none
  | .spliceOut k =>
      match s.pc with
      | .spliceOut ret =>
          -- the program holds the write end of `pipe_out` itself
          if moves s.pipeOut false none k then some (doSpliceOut c s ret k) else none
      | _ => none
  | .splice k =>
      match s.pc with
      | .splice ret len =>
          if moves s.pipeIn (ended c s) none k then some (doSplice c s ret len k) else none
      | _ => none

def machine : Machine (State β) (Act β) Empty where
  step s a := (step c s a).map fun s' => (s', [])

def initState : State β := ⟨[], false, [], [], false, [], false, [], [], roundTop c false⟩

end Program

section Moves

variable {src : List β} {atEnd : Bool} {room : Option Nat} {k : Nat}

theorem moves_le (h : moves src atEnd room k = true) : k ≤ src.length := by
  unfold moves at h
  split at h
  · simp_all
  · simp only [Bool.and_eq_true, decide_eq_true_eq] at h
    exact h.1.1.2

/-- A call returns 0 at the end only. -/
theorem moves_zero_iff : moves src atEnd room 0 = true ↔ src = [] ∧ atEnd = true := by
  unfold moves
  split
  · rename_i hempty
    simp [List.isEmpty_iff.mp hempty]
  · rename_i hne
    have hsrc : src ≠ [] := fun e => hne (List.isEmpty_iff.mpr e)
    simp [hsrc]

/-- At the end of what the producer wrote, or within it and within `INT_MAX`. -/
theorem streams_moves (h : moves src atEnd room k = true) {w : Streams β} {rest : List β}
    (hpipe : w.pipe = src ++ rest) (hend : atEnd = true → rest = [] ∧ w.closed = true) :
    w.moves intMax k = true := by
  have hle := moves_le h
  have hint : intMax ≠ 0 := by decide
  unfold moves at h
  unfold Streams.moves
  rw [if_neg hint]
  split at h
  · rename_i hempty
    simp only [Bool.and_eq_true, decide_eq_true_eq] at h
    obtain ⟨hrest, hclosed⟩ := hend h.1
    rw [hpipe, hrest, List.isEmpty_iff.mp hempty, hclosed]
    simp [h.2]
  · rename_i hne
    simp only [Bool.and_eq_true, decide_eq_true_eq] at h
    obtain ⟨⟨⟨hpos, _⟩, _⟩, hmax⟩ := h
    have hsrc : src ≠ [] := fun e => hne (List.isEmpty_iff.mpr e)
    simp only [hpipe, List.isEmpty_iff, List.append_eq_nil_iff, hsrc, false_and, if_false,
      List.length_append, Bool.and_eq_true, decide_eq_true_eq]
    omega

end Moves

/-! ## The program of `Tee.Basic` -/

/-- After the tee the program owes what it has teed, also while it empties `pipe_out`. -/
def absPc : Pc → Basic.Pc
  | .spliceIn | .tee => .tee
  | .spliceOut ret => .splice ret ret
  | .splice ret len => .splice ret len
  | .done => .done

def abs (s : State β) : Tee.State Basic.Pc β :=
  ⟨⟨s.input, s.closed, s.pipeIn ++ s.source, s.stdout ++ s.pipeOut, s.file⟩, some (absPc s.pc)⟩

def absAct : Act β → Option (Tee.Act β)
  | .write bs => some (.write bs)
  | .close => some .close
  | .tee k | .splice k => some (.call k)
  | .spliceIn _ | .spliceOut _ => none

/-- The private pipes are used only where they are needed, and the program stops reading standard
    input only at its end. -/
structure Wf (c : Config) (s : State β) : Prop where
  source : c.isPipeIn = true → s.source = []
  stopped : s.stopInput = true → s.source = [] ∧ s.closed = true
  pipeOut : c.isPipeOut = true → s.pipeOut = []
  ret : ∀ ret, s.pc = .spliceOut ret → 0 < ret

section Refines

variable {c : Config} {s : State β} {k : Nat}

theorem absPc_loop (stopInput : Bool) (ret len : Int) :
    absPc (loop c stopInput ret len) = Basic.loop ret len := by
  unfold loop Basic.loop roundTop
  split
  · rfl
  · split
    · split <;> rfl
    · rfl

theorem absPc_afterTee (stopInput stopOutput : Bool) (ret : Int) :
    absPc (afterTee c stopInput stopOutput ret) = Basic.loop ret ret := by
  unfold afterTee
  split
  · rename_i h
    simp only [Bool.and_eq_true, decide_eq_true_eq] at h
    rw [absPc, Basic.loop, if_pos h.2]
  · exact absPc_loop stopInput ret ret

theorem loop_ne_spliceOut (stopInput : Bool) (ret len r : Int) :
    loop c stopInput ret len ≠ .spliceOut r := by
  unfold loop roundTop
  split
  · intro h
    cases h
  · split
    · split <;> exact fun h => nomatch h
    · intro h
      cases h

theorem afterTee_spliceOut {stopInput stopOutput : Bool} {ret r : Int}
    (h : afterTee c stopInput stopOutput ret = .spliceOut r) : 0 < r := by
  unfold afterTee at h
  split at h
  · rename_i hpos
    simp only [Bool.and_eq_true, decide_eq_true_eq] at hpos
    cases h
    exact hpos.2
  · exact absurd h (loop_ne_spliceOut _ _ _ _)

theorem ended_spec (inv : Wf c s) (h : ended c s = true) : s.source = [] ∧ s.closed = true := by
  unfold ended at h
  split at h
  · rename_i hin
    exact ⟨inv.source hin, h⟩
  · exact inv.stopped h

theorem abs_doWrite (inv : Wf c s) (bs : List β) :
    abs (doWrite c s bs) = { abs s with streams := (abs s).streams.write bs } := by
  unfold abs doWrite Streams.write
  by_cases hin : c.isPipeIn = true
  · simp [hin, inv.source hin]
  · simp [hin]

theorem abs_doSpliceIn (hpc : s.pc = .spliceIn) (k : Nat) : abs (doSpliceIn s k) = abs s := by
  unfold abs doSpliceIn
  simp [hpc, absPc]

theorem abs_doTee (inv : Wf c s) (hk : k ≤ s.pipeIn.length) :
    abs (doTee c s k) = ⟨(abs s).streams.tee k, some (Basic.loop k k)⟩ := by
  have htake : (s.pipeIn ++ s.source).take k = s.pipeIn.take k :=
    List.take_append_of_le_length hk
  unfold abs doTee Streams.tee
  by_cases hout : c.isPipeOut = true
  · simp [hout, inv.pipeOut hout, absPc_afterTee, htake]
  · simp [hout, absPc_afterTee, htake]

theorem abs_doSpliceOut {ret : Int} (hpc : s.pc = .spliceOut ret) (hret : 0 < ret) (k : Nat) :
    abs (doSpliceOut c s ret k) = abs s := by
  have hloop : absPc (loop c s.stopInput ret ret) = absPc s.pc := by
    rw [absPc_loop, hpc, absPc, Basic.loop, if_pos hret]
  unfold abs doSpliceOut
  simp [hloop]

theorem abs_doSplice (ret len : Int) (hk : k ≤ s.pipeIn.length) :
    abs (doSplice c s ret len k) = ⟨(abs s).streams.splice k, some (Basic.loop ret (len - k))⟩ := by
  have htake : (s.pipeIn ++ s.source).take k = s.pipeIn.take k :=
    List.take_append_of_le_length hk
  have hdrop : (s.pipeIn ++ s.source).drop k = s.pipeIn.drop k ++ s.source :=
    List.drop_append_of_le_length hk
  unfold abs doSplice Streams.splice
  simp [absPc_loop, htake, hdrop]

/-- What `pipe_in` can give is what the longer pipe of `Tee.Basic` can give. -/
theorem abs_moves (inv : Wf c s) {room : Option Nat}
    (hk : moves s.pipeIn (ended c s) room k = true) : (abs s).streams.moves intMax k = true :=
  streams_moves hk rfl (ended_spec inv)

theorem checkNotM1_natCast {ρ : Type} (k : Nat) (next : ρ) : checkNotM1 (k : Int) next = some next :=
  if_neg (by omega)

theorem Wf.write (inv : Wf c s) (hopen : ¬s.closed = true) (bs : List β) :
    Wf c (doWrite c s bs) := by
  refine ⟨?_, ?_, inv.pipeOut, inv.ret⟩
  · intro hin
    simpa [doWrite, hin] using inv.source hin
  · intro hstop
    exact absurd (inv.stopped hstop).2 hopen

theorem Wf.spliceIn (inv : Wf c s) {room : Option Nat}
    (hk : moves s.source s.closed room k = true) : Wf c (doSpliceIn s k) := by
  refine ⟨?_, ?_, inv.pipeOut, fun ret h => nomatch h⟩
  · intro hin
    rw [doSpliceIn, inv.source hin, List.drop_nil]
  · -- the transfer returns 0 at the end of standard input only
    intro hstop
    have hzero : k = 0 := of_decide_eq_true hstop
    rw [hzero] at hk
    obtain ⟨hsource, hclosed⟩ := moves_zero_iff.mp hk
    refine ⟨?_, hclosed⟩
    rw [doSpliceIn, hsource, List.drop_nil]

theorem Wf.tee (inv : Wf c s) (k : Nat) : Wf c (doTee c s k) := by
  refine ⟨inv.source, inv.stopped, ?_, fun ret h => afterTee_spliceOut h⟩
  intro hout
  simpa [doTee, hout] using inv.pipeOut hout

theorem Wf.spliceOut (inv : Wf c s) (ret : Int) (k : Nat) : Wf c (doSpliceOut c s ret k) := by
  refine ⟨inv.source, inv.stopped, ?_, fun r h => absurd h (loop_ne_spliceOut _ _ _ _)⟩
  intro hout
  rw [doSpliceOut, inv.pipeOut hout, List.drop_nil]

theorem Wf.splice (inv : Wf c s) (ret len : Int) (k : Nat) : Wf c (doSplice c s ret len k) :=
  ⟨inv.source, inv.stopped, inv.pipeOut, fun _ h => absurd h (loop_ne_spliceOut _ _ _ _)⟩

/-- What one step is for `Tee.Basic`: the same call on the longer pipe, or no step. -/
theorem refines_basic (c : Config) :
    (machine (β := β) c).Refines (Tee.machine Basic.prog) (Wf c) abs absAct := by
  intro s a s₁ es inv hstep
  obtain ⟨hs, rfl⟩ := Machine.quiet_step hstep
  cases a with
  | write bs =>
    obtain ⟨hopen, hs⟩ := Option.ite_none_left_eq_some.mp hs
    obtain rfl := Option.some.inj hs
    refine ⟨inv.write hopen bs, [], ?_⟩
    rw [abs_doWrite inv]
    simp [Tee.machine, Tee.step, abs, hopen]
  | close =>
    obtain ⟨hopen, hs⟩ := Option.ite_none_left_eq_some.mp hs
    obtain rfl := Option.some.inj hs
    refine ⟨⟨inv.source, fun h => ⟨(inv.stopped h).1, rfl⟩, inv.pipeOut, inv.ret⟩, [], ?_⟩
    simp [Tee.machine, Tee.step, abs, hopen]
  | spliceIn k =>
    obtain ⟨hcond, rfl⟩ := guard_inj hs
    rw [Bool.and_eq_true, decide_eq_true_eq] at hcond
    exact ⟨inv.spliceIn hcond.2, abs_doSpliceIn hcond.1 k⟩
  | tee k =>
    obtain ⟨hcond, rfl⟩ := guard_inj hs
    rw [Bool.and_eq_true, decide_eq_true_eq] at hcond
    obtain ⟨hpc, hk⟩ := hcond
    have hcall : (abs s).pc = some .tee := by rw [abs, hpc, absPc]
    refine ⟨inv.tee k, [], ?_⟩
    rw [step_call (P := Basic.prog) hcall rfl (abs_moves inv hk), abs_doTee inv (moves_le hk)]
    simp only [Basic.prog, checkNotM1_natCast, Call.apply]
  | spliceOut k =>
    cases hpc : s.pc with
    | spliceOut ret =>
      simp only [step, hpc] at hs
      obtain ⟨hk, rfl⟩ := guard_inj hs
      exact ⟨inv.spliceOut ret k, abs_doSpliceOut hpc (inv.ret ret hpc) k⟩
    | _ => simp [step, hpc] at hs
  | splice k =>
    cases hpc : s.pc with
    | splice ret len =>
      simp only [step, hpc] at hs
      obtain ⟨hk, rfl⟩ := guard_inj hs
      have hcall : (abs s).pc = some (.splice ret len) := by rw [abs, hpc, absPc]
      refine ⟨inv.splice ret len k, [], ?_⟩
      rw [step_call (P := Basic.prog) hcall rfl (abs_moves inv hk),
        abs_doSplice ret len (moves_le hk)]
      simp only [Basic.prog, checkNotM1_natCast, Call.apply]
    | _ => simp [step, hpc] at hs

end Refines

/-! ## What the program copies -/

/-- If this step is a splice to the file, it moves at most `len` bytes. -/
def withinLen (s : State β) (a : Act β) : Bool :=
  match s.pc, a with
  | .splice _ len, .splice k => k ≤ len
  | _, _ => true

theorem wf_initState (c : Config) : Wf c (initState c : State β) := by
  refine ⟨fun _ => rfl, fun h => (by cases h), fun _ => rfl, ?_⟩
  intro ret h
  unfold initState roundTop at h
  split at h <;> cases h

theorem abs_initState (c : Config) : abs (initState c : State β) = Tee.initState .tee := by
  unfold abs initState roundTop
  split <;> rfl

theorem withinLen_iff {c : Config} {s s' : State β} {a : Act β} (h : step c s a = some s') :
    withinLen s a = true ↔ ∀ b, absAct a = some b → Basic.withinLen (abs s) b = true := by
  cases a with
  | tee k =>
    obtain ⟨hcond, _⟩ := Option.ite_none_right_eq_some.mp h
    rw [Bool.and_eq_true, decide_eq_true_eq] at hcond
    simp [withinLen, absAct, Basic.withinLen, abs, absPc, hcond.1]
  | splice k =>
    cases hpc : s.pc with
    | splice ret len => simp [withinLen, absAct, Basic.withinLen, abs, absPc, hpc]
    | _ => simp [step, hpc] at h
  | _ => simp [withinLen, absAct, Basic.withinLen]

/-- **tee_handling_non_pipes.** Standard input and output of either kind, any capacities, any input
    stream, any interleaving with the producer, any lengths of the transfers: when the program exits
    the producer has closed standard input and the file is the whole input. Standard output is the
    whole input too if and only if no splice to the file moved more bytes than were still to be moved
    of those just teed and nothing is left in the private pipe. -/
theorem tee_non_pipes_copies (c : Config) (acts : List (Act β)) (s : State β) (tr : List Empty)
    (hr : (machine c).run (initState c) acts = some (s, tr)) (hexit : s.pc = .done) :
    s.closed = true ∧ s.file = s.input ∧
    ((s.stdout = s.input ∧ s.file = s.input) ↔
      (machine c).Along (fun s a => withinLen s a = true) (initState c) acts ∧ s.pipeOut = []) := by
  have href := refines_basic (β := β) c
  obtain ⟨_, ds, hbasic⟩ := href.run (wf_initState c) hr
  have halong := href.along_iff (P := fun s a => withinLen s a = true)
    (Q := fun s a => Basic.withinLen s a = true) ?_ (wf_initState c) hr
  · rw [abs_initState] at hbasic halong
    obtain ⟨hclosed, hfile, hcases⟩ := Basic.complete_or_short hbasic (by rw [abs, hexit, absPc])
    replace hfile : s.file = s.input := hfile
    refine ⟨hclosed, hfile, ?_⟩
    rw [halong]
    rcases hcases with ⟨hal, hout⟩ | ⟨hal, hshort⟩
    · have hteed : s.stdout ++ s.pipeOut = s.input := hout
      simp only [hal, hfile, and_true, true_and]
      rw [← hteed, List.self_eq_append_right]
    · refine iff_of_false ?_ (fun h => hal h.1)
      have hteed : (s.stdout ++ s.pipeOut).length < s.input.length := hshort
      rintro ⟨hstdout, _⟩
      rw [List.length_append, hstdout] at hteed
      omega
  · intro s a s₁ es _ hstep
    exact withinLen_iff (Machine.quiet_step hstep).1

/-- A file is copied to a file, through private pipes of 2 bytes, with short transfers. -/
def privatePipes : Config := ⟨false, false, 2, 2⟩

def drainedRun : List (Act Nat) :=
  [.write [1, 2, 3], .close, .spliceIn 2, .tee 2, .spliceOut 1, .splice 1, .splice 1, .spliceIn 1,
    .tee 1, .spliceOut 2, .splice 1, .spliceIn 0, .tee 0]

theorem tee_non_pipes_drainedRun :
    ∃ s tr, (machine privatePipes).run (initState privatePipes) drainedRun = some (s, tr) ∧
      (s.pc = .done ∧ s.pipeOut = [] ∧ s.input = [1, 2, 3]) ∧
      s.stdout = s.input ∧ s.file = s.input := by
  obtain ⟨s, tr, hr, hu⟩ := (machine privatePipes).exists_of_check (initState privatePipes) drainedRun
    (fun s _ => s.pc = .done ∧ s.pipeOut = [] ∧ s.input = [1, 2, 3]) (by decide +kernel)
  have hal := (machine privatePipes).along_of_check withinLen drainedRun (initState privatePipes)
    (by decide +kernel)
  exact ⟨s, tr, hr, hu, (tee_non_pipes_copies privatePipes drainedRun s tr hr hu.1).2.2.mpr
    ⟨hal, hu.2.1⟩⟩

/-- One short transfer to standard output, in the only round that transfers anything. -/
def shortRun : List (Act Nat) :=
  [.write [1, 2], .close, .spliceIn 2, .tee 2, .spliceOut 1, .splice 2, .spliceIn 0, .tee 0]

/-- A tee of one byte although two are in the pipe; the splice takes both. -/
def overtakenRun : List (Act Nat) :=
  [.write [1, 2], .close, .spliceIn 2, .tee 1, .spliceOut 1, .splice 2, .spliceIn 0, .tee 0]

/-- In both runs the second byte does not reach standard output: it stays in the private pipe, or
    it was never teed. -/
theorem second_byte_lost :
    (∃ s tr, (machine privatePipes).run (initState privatePipes) shortRun = some (s, tr) ∧
      s.pc = .done ∧ s.input = [1, 2] ∧ s.file = [1, 2] ∧ s.stdout = [1] ∧ s.pipeOut = [2]) ∧
    ∃ s tr, (machine privatePipes).run (initState privatePipes) overtakenRun = some (s, tr) ∧
      s.pc = .done ∧ s.input = [1, 2] ∧ s.file = [1, 2] ∧ s.stdout = [1] ∧ s.pipeOut = [] := by
  refine ⟨?_, ?_⟩
  · exact (machine privatePipes).exists_of_check (initState privatePipes) shortRun
      (fun s _ => s.pc = .done ∧ s.input = [1, 2] ∧ s.file = [1, 2] ∧ s.stdout = [1] ∧
        s.pipeOut = [2]) (by decide +kernel)
  · exact (machine privatePipes).exists_of_check (initState privatePipes) overtakenRun
      (fun s _ => s.pc = .done ∧ s.input = [1, 2] ∧ s.file = [1, 2] ∧ s.stdout = [1] ∧
        s.pipeOut = []) (by decide +kernel)

end DemosOsLinux.Tee.NonPipes
