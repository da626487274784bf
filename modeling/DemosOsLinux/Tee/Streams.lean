/-
  tee(2) and splice(2) on a pipe with a producer.

  A program reads standard input, a pipe to which a producer appends bytes at any moment, with
  `tee` (copy a prefix of the pipe to standard output) and `splice` (move a prefix to the file).
  How much a call transfers is the kernel's choice: at least one byte if there is any, at most the
  length asked for; 0 at the end of the input, and for a `splice` of length 0. A call on an empty
  pipe that is still open waits, or fails with `EAGAIN` if it does not block.
  A program is the call it makes at each place and how it goes on with the result (`Prog`);
  `none` is the end by a failed `CHECK_NOT_M1`.
  * `Sound`: nothing is lost between the pipe and the file, whatever the program does.
  * `Ahead d`: standard output is the file and the next `d` bytes of the pipe.
  * `Follows`: a program keeps count of how far `tee` is ahead. `onCount_of_run`: then it copies
    right as long as it tees only when nothing is owed and splices no more than it owes;
    `short_of_splice` and `doubled_of_tee` say what goes wrong otherwise.
-/
import DemosOsLinux.Lib.Machine

namespace DemosOsLinux.Tee

open Lib

variable {β ρ : Type}

/-- `INT_MAX`. -/
def intMax : Int := 2147483647

/-- `input` is all that the producer has written, `closed` says that it will write no more. -/
structure Streams (β : Type) where
  input : List β
  closed : Bool
  pipe : List β
  out : List β
  file : List β

inductive Call where
  | tee (len : Int) (nonblock : Bool)
  | splice (len : Int) (nonblock : Bool)

def Call.len : Call → Int
  | .tee len _ | .splice len _ => len

def Call.nonblock : Call → Bool
  | .tee _ nonblock | .splice _ nonblock => nonblock

/-- May a call of length `len` transfer `k` bytes? -/
def Streams.moves (w : Streams β) (len : Int) (k : Nat) : Bool :=
  if len = 0 then k = 0
  else if w.pipe.isEmpty then w.closed && k = 0
  else 0 < k && k ≤ len && k ≤ w.pipe.length && k ≤ intMax

/-- May a call of length `len` that does not block fail with `EAGAIN`? The pipe is not at its end:
    it is empty, or there is no room in the output. -/
def Streams.again (w : Streams β) (len : Int) : Bool := len ≠ 0 && !(w.pipe.isEmpty && w.closed)

def Streams.write (w : Streams β) (bs : List β) : Streams β :=
  { w with input := w.input ++ bs, pipe := w.pipe ++ bs }

def Streams.tee (w : Streams β) (k : Nat) : Streams β := { w with out := w.out ++ w.pipe.take k }

def Streams.splice (w : Streams β) (k : Nat) : Streams β :=
  { w with pipe := w.pipe.drop k, file := w.file ++ w.pipe.take k }

def Call.apply (c : Call) (k : Nat) (w : Streams β) : Streams β :=
  match c with
  | .tee _ _ => w.tee k
  | .splice _ _ => w.splice k

/-- `call pc` is the call made at `pc`, `none` at the end of the program. -/
structure Prog (ρ : Type) where
  call : ρ → Option Call
  ret : ρ → Int → Option ρ

/-- `CHECK_NOT_M1`. -/
def checkNotM1 (r : Int) (next : ρ) : Option ρ := if r = -1 then none else some next

theorem checkNotM1_eq_some {r : Int} {next pc : ρ} (h : checkNotM1 r next = some pc) :
    next = pc := by
  unfold checkNotM1 at h
  split at h
  · cases h
  · exact Option.some.inj h

structure State (ρ β : Type) where
  streams : Streams β
  pc : Option ρ

inductive Act (β : Type) where
  | write (bs : List β)
  | close
  /-- The program's call returns `k`. -/
  | call (k : Nat)
  /-- The program's call fails with `EAGAIN`. -/
  | eagain

def step (P : Prog ρ) (s : State ρ β) : Act β → Option (State ρ β)
  | .write bs => if s.streams.closed then none else some { s with streams := s.streams.write bs }
  | .close =>
      if s.streams.closed then none
      else some { s with streams := { s.streams with closed := true } }
  | .call k => do
      let pc ← s.pc
      let c ← P.call pc
      if s.streams.moves c.len k then some ⟨c.apply k s.streams, P.ret pc k⟩ else none
  | .eagain => do
      let pc ← s.pc
      let c ← P.call pc
      if c.nonblock && s.streams.again c.len then some ⟨s.streams, P.ret pc (-1)⟩ else none

def machine (P : Prog ρ) : Machine (State ρ β) (Act β) Empty where
  step s a := (step P s a).map fun s' => (s', [])

def initState (pc : ρ) : State ρ β := ⟨⟨[], false, [], [], []⟩, some pc⟩

/-! ## What one step can do -/

inductive Steps (P : Prog ρ) (s : State ρ β) : Act β → State ρ β → Prop
  | write (bs : List β) (h : s.streams.closed = false) :
      Steps P s (.write bs) { s with streams := s.streams.write bs }
  | close (h : s.streams.closed = false) :
      Steps P s .close { s with streams := { s.streams with closed := true } }
  | call (k : Nat) (pc : ρ) (c : Call) (hpc : s.pc = some pc) (hc : P.call pc = some c)
      (hk : s.streams.moves c.len k = true) :
      Steps P s (.call k) ⟨c.apply k s.streams, P.ret pc k⟩
  | eagain (pc : ρ) (hpc : s.pc = some pc) : Steps P s .eagain ⟨s.streams, P.ret pc (-1)⟩

variable {P : Prog ρ}

theorem steps_of_step {s s' : State ρ β} {a : Act β} {es : List Empty}
    (h : (machine P).step s a = some (s', es)) : Steps P s a s' := by
  obtain ⟨hs, rfl⟩ := Machine.quiet_step h
  cases a with
  | write bs =>
    simp only [step] at hs
    split at hs
    · cases hs
    · rename_i hopen
      obtain rfl := Option.some.inj hs
      exact .write bs (Bool.eq_false_iff.mpr hopen)
  | close =>
    simp only [step] at hs
    split at hs
    · cases hs
    · rename_i hopen
      obtain rfl := Option.some.inj hs
      exact .close (Bool.eq_false_iff.mpr hopen)
  | call k =>
    obtain ⟨pc, hpc, hs⟩ := Option.bind_eq_some_iff.mp hs
    obtain ⟨c, hc, hs⟩ := Option.bind_eq_some_iff.mp hs
    obtain ⟨hk, rfl⟩ := guard_inj hs
    exact .call k pc c hpc hc hk
  | eagain =>
    obtain ⟨pc, hpc, hs⟩ := Option.bind_eq_some_iff.mp hs
    obtain ⟨c, _, hs⟩ := Option.bind_eq_some_iff.mp hs
    obtain ⟨_, rfl⟩ := guard_inj hs
    exact .eagain pc hpc

theorem step_call {s : State ρ β} {pc : ρ} {c : Call} {k : Nat} (hpc : s.pc = some pc)
    (hc : P.call pc = some c) (hk : s.streams.moves c.len k = true) :
    (machine P).step s (.call k) = some (⟨c.apply k s.streams, P.ret pc k⟩, []) := by
  simp [machine, step, hpc, hc, hk]

section Moves

variable {w : Streams β} {len : Int} {k : Nat}

theorem moves_le_pipe (h : w.moves len k = true) : k ≤ w.pipe.length := by
  unfold Streams.moves at h
  split at h
  · simp_all
  · split at h
    · simp_all
    · simp only [Bool.and_eq_true, decide_eq_true_eq] at h
      exact h.1.2

theorem moves_le_len (h : w.moves len k = true) (hlen : 0 ≤ len) : k ≤ len := by
  unfold Streams.moves at h
  split at h
  · simp_all
  · split at h
    · simp_all
    · simp only [Bool.and_eq_true, decide_eq_true_eq] at h
      exact h.1.1.2

/-- A call that was asked for something returns 0 at the end of the input only. -/
theorem moves_zero (h : w.moves len 0 = true) (hlen : len ≠ 0) : w.closed = true ∧ w.pipe = [] := by
  unfold Streams.moves at h
  rw [if_neg hlen] at h
  split at h
  · rename_i hempty
    simp only [Bool.and_eq_true] at h
    exact ⟨h.1, List.isEmpty_iff.mp hempty⟩
  · simp at h

end Moves

/-! ## How far tee is ahead -/

def Streams.Drained (w : Streams β) : Prop := w.closed = true ∧ w.pipe = []

/-- Standard output is the file and the next `d` bytes of the pipe. -/
def Streams.Ahead (d : Nat) (w : Streams β) : Prop :=
  w.out = w.file ++ w.pipe.take d ∧ d ≤ w.pipe.length

section Ahead

variable {w : Streams β} {d k : Nat}

theorem Streams.Ahead.write (h : w.Ahead d) (bs : List β) : (w.write bs).Ahead d := by
  refine ⟨?_, ?_⟩
  · rw [Streams.write, List.take_append_of_le_length h.2]
    exact h.1
  · rw [Streams.write, List.length_append]
    exact Nat.le_add_right_of_le h.2

theorem Streams.Ahead.tee (h : w.Ahead 0) (hk : k ≤ w.pipe.length) : (w.tee k).Ahead k := by
  refine ⟨?_, hk⟩
  have hout := h.1
  rw [List.take_zero, List.append_nil] at hout
  rw [Streams.tee, hout]

theorem Streams.Ahead.splice (h : w.Ahead d) (hk : k ≤ d) : (w.splice k).Ahead (d - k) := by
  refine ⟨?_, ?_⟩
  · have htake : w.pipe.take d = w.pipe.take k ++ (w.pipe.drop k).take (d - k) := by
      rw [← List.take_add, Nat.add_sub_cancel' hk]
    rw [Streams.splice, List.append_assoc, ← htake]
    exact h.1
  · rw [Streams.splice, List.length_drop]
    exact Nat.sub_le_sub_right h.2 k

theorem Streams.Ahead.length_out (h : w.Ahead d) : w.out.length = w.file.length + d := by
  rw [h.1, List.length_append, List.length_take, Nat.min_eq_left h.2]

theorem Streams.Ahead.prefixes (h : w.Ahead d) (hw : w.file ++ w.pipe = w.input) :
    w.file <+: w.out ∧ w.out <+: w.input := by
  rw [h.1, ← hw]
  exact ⟨List.prefix_append .., (List.prefix_append_right_inj _).mpr (List.take_prefix ..)⟩

/-- At the end of the input nothing is owed, and both copies are complete. -/
theorem Streams.Ahead.complete (h : w.Ahead d) (hw : w.file ++ w.pipe = w.input)
    (hd : w.Drained) : w.out = w.input ∧ w.file = w.input := by
  have hfile : w.file = w.input := by rw [← hw, hd.2, List.append_nil]
  refine ⟨?_, hfile⟩
  rw [h.1, hd.2, List.take_nil, List.append_nil, hfile]

end Ahead

/-! ## Programs that keep count -/

/-- The program `P` knows what it owes: at `pc` it has teed `owed pc` bytes more than it has
    spliced, and `ended pc` says that it has seen the end of the input. `ok` holds of its
    variables. -/
structure Follows (P : Prog ρ) (owed : ρ → Nat) (ended : ρ → Bool) (ok : ρ → Prop) : Prop where
  tee : ∀ {pc pc' : ρ} {len : Int} {nonblock : Bool} {k : Nat}, ok pc →
    P.call pc = some (.tee len nonblock) → P.ret pc k = some pc' →
    len ≠ 0 ∧ ok pc' ∧ owed pc' = owed pc + k ∧ (ended pc' = true → k = 0)
  splice : ∀ {pc pc' : ρ} {len : Int} {nonblock : Bool} {k : Nat}, ok pc →
    P.call pc = some (.splice len nonblock) → (0 ≤ len → k ≤ len) → P.ret pc k = some pc' →
    ok pc' ∧ owed pc' = owed pc - k ∧ (ended pc' = true → ended pc = true)
  eagain : ∀ {pc pc' : ρ}, ok pc → P.ret pc (-1) = some pc' →
    ok pc' ∧ owed pc' = owed pc ∧ (ended pc' = true → ended pc = true)

/-- What holds in every run. -/
structure Sound (ended : ρ → Bool) (ok : ρ → Prop) (s : State ρ β) : Prop where
  conserved : s.streams.file ++ s.streams.pipe = s.streams.input
  drained : ∀ pc, s.pc = some pc → ended pc = true → s.streams.Drained
  ok : ∀ pc, s.pc = some pc → ok pc

/-- `tee` is as far ahead as the program counts. -/
def OnCount (owed : ρ → Nat) (s : State ρ β) : Prop :=
  ∃ d, s.streams.Ahead d ∧ ∀ pc, s.pc = some pc → owed pc = d

/-- Less has been teed than the program counts. -/
def Short (owed : ρ → Nat) (s : State ρ β) : Prop :=
  ∀ pc, s.pc = some pc → s.streams.out.length < s.streams.file.length + owed pc

section Follows

variable {P : Prog ρ} {owed : ρ → Nat} {ended : ρ → Bool} {ok : ρ → Prop} {s s' : State ρ β}
  {a : Act β}

theorem sound_of_steps (hP : Follows P owed ended ok) (h : Steps P s a s')
    (inv : Sound ended ok s) : Sound ended ok s' := by
  cases h with
  | write bs hopen =>
    refine ⟨?_, ?_, inv.ok⟩
    · rw [Streams.write, ← inv.conserved, List.append_assoc]
    · intro pc hpc hend
      have hclosed := (inv.drained pc hpc hend).1
      rw [hopen] at hclosed
      cases hclosed
  | close hopen =>
    refine ⟨inv.conserved, ?_, inv.ok⟩
    intro pc hpc hend
    exact ⟨rfl, (inv.drained pc hpc hend).2⟩
  | eagain pc hpc =>
    refine ⟨inv.conserved, ?_, ?_⟩
    · intro pc' hret hend
      exact inv.drained pc hpc ((hP.eagain (inv.ok pc hpc) hret).2.2 hend)
    · intro pc' hret
      exact (hP.eagain (inv.ok pc hpc) hret).1
  | call k pc c hpc hc hk =>
    have hok := inv.ok pc hpc
    cases c with
    | tee len nonblock =>
      refine ⟨inv.conserved, ?_, fun pc' hret => (hP.tee hok hc hret).2.1⟩
      intro pc' hret hend
      obtain ⟨hlen, _, _, hzero⟩ := hP.tee hok hc hret
      rw [hzero hend] at hk
      exact moves_zero hk hlen
    | splice len nonblock =>
      have hle := moves_le_len hk
      refine ⟨?_, ?_, fun pc' hret => (hP.splice hok hc hle hret).1⟩
      · simp only [Call.apply, Streams.splice]
        rw [List.append_assoc, List.take_append_drop]
        exact inv.conserved
      · intro pc' hret hend
        obtain ⟨hclosed, hpipe⟩ := inv.drained pc hpc ((hP.splice hok hc hle hret).2.2 hend)
        refine ⟨hclosed, ?_⟩
        simp only [Call.apply, Streams.splice, hpipe, List.drop_nil]

/-- A step that tees when nothing is owed, or splices no more than is owed, keeps the count. -/
theorem onCount_of_steps (hP : Follows P owed ended ok) (h : Steps P s a s')
    (inv : Sound ended ok s) (hcount : OnCount owed s)
    (hgood : ∀ k pc c, a = .call k → s.pc = some pc → P.call pc = some c →
      s.streams.moves c.len k = true →
      match c with
      | .tee _ _ => owed pc = 0
      | .splice _ _ => k ≤ owed pc) : OnCount owed s' := by
  obtain ⟨d, hd, howed⟩ := hcount
  cases h with
  | write bs hopen => exact ⟨d, hd.write bs, howed⟩
  | close hopen => exact ⟨d, hd, howed⟩
  | eagain pc hpc =>
    refine ⟨d, hd, fun pc' hret => ?_⟩
    rw [(hP.eagain (inv.ok pc hpc) hret).2.1, howed pc hpc]
  | call k pc c hpc hc hk =>
    have hok := inv.ok pc hpc
    have hstep := hgood k pc c rfl hpc hc hk
    cases c with
    | tee len nonblock =>
      obtain rfl : 0 = d := hstep.symm.trans (howed pc hpc)
      refine ⟨k, hd.tee (moves_le_pipe hk), fun pc' hret => ?_⟩
      rw [(hP.tee hok hc hret).2.2.1, hstep, Nat.zero_add]
    | splice len nonblock =>
      refine ⟨d - k, hd.splice (howed pc hpc ▸ hstep), fun pc' hret => ?_⟩
      rw [(hP.splice hok hc (moves_le_len hk) hret).2.1, howed pc hpc]

/-- A splice of more than is owed moves bytes that were never teed. -/
theorem short_of_splice (hcount : OnCount owed s) {pc : ρ} {len : Int} {k : Nat}
    (hpc : s.pc = some pc) (hk : s.streams.moves len k = true) (hmore : owed pc < k)
    (next : Option ρ) : Short owed ⟨s.streams.splice k, next⟩ := by
  obtain ⟨d, hd, howed⟩ := hcount
  intro pc' _
  have hlen := hd.length_out
  have hpipe := moves_le_pipe hk
  have hd' := howed pc hpc
  simp only [Streams.splice, List.length_append, List.length_take]
  omega

/-- What was not teed is never made up for. -/
theorem short_of_steps (hP : Follows P owed ended ok) (h : Steps P s a s')
    (inv : Sound ended ok s) (hshort : Short owed s) : Short owed s' := by
  cases h with
  | write bs hopen => exact hshort
  | close hopen => exact hshort
  | eagain pc hpc =>
    intro pc' hret
    rw [(hP.eagain (inv.ok pc hpc) hret).2.1]
    exact hshort pc hpc
  | call k pc c hpc hc hk =>
    intro pc' hret
    have hok := inv.ok pc hpc
    have hlt := hshort pc hpc
    have hpipe := moves_le_pipe hk
    cases c with
    | tee len nonblock =>
      rw [(hP.tee hok hc hret).2.2.1]
      simp only [Call.apply, Streams.tee, List.length_append, List.length_take]
      omega
    | splice len nonblock =>
      rw [(hP.splice hok hc (moves_le_len hk) hret).2.1]
      simp only [Call.apply, Streams.splice, List.length_append, List.length_take]
      omega

/-- The program starts at `pc₀`, where nothing is owed and the end has not been seen. -/
structure Starts (owed : ρ → Nat) (ended : ρ → Bool) (ok : ρ → Prop) (pc₀ : ρ) : Prop where
  ok : ok pc₀
  owed : owed pc₀ = 0
  ended : ended pc₀ = false

theorem sound_init {pc₀ : ρ} (h₀ : Starts owed ended ok pc₀) :
    Sound ended ok (initState pc₀ : State ρ β) := by
  refine ⟨rfl, ?_, ?_⟩
  · rintro pc ⟨rfl⟩ hend
    rw [h₀.ended] at hend
    cases hend
  · rintro pc ⟨rfl⟩
    exact h₀.ok

theorem onCount_init {pc₀ : ρ} (h₀ : Starts owed ended ok pc₀) :
    OnCount owed (initState pc₀ : State ρ β) := by
  refine ⟨0, ⟨rfl, Nat.zero_le _⟩, ?_⟩
  rintro pc ⟨rfl⟩
  exact h₀.owed

variable {pc₀ : ρ} {acts : List (Act β)} {tr : List Empty} {good : State ρ β → Act β → Prop}

theorem sound_of_run (hP : Follows P owed ended ok) (h₀ : Starts owed ended ok pc₀)
    (hr : (machine P).run (initState pc₀) acts = some (s, tr)) : Sound ended ok s :=
  (machine P).run_inv (fun _ => True) (Sound ended ok)
    (fun _ _ _ _ _ inv hs => sound_of_steps hP (steps_of_step hs) inv) (fun _ _ => trivial)
    (sound_init h₀) hr

/-- If good steps keep the count, a run of good steps does. -/
theorem onCount_of_run (hP : Follows P owed ended ok) (h₀ : Starts owed ended ok pc₀)
    (hgood : ∀ {s s' : State ρ β} {a : Act β}, Steps P s a s' → Sound ended ok s →
      OnCount owed s → good s a → OnCount owed s')
    (hal : (machine P).Along good (initState pc₀) acts)
    (hr : (machine P).run (initState pc₀) acts = some (s, tr)) : OnCount owed s := by
  have h := (machine P).run_induct_along good
    (fun s _ => Sound ended ok s ∧ OnCount owed s) ?_ acts (initState pc₀) [] s tr hal
    ⟨sound_init h₀, onCount_init h₀⟩ hr
  · exact h.2
  · rintro s tr a s' es hg ⟨inv, hcount⟩ hs
    have hsteps := steps_of_step hs
    exact ⟨sound_of_steps hP hsteps inv, hgood hsteps inv hcount hg⟩

/-- If a step that is not good makes `B` true for good, a run that does not end in `B` has only
    good steps. -/
theorem along_of_run (hP : Follows P owed ended ok) (h₀ : Starts owed ended ok pc₀)
    {B : State ρ β → Prop}
    (hgood : ∀ {s s' : State ρ β} {a : Act β}, Steps P s a s' → Sound ended ok s →
      OnCount owed s → good s a → OnCount owed s')
    (hbad : ∀ {s s' : State ρ β} {a : Act β}, Steps P s a s' → Sound ended ok s →
      OnCount owed s → ¬good s a → B s')
    (hkeep : ∀ {s s' : State ρ β} {a : Act β}, Steps P s a s' → Sound ended ok s → B s → B s')
    (hr : (machine P).run (initState pc₀) acts = some (s, tr)) (hnot : ¬B s) :
    (machine P).Along good (initState pc₀) acts := by
  have h := (machine P).run_along_or good (fun s _ => Sound ended ok s ∧ OnCount owed s)
    (fun s _ => Sound ended ok s ∧ B s) ?_ ?_ ?_ acts (initState pc₀) [] s tr
    ⟨sound_init h₀, onCount_init h₀⟩ hr
  · rcases h with ⟨hal, _⟩ | ⟨_, hb⟩
    · exact hal
    · exact absurd hb hnot
  · rintro s tr a s' es hg ⟨inv, hcount⟩ hs
    have hsteps := steps_of_step hs
    exact ⟨sound_of_steps hP hsteps inv, hgood hsteps inv hcount hg⟩
  · rintro s tr a s' es hg ⟨inv, hcount⟩ hs
    have hsteps := steps_of_step hs
    exact ⟨sound_of_steps hP hsteps inv, hbad hsteps inv hcount hg⟩
  · rintro s tr a s' es ⟨inv, hb⟩ hs
    have hsteps := steps_of_step hs
    exact ⟨sound_of_steps hP hsteps inv, hkeep hsteps inv hb⟩

end Follows

/-- A tee while something is owed writes the first byte of the pipe again. -/
theorem doubled_of_tee {w : Streams β} {d k : Nat} {len : Int} (hd : w.Ahead d) (hpos : 0 < d)
    (hk : w.moves len k = true) (hlen : len ≠ 0) : ¬(w.tee k).out.Nodup := by
  cases hpipe : w.pipe with
  | nil =>
    have := hd.2
    rw [hpipe, List.length_nil] at this
    omega
  | cons b rest =>
    have hkpos : 0 < k := by
      rcases Nat.eq_zero_or_pos k with rfl | h
      · have hnil := (moves_zero hk hlen).2
        rw [hpipe] at hnil
        cases hnil
      · exact h
    have hmem {j : Nat} (hj : 0 < j) : b ∈ w.pipe.take j := by
      rw [hpipe, ← Nat.succ_pred_eq_of_pos hj]
      exact List.mem_cons_self
    rw [Streams.tee, hd.1]
    intro hnodup
    have hdisj := (List.nodup_append.mp hnodup).2.2
    exact hdisj b (List.mem_append_right _ (hmem hpos)) b (hmem hkpos) rfl

/-- Standard output only grows. -/
theorem out_of_steps {s s' : State ρ β} {a : Act β} (h : Steps P s a s') :
    s.streams.out <+: s'.streams.out := by
  cases h with
  | call k pc c hpc hc hk =>
    cases c with
    | tee len nonblock => exact List.prefix_append ..
    | splice len nonblock => exact List.prefix_refl _
  | _ => exact List.prefix_refl _

end DemosOsLinux.Tee
