/-
  Copying a file with select(2) (examples/io/zero_copy/copy_file_select.cc).

  One step of the machine is one iteration of the loop in `copy_file`. Its action is what the
  kernel chose: the descriptors that `select` reported, and how much `read(2)` and `write(2)`
  transferred. `select` reports a non-empty subset of the descriptors asked for; when none was
  asked for it never returns, so no action is enabled. A `read(2)` of a positive count returns
  0 only at the end of the input, a `read(2)` of count 0 always does.

  `copy_file_correct` is the result about the copy, `copy_file_returns` says that every
  execution returns after at most `2 * input.length + 1` iterations.
-/
import DemosOsLinux.Lib.Machine
import DemosOsLinux.CircularPipe.Fifo

namespace DemosOsLinux.CopyFile

open Lib

/-- The local variables of `copy_file`, the rest of the input and the output so far. -/
structure State where
  pipe : CircularPipe
  input : List UInt8
  output : List UInt8
  eof : Bool
  returned : Bool

/-- `copy_file` at the start of its first iteration. -/
def initState (bufsize : UInt32) (mem : Nat → UInt8) (input : List UInt8) : State where
  pipe := CircularPipe.ctor bufsize.toNat mem
  input := input
  output := []
  eof := false
  returned := false

/-- Is `fdin` added to the read set? -/
def State.asksRead (s : State) : Bool := s.pipe.canPush && !s.eof

/-- Is `fdout` added to the write set? -/
def State.asksWrite (s : State) : Bool := s.pipe.canPull

/-- What the kernel chooses in one iteration. -/
structure Choice where
  readActive : Bool
  writeActive : Bool
  readLen : Nat
  writeLen : Nat

/-- `p.push(fdin)` when `read(2)` returns `n`. -/
def doPush (s : State) (n : Nat) : Option State :=
  if n ≤ s.pipe.pushCount ∧ n ≤ s.input.length ∧
      (n = 0 → s.pipe.pushCount = 0 ∨ s.input = []) then
    let r := s.pipe.push (s.input.take n)
    some { s with
      pipe := r.1
      input := s.input.drop n
      eof := if r.2 then true else s.eof }
  else none

/-- `p.pull(fdout)` when `write(2)` returns `n`. -/
def doPull (s : State) (n : Nat) : Option State :=
  if n ≤ s.pipe.pullCount ∧ (n = 0 → s.pipe.pullCount = 0) then
    let r := s.pipe.pull n
    some { s with pipe := r.1, output := s.output ++ r.2 }
  else none

/-- What `select` may report. -/
def selectable (s : State) (c : Choice) : Prop :=
  (c.readActive = true → s.asksRead = true) ∧ (c.writeActive = true → s.asksWrite = true) ∧
    (c.readActive = true ∨ c.writeActive = true)

instance (s : State) (c : Choice) : Decidable (selectable s c) := by
  unfold selectable
  infer_instance

/-- `if (s.isReadActive(fdin))`. -/
def handleRead (s : State) (c : Choice) : Option State :=
  if c.readActive then doPush s c.readLen else some s

/-- `if (s.isWriteActive(fdout))`. -/
def handleWrite (s : State) (c : Choice) : Option State :=
  if c.writeActive then doPull s c.writeLen else some s

/-- One iteration of the loop, with the test of the `while` at its end. -/
def iteration (s : State) (c : Choice) : Option State :=
  if s.returned = false ∧ selectable s c then do
    let s₁ ← handleRead s c
    let s₂ ← handleWrite s₁ c
    some { s₂ with returned := !(!s₂.eof || s₂.pipe.canPull) }
  else none

/-- `copy_file` as a machine. -/
def copyFile : Machine State Choice Empty where
  step s c := (iteration s c).map fun s' => (s', [])

/-! ## One iteration -/

/-- The invariant at the loop head, for a copy of `input`. -/
structure CopyInv (input : List UInt8) (s : State) : Prop where
  wf : s.pipe.Wf
  size : 2 ≤ s.pipe.size
  bytes : s.output ++ (s.pipe.stored ++ s.input) = input
  eof : s.eof = true → s.input = []

/-- How far the copy is from its end. -/
def remaining (s : State) : Nat :=
  2 * s.input.length + s.pipe.data + if s.eof then 0 else 1

theorem data_push {p : CircularPipe} (wf : p.Wf) {bs : List UInt8}
    (h : bs.length ≤ p.pushCount) : (p.push bs).1.data = p.data + bs.length := by
  rw [← CircularPipe.length_stored (CircularPipe.wf_push wf h), CircularPipe.stored_push wf h,
    List.length_append, CircularPipe.length_stored wf]

theorem data_pull {p : CircularPipe} (wf : p.Wf) {n : Nat} (h : n ≤ p.pullCount) :
    (p.pull n).1.data = p.data - n := by
  rw [← CircularPipe.length_stored (CircularPipe.wf_pull wf n), CircularPipe.stored_pull wf h,
    List.length_drop, CircularPipe.length_stored wf]

variable {input : List UInt8} {s s₁ : State} {c : Choice}

section Steps

variable (inv : CopyInv input s)
include inv

/-- `push` with room: it moves bytes into the pipe, or finds the end of the input. -/
theorem doPush_inv {n : Nat} (ha : s.asksRead = true) (h : doPush s n = some s₁) :
    CopyInv input s₁ ∧ remaining s₁ < remaining s ∧ s.pipe.data ≤ s₁.pipe.data := by
  simp only [State.asksRead, Bool.and_eq_true, CircularPipe.canPush_iff,
    Bool.not_eq_true'] at ha
  obtain ⟨hroom, heof⟩ := ha
  have hcount : 0 < s.pipe.pushCount := (CircularPipe.pushCount_spec inv.wf).1.mpr hroom
  unfold doPush at h
  obtain ⟨⟨hle, hin, hzero⟩, rfl⟩ := guard_inj h
  have hlen : (s.input.take n).length = n := by
    rw [List.length_take]
    omega
  have hfit : (s.input.take n).length ≤ s.pipe.pushCount := by rw [hlen]; exact hle
  have hdata : (s.pipe.push (s.input.take n)).1.data = s.pipe.data + n := by
    rw [data_push inv.wf hfit, hlen]
  have hflag : (s.pipe.push (s.input.take n)).2 = (n == 0) := by
    simp only [CircularPipe.push, hlen]
  refine ⟨⟨CircularPipe.wf_push inv.wf hfit, inv.size, ?_, ?_⟩, ?_, ?_⟩
  · show s.output ++ ((s.pipe.push (s.input.take n)).1.stored ++ s.input.drop n) = input
    rw [CircularPipe.stored_push inv.wf hfit, List.append_assoc, List.take_append_drop]
    exact inv.bytes
  · -- end of file is reported for a read of 0 bytes, and the count was positive
    intro he
    simp only [hflag, heof] at he
    have hn0 : n = 0 := by simpa using he
    subst hn0
    rcases hzero rfl with h0 | h0
    · omega
    · show s.input.drop 0 = []
      rw [h0, List.drop_nil]
  · simp only [remaining, hdata, hflag, heof, List.length_drop]
    by_cases hn0 : n = 0
    · subst hn0
      simp
    · simp [hn0]
      omega
  · show s.pipe.data ≤ (s.pipe.push (s.input.take n)).1.data
    omega

/-- `pull` with data: it moves bytes to the output. -/
theorem doPull_inv {n : Nat} (ha : 0 < s.pipe.data)
    (h : doPull s n = some s₁) : CopyInv input s₁ ∧ remaining s₁ < remaining s := by
  have hcount : 0 < s.pipe.pullCount := (CircularPipe.pullCount_spec inv.wf).1.mpr ha
  have hmax := (CircularPipe.pullCount_spec inv.wf).2.1
  unfold doPull at h
  obtain ⟨⟨hle, hzero⟩, rfl⟩ := guard_inj h
  have hdata := data_pull inv.wf hle
  refine ⟨⟨CircularPipe.wf_pull inv.wf n, inv.size, ?_, inv.eof⟩, ?_⟩
  · show s.output ++ (s.pipe.pull n).2 ++ ((s.pipe.pull n).1.stored ++ s.input) = input
    rw [CircularPipe.pull_bytes inv.wf hle, CircularPipe.stored_pull inv.wf hle, append_take_drop]
    exact inv.bytes
  · have hn0 : n ≠ 0 := fun h0 => by
      have := hzero h0
      omega
    simp only [remaining, hdata]
    omega

theorem handleRead_inv (hsel : selectable s c) (h : handleRead s c = some s₁) :
    CopyInv input s₁ ∧ s.pipe.data ≤ s₁.pipe.data ∧
      remaining s₁ + (if c.readActive = true then 1 else 0) ≤ remaining s := by
  unfold handleRead at h
  cases hr : c.readActive with
  | true =>
    rw [hr, if_pos rfl] at h
    obtain ⟨h1, h2, h3⟩ := doPush_inv inv (hsel.1 hr) h
    exact ⟨h1, h3, h2⟩
  | false =>
    rw [hr, if_neg (by decide)] at h
    obtain rfl := Option.some.inj h
    exact ⟨inv, Nat.le_refl _, Nat.le_refl _⟩

theorem handleWrite_inv (hdata : c.writeActive = true → 0 < s.pipe.data)
    (h : handleWrite s c = some s₁) :
    CopyInv input s₁ ∧
      remaining s₁ + (if c.writeActive = true then 1 else 0) ≤ remaining s := by
  unfold handleWrite at h
  cases hw : c.writeActive with
  | true =>
    rw [hw, if_pos rfl] at h
    exact doPull_inv inv (hdata hw) h
  | false =>
    rw [hw, if_neg (by decide)] at h
    obtain rfl := Option.some.inj h
    exact ⟨inv, Nat.le_refl _⟩

/-- An iteration keeps the invariant and brings the copy nearer to its end. -/
theorem iteration_inv {s' : State} (h : iteration s c = some s') :
    CopyInv input s' ∧ remaining s' < remaining s ∧
      s'.returned = !(!s'.eof || s'.pipe.canPull) := by
  unfold iteration at h
  split at h
  · rename_i hg
    obtain ⟨_, hsel⟩ := hg
    obtain ⟨s₁, h₁, h⟩ := Option.bind_eq_some_iff.mp h
    obtain ⟨s₂, h₂, h⟩ := Option.bind_eq_some_iff.mp h
    obtain rfl := Option.some.inj h
    obtain ⟨inv₁, hd₁, hr₁⟩ := handleRead_inv inv hsel h₁
    have hdata : c.writeActive = true → 0 < s₁.pipe.data := fun hw => by
      have := (CircularPipe.canPull_iff _).mp (hsel.2.1 hw)
      omega
    obtain ⟨inv₂, hr₂⟩ := handleWrite_inv inv₁ hdata h₂
    refine ⟨⟨inv₂.wf, inv₂.size, inv₂.bytes, inv₂.eof⟩, ?_, rfl⟩
    show remaining s₂ < remaining s
    rcases hsel.2.2 with h | h
    · rw [if_pos h] at hr₁
      omega
    · rw [if_pos h] at hr₂
      omega
  · cases h

end Steps

/-! ## Whole executions -/

/-- At the loop head: the copy goes on exactly while there is something left to do. -/
structure LoopInv (input : List UInt8) (s : State) : Prop where
  copy : CopyInv input s
  returned : s.returned = !(!s.eof || s.pipe.canPull)

theorem loopInv_initState {bufsize : UInt32} (h : 2 ≤ bufsize.toNat) (mem : Nat → UInt8)
    (input : List UInt8) : LoopInv input (initState bufsize mem input) := by
  have h64 : bufsize.toNat < 2 ^ 64 := Nat.lt_trans bufsize.toNat_lt (by decide)
  refine ⟨⟨CircularPipe.wf_ctor mem (by omega) h64, h, ?_, ?_⟩, rfl⟩
  · show [] ++ ((CircularPipe.ctor bufsize.toNat mem).stored ++ input) = input
    rw [CircularPipe.stored_ctor mem (by omega) h64]
    rfl
  · intro he
    cases he

theorem step_loopInv {s' : State} {es : List Empty} (inv : LoopInv input s)
    (h : copyFile.step s c = some (s', es)) : LoopInv input s' ∧ remaining s' < remaining s := by
  obtain ⟨h1, h2, h3⟩ := iteration_inv inv.copy (Machine.quiet_step h).1
  exact ⟨⟨h1, h3⟩, h2⟩

theorem run_loopInv {bufsize : UInt32} {mem : Nat → UInt8} {cs : List Choice} {tr : List Empty}
    (h : 2 ≤ bufsize.toNat) (hr : copyFile.run (initState bufsize mem input) cs = some (s, tr)) :
    LoopInv input s :=
  copyFile.run_inv (fun _ => True) (LoopInv input)
    (fun _ _ _ _ _ inv hs => (step_loopInv inv hs).1) (fun _ _ => trivial)
    (loopInv_initState h mem input) hr

/-- When the loop goes on, some descriptor is asked for: data to write, or room to read. -/
theorem LoopInv.asks (inv : LoopInv input s) (h : s.returned = false) :
    s.asksRead = true ∨ s.asksWrite = true := by
  have hret := inv.returned
  rw [h] at hret
  have hrd := CircularPipe.data_add_room inv.copy.wf
  have hsz := inv.copy.size
  cases hp : s.pipe.canPull with
  | true => exact Or.inr hp
  | false =>
    left
    have hd : ¬ 0 < s.pipe.data := fun hd => by
      rw [(CircularPipe.canPull_iff _).mpr hd] at hp
      cases hp
    have heof : s.eof = false := by
      cases he : s.eof with
      | false => rfl
      | true =>
        rw [he, hp] at hret
        cases hret
    simp only [State.asksRead, heof, Bool.not_false, Bool.and_true]
    exact (CircularPipe.canPush_iff _).mpr (by omega)

/-- **The copy is faithful.** For every input, every buffer of at least 2 bytes and every
    choice of the kernel, at every loop head: if `copy_file` returns, the output is the input;
    `push` has reported end of file only if the whole input has been read; and if it goes on,
    `select` is not called with both sets empty. -/
theorem copy_file_correct (bufsize : UInt32) (hsize : 2 ≤ bufsize.toNat) (mem : Nat → UInt8)
    (input : List UInt8) (cs : List Choice) (s : State) (tr : List Empty)
    (hr : copyFile.run (initState bufsize mem input) cs = some (s, tr)) :
    (s.returned = true → s.output = input) ∧
    (s.eof = true → s.input = []) ∧
    (s.returned = false → s.asksRead = true ∨ s.asksWrite = true) := by
  have inv := run_loopInv hsize hr
  refine ⟨?_, inv.copy.eof, inv.asks⟩
  intro hret
  have hexit := inv.returned.symm.trans hret
  simp only [Bool.not_eq_true', Bool.or_eq_false_iff, Bool.not_eq_false'] at hexit
  obtain ⟨heof, hpull⟩ := hexit
  have hempty : s.pipe.stored = [] := by
    apply List.eq_nil_of_length_eq_zero
    rw [CircularPipe.length_stored inv.copy.wf]
    simp only [CircularPipe.canPull, CircularPipe.haveData, decide_eq_false_iff_not] at hpull
    omega
  have hbytes := inv.copy.bytes
  rw [hempty, inv.copy.eof heof, List.append_nil, List.append_nil] at hbytes
  exact hbytes

/-- Five bytes through a pipe of size 4, with short reads and writes. -/
def shortRun : List Choice :=
  [⟨true, false, 2, 0⟩, ⟨true, true, 1, 1⟩, ⟨true, true, 1, 2⟩, ⟨true, false, 1, 0⟩,
    ⟨true, true, 0, 1⟩, ⟨false, true, 0, 1⟩]

theorem copy_file_correct_shortRun :
    ∃ s tr, copyFile.run (initState 4 (fun _ => 0) [1, 2, 3, 4, 5]) shortRun = some (s, tr) ∧
      s.returned = true ∧ s.output = [1, 2, 3, 4, 5] := by
  obtain ⟨s, tr, hr, hret⟩ := copyFile.exists_of_check (initState 4 (fun _ => 0) [1, 2, 3, 4, 5])
    shortRun (fun s _ => s.returned = true) (by decide +kernel)
  exact ⟨s, tr, hr, hret, (copy_file_correct 4 (by decide) _ _ shortRun s tr hr).1 hret⟩

/-! ## The copy returns -/

theorem step_isSome {s₂ : State} (h : s.returned = false) (hsel : selectable s c)
    (h₁ : handleRead s c = some s₁) (h₂ : handleWrite s₁ c = some s₂) :
    (copyFile.step s c).isSome = true := by
  simp only [copyFile, iteration]
  rw [if_pos ⟨h, hsel⟩, h₁, Option.bind_eq_bind, Option.bind_some, h₂]
  rfl

/-- In an iteration the kernel always has something to report. -/
theorem LoopInv.enabled (inv : LoopInv input s) (h : s.returned = false) :
    ∃ c, (copyFile.step s c).isSome = true := by
  rcases inv.asks h with ha | ha
  · have hsel : selectable s ⟨true, false, min s.pipe.pushCount s.input.length, 0⟩ :=
      ⟨fun _ => ha, fun h => absurd h Bool.false_ne_true, Or.inl rfl⟩
    have hzero : min s.pipe.pushCount s.input.length = 0 →
        s.pipe.pushCount = 0 ∨ s.input = [] := by
      intro hn
      rcases Nat.eq_zero_or_pos s.input.length with hl | hl
      · exact Or.inr (List.eq_nil_of_length_eq_zero hl)
      · left
        omega
    obtain ⟨s₁, h₁⟩ : ∃ s₁, doPush s (min s.pipe.pushCount s.input.length) = some s₁ := by
      unfold doPush
      rw [if_pos ⟨Nat.min_le_left _ _, Nat.min_le_right _ _, hzero⟩]
      exact ⟨_, rfl⟩
    exact ⟨_, step_isSome h hsel h₁ rfl⟩
  · have hcount : 0 < s.pipe.pullCount :=
      (CircularPipe.pullCount_spec inv.copy.wf).1.mpr ((CircularPipe.canPull_iff _).mp ha)
    have hsel : selectable s ⟨false, true, 0, 1⟩ :=
      ⟨fun h => absurd h Bool.false_ne_true, fun _ => ha, Or.inr rfl⟩
    obtain ⟨s₁, h₁⟩ : ∃ s₁, doPull s 1 = some s₁ := by
      unfold doPull
      rw [if_pos ⟨hcount, fun h => absurd h Nat.one_ne_zero⟩]
      exact ⟨_, rfl⟩
    exact ⟨_, step_isSome h hsel rfl h₁⟩

/-- **The copy returns.** Every execution has at most `2 * input.length + 1` iterations, and as long as
    it has not returned it can go on. -/
theorem copy_file_returns (bufsize : UInt32) (hsize : 2 ≤ bufsize.toNat) (mem : Nat → UInt8)
    (input : List UInt8) (cs : List Choice) (s : State) (tr : List Empty)
    (hr : copyFile.run (initState bufsize mem input) cs = some (s, tr)) :
    cs.length ≤ 2 * input.length + 1 ∧
      (s.returned = false → ∃ c, (copyFile.step s c).isSome = true) := by
  have inv₀ := loopInv_initState hsize mem input
  have hle := copyFile.run_length_add (LoopInv input) remaining
    (fun _ _ _ _ inv hs => step_loopInv inv hs) inv₀ hr
  have hdata : (initState bufsize mem input).pipe.data = 0 := by
    rw [CircularPipe.data_eq inv₀.copy.wf]
    exact fill_self _ 0
  refine ⟨?_, (run_loopInv hsize hr).enabled⟩
  have hstart : remaining (initState bufsize mem input) = 2 * input.length + 1 := by
    unfold remaining
    rw [hdata]
    rfl
  omega

theorem copy_file_returns_twoIterations :
    ∃ s tr, copyFile.run (initState 4 (fun _ => 0) [1, 2, 3, 4, 5]) (shortRun.take 2) = some (s, tr) ∧
      s.returned = false ∧ ∃ c, (copyFile.step s c).isSome = true := by
  obtain ⟨s, tr, hr, hret⟩ := copyFile.exists_of_check (initState 4 (fun _ => 0) [1, 2, 3, 4, 5])
    (shortRun.take 2) (fun s _ => s.returned = false) (by decide +kernel)
  exact ⟨s, tr, hr, hret, (copy_file_returns 4 (by decide) _ _ _ s tr hr).2 hret⟩

end DemosOsLinux.CopyFile
