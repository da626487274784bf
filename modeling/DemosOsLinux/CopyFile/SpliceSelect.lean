/-
  Copying a file with splice(2) and select(2) (examples/io/zero_copy/copy_file_splice_select.cc).

  The input goes to the output through a pipe that does not block. One step of the machine is one
  iteration of the loop; its action is what `select` reported and how much each `splice` moved. A
  `splice` into a full pipe fails with `EAGAIN`; otherwise it moves at least one byte, and at most
  what was asked for, what there is and what fits (`Splice.moves`). The program mirrors the fill
  level of the pipe in `data` and asks for `buf_size - data` bytes, whatever the capacity is.
  `CHECK_INT` compares two `int`s. `failed` says that a check has ended the program.
  * `iteration_cases`: an iteration keeps `data` equal to the fill level. It fails in a check
    exactly if it is not `careful`.
  * `copy_file_splice_select`: so the program ends through a failed check if and only if it reads
    into a full pipe or writes less than the pipe holds. With a pipe of `buf_size` bytes it does
    not read into a full pipe.
-/
import DemosOsLinux.CopyFile.Select
import DemosOsLinux.CopyFile.Splice

namespace DemosOsLinux.CopyFile.SpliceSelect

open Lib
open Splice (moves moves_iff)

variable {β : Type}

/-- The parameters of `copy_file` and the capacity that the kernel gives a pipe. -/
structure Config where
  setbufsize : Bool
  bufSize : UInt64
  defaultCap : Nat

def Config.cap (c : Config) : Nat := if c.setbufsize then c.bufSize.toNat else c.defaultCap

/-- The rest of the input, the bytes in the pipe, the output and the variables. -/
structure State (β : Type) where
  input : List β
  pipe : List β
  output : List β
  data : Nat
  eof : Bool
  returned : Bool
  failed : Bool

section Program

variable (c : Config)

/-- The number of bytes that the `splice` from the input asks for: `buf_size-data`. -/
def State.wants (s : State β) : Nat := u64Sub c.bufSize.toNat s.data

def State.asksRead (s : State β) : Bool := !s.eof && 0 < s.wants c

def State.asksWrite (s : State β) : Bool := 0 < s.data

/-- What `select` may report. -/
def selects (s : State β) (ch : Choice) : Bool :=
  (!ch.readActive || s.asksRead c) && (!ch.writeActive || s.asksWrite) &&
    (ch.readActive || ch.writeActive)

/-- The `splice` from the input, when it returns `k`, and what is done with that. -/
def spliceIn (s : State β) (k : Nat) : Option (State β) :=
  if c.cap ≤ s.pipe.length then some { s with failed := true }
  else if s.input.isEmpty then
    if k = 0 then some { s with eof := true } else none
  else if moves (s.wants c) s.input.length (c.cap - s.pipe.length) k then
    some { s with
      input := s.input.drop k
      pipe := s.pipe ++ s.input.take k
      data := u64Add s.data (u64OfInt (intOfU64 k)) }
  else none

/-- The `splice` to the output, when it returns `k`, and what is done with that. -/
def spliceOut (s : State β) (k : Nat) : Option (State β) :=
  if moves s.data s.pipe.length s.pipe.length k then
    let s' : State β := { s with pipe := s.pipe.drop k, output := s.output ++ s.pipe.take k }
    if intOfU64 k = intOfU64 s.data then
      some { s' with data := u64Sub s.data (u64OfInt (intOfU64 k)) }
    else some { s' with failed := true }
  else none

/-- `if (s.isReadActive(fdin))`. -/
def handleRead (s : State β) (ch : Choice) : Option (State β) :=
  if ch.readActive then spliceIn c s ch.readLen else some s

/-- `if (s.isWriteActive(fdout))`, unless the program has ended. -/
def handleWrite (s : State β) (ch : Choice) : Option (State β) :=
  if ch.writeActive && !s.failed then spliceOut s ch.writeLen else some s

/-- The test at the end of the loop. -/
def endTest (s : State β) : State β :=
  { s with returned := !s.failed && !(!s.eof || 0 < s.data) }

/-- One iteration. -/
def iteration (s : State β) (ch : Choice) : Option (State β) :=
  if !s.returned && !s.failed && selects c s ch then do
    let s₁ ← handleRead c s ch
    let s₂ ← handleWrite s₁ ch
    some (endTest s₂)
  else none

def machine : Machine (State β) Choice Empty where
  step s ch := (iteration c s ch).map fun s' => (s', [])

def initState (input : List β) : State β := ⟨input, [], [], 0, false, false, false⟩

/-- A read finds room in the pipe, and a write moves what `data` says after the read. -/
def careful (s : State β) (ch : Choice) : Bool :=
  (!ch.readActive || s.pipe.length < c.cap) &&
    (!ch.writeActive ||
      intOfU64 ch.writeLen = intOfU64 (s.data + if ch.readActive then ch.readLen else 0))

end Program

/-! ## One iteration -/

/-- No check has failed, the counter is the fill level of the pipe, and the bytes are in the output,
    in the pipe or still in the input. -/
structure CopyInv (c : Config) (whole : List β) (s : State β) : Prop where
  ok : s.failed = false
  bytes : s.output ++ (s.pipe ++ s.input) = whole
  data : s.data = s.pipe.length
  level : s.data ≤ c.bufSize.toNat
  eof : s.eof = true → s.input = []

variable {ch : Choice} {s' : State β}

section Iteration

variable {c : Config} {whole : List β} {s s₁ : State β} {k : Nat}

theorem CopyInv.data_lt (inv : CopyInv c whole s) : s.data < 2 ^ 64 :=
  Nat.lt_of_le_of_lt inv.level c.bufSize.toNat_lt

theorem CopyInv.wants (inv : CopyInv c whole s) : s.wants c = c.bufSize.toNat - s.data :=
  u64Sub_of_le inv.level c.bufSize.toNat_lt

/-- A count that `splice` can return is the same number as an `int` and as a `size_t`. -/
theorem count_exact (h : (k : Int) ≤ Tee.intMax) : u64OfInt (intOfU64 k) = k := by
  have hk : k < 2 ^ 31 := by
    unfold Tee.intMax at h
    omega
  rw [intOfU64_of_lt hk, u64OfInt_natCast (Nat.lt_trans hk (by decide))]

theorem spliceIn_cases (inv : CopyInv c whole s) (h : spliceIn c s k = some s₁) :
    (s.pipe.length < c.cap ∧ CopyInv c whole s₁ ∧ s₁.data = s.data + k) ∨
      (¬s.pipe.length < c.cap ∧ s₁.failed = true) := by
  unfold spliceIn at h
  split at h
  · rename_i hfull
    obtain rfl := Option.some.inj h
    exact Or.inr ⟨Nat.not_lt.mpr hfull, rfl⟩
  · rename_i hroom
    refine Or.inl ⟨Nat.lt_of_not_le hroom, ?_⟩
    split at h
    · -- the end of the input
      rename_i hempty
      obtain ⟨rfl, rfl⟩ := guard_inj h
      exact ⟨⟨inv.ok, inv.bytes, inv.data, inv.level, fun _ => List.isEmpty_iff.mp hempty⟩, rfl⟩
    · rename_i hmore
      obtain ⟨hk, rfl⟩ := guard_inj h
      obtain ⟨hpos, hwant, havail, _, hmax⟩ := moves_iff.mp hk
      rw [inv.wants] at hwant
      have hlevel := inv.level
      have hsize := c.bufSize.toNat_lt
      have hdata : u64Add s.data (u64OfInt (intOfU64 k)) = s.data + k := by
        rw [count_exact hmax]
        exact u64Add_of_lt (by omega)
      refine ⟨⟨inv.ok, ?_, ?_, ?_, ?_⟩, hdata⟩
      · show s.output ++ (s.pipe ++ s.input.take k ++ s.input.drop k) = whole
        rw [List.append_assoc, List.take_append_drop]
        exact inv.bytes
      · show u64Add s.data (u64OfInt (intOfU64 k)) = (s.pipe ++ s.input.take k).length
        rw [hdata, List.length_append, List.length_take, inv.data]
        omega
      · show u64Add s.data (u64OfInt (intOfU64 k)) ≤ c.bufSize.toNat
        omega
      · intro heof
        exact absurd (List.isEmpty_iff.mpr (inv.eof heof)) hmore

theorem spliceOut_cases (inv : CopyInv c whole s) (h : spliceOut s k = some s₁) :
    (intOfU64 k = intOfU64 s.data ∧ CopyInv c whole s₁) ∨
      (¬intOfU64 k = intOfU64 s.data ∧ s₁.failed = true) := by
  unfold spliceOut at h
  obtain ⟨hk, h⟩ := Option.ite_none_right_eq_some.mp h
  obtain ⟨_, hle, havail, _, hmax⟩ := moves_iff.mp hk
  by_cases hcheck : intOfU64 k = intOfU64 s.data
  · rw [if_pos hcheck] at h
    obtain rfl := Option.some.inj h
    have hdata : u64Sub s.data (u64OfInt (intOfU64 k)) = s.data - k := by
      rw [count_exact hmax, u64Sub_of_le hle inv.data_lt]
    refine Or.inl ⟨hcheck, inv.ok, ?_, ?_, ?_, inv.eof⟩
    · show s.output ++ s.pipe.take k ++ (s.pipe.drop k ++ s.input) = whole
      rw [append_take_drop]
      exact inv.bytes
    · show u64Sub s.data (u64OfInt (intOfU64 k)) = (s.pipe.drop k).length
      rw [hdata, List.length_drop, inv.data]
    · show u64Sub s.data (u64OfInt (intOfU64 k)) ≤ c.bufSize.toNat
      rw [hdata]
      exact Nat.le_trans (Nat.sub_le _ _) inv.level
  · rw [if_neg hcheck] at h
    obtain rfl := Option.some.inj h
    exact Or.inr ⟨hcheck, rfl⟩

/-- At the end of an iteration. -/
structure LoopInv (c : Config) (whole : List β) (s : State β) : Prop where
  copy : CopyInv c whole s
  returned : s.returned = true → s.eof = true ∧ s.data = 0

theorem loopInv_endTest (inv : CopyInv c whole s) : LoopInv c whole (endTest s) := by
  refine ⟨⟨inv.ok, inv.bytes, inv.data, inv.level, inv.eof⟩, ?_⟩
  intro hret
  simp only [endTest, Bool.and_eq_true, Bool.not_eq_true', Bool.or_eq_false_iff,
    Bool.not_eq_false', decide_eq_false_iff_not, Nat.not_lt, Nat.le_zero] at hret
  exact hret.2

theorem handleRead_cases (inv : CopyInv c whole s) (h : handleRead c s ch = some s₁) :
    ((!ch.readActive || s.pipe.length < c.cap) = true ∧ CopyInv c whole s₁ ∧
        s₁.data = s.data + if ch.readActive then ch.readLen else 0) ∨
      ((!ch.readActive || s.pipe.length < c.cap) = false ∧ s₁.failed = true) := by
  unfold handleRead at h
  cases hread : ch.readActive with
  | false =>
    rw [hread] at h
    obtain rfl := Option.some.inj h
    exact Or.inl ⟨rfl, inv, rfl⟩
  | true =>
    rw [hread, if_pos rfl] at h
    simpa using spliceIn_cases inv h

theorem handleWrite_cases (inv : CopyInv c whole s) (h : handleWrite s ch = some s₁) :
    ((!ch.writeActive || intOfU64 ch.writeLen = intOfU64 s.data) = true ∧ CopyInv c whole s₁) ∨
      ((!ch.writeActive || intOfU64 ch.writeLen = intOfU64 s.data) = false ∧ s₁.failed = true) := by
  unfold handleWrite at h
  cases hwrite : ch.writeActive with
  | false =>
    rw [hwrite] at h
    obtain rfl := Option.some.inj h
    exact Or.inl ⟨rfl, inv⟩
  | true =>
    rw [hwrite, inv.ok, Bool.not_false, Bool.and_true, if_pos rfl] at h
    simpa using spliceOut_cases inv h

theorem handleWrite_of_failed (h : s.failed = true) : handleWrite s ch = some s := by
  simp [handleWrite, h]

/-- A careful iteration keeps the invariant, and any other one fails in a check. -/
theorem iteration_cases (inv : CopyInv c whole s) (h : iteration c s ch = some s') :
    (careful c s ch = true ∧ LoopInv c whole s') ∨
      (¬careful c s ch = true ∧ s'.failed = true) := by
  obtain ⟨_, h⟩ := Option.ite_none_right_eq_some.mp h
  obtain ⟨s₁, h₁, h⟩ := Option.bind_eq_some_iff.mp h
  obtain ⟨s₂, h₂, h⟩ := Option.bind_eq_some_iff.mp h
  obtain rfl := Option.some.inj h
  unfold careful
  rcases handleRead_cases inv h₁ with ⟨hread, inv₁, hdata⟩ | ⟨hread, hfail⟩
  · rw [hread, ← hdata, Bool.true_and]
    rcases handleWrite_cases inv₁ h₂ with ⟨hwrite, inv₂⟩ | ⟨hwrite, hfail⟩
    · exact Or.inl ⟨hwrite, loopInv_endTest inv₂⟩
    · exact Or.inr ⟨by simp [hwrite], hfail⟩
  · -- the program has ended; there is no write
    rw [handleWrite_of_failed hfail] at h₂
    obtain rfl := Option.some.inj h₂
    exact Or.inr ⟨by simp [hread], hfail⟩

/-- With a pipe of `buf_size` bytes the program reads only when there is room. -/
theorem CopyInv.room (inv : CopyInv c whole s) (hcap : c.bufSize.toNat ≤ c.cap)
    (hasks : s.asksRead c = true) : s.pipe.length < c.cap := by
  simp only [State.asksRead, Bool.and_eq_true, decide_eq_true_eq] at hasks
  have hwants := hasks.2
  rw [inv.wants, inv.data] at hwants
  omega

end Iteration

/-! ## Whole executions -/

theorem loopInv_initState (c : Config) (whole : List β) : LoopInv c whole (initState whole) :=
  ⟨⟨rfl, rfl, rfl, Nat.zero_le _, fun h => nomatch h⟩, fun h => nomatch h⟩

variable {c : Config} {s : State β} {es : List Empty} {whole : List β}

theorem iteration_of_step (h : (machine c).step s ch = some (s', es)) :
    iteration c s ch = some s' := by
  exact (Machine.quiet_step h).1

theorem loopInv_of_careful (hcareful : careful c s ch = true) (inv : LoopInv c whole s)
    (h : (machine c).step s ch = some (s', es)) : LoopInv c whole s' := by
  rcases iteration_cases inv.copy (iteration_of_step h) with ⟨_, inv'⟩ | ⟨hnot, _⟩
  · exact inv'
  · exact absurd hcareful hnot

theorem failed_of_careless (hnot : ¬careful c s ch = true) (inv : LoopInv c whole s)
    (h : (machine c).step s ch = some (s', es)) : s'.failed = true := by
  rcases iteration_cases inv.copy (iteration_of_step h) with ⟨hcareful, _⟩ | ⟨_, hfail⟩
  · exact absurd hcareful hnot
  · exact hfail

/-- A failed check ends the program. -/
theorem no_step_of_failed (h : s.failed = true) (ch : Choice) : (machine c).step s ch = none := by
  simp [machine, iteration, h]

/-- What is returned is a faithful copy. -/
theorem LoopInv.output_eq (inv : LoopInv c whole s) (hret : s.returned = true) :
    s.output = whole := by
  obtain ⟨heof, hzero⟩ := inv.returned hret
  have hpipe : s.pipe = [] := List.eq_nil_of_length_eq_zero (inv.copy.data.symm.trans hzero)
  have hbytes := inv.copy.bytes
  rwa [hpipe, inv.copy.eof heof, List.append_nil, List.append_nil] at hbytes

/-- **copy_file_splice_select.** For every input, every `buf_size` and every choice of the kernel: no
    check fails if and only if every iteration is careful. As long as no check has failed the counter
    is the number of bytes in the pipe, what is returned is a faithful copy, and if the pipe has room
    for `buf_size` bytes the input is only asked for when there is room. -/
theorem copy_file_splice_select (c : Config) (input : List β) (chs : List Choice) (s : State β)
    (tr : List Empty) (hr : (machine c).run (initState input) chs = some (s, tr)) :
    (s.failed = false ↔
      (machine c).Along (fun s ch => careful c s ch = true) (initState input) chs) ∧
    (s.failed = false → s.data = s.pipe.length ∧ (s.returned = true → s.output = input) ∧
      (c.bufSize.toNat ≤ c.cap → s.asksRead c = true → s.pipe.length < c.cap)) := by
  have hinit := loopInv_initState c input
  have hgood : ∀ s (_ : List Empty) ch s₁ es, careful c s ch = true → LoopInv c input s →
      (machine c).step s ch = some (s₁, es) → LoopInv c input s₁ :=
    fun _ _ _ _ _ hcareful inv hs => loopInv_of_careful hcareful inv hs
  have hiff := (machine c).run_along_iff (fun s ch => careful c s ch = true)
    (fun s (_ : List Empty) => LoopInv c input s) (fun s _ => s.failed = true) hgood
    (fun _ _ _ _ _ hnot inv hs => failed_of_careless hnot inv hs) ?_ hinit hr
    (fun inv => inv.copy.ok) (fun hfail => by rw [hfail]; decide)
  · refine ⟨hiff, fun hok => ?_⟩
    have inv := (machine c).run_induct_along _ (fun s _ => LoopInv c input s) hgood chs
      (initState input) [] s tr (hiff.mp hok) hinit hr
    exact ⟨inv.copy.data, inv.output_eq, inv.copy.room⟩
  · intro s tr ch s₁ es hfail hs
    rw [no_step_of_failed hfail] at hs
    cases hs

/-- A pipe of `buf_size` bytes, and every write takes all that is in it. -/
def wholeWrites : List Choice :=
  [⟨true, false, 2, 0⟩, ⟨true, true, 1, 3⟩, ⟨true, false, 0, 0⟩]

theorem copy_file_splice_select_wholeWrites :
    ∃ s tr, (machine ⟨true, 4, 65536⟩).run (initState [1, 2, 3]) wholeWrites = some (s, tr) ∧
      s.failed = false ∧ s.returned = true ∧ s.output = [1, 2, 3] := by
  obtain ⟨s, tr, hr, hret⟩ := (machine ⟨true, 4, 65536⟩).exists_of_check (initState [1, 2, 3])
    wholeWrites (fun s _ => s.returned = true) (by decide +kernel)
  have hal := (machine ⟨true, 4, 65536⟩).along_of_check (careful ⟨true, 4, 65536⟩) wholeWrites
    (initState [1, 2, 3]) (by decide +kernel)
  have hcopy := copy_file_splice_select ⟨true, 4, 65536⟩ [1, 2, 3] wholeWrites s tr hr
  have hok := hcopy.1.mpr hal
  exact ⟨s, tr, hr, hok, hret, (hcopy.2 hok).2.1 hret⟩

/-- A pipe of 2 bytes that was not resized, and a `buf_size` of 4: with the pipe full the program asks
    for 2 more bytes. In a pipe of `buf_size` bytes one short write is enough. -/
theorem checks_fail :
    (∃ s tr, (machine ⟨false, 4, 2⟩).run (initState [1, 2, 3])
        [⟨true, false, 2, 0⟩, ⟨true, false, 0, 0⟩] = some (s, tr) ∧ s.failed = true) ∧
    ∃ s tr, (machine ⟨true, 2, 65536⟩).run (initState [1, 2])
        [⟨true, false, 2, 0⟩, ⟨false, true, 0, 1⟩] = some (s, tr) ∧ s.failed = true := by
  refine ⟨?_, ?_⟩
  · exact (machine ⟨false, 4, 2⟩).exists_of_check (initState [1, 2, 3])
      [⟨true, false, 2, 0⟩, ⟨true, false, 0, 0⟩] (fun s _ => s.failed = true) (by decide +kernel)
  · exact (machine ⟨true, 2, 65536⟩).exists_of_check (initState [1, 2])
      [⟨true, false, 2, 0⟩, ⟨false, true, 0, 1⟩] (fun s _ => s.failed = true) (by decide +kernel)

end DemosOsLinux.CopyFile.SpliceSelect
