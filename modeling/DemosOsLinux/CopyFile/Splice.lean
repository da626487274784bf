/-
  Copying a file with splice(2) (examples/io/zero_copy/copy_file_splice.cc).

  The input goes to the output through a private pipe. One step of the machine is one `splice`, and
  its action is how many bytes it moved: at least one and at most what was asked for, what there is
  and what fits, and never more than `INT_MAX`, the limit of the kernel for one call. A `splice` from
  the input returns 0 at its end, and one from the empty private pipe never returns, since the
  program holds the write end. `CHECK_NOT_M1` takes and returns an `int`.
  * `Place`: the inner loop is entered with `len` bytes in the pipe and keeps that count.
  * `copy_file_splice`: the copy is faithful and returns after at most `2 * input.length + 1` calls.
-/
import DemosOsLinux.Lib.MachineInt
import DemosOsLinux.Lib.RingBuffer
import DemosOsLinux.Tee.Streams

namespace DemosOsLinux.CopyFile.Splice

open Lib
open Tee (intMax checkNotM1)

variable {β : Type}

/-- May a `splice` that asks for `want` bytes move `k`, when `avail` are there and `room` fit? -/
def moves (want avail room k : Nat) : Bool :=
  0 < k && k ≤ want && k ≤ avail && k ≤ room && k ≤ intMax

/-- The places of `copy_file` where it makes a call, with its variables. -/
inductive Pc where
  | fill
  | drain (ret len : Int)
  | returned
  deriving DecidableEq

/-- The rest of the input, the bytes in the private pipe and the output; `pc` is `none` after a
    failed check. -/
structure State (β : Type) where
  input : List β
  pipe : List β
  output : List β
  pc : Option Pc

/-- The parameters of `copy_file`, and the capacity of the pipe it gets. -/
structure Config where
  setbufsize : Bool
  bufSize : UInt64
  cap : Nat

/-- The number of bytes that each `splice` asks for. -/
def Config.size (c : Config) : Nat := if c.setbufsize then c.bufSize.toNat else intMax.toNat

/-- The tests of the two loops. -/
def loop (ret len : Int) : Pc :=
  if 0 < len then .drain ret len else if 0 < ret then .fill else .returned

/-- May the `splice` from the input return `k`? -/
def fills (c : Config) (s : State β) (k : Nat) : Bool :=
  if s.input.isEmpty || c.size = 0 then k = 0
  else moves c.size s.input.length (c.cap - s.pipe.length) k

def step (c : Config) (s : State β) (k : Nat) : Option (State β) :=
  match s.pc with
  | some .fill =>
      if fills c s k then
        let ret := intOfU64 k
        some { s with
          input := s.input.drop k
          pipe := s.pipe ++ s.input.take k
          pc := checkNotM1 ret (loop ret ret) }
      else none
  | some (.drain ret len) =>
      if moves c.size s.pipe.length s.pipe.length k then
        let r := intOfU64 k
        some { s with
          pipe := s.pipe.drop k
          output := s.output ++ s.pipe.take k
          pc := checkNotM1 r (loop ret (len - r)) }
      else none
  | _ => none

def machine (c : Config) : Machine (State β) Nat Empty where
  step s k := (step c s k).map fun s' => (s', [])

def initState (input : List β) : State β := ⟨input, [], [], some .fill⟩

/-! ## One call -/

theorem moves_iff {want avail room k : Nat} :
    moves want avail room k = true ↔
      0 < k ∧ k ≤ want ∧ k ≤ avail ∧ k ≤ room ∧ (k : Int) ≤ intMax := by
  simp only [moves, Bool.and_eq_true, decide_eq_true_eq, and_assoc]

/-- `CHECK_NOT_M1` passes a count on unchanged. -/
theorem checked {k : Nat} (h : (k : Int) ≤ intMax) {ρ : Type} (next : Int → ρ) :
    checkNotM1 (intOfU64 k) (next (intOfU64 k)) = some (next k) := by
  have hint : intOfU64 k = k := intOfU64_of_lt (by unfold intMax at h; omega)
  rw [hint]
  exact if_neg (by omega)

/-- What holds at each place; no check has failed. -/
def Place (input pipe : List β) : Option Pc → Prop
  | some .fill => pipe = []
  | some (.drain ret len) => len = pipe.length ∧ 0 < len ∧ 0 < ret
  | some .returned => pipe = [] ∧ input = []
  | none => False

structure CopyInv (whole : List β) (s : State β) : Prop where
  bytes : s.output ++ (s.pipe ++ s.input) = whole
  place : Place s.input s.pipe s.pc

/-- How far the copy is from its end. -/
def remaining (s : State β) : Nat :=
  2 * s.input.length + s.pipe.length + if s.pc = some .returned then 0 else 1

/-- The bytes still to be moved are those in the pipe; the inner loop is left when it is empty. -/
theorem place_loop {pipe : List β} (input : List β) {ret len : Int} (hlen : len = pipe.length)
    (hret : 0 < ret) : Place input pipe (some (loop ret len)) := by
  unfold loop
  split
  · rename_i hpos
    exact ⟨hlen, hpos, hret⟩
  · rename_i hzero
    exact List.eq_nil_of_length_eq_zero (by omega)

theorem loop_ne_returned {ret : Int} (len : Int) (hret : 0 < ret) : loop ret len ≠ .returned := by
  unfold loop
  rw [if_pos hret]
  split <;> exact fun h => nomatch h

section Step

variable {c : Config} {whole : List β} {s s' : State β} {k : Nat}

/-- The `splice` from the input: the end of it, or some of its bytes. -/
theorem fills_cases (hsize : 1 ≤ c.size) (h : fills c s k = true) :
    (k = 0 ∧ s.input = []) ∨ (0 < k ∧ k ≤ s.input.length ∧ (k : Int) ≤ intMax) := by
  unfold fills at h
  split at h
  · rename_i hend
    simp only [Bool.or_eq_true, List.isEmpty_iff, decide_eq_true_eq] at hend
    exact Or.inl ⟨of_decide_eq_true h, hend.resolve_right (by omega)⟩
  · obtain ⟨hpos, _, havail, _, hmax⟩ := moves_iff.mp h
    exact Or.inr ⟨hpos, havail, hmax⟩

theorem fill_inv (hsize : 1 ≤ c.size) (inv : CopyInv whole s) (hpc : s.pc = some .fill)
    (h : step c s k = some s') : CopyInv whole s' ∧ remaining s' < remaining s := by
  have hempty : s.pipe = [] := by
    have hplace := inv.place
    rwa [hpc] at hplace
  have hbytes := inv.bytes
  rw [hempty, List.nil_append] at hbytes
  simp only [step, hpc] at h
  obtain ⟨hk, rfl⟩ := guard_inj h
  rcases fills_cases hsize hk with ⟨rfl, hinput⟩ | ⟨hpos, hle, hmax⟩
  · rw [checked (by decide) fun ret => loop ret ret, hempty, hinput]
    rw [hinput] at hbytes
    refine ⟨⟨hbytes, rfl, rfl⟩, ?_⟩
    simp [remaining, hpc, loop]
  · rw [checked hmax fun ret => loop ret ret, hempty, List.nil_append]
    have hlen : (s.input.take k).length = k := by
      rw [List.length_take]
      omega
    have hret : 0 < (k : Int) := by omega
    refine ⟨⟨?_, place_loop _ (by rw [hlen]) hret⟩, ?_⟩
    · rw [List.take_append_drop]
      exact hbytes
    · simp only [remaining, hpc, hempty, hlen, List.length_drop, Option.some.injEq,
        loop_ne_returned _ hret, if_false, List.length_nil, reduceCtorEq]
      omega

theorem drain_inv (inv : CopyInv whole s) {ret len : Int} (hpc : s.pc = some (.drain ret len))
    (h : step c s k = some s') : CopyInv whole s' ∧ remaining s' < remaining s := by
  obtain ⟨hlen, _, hret⟩ : len = s.pipe.length ∧ 0 < len ∧ 0 < ret := by
    have hplace := inv.place
    rwa [hpc] at hplace
  simp only [step, hpc] at h
  obtain ⟨hk, rfl⟩ := guard_inj h
  obtain ⟨hpos, _, havail, _, hmax⟩ := moves_iff.mp hk
  rw [checked hmax fun r => loop ret (len - r)]
  refine ⟨⟨?_, place_loop _ ?_ hret⟩, ?_⟩
  · rw [append_take_drop]
    exact inv.bytes
  · rw [List.length_drop]
    omega
  · simp only [remaining, hpc, List.length_drop, Option.some.injEq, loop_ne_returned _ hret,
      if_false, reduceCtorEq]
    omega

theorem step_inv (hsize : 1 ≤ c.size) (inv : CopyInv whole s) (h : step c s k = some s') :
    CopyInv whole s' ∧ remaining s' < remaining s := by
  cases hpc : s.pc with
  | none => simp [step, hpc] at h
  | some pc =>
    cases pc with
    | fill => exact fill_inv hsize inv hpc h
    | drain ret len => exact drain_inv inv hpc h
    | returned => simp [step, hpc] at h

/-- A `splice` that moves one byte, or finds the end of the input. -/
theorem CopyInv.enabled (hsize : 1 ≤ c.size) (hcap : 1 ≤ c.cap) (inv : CopyInv whole s)
    (h : s.pc ≠ some .returned) : ∃ k, (step c s k).isSome = true := by
  have hplace := inv.place
  have hone : ((1 : Nat) : Int) ≤ intMax := by decide
  cases hpc : s.pc with
  | none =>
    rw [hpc] at hplace
    exact hplace.elim
  | some pc =>
    rw [hpc] at hplace
    cases pc with
    | fill =>
      have hempty : s.pipe = [] := hplace
      cases hinput : s.input with
      | nil => exact ⟨0, by simp [step, hpc, fills, hinput]⟩
      | cons b rest =>
        have hmoves : moves c.size s.input.length (c.cap - s.pipe.length) 1 = true := by
          rw [moves_iff, hempty, hinput]
          exact ⟨Nat.one_pos, hsize, Nat.succ_pos _, hcap, hone⟩
        have hfills : fills c s 1 = true := by
          have hne : ¬c.size = 0 := by omega
          simpa [fills, hinput, hne] using hmoves
        exact ⟨1, by simp [step, hpc, hfills]⟩
    | drain ret len =>
      obtain ⟨hlen, hpos, _⟩ : len = s.pipe.length ∧ 0 < len ∧ 0 < ret := hplace
      have hmoves : moves c.size s.pipe.length s.pipe.length 1 = true :=
        moves_iff.mpr ⟨Nat.one_pos, hsize, by omega, by omega, hone⟩
      exact ⟨1, by simp [step, hpc, hmoves]⟩
    | returned => exact absurd hpc h

end Step

/-! ## Whole executions -/

section Runs

variable {c : Config} {whole : List β} {s : State β} {ks : List Nat} {tr : List Empty}

theorem copyInv_initState (whole : List β) : CopyInv whole (initState whole) := ⟨rfl, rfl⟩

theorem machine_step (hsize : 1 ≤ c.size) (s : State β) (k : Nat) (s₁ : State β) (es : List Empty)
    (inv : CopyInv whole s) (h : (machine c).step s k = some (s₁, es)) :
    CopyInv whole s₁ ∧ remaining s₁ < remaining s := by
  exact step_inv hsize inv (Machine.quiet_step h).1

theorem copyInv_of_run (hsize : 1 ≤ c.size)
    (hr : (machine c).run (initState whole) ks = some (s, tr)) : CopyInv whole s :=
  (machine c).run_inv (fun _ => True) (CopyInv whole)
    (fun s k s₁ es _ inv hs => (machine_step hsize s k s₁ es inv hs).1) (fun _ _ => trivial)
    (copyInv_initState whole) hr

end Runs

/-- **The copy is faithful.** For every input, every capacity of the pipe, every request size and
    every sequence of short splices: in the inner loop `len` is the number of bytes in the pipe and
    positive, so no `splice` waits on an empty pipe; no check fails; when `copy_file` returns the
    output is the input. It makes at most `2 * input.length + 1` calls, and as long as it has not
    returned it can go on. -/
theorem copy_file_splice (c : Config) (hcap : 1 ≤ c.cap) (hsize : 1 ≤ c.size) (input : List β)
    (ks : List Nat) (s : State β) (tr : List Empty)
    (hr : (machine c).run (initState input) ks = some (s, tr)) :
    (∀ ret len, s.pc = some (.drain ret len) → len = s.pipe.length ∧ 0 < len) ∧
    s.pc ≠ none ∧
    (s.pc = some .returned → s.output = input) ∧
    ks.length ≤ 2 * input.length + 1 ∧
    (s.pc ≠ some .returned → ∃ k, ((machine c).step s k).isSome = true) := by
  have inv := copyInv_of_run hsize hr
  have hplace := inv.place
  refine ⟨?_, ?_, ?_, ?_, ?_⟩
  · intro ret len hpc
    rw [hpc] at hplace
    exact ⟨hplace.1, hplace.2.1⟩
  · intro hpc
    rw [hpc] at hplace
    exact hplace
  · intro hpc
    rw [hpc] at hplace
    obtain ⟨hpipe, hinput⟩ : s.pipe = [] ∧ s.input = [] := hplace
    have hbytes := inv.bytes
    rwa [hpipe, hinput, List.append_nil, List.append_nil] at hbytes
  · have hle := (machine c).run_length_add (CopyInv input) remaining (machine_step hsize)
      (copyInv_initState input) hr
    have hstart : remaining (initState input) = 2 * input.length + 1 := rfl
    omega
  · intro hpc
    obtain ⟨k, hk⟩ := inv.enabled hsize hcap hpc
    exact ⟨k, by simpa [machine] using hk⟩

/-- Five bytes through a pipe of 3 bytes, with short transfers. -/
theorem copy_file_splice_fiveBytes :
    ∃ s tr, (machine ⟨true, 3, 3⟩).run (initState [1, 2, 3, 4, 5]) [3, 1, 2, 2, 1, 1, 0] =
        some (s, tr) ∧ s.pc = some .returned ∧ s.output = [1, 2, 3, 4, 5] := by
  obtain ⟨s, tr, hr, hret⟩ := (machine ⟨true, 3, 3⟩).exists_of_check (initState [1, 2, 3, 4, 5])
    [3, 1, 2, 2, 1, 1, 0] (fun s _ => s.pc = some .returned) (by decide +kernel)
  have hcopy := copy_file_splice ⟨true, 3, 3⟩ (by decide) (by decide) [1, 2, 3, 4, 5]
    [3, 1, 2, 2, 1, 1, 0] s tr hr
  exact ⟨s, tr, hr, hret, hcopy.2.2.1 hret⟩

end DemosOsLinux.CopyFile.Splice
