/-
  `CircularPipe` is a bounded byte FIFO.

  `Wf` is the invariant of the class. `stored_push` and `stored_pull` say what one call does to
  the stored bytes; `pushCount_spec` and `pullCount_spec` what it asks of the system call: as
  much as fits before the end of the buffer, and never the last free byte. The `count--` of
  `push` is needed exactly when `pos_read` is 0, where filling up to the end of the buffer
  would make `pos_write` wrap onto it and a full pipe look empty.
-/
import DemosOsLinux.Lib.Fifo
import DemosOsLinux.CircularPipe.Basic

namespace DemosOsLinux.CircularPipe

open Lib

/-- The invariant of the class. -/
structure Wf (p : CircularPipe) : Prop where
  sizeLt : p.size < 2 ^ 64
  readLt : p.posRead < p.size
  writeLt : p.posWrite < p.size
  bufLen : p.buf.length = p.size

/-- The bytes in the pipe: `data()` bytes from `pos_read` on, wrapping at `size`. -/
def stored (p : CircularPipe) : List UInt8 := contents p.buf p.posRead p.data

theorem wf_ctor {isize : Nat} (mem : Nat → UInt8) (h : 1 ≤ isize) (h64 : isize < 2 ^ 64) :
    Wf (ctor isize mem) :=
  ⟨h64, h, h, by simp [ctor]⟩

/-! ## `data()` and `room()` -/

variable {p : CircularPipe}

theorem data_eq (wf : Wf p) : p.data = fill p.size p.posRead p.posWrite := by
  obtain ⟨h1, h2, h3, _⟩ := wf
  unfold data fill
  split
  · exact u64Sub_of_le (by omega) (by omega)
  · rw [u64Sub_of_le (by omega) (by omega), u64Add_of_lt (by omega)]

theorem data_lt (wf : Wf p) : p.data < p.size := by
  rw [data_eq wf]
  exact fill_lt wf.readLt wf.writeLt

theorem data_add_room (wf : Wf p) : p.data + p.room = p.size - 1 := by
  rw [data_eq wf]
  obtain ⟨h1, h2, h3, _⟩ := wf
  unfold room fill
  split
  · rw [u64Sub_of_le (a := p.size) (by omega) (by omega), u64Add_of_lt (by omega),
      u64Sub_of_le (by omega) (by omega)]
    omega
  · rw [u64Sub_of_le (a := p.posRead) (by omega) (by omega), u64Sub_of_le (by omega) (by omega)]
    omega

theorem length_stored (wf : Wf p) : p.stored.length = p.data := by
  have h := data_lt wf
  exact length_contents _ _ _ (by rw [wf.bufLen]; omega)

theorem canPush_iff (p : CircularPipe) : p.canPush = true ↔ 0 < p.room := by
  simp [canPush, haveRoom]

theorem canPull_iff (p : CircularPipe) : p.canPull = true ↔ 0 < p.data := by
  simp [canPull, haveData]

/-! ## The counts asked of the system calls -/

theorem pushCount_spec (wf : Wf p) :
    (0 < p.pushCount ↔ 0 < p.room) ∧ p.pushCount ≤ p.room ∧
      p.posWrite + p.pushCount ≤ p.size := by
  obtain ⟨h1, h2, h3, _⟩ := wf
  unfold pushCount room
  by_cases h : p.posRead ≤ p.posWrite
  · rw [if_pos h, if_pos h, u64Sub_of_le (a := p.size) (by omega) (by omega),
      u64Add_of_lt (by omega), u64Sub_of_le (b := 1) (by omega) (by omega)]
    by_cases h0 : p.posRead = 0
    · rw [if_pos h0, u64Sub_of_le (by omega) (by omega)]
      omega
    · rw [if_neg h0]
      omega
  · rw [if_neg h, if_neg h, u64Sub_of_le (a := p.posRead) (by omega) (by omega),
      u64Sub_of_le (by omega) (by omega)]
    omega

theorem pullCount_spec (wf : Wf p) :
    (0 < p.pullCount ↔ 0 < p.data) ∧ p.pullCount ≤ p.data ∧
      p.posRead + p.pullCount ≤ p.size := by
  rw [data_eq wf]
  obtain ⟨h1, h2, h3, _⟩ := wf
  unfold pullCount fill
  by_cases h : p.posRead ≤ p.posWrite
  · rw [if_pos h, if_pos h, u64Sub_of_le (by omega) (by omega)]
    omega
  · rw [if_neg h, if_neg h, u64Sub_of_le (by omega) (by omega)]
    omega

/-! ## One call -/

/-- `(pos + n) % size` is the ring cell `n` past `pos`. -/
theorem advance_eq_ringIdx {size pos n : Nat} (h64 : size < 2 ^ 64)
    (hend : pos + n ≤ size) : u64Add pos n % size = ringIdx size pos n := by
  rw [u64Add_of_lt (by omega)]
  unfold ringIdx
  split
  · rename_i h
    exact Nat.mod_eq_of_lt h
  · rename_i h
    have he : pos + n = size := by omega
    rw [he, Nat.mod_self, Nat.sub_self]

section Calls

variable {p : CircularPipe} (wf : Wf p)

include wf

theorem wf_push {bs : List UInt8} (h : bs.length ≤ p.pushCount) : Wf (p.push bs).1 := by
  have hend := (pushCount_spec wf).2.2
  have hpos := wf.readLt
  refine ⟨wf.sizeLt, wf.readLt, Nat.mod_lt _ (by omega), ?_⟩
  show (overwrite p.buf p.posWrite bs).length = p.size
  rw [length_overwrite _ _ _ (by rw [wf.bufLen]; omega), wf.bufLen]

theorem stored_push {bs : List UInt8} (h : bs.length ≤ p.pushCount) :
    (p.push bs).1.stored = p.stored ++ bs := by
  obtain ⟨_, hroom, hend⟩ := pushCount_spec wf
  have hd := data_lt wf
  have hrd := data_add_room wf
  unfold stored
  rw [data_eq (wf_push wf h)]
  simp only [push]
  rw [advance_eq_ringIdx wf.sizeLt (by omega), data_eq wf]
  rw [data_eq wf] at hd hrd
  exact contents_write wf.bufLen wf.readLt wf.writeLt (by omega) (by omega)

theorem wf_pull (n : Nat) : Wf (p.pull n).1 := by
  have hpos := wf.readLt
  exact ⟨wf.sizeLt, Nat.mod_lt _ (by omega), wf.writeLt, wf.bufLen⟩

theorem stored_pull {n : Nat} (h : n ≤ p.pullCount) : (p.pull n).1.stored = p.stored.drop n := by
  obtain ⟨_, hdata, hend⟩ := pullCount_spec wf
  unfold stored
  rw [data_eq (wf_pull wf n)]
  simp only [pull]
  rw [advance_eq_ringIdx wf.sizeLt (by omega), data_eq wf]
  rw [data_eq wf] at hdata
  exact contents_read wf.bufLen wf.readLt wf.writeLt (by omega)

theorem pull_bytes {n : Nat} (h : n ≤ p.pullCount) : (p.pull n).2 = p.stored.take n := by
  obtain ⟨_, hdata, hend⟩ := pullCount_spec wf
  exact slice_eq_take_contents _ _ _ _ (by omega) (by rw [wf.bufLen]; omega)

end Calls

/-! ## Runs of calls -/

/-- A call, with what its system call transferred. -/
inductive Op where
  | push (bs : List UInt8)
  | pull (n : Nat)

/-- The system calls: what `read(2)` was asked for and returned, what `write(2)` was offered
    and took. -/
inductive Event where
  | read (count : Nat) (bs : List UInt8)
  | write (count : Nat) (bs : List UInt8)

/-- The class as a machine: a system call transfers between 0 and the requested count. -/
def calls : Machine CircularPipe Op Event where
  step p
    | .push bs =>
        if bs.length ≤ p.pushCount then some ((p.push bs).1, [.read p.pushCount bs]) else none
    | .pull n =>
        if n ≤ p.pullCount then some ((p.pull n).1, [.write p.pullCount (p.pull n).2]) else none

def fifoView : Event → Option (FifoEvent UInt8)
  | .read _ bs => some (.put bs)
  | .write _ bs => some (.got bs)

/-- The bytes read in so far. -/
def readIn (tr : List Event) : List UInt8 := putAll (tr.filterMap fifoView)

/-- The bytes written out so far. -/
def writtenOut (tr : List Event) : List UInt8 := gotAll (tr.filterMap fifoView)

/-- One call, seen from the FIFO: `push` is a `put` and `pull` a `get`. -/
theorem step_simulates {p' : CircularPipe} {o : Op} {es : List Event} (wf : Wf p)
    (h : calls.step p o = some (p', es)) :
    (Wf p' ∧ p'.size = p.size) ∧ ∃ fs, (fifo UInt8 (p.size - 1)).run p.stored fs =
      some (p'.stored, es.filterMap fifoView) := by
  have hlen := length_stored wf
  have hrd := data_add_room wf
  cases o with
  | push bs =>
    simp only [calls] at h
    obtain ⟨hbs, rfl, rfl⟩ := guard_result_inj h
    obtain ⟨_, hroom, _⟩ := pushCount_spec wf
    refine ⟨⟨wf_push wf hbs, rfl⟩, [.put bs], ?_⟩
    rw [fifo_put _ _ _ (by omega), stored_push wf hbs]
    rfl
  | pull n =>
    simp only [calls] at h
    obtain ⟨hn, rfl, rfl⟩ := guard_result_inj h
    obtain ⟨_, hdata, _⟩ := pullCount_spec wf
    refine ⟨⟨wf_pull wf n, rfl⟩, [.get n], ?_⟩
    rw [fifo_get _ _ _ (by omega), stored_pull wf hn]
    simp [fifoView, pull_bytes wf hn]

/-- Every sequence of calls is a run of the FIFO of `size - 1` bytes. -/
theorem calls_simulate_fifo {p' : CircularPipe} {ops : List Op} {tr : List Event} (wf : Wf p)
    (hr : calls.run p ops = some (p', tr)) :
    (Wf p' ∧ p'.size = p.size) ∧ ∃ fs, (fifo UInt8 (p.size - 1)).run p.stored fs =
      some (p'.stored, tr.filterMap fifoView) := by
  refine calls.run_simulates (fifo UInt8 (p.size - 1)) (fun _ => True)
    (fun q => Wf q ∧ q.size = p.size) stored fifoView ?_ (fun _ _ => trivial) ⟨wf, rfl⟩ hr
  intro q o q' es _ hi hs
  obtain ⟨⟨h1, h2⟩, h3⟩ := step_simulates hi.1 hs
  rw [hi.2] at h3
  exact ⟨⟨h1, h2.trans hi.2⟩, h3⟩

theorem stored_ctor {isize : Nat} (mem : Nat → UInt8) (h : 1 ≤ isize) (h64 : isize < 2 ^ 64) :
    (ctor isize mem).stored = [] := by
  apply List.eq_nil_of_length_eq_zero
  rw [length_stored (wf_ctor mem h h64), data_eq (wf_ctor mem h h64)]
  exact fill_self _ 0

/-- **`CircularPipe` is a bounded byte FIFO.** For every size, after every sequence of calls
    whose system calls transfer any part of what they were asked for: the bytes written out
    followed by the stored bytes are the bytes read in, the positions are inside the buffer,
    `data() + room() = size - 1`, and the next `push` and `pull` ask for a positive count
    exactly when there is room or data, for no more than that, and inside the buffer. -/
theorem circularPipe_refines_fifo (isize : Nat) (h : 1 ≤ isize) (h64 : isize < 2 ^ 64)
    (mem : Nat → UInt8) (ops : List Op) (p : CircularPipe) (tr : List Event)
    (hr : calls.run (ctor isize mem) ops = some (p, tr)) :
    writtenOut tr ++ p.stored = readIn tr ∧
    p.size = isize ∧ p.posRead < p.size ∧ p.posWrite < p.size ∧
    p.data + p.room = p.size - 1 ∧
    ((0 < p.pushCount ↔ 0 < p.room) ∧ p.pushCount ≤ p.room ∧
      p.posWrite + p.pushCount ≤ p.size) ∧
    ((0 < p.pullCount ↔ 0 < p.data) ∧ p.pullCount ≤ p.data ∧
      p.posRead + p.pullCount ≤ p.size) := by
  obtain ⟨⟨wf, hsize⟩, fs, hfs⟩ := calls_simulate_fifo (wf_ctor mem h h64) hr
  have hlaw := fifo_law _ _ _ _ _ hfs
  rw [stored_ctor mem h h64, List.nil_append] at hlaw
  exact ⟨hlaw, hsize, wf.readLt, wf.writeLt, data_add_room wf, pushCount_spec wf,
    pullCount_spec wf⟩

/-- A size 4 pipe is filled, emptied in part, filled over the end and drained to the end. -/
def wrapRun : List Op := [.push [1, 2, 3], .pull 2, .push [4], .push [5], .pull 2, .pull 0]

theorem circularPipe_refines_fifo_wrapRun :
    ∃ p tr, calls.run (ctor 4 fun _ => 0) wrapRun = some (p, tr) ∧
      writtenOut tr ++ p.stored = readIn tr ∧ p.stored = [5] ∧ writtenOut tr = [1, 2, 3, 4] := by
  obtain ⟨p, tr, hr, hends⟩ := calls.exists_of_check (ctor 4 fun _ => 0) wrapRun
    (fun p tr => p.stored = [5] ∧ writtenOut tr = [1, 2, 3, 4]) (by decide +kernel)
  exact ⟨p, tr, hr, (circularPipe_refines_fifo 4 (by decide) (by decide) _ wrapRun p tr hr).1,
    hends⟩

end DemosOsLinux.CircularPipe
