/-
  The ring of the named pipe: its invariant and what a read or a write does to it.

  `Wf` is the invariant. On a well-formed pipe the machine arithmetic is exact, so
  `pipe_data` is the fill of the ring and `pipe_room` what is left of `size - 1`.
  `advanceRead` and `advanceWrite` are what a transfer does to the ring, one chunk at a time:
  a chunk read is dropped from the front of the stored bytes, a chunk written is appended.
-/
import DemosOsLinux.KernelPipe.Pipe

namespace DemosOsLinux.KernelPipe

open Lib

/-- The ring invariant. `size` comes from an `int` module parameter, hence the bound. -/
structure Wf (p : Pipe) : Prop where
  sizeLt : p.size < 2 ^ 31
  readLt : p.readPos < p.size
  writeLt : p.writePos < p.size
  dataLen : p.data.length = p.size

/-- The bytes still stored: `pipe_data` bytes from `read_pos` on, wrapping at `size`. -/
def stored (p : Pipe) : List UInt8 := contents p.data p.readPos (pipeData p)

/-- Buffer index `j` holds one of the stored bytes. -/
def StoredAt (p : Pipe) (j : Nat) : Prop :=
  ∃ i < pipeData p, ringIdx p.size p.readPos i = j

theorem wf_pipeCtor (pipeSize : Int32) (mem : Nat → UInt8) (h : 1 ≤ pipeSize.toInt) :
    Wf (pipeCtor pipeSize mem) := by
  have hlt := pipeSize.toInt_lt
  have hsz : (pipeCtor pipeSize mem).size = pipeSize.toInt.toNat := by
    simp only [pipeCtor, u64OfInt]
    omega
  refine ⟨by omega, ?_, ?_, by simp [pipeCtor]⟩
  · simp only [pipeCtor] at hsz ⊢
    omega
  · simp only [pipeCtor] at hsz ⊢
    omega

/-! ## `pipe_data` and `pipe_room` -/

variable {p : Pipe} {bs : List UInt8}

section Wf

variable (wf : Wf p)
include wf

theorem pipeData_eq : pipeData p = fill p.size p.readPos p.writePos := by
  obtain ⟨h1, h2, h3, _⟩ := wf
  unfold pipeData fill
  split
  · exact u64Sub_of_le (by omega) (by omega)
  · rw [u64Sub_of_le (by omega) (by omega), u64Add_of_lt (by omega)]

theorem pipeData_lt : pipeData p < p.size := by
  rw [pipeData_eq wf]
  exact fill_lt wf.readLt wf.writeLt

theorem pipeRoom_eq : pipeRoom p = p.size - 1 - pipeData p := by
  rw [pipeData_eq wf]
  obtain ⟨h1, h2, h3, _⟩ := wf
  unfold pipeRoom fill
  split
  · rw [u64Sub_of_le (a := p.size) (by omega) (by omega), u64Add_of_lt (by omega),
      u64Sub_of_le (by omega) (by omega)]
    omega
  · rw [u64Sub_of_le (a := p.readPos) (by omega) (by omega),
      u64Sub_of_le (by omega) (by omega)]
    omega

theorem pipeRoom_add_pipeData : pipeRoom p + pipeData p = p.size - 1 := by
  have h := pipeData_lt wf
  rw [pipeRoom_eq wf]
  omega

/-- None of the operations in `pipe_room` wraps. -/
theorem pipeRoomChecked_eq : pipeRoomChecked p = some (pipeRoom p) := by
  rw [pipeRoom_eq wf, pipeData_eq wf]
  obtain ⟨h1, h2, h3, _⟩ := wf
  unfold pipeRoomChecked fill
  split
  · rw [checkedSub_of_le (by omega), Option.bind_eq_bind, Option.bind_some,
      checkedAdd_of_lt (by omega), Option.bind_some, checkedSub_of_le (by omega)]
    congr 1
    omega
  · rw [checkedSub_of_le (b := p.writePos) (by omega), Option.bind_eq_bind, Option.bind_some,
      checkedSub_of_le (by omega)]
    congr 1
    omega

/-- None of the operations in `pipe_data` wraps. -/
theorem pipeDataChecked_eq : pipeDataChecked p = some (pipeData p) := by
  rw [pipeData_eq wf]
  obtain ⟨h1, h2, h3, _⟩ := wf
  unfold pipeDataChecked fill
  split
  · exact checkedSub_of_le (by omega)
  · rw [checkedSub_of_le (by omega), Option.bind_eq_bind, Option.bind_some,
      checkedAdd_of_lt (by omega)]

/-- `write_pos` is the ring cell after the stored bytes. -/
theorem writePos_eq_ringIdx : p.writePos = ringIdx p.size p.readPos (pipeData p) := by
  rw [pipeData_eq wf, ringIdx_fill wf.readLt wf.writeLt]

/-- Room for a block leaves one cell free behind it. -/
theorem fill_add_lt {n : Nat} (h : n ≤ pipeRoom p) :
    fill p.size p.readPos p.writePos + n < p.size := by
  have hd := pipeData_lt wf
  have hrd := pipeRoom_add_pipeData wf
  rw [← pipeData_eq wf]
  omega

theorem length_stored : (stored p).length = pipeData p := by
  have h := pipeData_lt wf
  exact length_contents _ _ _ (by rw [wf.dataLen]; omega)

end Wf

/-! ## Moving the positions -/

/-- `read_pos` moved past `k` bytes. -/
def advanceRead (p : Pipe) (k : Nat) : Pipe := { p with readPos := ringIdx p.size p.readPos k }

/-- Bytes left in the buffer at `write_pos` by a copy that failed. -/
def scribble (p : Pipe) (bs : List UInt8) : Pipe :=
  { p with data := overwrite p.data p.writePos bs }

/-- Bytes put into the buffer at `write_pos`, and `write_pos` moved past them. -/
def advanceWrite (p : Pipe) (bs : List UInt8) : Pipe :=
  { p with
    data := overwrite p.data p.writePos bs
    writePos := ringIdx p.size p.writePos bs.length }

theorem wf_advanceRead (wf : Wf p) {k : Nat} (hk : k ≤ pipeData p) : Wf (advanceRead p k) := by
  have hd := pipeData_lt wf
  exact ⟨wf.sizeLt, ringIdx_lt wf.readLt (by omega), wf.writeLt, wf.dataLen⟩

theorem pipeData_advanceRead (wf : Wf p) {k : Nat} (hk : k ≤ pipeData p) :
    pipeData (advanceRead p k) = pipeData p - k := by
  rw [pipeData_eq (wf_advanceRead wf hk), pipeData_eq wf]
  rw [pipeData_eq wf] at hk
  exact fill_read wf.readLt wf.writeLt hk

theorem stored_advanceRead (wf : Wf p) {k : Nat} (hk : k ≤ pipeData p) :
    stored (advanceRead p k) = (stored p).drop k := by
  unfold stored
  rw [pipeData_eq (wf_advanceRead wf hk), pipeData_eq wf]
  rw [pipeData_eq wf] at hk
  exact contents_read wf.dataLen wf.readLt wf.writeLt hk

theorem wf_scribble (wf : Wf p) (hend : p.writePos + bs.length ≤ p.size) : Wf (scribble p bs) := by
  refine ⟨wf.sizeLt, wf.readLt, wf.writeLt, ?_⟩
  simp only [scribble]
  rw [length_overwrite _ _ _ (by rw [wf.dataLen]; exact hend), wf.dataLen]

theorem wf_advanceWrite (wf : Wf p) (hend : p.writePos + bs.length ≤ p.size) :
    Wf (advanceWrite p bs) := by
  have h := wf_scribble wf hend
  exact ⟨wf.sizeLt, wf.readLt, ringIdx_lt wf.writeLt (by omega), h.dataLen⟩

theorem pipeData_advanceWrite (wf : Wf p) (hroom : bs.length ≤ pipeRoom p)
    (hend : p.writePos + bs.length ≤ p.size) :
    pipeData (advanceWrite p bs) = pipeData p + bs.length := by
  rw [pipeData_eq (wf_advanceWrite wf hend), pipeData_eq wf]
  exact fill_write wf.readLt wf.writeLt (fill_add_lt wf hroom)

theorem stored_advanceWrite (wf : Wf p) (hroom : bs.length ≤ pipeRoom p)
    (hend : p.writePos + bs.length ≤ p.size) : stored (advanceWrite p bs) = stored p ++ bs := by
  unfold stored
  rw [pipeData_eq (wf_advanceWrite wf hend), pipeData_eq wf]
  exact contents_write wf.dataLen wf.readLt wf.writeLt (fill_add_lt wf hroom) hend

end DemosOsLinux.KernelPipe
