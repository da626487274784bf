/-
  Copying a file with io_uring (examples/io/io_uring/cp_liburing.cc).

  A request is prepared in the submission queue `sq`; it reaches the kernel (`inflight`) with the next
  `io_uring_submit`. The kernel completes the requests it has in any order, each in full, in part or
  with `-EAGAIN`, and posts the result to the completion queue `cq`. `copy_file` is one thread: a
  step of it goes from one look at the completion queue to the next, and the kernel may act between
  any two of them. `main` opens the output with `O_TRUNC`, so it is empty at first.

  The file behind `infd` is `input`; the bytes `malloc` leaves in a new buffer are `junk`. `malloc`,
  `io_uring_submit` and the calls that look at the completion queue do not fail. `Stored` is about
  files that are written block by block: blocks of one source do each other no harm
  (`Stored.pwrite`), and a file that has them all is the source (`eq_of_stored`).
-/
import DemosOsLinux.Lib.Machine
import DemosOsLinux.Lib.MachineInt
import DemosOsLinux.Lib.RingBuffer
import Mathlib.Logic.Function.Basic

namespace DemosOsLinux.IoUring

open Lib

/-! ## Files -/

section Files

variable {α : Type} {z : α} {src file : List α} {pos n : Nat}

/-- Write `bs` at `pos`; a gap behind the end of the file is filled with `z`. -/
def pwrite (z : α) (file : List α) (pos : Nat) (bs : List α) : List α :=
  overwrite (file ++ List.replicate (pos + bs.length - file.length) z) pos bs

theorem length_slice (h : pos + n ≤ src.length) : (slice src pos n).length = n := by
  rw [slice, List.length_take, List.length_drop]
  omega

theorem length_pwrite (z : α) (file : List α) (pos : Nat) (bs : List α) :
    (pwrite z file pos bs).length = max file.length (pos + bs.length) := by
  rw [pwrite, length_overwrite, List.length_append, List.length_replicate]
  · omega
  · rw [List.length_append, List.length_replicate]
    omega

theorem getElem?_pwrite (z : α) (file : List α) (pos : Nat) (bs : List α) (j : Nat) :
    (pwrite z file pos bs)[j]? = if pos ≤ j ∧ j < pos + bs.length then bs[j - pos]?
      else (file ++ List.replicate (pos + bs.length - file.length) z)[j]? := by
  rw [pwrite, getElem?_overwrite]
  rw [List.length_append, List.length_replicate]
  omega

/-- `file` has the `n` elements of `src` from `pos` on. -/
def Stored (src file : List α) (pos n : Nat) : Prop :=
  ∀ j, pos ≤ j → j < pos + n → file[j]? = src[j]?

/-- A written block holds what is in `src`. -/
theorem getElem?_pwrite_slice (h : pos + n ≤ src.length) {j : Nat} (hpos : pos ≤ j)
    (hj : j < pos + n) : (pwrite z file pos (slice src pos n))[j]? = src[j]? := by
  rw [getElem?_pwrite, length_slice h, if_pos ⟨hpos, hj⟩, slice, List.getElem?_take_of_lt (by omega),
    List.getElem?_drop]
  congr 1
  omega

theorem stored_pwrite (h : pos + n ≤ src.length) :
    Stored src (pwrite z file pos (slice src pos n)) pos n :=
  fun _ hpos hj => getElem?_pwrite_slice h hpos hj

theorem Stored.pwrite {pos' n' : Nat} (hs : Stored src file pos' n') (h' : pos' + n' ≤ src.length)
    (h : pos + n ≤ src.length) : Stored src (pwrite z file pos (slice src pos n)) pos' n' := by
  intro j hpos hj
  by_cases hin : pos ≤ j ∧ j < pos + n
  · exact getElem?_pwrite_slice h hin.1 hin.2
  · -- an element that is stored lies within the file, so it is not in the gap
    have hlt : j < file.length := by
      have hsome : file[j]? = some src[j] := by
        rw [hs j hpos hj, List.getElem?_eq_getElem]
      exact (List.getElem?_eq_some_iff.mp hsome).1
    rw [getElem?_pwrite, length_slice h, if_neg hin, List.getElem?_append_left hlt]
    exact hs j hpos hj

theorem eq_of_stored (hlen : file.length ≤ src.length)
    (hs : ∀ j, j < src.length → file[j]? = src[j]?) : file = src := by
  refine List.ext_getElem? fun j => ?_
  by_cases hj : j < src.length
  · exact hs j hj
  · rw [List.getElem?_eq_none (by omega), List.getElem?_eq_none (by omega)]

end Files

/-! ## The program -/

/-- `QD`: the number of entries of the submission queue. -/
def qd : Nat := 2

/-- `BS` -/
def bs : Nat := 16 * 1024

/-- `EAGAIN` -/
def eagain : Int := 11

/-- `struct io_data` and the buffer behind it. -/
structure IoData where
  read : Bool
  firstOffset : Nat
  offset : Nat
  firstLen : Nat
  /-- `iov.iov_base`, as a position in the buffer. -/
  base : Nat
  /-- `iov.iov_len` -/
  len : Nat
  buffer : List UInt8
deriving DecidableEq

/-- A submission queue entry: `readv` or `writev` at `offset`, with the `iovec` of object `data`. The
    program does not touch the `iovec` of a request before it has seen its completion. -/
structure Request where
  data : Nat
  read : Bool
  offset : Nat
deriving DecidableEq

/-- A completion queue entry. -/
structure Cqe where
  data : Nat
  res : Int
deriving DecidableEq

inductive Pc where
  /-- At the condition of the outer loop. -/
  | outer
  /-- At `while (write_left)`. -/
  | inner (gotComp : Bool)
  /-- In `io_uring_wait_cqe`. -/
  | waiting
  | returned (ret : Int)
  /-- A failed `assert`. -/
  | aborted
deriving DecidableEq

structure State where
  pc : Pc
  insize : Nat
  writeLeft : Int
  offset : Nat
  reads : Nat
  writes : Nat
  /-- The objects that `malloc` has returned; the next one is `next`. -/
  data : Nat → IoData
  next : Nat
  sq : List Request
  inflight : List Request
  cq : List Cqe
  output : List UInt8

/-- Object `id` becomes `d`. -/
def State.put (s : State) (id : Nat) (d : IoData) : State :=
  { s with data := Function.update s.data id d }

section Program

variable (junk : Nat → Nat → UInt8)

/-- `io_uring_submit` -/
def submit (s : State) : State := { s with inflight := s.inflight ++ s.sq, sq := [] }

/-- `none`: the assertion fails, there is no free entry. -/
def queuePrepped (s : State) (id : Nat) : Option State :=
  if s.sq.length < qd then
    some { s with sq := s.sq ++ [⟨id, (s.data id).read, (s.data id).offset⟩] }
  else none

/-- `none`: it returns 1, there is no free entry. -/
def queueRead (s : State) (size offset : Nat) : Option State :=
  if s.sq.length < qd then
    let d : IoData := ⟨true, offset, offset, size, 0, size, (List.range size).map (junk s.next)⟩
    some { s.put s.next d with next := s.next + 1, sq := s.sq ++ [⟨s.next, true, offset⟩] }
  else none

def queueWrite (s : State) (id : Nat) : Option State :=
  let d := s.data id
  let d' := { d with read := false, offset := d.firstOffset, base := 0, len := d.firstLen }
  (queuePrepped (s.put id d') id).map submit

/-- The loop that queues up reads; the test `reads + writes >= QD` lets it run `n` more times. -/
def queueReads : Nat → State → State
  | 0, s => s
  | n + 1, s =>
    if s.insize = 0 then s
    else
      let thisSize := min s.insize bs
      match queueRead junk s thisSize s.offset with
      | none => s
      | some s =>
        queueReads n { s with
          insize := s.insize - thisSize
          offset := s.offset + thisSize
          reads := u64Add s.reads 1 }

/-- The outer loop, from its condition to the inner one. -/
def outerLoop (s : State) : State :=
  if s.insize = 0 ∧ s.writeLeft = 0 then { s with pc := .returned 0 }
  else
    let s' := queueReads junk (qd - (s.reads + s.writes)) s
    let s'' := if s'.reads ≠ s.reads then submit s' else s'
    { s'' with pc := .inner false }

/-- `io_uring_cqe_seen`, and on to the next iteration of the inner loop. -/
def cqeSeen (s : State) : State := { s with cq := s.cq.tail, pc := .inner true }

/-- `queue_prepped` for a request that is to be made again. -/
def requeue (s : State) (id : Nat) : State :=
  match queuePrepped s id with
  | none => { s with pc := .aborted }
  | some s => cqeSeen s

/-- The inner loop, from the completion `cqe` on. -/
def handle (s : State) (cqe : Cqe) : State :=
  let d := s.data cqe.data
  if cqe.res < 0 then
    if cqe.res = -eagain then requeue s cqe.data
    else { s with pc := .returned 1 }
  else if cqe.res ≠ d.len then
    -- `data->offset` stays as it is
    let d' := { d with base := d.base + cqe.res.toNat, len := d.len - cqe.res.toNat }
    requeue (s.put cqe.data d') cqe.data
  else if d.read = true then
    match queueWrite s cqe.data with
    | none => { s with pc := .aborted }
    | some s => cqeSeen { s with
        writeLeft := s.writeLeft - (s.data cqe.data).firstLen
        reads := u64Sub s.reads 1
        writes := u64Add s.writes 1 }
  else cqeSeen { s with writes := u64Sub s.writes 1 }

/-- A step of `copy_file`; `none`: it waits, or it is over. -/
def program (s : State) : Option State :=
  match s.pc with
  | .outer => some (outerLoop junk s)
  | .inner gotComp =>
    if s.writeLeft = 0 then some { s with pc := .outer }
    else if gotComp = false then some { s with pc := .waiting }
    else match s.cq with
      | [] => some { s with pc := .outer }
      | cqe :: _ => some (handle s cqe)
  | .waiting => s.cq.head?.map (handle s)
  | .returned _ | .aborted => none

end Program

section Kernel

variable (input : List UInt8)

inductive Result where
  | full
  | short (k : Nat)
  | again
deriving DecidableEq

/-- Request `q` moves `k` bytes. -/
def transfer (s : State) (q : Request) (k : Nat) : Option State :=
  let d := s.data q.data
  if q.read = true then
    if q.offset + k ≤ input.length then
      some (s.put q.data { d with buffer := overwrite d.buffer d.base (slice input q.offset k) })
    else none
  else some { s with output := pwrite 0 s.output q.offset (slice d.buffer d.base k) }

/-- The kernel is done with request `i`. -/
def post (s : State) (i : Nat) (cqe : Cqe) : State :=
  { s with inflight := s.inflight.eraseIdx i, cq := s.cq ++ [cqe] }

/-- The kernel completes request `i`. -/
def complete (s : State) (i : Nat) (r : Result) : Option State :=
  match s.inflight[i]? with
  | none => none
  | some q =>
    let len := (s.data q.data).len
    match r with
    | .full => (transfer input s q len).map fun s' => post s' i ⟨q.data, len⟩
    | .short k =>
      if 0 < k ∧ k < len then (transfer input s q k).map fun s' => post s' i ⟨q.data, k⟩
      else none
    | .again => some (post s i ⟨q.data, -eagain⟩)

end Kernel

inductive Act where
  | program
  | complete (i : Nat) (r : Result)
deriving DecidableEq

variable (junk : Nat → Nat → UInt8) (input : List UInt8)

def step (s : State) : Act → Option State
  | .program => program junk s
  | .complete i r => complete input s i r

def copyFile : Machine State Act Empty where
  step s a := (step junk input s a).map fun s' => (s', [])

/-- `copy_file` is called with the size of the file. -/
def initState : State :=
  { pc := .outer, insize := input.length, writeLeft := input.length, offset := 0, reads := 0,
    writes := 0, data := fun _ => ⟨false, 0, 0, 0, 0, 0, []⟩, next := 0, sq := [], inflight := [],
    cq := [], output := [] }

/-- It waits for a completion, and there is none and none to come. -/
def Stuck (s : State) : Prop := s.pc = .waiting ∧ s.inflight = [] ∧ s.cq = []

/-- The requests that are not completed, submitted or not. -/
def requests (s : State) : List Request := s.inflight ++ s.sq

/-- No write is left to be made, not even in part. -/
def WritesDone (s : State) : Prop :=
  (∀ q ∈ requests s, q.read = true) ∧
    ∀ c ∈ s.cq, (s.data c.data).read = false → c.res = (s.data c.data).len

/-- What a faithful copy looks like, in every state. -/
def Faithful (s : State) : Prop :=
  ¬Stuck s ∧ (s.pc = .returned 0 → WritesDone s ∧ s.output = input)

end DemosOsLinux.IoUring
