/-
  The named pipe driver, kernel_standalone/pipe/main.c: the ring of one pipe.

  Translated here: `struct my_pipe_t` (without its mutex and wait queues, which are in
  `System`), `pipe_ctor`, `pipe_room`, `pipe_data`, the two wake-up conditions, the two user
  copies and the copying parts of `pipe_read` and `pipe_write`, as built with DO_COPY,
  DO_MUTEX, DO_WAITQUEUE and DO_WAKEUP. `pr_debug` and `*ppos` are left out: nothing here
  reads them.

  Arithmetic is the machine's: `size_t` wraps at `2 ^ 64`, and the `int` parameters and
  results of the copy helpers are converted as C converts them. A user copy is a step of the
  environment: `Faults` gives how many bytes each of the (at most two) copies of a call leaves
  uncopied, cut to the number asked for, and 0 is success.

  A failed `BUG_ON` is `none`.
-/
import DemosOsLinux.Lib.MachineInt
import DemosOsLinux.Lib.RingBuffer

namespace DemosOsLinux.KernelPipe

open Lib

/-- `struct my_pipe_t`: the buffer, its size, the two positions and the open counters. -/
structure Pipe where
  data : List UInt8
  size : Nat
  readPos : Nat
  writePos : Nat
  readers : Int
  writers : Int

/-- `pipe_ctor`. `mem` is what `kmalloc` returns: the driver does not clear it. -/
def pipeCtor (pipeSize : Int32) (mem : Nat → UInt8) : Pipe where
  data := (List.range (u64OfInt pipeSize.toInt)).map mem
  size := u64OfInt pipeSize.toInt
  readPos := 0
  writePos := 0
  readers := 0
  writers := 0

/-- `pipe_room`: return the empty room of a pipe. -/
def pipeRoom (p : Pipe) : Nat :=
  if p.readPos ≤ p.writePos then
    u64Sub (u64Add (u64Sub p.size p.writePos) p.readPos) 1
  else
    u64Sub (u64Sub p.readPos p.writePos) 1

/-- `pipe_data`: return the occupied room of a pipe. -/
def pipeData (p : Pipe) : Nat :=
  if p.readPos ≤ p.writePos then
    u64Sub p.writePos p.readPos
  else
    u64Add (u64Sub p.size p.readPos) p.writePos

/-- `pipe_room` with every operation checked: `none` where one of them wraps. -/
def pipeRoomChecked (p : Pipe) : Option Nat :=
  if p.readPos ≤ p.writePos then do
    let a ← checkedSub p.size p.writePos
    let b ← checkedAdd a p.readPos
    checkedSub b 1
  else do
    let a ← checkedSub p.readPos p.writePos
    checkedSub a 1

/-- `pipe_data` with every operation checked. -/
def pipeDataChecked (p : Pipe) : Option Nat :=
  if p.readPos ≤ p.writePos then
    checkedSub p.writePos p.readPos
  else do
    let a ← checkedSub p.size p.readPos
    checkedAdd a p.writePos

/-- The condition `pipe_reader_should_i_wake_up` computes under the lock. -/
def readerShouldWakeUp (p : Pipe) : Bool := decide (0 < pipeData p) || decide (p.writers = 0)

/-- The condition `pipe_writer_should_i_wake_up` computes under the lock. -/
def writerShouldWakeUp (p : Pipe) : Bool := decide (0 < pipeRoom p)

/-! ## User copies -/

/-- Bytes left uncopied by the first and the second user copy of a call. -/
structure Faults where
  first : Nat
  second : Nat

/-- Both copies succeed. -/
def noFaults : Faults := ⟨0, 0⟩

/-- `copy_from_user(buf + pos, src, n)` that leaves `left` bytes uncopied: the copied bytes
    arrive and the rest of the destination is filled with zero bytes. -/
def copyFromUser (buf : List UInt8) (pos : Nat) (src : List UInt8) (n left : Nat) :
    List UInt8 :=
  overwrite buf pos (src.take (n - left) ++ List.replicate left 0)

/-- `copy_to_user(_, buf + pos, n)` that leaves `left` bytes uncopied: what arrives. -/
def copyToUser (buf : List UInt8) (pos n left : Nat) : List UInt8 := slice buf pos (n - left)

/-- `pipe_copy_from_user`: the pipe, the rest of the user's buffer (`*ubuf`) and the result.
    `res` is how many bytes the copy leaves uncopied. -/
def pipeCopyFromUser (p : Pipe) (count : Int) (ubuf : List UInt8) (res : Nat) :
    Option (Pipe × List UInt8 × Int) :=
  let n := u64OfInt count
  let left := min res n
  let data := copyFromUser p.data p.writePos ubuf n left
  let ret := intOfU64 left
  if ret = 0 then
    let w := u64Add p.writePos n
    if p.size < w then none
    else some ({ p with data := data, writePos := if w = p.size then 0 else w }, ubuf.drop n, ret)
  else some ({ p with data := data }, ubuf, ret)

/-- `pipe_copy_to_user`: the pipe, the bytes that reached the user's buffer and the result.
    Here the result of the copy is tested as an `unsigned long`, before its conversion. -/
def pipeCopyToUser (p : Pipe) (count : Int) (res : Nat) : Option (Pipe × List UInt8 × Int) :=
  let n := u64OfInt count
  let left := min res n
  let bytes := copyToUser p.data p.readPos n left
  if left = 0 then
    let r := u64Add p.readPos n
    if p.size < r then none
    else some ({ p with readPos := if r = p.size then 0 else r }, bytes, intOfU64 left)
  else some (p, bytes, intOfU64 left)

/-- One user copy as it is issued: the pipe at that moment and the `int count` asked for. -/
structure Copy where
  pipe : Pipe
  count : Int

/-- What a call did to the ring once it had the pipe locked with data (or room): the pipe,
    the bytes a read put into the user's buffer, the value it returns, whether it came to its
    end (where it wakes the other side) and the user copies it issued. -/
structure Transfer where
  pipe : Pipe
  bytes : List UInt8
  ret : Int
  finished : Bool
  copies : List Copy

/-- `pipe_read` from "now data > 0" on. -/
def pipeReadCopy (p : Pipe) (count : Nat) (f : Faults) : Option Transfer := do
  let workSize := min (pipeData p) count
  if p.readPos ≤ p.writePos then
    let (p₁, bs, r) ← pipeCopyToUser p (intOfU64 workSize) f.first
    if u64OfInt r ≠ 0 then
      return ⟨p₁, bs, i64OfU64 (u64OfInt r), false, [⟨p, intOfU64 workSize⟩]⟩
    return ⟨p₁, bs, i64OfU64 workSize, true, [⟨p, intOfU64 workSize⟩]⟩
  else
    let firstChunk := min workSize (u64Sub p.size p.readPos)
    let (p₁, bs, r) ← pipeCopyToUser p (intOfU64 firstChunk) f.first
    if u64OfInt r ≠ 0 then
      return ⟨p₁, bs, i64OfU64 (u64OfInt r), false, [⟨p, intOfU64 firstChunk⟩]⟩
    if firstChunk < workSize then
      let secondChunk := u64Sub workSize firstChunk
      let (p₂, bs₂, r₂) ← pipeCopyToUser p₁ (intOfU64 secondChunk) f.second
      if u64OfInt r₂ ≠ 0 then
        return ⟨p₂, bs ++ bs₂, i64OfU64 (u64OfInt r₂), false,
          [⟨p, intOfU64 firstChunk⟩, ⟨p₁, intOfU64 secondChunk⟩]⟩
      return ⟨p₂, bs ++ bs₂, i64OfU64 workSize, true,
        [⟨p, intOfU64 firstChunk⟩, ⟨p₁, intOfU64 secondChunk⟩]⟩
    return ⟨p₁, bs, i64OfU64 workSize, true, [⟨p, intOfU64 firstChunk⟩]⟩

/-- `pipe_write` from "now room > 0" on; `buf` is the user's buffer, its length the count. -/
def pipeWriteCopy (p : Pipe) (buf : List UInt8) (f : Faults) : Option Transfer := do
  let workSize := min (pipeRoom p) buf.length
  if p.readPos ≤ p.writePos then
    let firstChunk := min workSize (u64Sub p.size p.writePos)
    let (p₁, buf₁, r) ← pipeCopyFromUser p (intOfU64 firstChunk) buf f.first
    if u64OfInt r ≠ 0 then
      return ⟨p₁, [], i64OfU64 (u64OfInt r), false, [⟨p, intOfU64 firstChunk⟩]⟩
    if firstChunk < workSize then
      let secondChunk := u64Sub workSize firstChunk
      let (p₂, _, r₂) ← pipeCopyFromUser p₁ (intOfU64 secondChunk) buf₁ f.second
      if u64OfInt r₂ ≠ 0 then
        return ⟨p₂, [], i64OfU64 (u64OfInt r₂), false,
          [⟨p, intOfU64 firstChunk⟩, ⟨p₁, intOfU64 secondChunk⟩]⟩
      return ⟨p₂, [], i64OfU64 workSize, true,
        [⟨p, intOfU64 firstChunk⟩, ⟨p₁, intOfU64 secondChunk⟩]⟩
    return ⟨p₁, [], i64OfU64 workSize, true, [⟨p, intOfU64 firstChunk⟩]⟩
  else
    let (p₁, _, r) ← pipeCopyFromUser p (intOfU64 workSize) buf f.first
    if u64OfInt r ≠ 0 then
      return ⟨p₁, [], i64OfU64 (u64OfInt r), false, [⟨p, intOfU64 workSize⟩]⟩
    return ⟨p₁, [], i64OfU64 workSize, true, [⟨p, intOfU64 workSize⟩]⟩

end DemosOsLinux.KernelPipe
