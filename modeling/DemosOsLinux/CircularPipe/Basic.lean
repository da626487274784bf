/-
  The user-space pipe class `CircularPipe` (include/CircularPipe.hh): the code.

  `size_t` values are `Nat`s and every operation on them wraps as the machine's does. The
  system calls inside `push` and `pull` are parameters: `push bs` is a `push` whose `read(2)`
  put the bytes `bs` into the buffer, `pull n` is a `pull` whose `write(2)` took `n` bytes.
  A call that fails ends the program (`CHECK_NOT_M1`), so the class never goes on after it. The
  kernel transfers at most 0x7ffff000 bytes at a time, so a result is not changed by its way
  through the `int` of `CHECK_NOT_M1`, although the counts may be larger.
  `malloc` gives memory with arbitrary contents.
-/
import DemosOsLinux.Lib.MachineInt
import DemosOsLinux.Lib.RingBuffer

namespace DemosOsLinux

open Lib

structure CircularPipe where
  size : Nat
  buf : List UInt8
  posRead : Nat
  posWrite : Nat

namespace CircularPipe

/-- The constructor; `mem` is what `malloc` returned. -/
def ctor (isize : Nat) (mem : Nat → UInt8) : CircularPipe where
  size := isize
  buf := (List.range isize).map mem
  posRead := 0
  posWrite := 0

/-- The occupied room of a pipe. -/
def data (p : CircularPipe) : Nat :=
  if p.posRead ≤ p.posWrite then u64Sub p.posWrite p.posRead
  else u64Add (u64Sub p.size p.posRead) p.posWrite

/-- The empty room of a pipe. -/
def room (p : CircularPipe) : Nat :=
  if p.posRead ≤ p.posWrite then u64Sub (u64Add (u64Sub p.size p.posWrite) p.posRead) 1
  else u64Sub (u64Sub p.posRead p.posWrite) 1

def haveData (p : CircularPipe) : Bool := decide (0 < p.data)

def haveRoom (p : CircularPipe) : Bool := decide (0 < p.room)

def canPush (p : CircularPipe) : Bool := p.haveRoom

def canPull (p : CircularPipe) : Bool := p.haveData

/-- The count that `push` asks `read(2)` for. -/
def pushCount (p : CircularPipe) : Nat :=
  if p.posRead ≤ p.posWrite then
    let count := u64Sub p.size p.posWrite
    if p.posRead = 0 then u64Sub count 1 else count
  else
    u64Sub (u64Sub p.posRead p.posWrite) 1

/-- `push` when `read(2)` returns the bytes `bs`, at most 0x7ffff000 of them; the result is "end of
    file". -/
def push (p : CircularPipe) (bs : List UInt8) : CircularPipe × Bool :=
  ({ p with
      buf := overwrite p.buf p.posWrite bs
      posWrite := u64Add p.posWrite bs.length % p.size },
    bs.length == 0)

/-- The count that `pull` offers to `write(2)`. -/
def pullCount (p : CircularPipe) : Nat :=
  if p.posRead ≤ p.posWrite then u64Sub p.posWrite p.posRead else u64Sub p.size p.posRead

/-- `pull` when `write(2)` takes `n` bytes, at most 0x7ffff000; with the bytes it took. -/
def pull (p : CircularPipe) (n : Nat) : CircularPipe × List UInt8 :=
  ({ p with posRead := u64Add p.posRead n % p.size }, slice p.buf p.posRead n)

end CircularPipe

end DemosOsLinux
