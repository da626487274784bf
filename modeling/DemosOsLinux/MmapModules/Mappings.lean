/-
  The mmap modules (kernel/mod_mmap.c, which uses kmalloc(9), and kernel/mod_mmap_simple.c, which
  uses __get_free_pages(9)).

  The `mmap` operation obtains a buffer and maps it; the `close` operation of the mapping frees it.
  vm_mmap(9) calls the first, vm_munmap(9) and the end of a process the second, the latter for each
  part that is taken out of a mapping; what is left of it keeps its buffer. The choices of the
  kernel (where a mapping goes, whether an allocation succeeds) are part of the call.
-/
import Mathlib.Data.List.Basic
import DemosOsLinux.Lib.Machine
import DemosOsLinux.Lib.MachineInt

namespace DemosOsLinux.MmapModules

open Lib

inductive Module where
  /-- mod_mmap.c, with `do_kmalloc` true. -/
  | modMmap
  /-- mod_mmap_simple.c, with `do_kmalloc` false. -/
  | modMmapSimple
  deriving DecidableEq

def pageSize : Nat := 4096

/-- `TASK_SIZE`. -/
def taskSize : Nat := 2 ^ 47 - 4096

def pageAlign (len : Nat) : Nat := (len + (pageSize - 1)) / pageSize * pageSize

/-- A mapping of the process `mm`. The buffer is that of `vm_private_data`; a mapping that is not
    the module's has none. -/
structure Vma where
  mm : Nat
  start : Nat
  stop : Nat
  buffer : Option Nat

structure State where
  vmas : List Vma
  /-- The number of buffers obtained so far. -/
  obtained : Nat
  /-- How often each was freed. -/
  freed : Nat → Nat
  addr : Nat
  ioctlSize : Int

def init : State := ⟨[], 0, fun _ => 0, 0, 0⟩

/-- kfree(9) or free_pages(9); of NULL it does nothing. -/
def free (freed : Nat → Nat) (buffer : Option Nat) : Nat → Nat :=
  fun b => if buffer = some b then freed b + 1 else freed b

/-- What vm_mmap(9) finds. -/
structure MmapCall where
  mm : Nat
  /-- Where the mapping starts; `none` if vm_mmap(9) fails before it calls the module. -/
  area : Option Nat
  /-- The allocation in the `mmap` operation succeeds. -/
  alloc : Bool
  /-- remap_pfn_range(9) succeeds. -/
  remap : Bool
  /-- The error that vm_mmap(9) returns, as an address. -/
  error : Nat

inductive Act where
  | setSize (arg : Nat)
  /-- `kaddr` says whether the kmalloc(9) of mod_mmap.c succeeds. -/
  | ioctlMmap (kaddr : Bool) (c : MmapCall)
  /-- `ok` says whether vm_munmap(9) has the memory it needs. -/
  | ioctlUnmap (mm : Nat) (ok : Bool)
  /-- mmap(2) of the device. -/
  | mmap (c : MmapCall) (len : Nat)
  | munmap (mm addr len : Nat) (ok : Bool)
  /-- A mapping of something else. -/
  | other (mm start stop : Nat)
  | exit (mm : Nat)

/-! ## The kernel -/

/-- The range is free in the address space. -/
def isFree (vmas : List Vma) (mm start stop : Nat) : Bool :=
  start < stop && vmas.all fun v => v.mm ≠ mm || v.stop ≤ start || stop ≤ v.start

/-- `v` instead of `best`, if it ends behind `addr` and starts before. -/
def nearer (mm addr : Nat) (best : Option Vma) (v : Vma) : Option Vma :=
  if v.mm = mm ∧ addr < v.stop ∧ ∀ w ∈ best, v.start < w.start then some v else best

/-- find_vma(9): the first mapping that ends behind `addr`. -/
def findVma (vmas : List Vma) (mm addr : Nat) : Option Vma := vmas.foldl (nearer mm addr) none

/-- The mapping has a part in the range. -/
def overlaps (mm start stop : Nat) (v : Vma) : Bool :=
  v.mm = mm && v.start < stop && start < v.stop

/-- What is left of a mapping without the range. -/
def cut (start stop : Nat) (v : Vma) : List Vma :=
  (if v.start < start then [{ v with stop := start }] else []) ++
    if stop < v.stop then [{ v with start := stop }] else []

/-- `kern_vma_close` for each of the mappings. -/
def close (freed : Nat → Nat) (vs : List Vma) : Nat → Nat :=
  vs.foldl (fun freed v => free freed v.buffer) freed

/-- vm_munmap(9) returns 0. -/
def munmapOk (addr len : Nat) (ok : Bool) : Bool :=
  ok && addr % pageSize = 0 && 0 < len && addr + len ≤ taskSize

/-- vm_munmap(9). -/
def vmMunmap (s : State) (mm addr len : Nat) (ok : Bool) : State :=
  if munmapOk addr len ok then
    let stop := addr + pageAlign len
    { s with
      vmas := s.vmas.flatMap fun v => if overlaps mm addr stop v then cut addr stop v else [v]
      freed := close s.freed (s.vmas.filter (overlaps mm addr stop)) }
  else s

/-- The end of a process. -/
def exitMm (s : State) (mm : Nat) : State :=
  { s with
    vmas := s.vmas.filter fun v => v.mm ≠ mm
    freed := close s.freed (s.vmas.filter fun v => v.mm = mm) }

/-! ## The modules -/

/-- kmalloc(9) or __get_free_pages(9). -/
def obtainBuffer (s : State) (alloc : Bool) : State × Option Nat :=
  if alloc then ({ s with obtained := s.obtained + 1 }, some s.obtained) else (s, none)

/-- `kern_mmap`; `true` if it returns 0. -/
def kernMmap (m : Module) (s : State) (alloc remap : Bool) (mm start stop : Nat) :
    State × Bool :=
  let u := obtainBuffer s alloc
  if remap then ({ u.1 with vmas := u.1.vmas ++ [⟨mm, start, stop, u.2⟩] }, true)
  else
    match m with
    | .modMmap => ({ u.1 with freed := free u.1.freed u.2 }, false)
    | .modMmapSimple => (u.1, false)

/-- vm_mmap(9), with what it returns; `none` if the kernel cannot behave so. -/
def vmMmap (m : Module) (s : State) (c : MmapCall) (len : Nat) : Option (State × Nat) :=
  match c.area with
  | none => some (s, c.error)
  | some start =>
      let stop := start + pageAlign len
      if 0 < len && start % pageSize = 0 && stop ≤ taskSize && isFree s.vmas c.mm start stop then
        let u := kernMmap m s c.alloc c.remap c.mm start stop
        some (u.1, if u.2 then start else c.error)
      else none

/-- `IOCTL_MMAP_MMAP`. -/
def ioctlMmap (m : Module) (s : State) (kaddr : Bool) (c : MmapCall) : Option State :=
  let s₁ :=
    match m with
    | .modMmap => (obtainBuffer s kaddr).1
    | .modMmapSimple => s
  (vmMmap m s₁ c (u64OfInt s.ioctlSize)).map fun u => { u.1 with addr := u.2 }

/-- `IOCTL_MMAP_UNMAP`. -/
def ioctlUnmap (m : Module) (s : State) (mm : Nat) (ok : Bool) : State :=
  match findVma s.vmas mm s.addr with
  -- a NULL pointer, which ends the process
  | none => exitMm s mm
  | some v =>
      let len := u64OfInt s.ioctlSize
      let s₁ := vmMunmap s mm s.addr len ok
      match m with
      | .modMmap => { s₁ with freed := free s₁.freed v.buffer }
      | .modMmapSimple =>
          if munmapOk s.addr len ok then { s₁ with freed := free s₁.freed v.buffer } else s₁

def step (m : Module) (s : State) : Act → Option (State × List Unit)
  | .setSize arg => some ({ s with ioctlSize := intOfU64 arg }, [])
  | .ioctlMmap kaddr c => (ioctlMmap m s kaddr c).map fun s' => (s', [])
  | .ioctlUnmap mm ok => some (ioctlUnmap m s mm ok, [])
  | .mmap c len => (vmMmap m s c len).map fun u => (u.1, [])
  | .munmap mm addr len ok => some (vmMunmap s mm addr len ok, [])
  | .other mm start stop =>
      if isFree s.vmas mm start stop then
        some ({ s with vmas := s.vmas ++ [⟨mm, start, stop, none⟩] }, [])
      else none
  | .exit mm => some (exitMm s mm, [])

def driver (m : Module) : Machine State Act Unit := ⟨step m⟩

end DemosOsLinux.MmapModules
