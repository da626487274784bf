/-
  The RAM disk (kernel_standalone/blkdev/main.c).

  The disk is the `MEMBLOCK_SIZE` bytes at `dev->data`; the memory is addressed by the offset from
  there, modulo 2^64, so that what is not below the size is not the disk's. A request is a start
  sector and a list of segments; the driver hands them to `memblock_transfer` one by one and ends
  the request with `BLK_STS_OK`.
  * `events_eq`: the segments are transferred or rejected one by one, each at its own sector.
  * `completion_iff`: when the driver stays inside the disk and has transferred what it reports.
-/
import Mathlib.Data.List.Forall2
import DemosOsLinux.Lib.ByteMemory
import DemosOsLinux.Lib.Machine

namespace DemosOsLinux.RamDisk

open Lib

/-- `MEMBLOCK_SIZE`, as the comparison converts it. -/
def memblockSize : UInt64 := 1048576

/-- `BLK_STS_OK`. -/
def blkStsOk : UInt8 := 0

/-- The bytes of a `struct bio_vec`; `bv_len` has 32 bits. -/
structure Segment where
  bytes : List UInt8
  length_lt : bytes.length < 2 ^ 32

/-- `bv_len`. -/
def Segment.len (g : Segment) : UInt32 := UInt32.ofNat g.bytes.length

inductive Event where
  /-- memcpy(3) of `nbytes` between `dev->data + offset` and the buffer. -/
  | copied (offset nbytes : UInt64)
  /-- "memblock: Beyond-end %s (%lu %u)". -/
  | beyondEnd (write : Bool) (offset : UInt64) (nsect : UInt32)

/-- The memory, the buffer and what was done. -/
def memblockTransfer (data : ByteMemory) (sector : UInt64) (nsect : UInt32)
    (buffer : List UInt8) (write : Bool) : ByteMemory × List UInt8 × Event :=
  let offset := sector * 512
  let nbytes := nsect.toUInt64 * 512
  if offset + nbytes > memblockSize then (data, buffer, .beyondEnd write offset nsect)
  else if write then
    (data.store offset (buffer.take nbytes.toNat), buffer, .copied offset nbytes)
  else
    (data, data.load offset nbytes.toNat ++ buffer.drop nbytes.toNat, .copied offset nbytes)

structure Request where
  /-- `blk_rq_pos`. -/
  pos : UInt64
  write : Bool
  segments : List Segment

structure Response where
  status : UInt8
  buffers : List (List UInt8)
  events : List Event

/-- `rq_for_each_segment`. -/
def segmentLoop (write : Bool) :
    ByteMemory → UInt64 → List Segment → ByteMemory × List (List UInt8) × List Event
  | data, _, [] => (data, [], [])
  | data, sector, g :: gs =>
      let u := memblockTransfer data sector (g.len / 512) g.bytes write
      let v := segmentLoop write u.1 (sector + (g.len / 512).toUInt64) gs
      (v.1, u.2.1 :: v.2.1, u.2.2 :: v.2.2)

def memblockRequest (data : ByteMemory) (r : Request) : ByteMemory × Response :=
  let u := segmentLoop r.write data r.pos r.segments
  (u.1, ⟨blkStsOk, u.2.1, u.2.2⟩)

/-- The requests, one after the other. -/
def ramdisk : Machine ByteMemory Request Response :=
  ⟨fun data r => some ((memblockRequest data r).1, [(memblockRequest data r).2])⟩

/-! ## Segment by segment -/

/-- The sector at which each segment starts. -/
def starts : UInt64 → List Segment → List (UInt64 × Segment)
  | _, [] => []
  | sector, g :: gs => (sector, g) :: starts (sector + (g.len / 512).toUInt64) gs

/-- The event of a segment; it does not depend on the data. -/
def eventOf (write : Bool) (sector : UInt64) (g : Segment) : Event :=
  let offset := sector * 512
  let nbytes := (g.len / 512).toUInt64 * 512
  if offset + nbytes > memblockSize then .beyondEnd write offset (g.len / 512)
  else .copied offset nbytes

theorem event_memblockTransfer (data : ByteMemory) (sector : UInt64) (g : Segment) (write : Bool) :
    (memblockTransfer data sector (g.len / 512) g.bytes write).2.2 = eventOf write sector g := by
  simp only [memblockTransfer, eventOf]
  split
  · rfl
  · split <;> rfl

theorem events_segmentLoop (write : Bool) (data : ByteMemory) (sector : UInt64)
    (gs : List Segment) :
    (segmentLoop write data sector gs).2.2 =
      (starts sector gs).map fun q => eventOf write q.1 q.2 := by
  induction gs generalizing data sector with
  | nil => rfl
  | cons g gs ih =>
    simp only [segmentLoop, starts, List.map_cons]
    rw [ih, event_memblockTransfer]

theorem events_eq (data : ByteMemory) (r : Request) :
    (memblockRequest data r).2.events =
      (starts r.pos r.segments).map fun q => eventOf r.write q.1 q.2 :=
  events_segmentLoop r.write data r.pos r.segments

theorem snd_starts (sector : UInt64) (gs : List Segment) :
    (starts sector gs).map Prod.snd = gs := by
  induction gs generalizing sector with
  | nil => rfl
  | cons g gs ih => rw [starts, List.map_cons, ih]

theorem toNat_nsect (g : Segment) : (g.len / 512).toUInt64.toNat = g.bytes.length / 512 := by
  have hlen : g.len.toNat = g.bytes.length := by
    rw [Segment.len, UInt32.toNat_ofNat', Nat.mod_eq_of_lt g.length_lt]
  rw [UInt32.toNat_toUInt64, UInt32.toNat_div, hlen]
  rfl

/-- The driver transfers whole sectors. -/
theorem toNat_nbytes (g : Segment) :
    ((g.len / 512).toUInt64 * 512).toNat = g.bytes.length / 512 * 512 := by
  have hlt := g.length_lt
  rw [UInt64.toNat_mul, toNat_nsect]
  change g.bytes.length / 512 * 512 % 2 ^ 64 = _
  omega

/-! ## What is touched, what is transferred -/

/-- The byte at address `a` is read or written. -/
def Event.Touches : Event → UInt64 → Prop
  | .copied offset nbytes, a => ∃ i, i < nbytes.toNat ∧ a = offset + UInt64.ofNat i
  | .beyondEnd .., _ => False

def Event.transferred : Event → Nat
  | .copied _ nbytes => nbytes.toNat
  | .beyondEnd .. => 0

/-- The segment is empty, or it is made of sectors of the disk. -/
def InDisk (sector : UInt64) (g : Segment) : Prop :=
  g.bytes.length = 0 ∨
    (512 ∣ g.bytes.length ∧ (sector * 512).toNat + g.bytes.length ≤ memblockSize.toNat)

/-- One segment. -/
theorem honest_iff (write : Bool) (sector : UInt64) (g : Segment) :
    ((∀ a, (eventOf write sector g).Touches a → a < memblockSize) ∧
      (eventOf write sector g).transferred = g.bytes.length) ↔ InDisk sector g := by
  have hn := toNat_nbytes g
  have hlt := g.length_lt
  have hsize : memblockSize.toNat = 1048576 := rfl
  simp only [eventOf, InDisk]
  generalize (g.len / 512).toUInt64 * 512 = nbytes at hn ⊢
  generalize sector * 512 = offset
  have hoff := offset.toNat_lt
  have hsum : (offset + nbytes).toNat = (offset.toNat + nbytes.toNat) % 2 ^ 64 :=
    UInt64.toNat_add offset nbytes
  have hbyte (i : Nat) (hi : i < nbytes.toNat) :
      (offset + UInt64.ofNat i).toNat = (offset.toNat + i) % 2 ^ 64 := by
    rw [UInt64.toNat_add, UInt64.toNat_ofNat', Nat.mod_eq_of_lt (by omega : i < 2 ^ 64)]
  by_cases hend : offset + nbytes > memblockSize
  · -- rejected: only an empty segment is complete
    rw [if_pos hend]
    rw [gt_iff_lt, UInt64.lt_iff_toNat_lt] at hend
    simp only [Event.Touches, Event.transferred]
    constructor
    · rintro ⟨_, hlen⟩
      exact Or.inl hlen.symm
    · rintro (hlen | ⟨hdvd, hle⟩)
      · exact ⟨fun _ h => h.elim, hlen.symm⟩
      · omega
  · rw [if_neg hend]
    rw [gt_iff_lt, UInt64.lt_iff_toNat_lt] at hend
    simp only [Event.Touches, Event.transferred]
    constructor
    · rintro ⟨htouch, hlen⟩
      rcases Nat.eq_zero_or_pos g.bytes.length with hzero | hpos
      · exact Or.inl hzero
      · -- the first byte is inside, so the sum that was compared has not wrapped
        have hfirst := htouch _ ⟨0, by omega, rfl⟩
        rw [UInt64.lt_iff_toNat_lt, hbyte 0 (by omega)] at hfirst
        exact Or.inr ⟨by omega, by omega⟩
    · rintro (hlen | ⟨hdvd, hle⟩)
      · exact ⟨fun a ⟨i, hi, _⟩ => absurd hi (by omega), by omega⟩
      · refine ⟨fun a ⟨i, hi, ha⟩ => ?_, by omega⟩
        rw [ha, UInt64.lt_iff_toNat_lt, hbyte i hi]
        omega

/-- **Completion.** Whatever the start sector and the segments of a request: the driver touches no
    byte outside the disk, and reports success only if it has transferred every byte of every
    segment, if and only if each segment is empty or made of sectors of the disk, from its own
    sector on. -/
theorem completion_iff (data : ByteMemory) (r : Request) :
    ((∀ e ∈ (memblockRequest data r).2.events, ∀ a, e.Touches a → a < memblockSize) ∧
      ((memblockRequest data r).2.status = blkStsOk →
        List.Forall₂ (fun e g => e.transferred = g.bytes.length)
          (memblockRequest data r).2.events r.segments)) ↔
      ∀ q ∈ starts r.pos r.segments, InDisk q.1 q.2 := by
  have hsegs : List.Forall₂ (fun e g => e.transferred = g.bytes.length)
        (memblockRequest data r).2.events r.segments ↔
      ∀ q ∈ starts r.pos r.segments,
        (eventOf r.write q.1 q.2).transferred = q.2.bytes.length := by
    have hsnd := snd_starts r.pos r.segments
    rw [events_eq]
    generalize starts r.pos r.segments = qs at hsnd ⊢
    rw [← hsnd, List.forall₂_map_left_iff, List.forall₂_map_right_iff, List.forall₂_same]
  have hstatus : (memblockRequest data r).2.status = blkStsOk := rfl
  rw [hsegs, events_eq, List.forall_mem_map]
  constructor
  · rintro ⟨htouch, hdone⟩ q hq
    exact (honest_iff r.write q.1 q.2).mp ⟨htouch q hq, hdone hstatus q hq⟩
  · intro h
    exact ⟨fun q hq => ((honest_iff r.write q.1 q.2).mpr (h q hq)).1,
      fun _ q hq => ((honest_iff r.write q.1 q.2).mpr (h q hq)).2⟩

/-- A sector of equal bytes. -/
def filled (b : UInt8) : Segment where
  bytes := List.replicate 512 b
  length_lt := by
    rw [List.length_replicate]
    decide

theorem len_filled (b : UInt8) : (filled b).len = 512 := by
  rw [Segment.len, filled, List.length_replicate]
  rfl

/-- A write to sector 2^55 - 1 is a memcpy(3) before the disk, and one to sector 2048 is not done
    but reported as done. -/
theorem completion_fails :
    (memblockRequest (fun _ => 0) ⟨36028797018963967, true, [filled 7]⟩).2 =
        ⟨blkStsOk, [(filled 7).bytes], [.copied 18446744073709551104 512]⟩ ∧
      (memblockRequest (fun _ => 0) ⟨2048, true, [filled 7]⟩).2 =
        ⟨blkStsOk, [(filled 7).bytes], [.beyondEnd true 1048576 1]⟩ := by
  simp only [memblockRequest, segmentLoop, memblockTransfer, len_filled]
  exact ⟨rfl, rfl⟩

end DemosOsLinux.RamDisk
