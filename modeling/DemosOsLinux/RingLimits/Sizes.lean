/-
  The sizes of the two rings (include/CircularPipe.hh, kernel_standalone/pipe/main.c) at the limit.

  `pipe_size` is any `int`, and `pipe->size` is that number as a `size_t`: a negative one is huge.
  The size of a `CircularPipe` is what `atoi` makes of an argument, as an `unsigned int`. Both rings
  keep one byte free, and compute the room as a difference minus one, modulo 2^64.
  * `Positions`: both positions are inside the buffer. That is all the bounds need, so it is enough to
    follow it through the chunks of a transfer (`Chunks.within`), provided that none is cut by the
    `int` parameter of the copy helpers.
  * `not_bounded_zero`: without a byte to keep free, the room is 2^64 - 1.
  * `not_bounded_of_le`: a chunk that is cut; it takes a huge ring and a call for as many bytes.
  * `ring_sizes_iff`: the sizes for which the bounds hold.
-/
import DemosOsLinux.CircularPipe.Fifo
import DemosOsLinux.KernelPipe.Fifo

namespace DemosOsLinux.RingLimits

open Lib KernelPipe

/-! ## The driver -/

/-- The copies ask for no more than `N` bytes. -/
def EventWithin (N : Nat) : Event → Prop
  | .copyTo c | .copyFrom c => u64OfInt c.count ≤ N
  | _ => True

/-- Both positions are inside a buffer of `N` bytes. -/
structure Positions (N : Nat) (p : Pipe) : Prop where
  size : p.size = N
  readLt : p.readPos < N
  writeLt : p.writePos < N

variable {N k work : Nat} {p : Pipe} {f : Faults} {r : Transfer} {buf : List UInt8}

theorem Positions.data_eq (h : Positions N p) (hN : N < 2 ^ 64) :
    pipeData p = fill N p.readPos p.writePos := by
  obtain ⟨hs, hr, hw⟩ := h
  unfold pipeData fill
  split
  · exact u64Sub_of_le (by omega) (by omega)
  · rw [hs, u64Sub_of_le (by omega) (by omega), u64Add_of_lt (by omega)]

theorem Positions.room_eq (h : Positions N p) (hN : N < 2 ^ 64) :
    pipeRoom p = N - 1 - fill N p.readPos p.writePos := by
  obtain ⟨hs, hr, hw⟩ := h
  unfold pipeRoom fill
  split
  · rw [hs, u64Sub_of_le (a := N) (by omega) (by omega), u64Add_of_lt (by omega),
      u64Sub_of_le (by omega) (by omega)]
    omega
  · rw [u64Sub_of_le (a := p.readPos) (by omega) (by omega), u64Sub_of_le (by omega) (by omega)]
    omega

/-- A chunk that fits into an `int` is asked for as it is. -/
theorem asked_eq (hint : k < 2 ^ 31) : u64OfInt (intOfU64 k) = k := by
  rw [intOfU64_of_lt hint, u64OfInt_natCast (by omega)]

/-- What a copy makes of the ring, with what it leaves uncopied as the last component. -/
abbrev CopyOf := Pipe → Int → Pipe × List UInt8 × Int → Prop

/-- A copy at position `pos` that ends within the buffer stays inside, and at the end of the buffer it
wraps. -/
def Inside (N : Nat) (pos : Pipe → Nat) (C : CopyOf) : Prop :=
  ∀ p k x, Positions N p → pos p + k ≤ N → k < 2 ^ 31 → C p (intOfU64 k) x →
    Positions N x.1 ∧ (u64OfInt x.2.2 = 0 → pos p + k = N → pos x.1 = 0)

def CopyOut : CopyOf := fun p count x => ∃ res, pipeCopyToUser p count res = some x

def CopyIn : CopyOf := fun p count x => ∃ ubuf res, pipeCopyFromUser p count ubuf res = some x

theorem copyOut_inside (hN : N < 2 ^ 64) : Inside N Pipe.readPos CopyOut := by
  rintro p k x ⟨rfl, hr, hw⟩ hk hint ⟨res, hx⟩
  have hleft : min res k < 2 ^ 31 := by omega
  unfold pipeCopyToUser at hx
  simp only [asked_eq hint, u64Add_of_lt (show p.readPos + k < 2 ^ 64 by omega),
    if_neg (show ¬ p.size < p.readPos + k by omega)] at hx
  split at hx
  · obtain rfl := Option.some.inj hx
    refine ⟨⟨rfl, ?_, hw⟩, fun _ hend => if_pos hend⟩
    dsimp only
    split <;> omega
  · next hsome =>
    obtain rfl := Option.some.inj hx
    refine ⟨⟨rfl, hr, hw⟩, fun hzero => ?_⟩
    dsimp only at hzero
    rw [asked_eq hleft] at hzero
    exact absurd hzero hsome

theorem copyIn_inside (hN : N < 2 ^ 64) : Inside N Pipe.writePos CopyIn := by
  rintro p k x ⟨rfl, hr, hw⟩ hk hint ⟨ubuf, res, hx⟩
  have hleft : min res k < 2 ^ 31 := by omega
  unfold pipeCopyFromUser at hx
  simp only [asked_eq hint, u64Add_of_lt (show p.writePos + k < 2 ^ 64 by omega),
    if_neg (show ¬ p.size < p.writePos + k by omega)] at hx
  split at hx
  · obtain rfl := Option.some.inj hx
    refine ⟨⟨rfl, hr, ?_⟩, fun _ hend => if_pos hend⟩
    dsimp only
    split <;> omega
  · next hsome =>
    obtain rfl := Option.some.inj hx
    refine ⟨⟨rfl, hr, hw⟩, fun hzero => ?_⟩
    dsimp only at hzero
    rw [asked_eq hleft] at hzero
    rw [intOfU64_of_lt hleft, hzero] at hsome
    exact absurd rfl hsome

/-- A transfer of `work` bytes, `k` of them at first: a second copy follows a first one that left
nothing. -/
def Chunks (C : CopyOf) (p : Pipe) (work k : Nat) (r : Transfer) : Prop :=
  ∃ x, C p (intOfU64 k) x ∧ (r.pipe = x.1 ∧ r.copies = [⟨p, intOfU64 k⟩] ∨
    u64OfInt x.2.2 = 0 ∧ k < work ∧ ∃ y, C x.1 (intOfU64 (u64Sub work k)) y ∧ r.pipe = y.1 ∧
      r.copies = [⟨p, intOfU64 k⟩, ⟨x.1, intOfU64 (u64Sub work k)⟩])

theorem pipeReadCopy_chunks {count : Nat} (h : pipeReadCopy p count f = some r)
    (hwork : work = min (pipeData p) count)
    (hk : k = if p.readPos ≤ p.writePos then work else min work (u64Sub p.size p.readPos)) :
    Chunks CopyOut p work k r := by
  unfold pipeReadCopy at h
  simp only [Option.bind_eq_bind, Option.pure_def, ← hwork] at h
  split at h
  · next hle =>
    rw [if_pos hle] at hk
    subst hk
    obtain ⟨x, hx, h⟩ := Option.bind_eq_some_iff.mp h
    refine ⟨x, ⟨_, hx⟩, Or.inl ?_⟩
    split at h <;> (obtain rfl := Option.some.inj h; exact ⟨rfl, rfl⟩)
  · next hgt =>
    rw [if_neg hgt] at hk
    rw [← hk] at h
    obtain ⟨x, hx, h⟩ := Option.bind_eq_some_iff.mp h
    refine ⟨x, ⟨_, hx⟩, ?_⟩
    split at h
    · obtain rfl := Option.some.inj h
      exact Or.inl ⟨rfl, rfl⟩
    · next hzero =>
      split at h
      · next hlt =>
        obtain ⟨y, hy, h⟩ := Option.bind_eq_some_iff.mp h
        refine Or.inr ⟨not_not.mp hzero, hlt, y, ⟨_, hy⟩, ?_⟩
        split at h <;> (obtain rfl := Option.some.inj h; exact ⟨rfl, rfl⟩)
      · obtain rfl := Option.some.inj h
        exact Or.inl ⟨rfl, rfl⟩

theorem pipeWriteCopy_chunks (h : pipeWriteCopy p buf f = some r)
    (hwork : work = min (pipeRoom p) buf.length)
    (hk : k = if p.readPos ≤ p.writePos then min work (u64Sub p.size p.writePos) else work) :
    Chunks CopyIn p work k r := by
  unfold pipeWriteCopy at h
  simp only [Option.bind_eq_bind, Option.pure_def, ← hwork] at h
  split at h
  · next hle =>
    rw [if_pos hle] at hk
    rw [← hk] at h
    obtain ⟨x, hx, h⟩ := Option.bind_eq_some_iff.mp h
    refine ⟨x, ⟨_, _, hx⟩, ?_⟩
    split at h
    · obtain rfl := Option.some.inj h
      exact Or.inl ⟨rfl, rfl⟩
    · next hzero =>
      split at h
      · next hlt =>
        obtain ⟨y, hy, h⟩ := Option.bind_eq_some_iff.mp h
        refine Or.inr ⟨not_not.mp hzero, hlt, y, ⟨_, _, hy⟩, ?_⟩
        split at h <;> (obtain rfl := Option.some.inj h; exact ⟨rfl, rfl⟩)
      · obtain rfl := Option.some.inj h
        exact Or.inl ⟨rfl, rfl⟩
  · next hgt =>
    rw [if_neg hgt] at hk
    subst hk
    obtain ⟨x, hx, h⟩ := Option.bind_eq_some_iff.mp h
    refine ⟨x, ⟨_, _, hx⟩, Or.inl ?_⟩
    split at h <;> (obtain rfl := Option.some.inj h; exact ⟨rfl, rfl⟩)

/-- A transfer from or to a ring of `N` bytes. -/
structure TransferWithin (N : Nat) (r : Transfer) : Prop where
  positions : Positions N r.pipe
  copies : ∀ c ∈ r.copies, u64OfInt c.count ≤ N

/-- The chunks of a read: the first one ends within the buffer, and at its end if there is a
second. -/
theorem read_chunks (h : Positions N p) (hwork : work ≤ fill N p.readPos p.writePos)
    (hk : k = if p.readPos ≤ p.writePos then work else min work (N - p.readPos)) :
    k ≤ work ∧ p.readPos + k ≤ N ∧ (k < work → p.readPos + k = N) := by
  have hread := h.readLt
  have hwrite := h.writeLt
  unfold fill at hwork
  split at hk
  · next hle =>
    rw [if_pos hle] at hwork
    omega
  · next hgt =>
    rw [if_neg hgt] at hwork
    omega

/-- The chunks of a write. -/
theorem write_chunks (h : Positions N p) (hwork : work ≤ N - 1 - fill N p.readPos p.writePos)
    (hk : k = if p.readPos ≤ p.writePos then min work (N - p.writePos) else work) :
    k ≤ work ∧ p.writePos + k ≤ N ∧ (k < work → p.writePos + k = N) := by
  have hread := h.readLt
  have hwrite := h.writeLt
  unfold fill at hwork
  split at hk
  · next hle =>
    rw [if_pos hle] at hwork
    omega
  · next hgt =>
    rw [if_neg hgt] at hwork
    omega

/-- Chunks that lie within the buffer, the second one from its start on, and fit into an `int`. -/
theorem Chunks.within {C : CopyOf} {pos : Pipe → Nat} (hc : Chunks C p work k r)
    (hC : Inside N pos C) (h : Positions N p) (hle : work ≤ N) (hint : work < 2 ^ 31)
    (hkwork : k ≤ work) (hend : pos p + k ≤ N) (hlast : k < work → pos p + k = N) :
    TransferWithin N r := by
  obtain ⟨x, hx, hcopies⟩ := hc
  have hkint : k < 2 ^ 31 := by omega
  obtain ⟨hpos, hwrap⟩ := hC p k x h hend hkint hx
  rcases hcopies with ⟨hpipe, hcopies⟩ | ⟨hzero, hlt, y, hy, hpipe, hcopies⟩
  · refine ⟨hpipe ▸ hpos, ?_⟩
    rw [hcopies, List.forall_mem_singleton, asked_eq hkint]
    omega
  · have hm : u64Sub work k = work - k := u64Sub_of_le hkwork (by omega)
    rw [hm] at hy hcopies
    have hmint : work - k < 2 ^ 31 := by omega
    have hstart := hwrap hzero (hlast hlt)
    obtain ⟨hpos', -⟩ := hC x.1 (work - k) y hpos (by omega) hmint hy
    refine ⟨hpipe ▸ hpos', ?_⟩
    rw [hcopies, List.forall_mem_cons, List.forall_mem_singleton, asked_eq hkint, asked_eq hmint]
    omega

theorem pipeReadCopy_positions (h : Positions N p) (hN : N < 2 ^ 64) {count : Nat}
    (hint : N ≤ 2 ^ 31 ∨ count < 2 ^ 31) (hr : pipeReadCopy p count f = some r) :
    TransferWithin N r := by
  have hc := pipeReadCopy_chunks hr rfl rfl
  rw [h.data_eq hN, h.size, u64Sub_of_le h.readLt.le hN] at hc
  have hfill := fill_lt h.readLt h.writeLt
  obtain ⟨hkwork, hend, hlast⟩ := read_chunks h (Nat.min_le_left _ count) rfl
  exact hc.within (copyOut_inside hN) h (by omega) (by omega) hkwork hend hlast

theorem pipeWriteCopy_positions (h : Positions N p) (hN : N < 2 ^ 64)
    (hint : N ≤ 2 ^ 31 ∨ buf.length < 2 ^ 31) (hr : pipeWriteCopy p buf f = some r) :
    TransferWithin N r := by
  have hc := pipeWriteCopy_chunks hr rfl rfl
  rw [h.room_eq hN, h.size, u64Sub_of_le h.writeLt.le hN] at hc
  have hread := h.readLt
  obtain ⟨hkwork, hend, hlast⟩ := write_chunks h (Nat.min_le_left _ buf.length) rfl
  exact hc.within (copyIn_inside hN) h (by omega) (by omega) hkwork hend hlast

/-! ## Runs of the driver -/

/-- The count of a transfer. -/
def ioCount : Io → Nat
  | .read _ count => count
  | .write _ buf => buf.length

/-- The transfer a task is in. -/
def ioOf : Pc → Option Io
  | .locking (.io o) | .locked (.io o) | .waitEnter o | .queued o | .testing o | .refused o
  | .asleep o | .interrupted o | .waking o _ => some o
  | _ => none

/-- `MAX_RW_COUNT`: longer reads and writes are cut before they reach a driver. -/
def maxRwCount : Nat := 2 ^ 31 - 2 ^ 12

def Capped : Act → Prop
  | .call _ (.io o) => ioCount o ≤ maxRwCount
  | _ => True

/-- No chunk of this transfer is cut by a conversion to `int`. -/
def Uncut (N : Nat) (o : Io) : Prop := N ≤ 2 ^ 31 ∨ ioCount o < 2 ^ 31

def UncutTasks (N : Nat) (pc : Tid → Pc) : Prop := ∀ t o, ioOf (pc t) = some o → Uncut N o

variable {s s' : State} {a : Act} {es : List Event}

theorem UncutTasks.update {pc : Tid → Pc} (h : UncutTasks N pc) (t : Tid) {l : Pc}
    (hl : ∀ o, ioOf l = some o → Uncut N o) : UncutTasks N (Function.update pc t l) := by
  intro u o ho
  by_cases hu : u = t
  · rw [hu, Function.update_self] at ho
    exact hl o ho
  · rw [Function.update_of_ne hu] at ho
    exact h u o ho

/-- A task goes on with the transfer it is in, or with none. -/
theorem trans_uncut (h : Trans s a es s') (hs : UncutTasks N s.pc) (ha : N ≤ 2 ^ 31 ∨ Capped a) :
    UncutTasks N s'.pc := by
  have hkeep : ∀ t {o : Io}, ioOf (s.pc t) = some o → ∀ o', some o = some o' → Uncut N o' := by
    intro t o ho o' heq
    exact hs t o' (ho.trans heq)
  cases h with
  | call t c =>
    rw [enter_pc]
    refine hs.update t fun o ho => ?_
    cases c with
    | io o' =>
      obtain rfl := Option.some.inj ho
      refine ha.imp_right fun hcap => ?_
      exact Nat.lt_of_le_of_lt hcap (by decide)
    | «open» m => cases ho
    | release x => cases ho
  | badAccess t o => exact hs
  | lock t c ho hpc =>
    refine hs.update t fun o ho => hs t o ?_
    rw [hpc]
    cases c with
    | io o' => exact ho
    | «open» m => cases ho
    | release x => cases ho
  | lockTest t o ho hpc => exact hs.update t (hkeep t (by rw [hpc]; rfl))
  | opens t m f => exact hs.update t nofun
  | releases t x f =>
    rw [pipeRelease_pc]
    exact hs.update t nofun
  | wait t o f hpc => exact hs.update t (hkeep t (by rw [hpc]; rfl))
  | eof t x count f hpc => exact hs.update t nofun
  | bug t o f hpc => exact hs.update t nofun
  | done t o f r cs mv hpc => exact hs.update t (hkeep t (by rw [hpc]; rfl))
  | fault t o f r cs mv hpc => exact hs.update t nofun
  | enqueue t o hpc => exact hs.update t (hkeep t (by rw [hpc]; rfl))
  | testTrue t o hpc => exact hs.update t (hkeep t (by rw [hpc]; rfl))
  | testFalse t o hpc => exact hs.update t (hkeep t (by rw [hpc]; rfl))
  | sleep t o hpc => exact hs.update t (hkeep t (by rw [hpc]; rfl))
  | resume t o hpc => exact hs.update t (hkeep t (by rw [hpc]; rfl))
  | signal t o hpc => exact hs.update t (hkeep t (by rw [hpc]; rfl))
  | interrupt t o hpc => exact hs.update t (hkeep t (by rw [hpc]; rfl))
  | bail t o hpc => exact hs.update t nofun
  | wake t o v hpc => exact hs.update t nofun

theorem moves_within {t : Tid} {o : Io} {cs : List Event} {mv : Event} (h : Positions N p)
    (hN : N < 2 ^ 64) (ho : Uncut N o) (hm : Moves t p f o r cs mv) :
    Positions N r.pipe ∧ (∀ e ∈ cs, EventWithin N e) ∧ EventWithin N mv := by
  cases hm with
  | read x count r hr =>
    have hwithin := pipeReadCopy_positions h hN ho hr
    exact ⟨hwithin.positions, List.forall_mem_map.mpr hwithin.copies, trivial⟩
  | write x buf r hr =>
    have hwithin := pipeWriteCopy_positions h hN ho hr
    exact ⟨hwithin.positions, List.forall_mem_map.mpr hwithin.copies, trivial⟩

theorem Positions.sameRing {q : Pipe} (h : Positions N p) (hq : SameRing p q) : Positions N q := by
  obtain ⟨-, hsize, hread, hwrite⟩ := hq
  exact ⟨hsize.trans h.size, hread.symm ▸ h.readLt, hwrite.symm ▸ h.writeLt⟩

theorem trans_positions (h : Trans s a es s') (hN : N < 2 ^ 64) (hp : Positions N s.pipe)
    (hs : UncutTasks N s.pc) : Positions N s'.pipe ∧ ∀ e ∈ es, EventWithin N e := by
  cases h with
  | call t c => exact ⟨by rw [enter_pipe]; exact hp, nofun⟩
  | opens t m f => exact ⟨hp.sameRing (sameRing_pipeOpen s t m), by simp [pipeOpen, EventWithin]⟩
  | releases t x f =>
    exact ⟨hp.sameRing (sameRing_pipeRelease s t x), by simp [pipeRelease, EventWithin]⟩
  | done t o f r cs mv hpc hw hm =>
    obtain ⟨hpos, hcs, hmv⟩ := moves_within hp hN (hs t o (by rw [hpc]; rfl)) hm
    exact ⟨hpos, forall_transferEvents hcs hmv trivial⟩
  | fault t o f r cs mv hpc hm =>
    obtain ⟨hpos, hcs, -⟩ := moves_within hp hN (hs t o (by rw [hpc]; rfl)) hm
    exact ⟨hpos, forall_transferEvents hcs trivial trivial⟩
  | _ => exact ⟨hp, by simp [EventWithin]⟩

/-- The bounds, over the runs whose actions satisfy `A`: `N` is the number of bytes allocated. -/
def Bounded (A : Act → Prop) (pipeSize : Int32) (mem : Nat → UInt8) : Prop :=
  ∀ acts s tr, (∀ a ∈ acts, A a) → driver.run (initState pipeSize mem) acts = some (s, tr) →
    pipeRoom s.pipe ≤ u64OfInt pipeSize.toInt ∧
      ∀ e ∈ tr, EventWithin (u64OfInt pipeSize.toInt) e

variable {A : Act → Prop} {pipeSize : Int32} {mem : Nat → UInt8}

theorem u64OfInt_lt (i : Int) : u64OfInt i < 2 ^ 64 := by
  unfold u64OfInt
  omega

theorem bounded_of_uncut (hpos : u64OfInt pipeSize.toInt ≠ 0)
    (hA : ∀ a, A a → u64OfInt pipeSize.toInt ≤ 2 ^ 31 ∨ Capped a) : Bounded A pipeSize mem := by
  intro acts s tr hacts hr
  have hN := u64OfInt_lt pipeSize.toInt
  have hinit : Positions (u64OfInt pipeSize.toInt) (initState pipeSize mem).pipe :=
    ⟨rfl, Nat.pos_of_ne_zero hpos, Nat.pos_of_ne_zero hpos⟩
  obtain ⟨⟨hp, -⟩, htr⟩ := driver.run_events A
    (fun s => Positions (u64OfInt pipeSize.toInt) s.pipe ∧
      UncutTasks (u64OfInt pipeSize.toInt) s.pc)
    (EventWithin (u64OfInt pipeSize.toInt))
    (fun s a s' es ha hi hs => by
      obtain ⟨hp', hes⟩ := trans_positions (trans_of_step hs) hN hi.1 hi.2
      exact ⟨⟨hp', trans_uncut (trans_of_step hs) hi.2 (hA a ha)⟩, hes⟩)
    hacts ⟨hinit, nofun⟩ hr
  refine ⟨?_, htr⟩
  rw [hp.room_eq hN]
  omega

/-- No `size_t` is above the size `2 ^ 64 - 1`. -/
theorem bounded_minus_one (hsize : pipeSize.toInt = -1) : Bounded A pipeSize mem := by
  intro acts s tr _ _
  have hN : u64OfInt pipeSize.toInt = 2 ^ 64 - 1 := by rw [hsize]; rfl
  have hasked : ∀ c : Copy, u64OfInt c.count ≤ u64OfInt pipeSize.toInt := fun c => by
    have hlt := u64OfInt_lt c.count
    omega
  refine ⟨?_, fun e _ => ?_⟩
  · rw [hN]
    unfold pipeRoom u64Sub
    split <;> omega
  · cases e with
    | copyTo c => exact hasked c
    | copyFrom c => exact hasked c
    | _ => trivial

/-- An empty ring has "room" for `2 ^ 64 - 1` bytes from the start. -/
theorem not_bounded_zero (hsize : pipeSize.toInt = 0) : ¬ Bounded A pipeSize mem := by
  intro h
  obtain ⟨hroom, -⟩ := h [] (initState pipeSize mem) [] nofun rfl
  have hall : pipeRoom (initState pipeSize mem).pipe =
      u64Sub (u64Add (u64Sub (u64OfInt pipeSize.toInt) 0) 0) 1 := if_pos (Nat.le_refl 0)
  rw [hall, hsize] at hroom
  exact absurd hroom (by decide)

/-- `2 ^ 32 - 1` bytes are asked for as `(int) -1`, that is as `2 ^ 64 - 1` bytes. -/
theorem pipeWriteCopy_cut (hlen : buf.length = 2 ^ 32 - 1) (hread : p.readPos = 0)
    (hwrite : p.writePos = 0) (hlo : 2 ^ 32 ≤ p.size) (hhi : p.size < 2 ^ 64) :
    ∃ r, pipeWriteCopy p buf ⟨1, 0⟩ = some r ∧ r.copies = [⟨p, -1⟩] := by
  have hroom : pipeRoom p = p.size - 1 := by
    unfold pipeRoom
    rw [hread, hwrite, if_pos (Nat.le_refl 0), u64Sub_of_le (a := p.size) (Nat.zero_le _) hhi,
      u64Add_of_lt (by omega), u64Sub_of_le (by omega) (by omega)]
    omega
  have hwork : min (pipeRoom p) buf.length = 2 ^ 32 - 1 := by omega
  have hchunk : min (2 ^ 32 - 1) (u64Sub p.size p.writePos) = 2 ^ 32 - 1 := by
    rw [hwrite, u64Sub_of_le (Nat.zero_le _) hhi]
    omega
  have hint : intOfU64 (2 ^ 32 - 1) = -1 := by decide
  have hcopy : pipeCopyFromUser p (-1) buf 1 =
      some ({ p with data := copyFromUser p.data p.writePos buf (2 ^ 64 - 1) 1 }, buf, 1) := by
    unfold pipeCopyFromUser
    rfl
  unfold pipeWriteCopy
  rw [if_pos (by omega)]
  simp only [hwork, hchunk, hint, hcopy, Option.bind_eq_bind, Option.bind_some]
  exact ⟨_, rfl, rfl⟩

/-- The only file of the device is opened for writing, and a write is at its critical section. -/
theorem open_and_write (pipeSize : Int32) (mem : Nat → UInt8) (buf : List UInt8) : ∃ s tr,
    driver.run (initState pipeSize mem) [.call 0 (.open .wrOnly), .lock 0, .critical 0 noFaults,
      .call 0 (.io (.write ⟨0, .wrOnly⟩ buf)), .lock 0] = some (s, tr) ∧
    s.pc 0 = .locked (.io (.write ⟨0, .wrOnly⟩ buf)) ∧
    s.pipe = { pipeCtor pipeSize mem with writers := 0 + 1 } :=
  ⟨_, _, rfl, rfl, rfl⟩

theorem not_bounded_of_le (hsize : pipeSize.toInt ≤ -2) :
    ¬ Bounded (fun _ => True) pipeSize mem := by
  have hlo := pipeSize.le_toInt
  have hN : u64OfInt pipeSize.toInt < 2 ^ 64 - 1 ∧ 2 ^ 32 ≤ u64OfInt pipeSize.toInt := by
    unfold u64OfInt
    omega
  obtain ⟨buf, hlen⟩ : ∃ buf : List UInt8, buf.length = 2 ^ 32 - 1 :=
    ⟨List.replicate (2 ^ 32 - 1) 0, List.length_replicate⟩
  obtain ⟨s, tr, hr, hpc, hpipe⟩ := open_and_write pipeSize mem buf
  have hread : s.pipe.readPos = 0 := by rw [hpipe]; rfl
  have hwrite : s.pipe.writePos = 0 := by rw [hpipe]; rfl
  have hs : s.pipe.size = u64OfInt pipeSize.toInt := by rw [hpipe]; rfl
  obtain ⟨r, hcopy, hcopies⟩ := pipeWriteCopy_cut hlen hread hwrite (by omega) (by omega)
  have hroom : pipeRoom s.pipe ≠ 0 := by
    rw [(⟨hs, by omega, by omega⟩ : Positions _ s.pipe).room_eq (by omega), hread, hwrite, fill_self]
    omega
  have hstep : driver.step s (.critical 0 ⟨1, 0⟩) =
      some (transferEnd s 0 (.write ⟨0, .wrOnly⟩ buf) r (r.copies.map .copyFrom)
        (.accepted 0 buf (pipeRoom s.pipe) r.ret)) := by
    simp only [driver, step, hpc, pipeWrite, if_neg hroom, hcopy]
  intro h
  obtain ⟨-, hevents⟩ := h _ _ _ (fun _ _ => trivial)
    ((driver.run_append_eq_some _ [.critical 0 ⟨1, 0⟩] _ _ _).mpr
      ⟨s, tr, _, hr, (driver.run_cons_eq_some _ _ _ _ _).mpr ⟨_, _, _, hstep, rfl, rfl⟩, rfl⟩)
  have hcut : Event.copyFrom ⟨s.pipe, -1⟩ ∈ (transferEnd s 0 (.write ⟨0, .wrOnly⟩ buf) r
      (r.copies.map .copyFrom) (.accepted 0 buf (pipeRoom s.pipe) r.ret)).2 := by
    unfold transferEnd
    rw [hcopies]
    split <;> exact List.mem_cons_self
  have hle : u64OfInt (-1) ≤ u64OfInt pipeSize.toInt :=
    hevents _ (List.mem_append_right _ (List.mem_append_left _ hcut))
  have hask : u64OfInt (-1) = 2 ^ 64 - 1 := rfl
  omega

/-! ## The class -/

/-- The count of a system call. -/
def asked : CircularPipe.Event → Nat
  | .read count _ | .write count _ => count

/-- The bounds, over all calls of `push` and `pull`. -/
def CallsBounded (bufsize : UInt32) (mem : Nat → UInt8) : Prop :=
  ∀ ops p tr, CircularPipe.calls.run (CircularPipe.ctor bufsize.toNat mem) ops = some (p, tr) →
    p.room ≤ bufsize.toNat ∧ ∀ e ∈ tr, asked e ≤ bufsize.toNat

theorem step_asked {q q' : CircularPipe} {o : CircularPipe.Op} {es : List CircularPipe.Event}
    (wf : CircularPipe.Wf q) (h : CircularPipe.calls.step q o = some (q', es)) :
    ∀ e ∈ es, asked e ≤ q.size := by
  have hroom := CircularPipe.data_add_room wf
  cases o with
  | push bs =>
    obtain ⟨-, hle, -⟩ := CircularPipe.pushCount_spec wf
    simp only [CircularPipe.calls] at h
    obtain ⟨_, -, rfl⟩ := guard_result_inj h
    rw [List.forall_mem_singleton]
    show q.pushCount ≤ q.size
    omega
  | pull n =>
    obtain ⟨-, hle, -⟩ := CircularPipe.pullCount_spec wf
    simp only [CircularPipe.calls] at h
    obtain ⟨_, -, rfl⟩ := guard_result_inj h
    rw [List.forall_mem_singleton]
    show q.pullCount ≤ q.size
    omega

theorem callsBounded_iff (bufsize : UInt32) (mem : Nat → UInt8) :
    CallsBounded bufsize mem ↔ bufsize ≠ 0 := by
  constructor
  · rintro h rfl
    obtain ⟨hroom, -⟩ := h [] (CircularPipe.ctor 0 mem) [] rfl
    have hall : (CircularPipe.ctor 0 mem).room = u64Sub (u64Add (u64Sub 0 0) 0) 1 :=
      if_pos (Nat.le_refl 0)
    rw [hall] at hroom
    exact absurd hroom (by decide)
  · intro hne ops p tr hr
    have hpos : 1 ≤ bufsize.toNat := Nat.pos_of_ne_zero fun h => hne (UInt32.toNat_inj.mp h)
    have hlt : bufsize.toNat < 2 ^ 64 := Nat.lt_trans bufsize.toNat_lt (by decide)
    obtain ⟨⟨wf, hsize⟩, htr⟩ := CircularPipe.calls.run_events (fun _ => True)
      (fun q => CircularPipe.Wf q ∧ q.size = bufsize.toNat) (fun e => asked e ≤ bufsize.toNat)
      (fun q o q' es _ hi hs => by
        obtain ⟨⟨wf', hsize'⟩, -⟩ := CircularPipe.step_simulates hi.1 hs
        exact ⟨⟨wf', hsize'.trans hi.2⟩, hi.2 ▸ step_asked hi.1 hs⟩)
      (fun _ _ => trivial) ⟨CircularPipe.wf_ctor mem hpos hlt, rfl⟩ hr
    have hroom := CircularPipe.data_add_room wf
    exact ⟨by omega, htr⟩

/-! ## The sizes -/

/-- Both rings need a size that is not 0. With calls for more than 2^31 bytes, which the kernel
passes to no driver, a negative `pipe_size` other than -1 is not good either. -/
theorem ring_sizes_iff (pipeSize : Int32) (bufsize : UInt32) (mem mem' : Nat → UInt8) :
    (Bounded (fun _ => True) pipeSize mem ∧ CallsBounded bufsize mem' ↔
      (1 ≤ pipeSize.toInt ∨ pipeSize.toInt = -1) ∧ bufsize ≠ 0) ∧
    (Bounded Capped pipeSize mem ∧ CallsBounded bufsize mem' ↔
      pipeSize.toInt ≠ 0 ∧ bufsize ≠ 0) := by
  have hlo := pipeSize.le_toInt
  have hhi := pipeSize.toInt_lt
  rw [callsBounded_iff]
  refine ⟨and_congr_left fun _ => ⟨fun h => ?_, ?_⟩, and_congr_left fun _ => ⟨fun h => ?_, ?_⟩⟩
  · have hzero : pipeSize.toInt ≠ 0 := fun hsize => not_bounded_zero hsize h
    have hle : ¬ pipeSize.toInt ≤ -2 := fun hsize => not_bounded_of_le hsize h
    omega
  · rintro (hpos | hminus)
    · have hN : u64OfInt pipeSize.toInt ≠ 0 ∧ u64OfInt pipeSize.toInt ≤ 2 ^ 31 := by
        unfold u64OfInt
        omega
      exact bounded_of_uncut hN.1 fun _ _ => Or.inl hN.2
    · exact bounded_minus_one hminus
  · exact fun hsize => not_bounded_zero hsize h
  · intro hne
    have hN : u64OfInt pipeSize.toInt ≠ 0 := by
      unfold u64OfInt
      omega
    exact bounded_of_uncut hN fun _ ha => Or.inr ha

/-- The size 0, which both programs accept. -/
theorem ring_size_zero :
    ¬ Bounded Capped 0 (fun _ => 0) ∧ ¬ CallsBounded 0 (fun _ => 0) ∧
      pipeRoom (initState 0 fun _ => 0).pipe = 2 ^ 64 - 1 ∧
      (CircularPipe.ctor 0 fun _ => 0).room = 2 ^ 64 - 1 := by
  refine ⟨not_bounded_zero rfl, fun h => ?_, by decide, by decide⟩
  exact (callsBounded_iff 0 _).mp h rfl

end DemosOsLinux.RingLimits
