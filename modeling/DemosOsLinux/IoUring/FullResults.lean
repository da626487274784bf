/-
  The io_uring copy while the kernel completes every request in full.

  Each object stands for a block of the file. Its request is prepared, submitted or completed; or it is
  freed. `outstanding` are the objects that are not freed.
  * `Books`: the counters of `copy_file` say what is outstanding, `write_left` counts the bytes whose
    read has not been seen.
  * `Objects`: a block that has been read is in its buffer, a block that has been written is in the
    output; the blocks cover the file up to `offset`.
  * `step_inv`: every step keeps this, when the kernel's results are full.
  Hence `Inv.faithful_iff`: no such run is stuck, and the only thing that can be wrong is that
  `copy_file` returns while writes are in flight.
-/
import DemosOsLinux.IoUring.Copy
import Mathlib.Algebra.Order.BigOperators.Group.List
import Mathlib.Algebra.Order.Group.Nat
import Mathlib.Data.List.Perm.Basic

namespace DemosOsLinux.IoUring

open Lib

variable {junk : Nat → Nat → UInt8} {input output : List UInt8} {s s' t : State} {i id : Nat}
  {d : IoData} {q : Request} {c : Cqe} {ids : List Nat} {data' : Nat → IoData}

@[simp] theorem put_data_self (s : State) (id : Nat) (d : IoData) : (s.put id d).data id = d := by
  simp only [State.put, Function.update_self]

theorem put_data_of_ne (s : State) {id' : Nat} (d : IoData) (h : id' ≠ id) :
    (s.put id d).data id' = s.data id' := by
  simp only [State.put, Function.update_of_ne h]

/-! ## The books -/

/-- The sum of `f` over the objects `ids`. -/
def tally (data : Nat → IoData) (f : IoData → Nat) (ids : List Nat) : Nat :=
  (ids.map fun id => f (data id)).sum

theorem tally_cons (data : Nat → IoData) (f : IoData → Nat) (id : Nat) (ids : List Nat) :
    tally data f (id :: ids) = f (data id) + tally data f ids := by
  rw [tally, List.map_cons, List.sum_cons, tally]

theorem tally_perm {ids' : List Nat} (data : Nat → IoData) (f : IoData → Nat)
    (h : ids.Perm ids') : tally data f ids = tally data f ids' :=
  (h.map fun id => f (data id)).sum_eq

/-- Objects that are not in the list do not count. -/
theorem tally_congr {data : Nat → IoData} {f : IoData → Nat}
    (h : ∀ id ∈ ids, f (data' id) = f (data id)) : tally data' f ids = tally data f ids := by
  rw [tally, tally, List.map_congr_left h]

theorem le_tally (data : Nat → IoData) (f : IoData → Nat) (h : id ∈ ids) :
    f (data id) ≤ tally data f ids :=
  List.le_sum_of_mem (List.mem_map_of_mem h)

def isRead (d : IoData) : Nat := if d.read = true then 1 else 0

def isWrite (d : IoData) : Nat := if d.read = true then 0 else 1

/-- The bytes of a block whose read has not been seen. -/
def unread (d : IoData) : Nat := if d.read = true then d.firstLen else 0

theorem tally_isRead_add_isWrite (data : Nat → IoData) (ids : List Nat) :
    tally data isRead ids + tally data isWrite ids = ids.length := by
  induction ids with
  | nil => rfl
  | cons id ids ih =>
    have hone : isRead (data id) + isWrite (data id) = 1 := by
      unfold isRead isWrite
      split <;> rfl
    rw [tally_cons, tally_cons, List.length_cons]
    omega

def outstanding (s : State) : List Nat :=
  (requests s).map (·.data) ++ s.cq.map (·.data)

theorem mem_outstanding_of_request (h : q ∈ requests s) : q.data ∈ outstanding s :=
  List.mem_append_left _ (List.mem_map_of_mem h)

theorem mem_outstanding_of_cqe (h : c ∈ s.cq) : c.data ∈ outstanding s :=
  List.mem_append_right _ (List.mem_map_of_mem h)

structure Books (s : State) (ids : List Nat) : Prop where
  nodup : ids.Nodup
  known : ∀ id ∈ ids, id < s.next
  reads : s.reads = tally s.data isRead ids
  writes : s.writes = tally s.data isWrite ids
  room : s.reads + s.writes ≤ qd
  left : s.writeLeft = (s.insize + tally s.data unread ids : Nat)

theorem Books.perm {ids' : List Nat} (h : Books s ids) (hp : ids.Perm ids') : Books s ids' where
  nodup := hp.nodup_iff.mp h.nodup
  known id hid := h.known id (hp.mem_iff.mpr hid)
  reads := h.reads.trans (tally_perm _ _ hp)
  writes := h.writes.trans (tally_perm _ _ hp)
  room := h.room
  left := by rw [h.left, tally_perm _ _ hp]

theorem Books.length (h : Books s ids) : ids.length = s.reads + s.writes := by
  rw [← tally_isRead_add_isWrite s.data ids, h.reads, h.writes]

/-- The same block, at the same stage. -/
structure SameBlock (d d' : IoData) : Prop where
  read : d'.read = d.read
  firstOffset : d'.firstOffset = d.firstOffset
  firstLen : d'.firstLen = d.firstLen

/-- What the buffers and the output hold is not in the books. -/
theorem Books.congr (h : Books s ids) (output' : List UInt8)
    (hsame : ∀ id, SameBlock (s.data id) (data' id)) :
    Books { s with data := data', output := output' } ids := by
  have htally : ∀ f : IoData → Nat, (∀ id, f (data' id) = f (s.data id)) →
      tally s.data f ids = tally data' f ids :=
    fun f hf => (tally_congr fun id _ => hf id).symm
  refine ⟨h.nodup, h.known, ?_, ?_, h.room, ?_⟩
  · rw [h.reads]
    exact htally isRead fun id => by rw [isRead, isRead, (hsame id).read]
  · rw [h.writes]
    exact htally isWrite fun id => by rw [isWrite, isWrite, (hsame id).read]
  · rw [h.left]
    congr 2
    exact htally unread fun id => by rw [unread, unread, (hsame id).read, (hsame id).firstLen]

/-! ## The objects -/

/-- An object whose request, if it has one, is for the whole block; the file has been divided up to
    `limit`. -/
structure Shape (limit : Nat) (d : IoData) : Prop where
  offset : d.offset = d.firstOffset
  base : d.base = 0
  len : d.len = d.firstLen
  pos : 0 < d.firstLen
  le : d.firstOffset + d.firstLen ≤ limit
  buffer : d.buffer.length = d.firstLen

theorem Shape.mono {m n : Nat} (h : Shape m d) (hmn : m ≤ n) : Shape n d :=
  { h with le := h.le.trans hmn }

/-- The block that `d` stands for. -/
def block (input : List UInt8) (d : IoData) : List UInt8 := slice input d.firstOffset d.firstLen

def Fetched (input : List UInt8) (d : IoData) : Prop := d.buffer = block input d

def Copied (input output : List UInt8) (d : IoData) : Prop :=
  Stored input output d.firstOffset d.firstLen

structure RequestOk (input : List UInt8) (d : IoData) (q : Request) : Prop where
  read : q.read = d.read
  offset : q.offset = d.firstOffset
  fetched : d.read = false → Fetched input d

structure CqeOk (input output : List UInt8) (d : IoData) (c : Cqe) : Prop where
  res : c.res = d.firstLen
  fetched : d.read = true → Fetched input d
  copied : d.read = false → Copied input output d

structure Objects (input : List UInt8) (s : State) : Prop where
  split : s.insize + s.offset = input.length
  shape : ∀ id, id < s.next → Shape s.offset (s.data id)
  cover : ∀ j, j < s.offset → ∃ id, id < s.next ∧ (s.data id).firstOffset ≤ j ∧
    j < (s.data id).firstOffset + (s.data id).firstLen
  request : ∀ q ∈ requests s, RequestOk input (s.data q.data) q
  cqe : ∀ c ∈ s.cq, CqeOk input s.output (s.data c.data) c
  freed : ∀ id, id < s.next → id ∉ outstanding s → Copied input s.output (s.data id)
  size : s.output.length ≤ input.length

structure Core (input : List UInt8) (s : State) : Prop where
  books : Books s (outstanding s)
  objects : Objects input s

/-- The invariants say nothing about the program counter. -/
theorem Core.pc (h : Core input s) (pc : Pc) : Core input { s with pc := pc } :=
  ⟨⟨h.books.nodup, h.books.known, h.books.reads, h.books.writes, h.books.room, h.books.left⟩,
    ⟨h.objects.split, h.objects.shape, h.objects.cover, h.objects.request, h.objects.cqe,
      h.objects.freed, h.objects.size⟩⟩

theorem core_init (input : List UInt8) : Core input (initState input) :=
  ⟨⟨List.nodup_nil, nofun, rfl, rfl, Nat.zero_le _, rfl⟩,
    ⟨rfl, nofun, nofun, nofun, nofun, nofun, Nat.zero_le _⟩⟩

/-- A result that has been posted is that of the whole request. -/
theorem Core.res_eq (h : Core input s) (hc : c ∈ s.cq) : c.res = (s.data c.data).len := by
  have hd := h.objects.shape _ (h.books.known _ (mem_outstanding_of_cqe hc))
  rw [(h.objects.cqe c hc).res, hd.len]

theorem Objects.shape_input (h : Objects input s) (hid : id < s.next) :
    Shape input.length (s.data id) :=
  (h.shape id hid).mono (by have := h.split; omega)

/-! ## The kernel completes a request -/

/-- What is outstanding beside request `i`. -/
def others (s : State) (i : Nat) : List Nat :=
  (s.inflight.eraseIdx i ++ s.sq).map (·.data) ++ s.cq.map (·.data)

theorem outstanding_perm_others (hq : s.inflight[i]? = some q) :
    (outstanding s).Perm (q.data :: others s i) := by
  obtain ⟨hi, rfl⟩ := List.getElem?_eq_some_iff.mp hq
  have hperm := (List.getElem_cons_eraseIdx_perm hi).symm
  have hcons := ((hperm.append_right s.sq).map (·.data)).append_right (s.cq.map (·.data))
  simpa only [outstanding, requests, others, List.cons_append, List.map_cons] using hcons

theorem outstanding_post (s : State) (i : Nat) (c : Cqe) :
    (outstanding (post s i c)).Perm (c.data :: others s i) := by
  have happ : outstanding (post s i c) = others s i ++ [c.data] := by
    simp only [outstanding, requests, post, others, List.map_append, List.map_cons, List.map_nil,
      List.append_assoc]
  rw [happ]
  exact List.perm_append_singleton c.data (others s i)

theorem mem_requests_of_others (hq : q ∈ s.inflight.eraseIdx i ++ s.sq) :
    q ∈ requests s ∧ q.data ∈ others s i := by
  refine ⟨?_, List.mem_append_left _ (List.mem_map_of_mem hq)⟩
  rcases List.mem_append.mp hq with hmem | hmem
  · exact List.mem_append_left _ (List.mem_of_mem_eraseIdx hmem)
  · exact List.mem_append_right _ hmem

/-- Request `q` is completed: nothing else has changed than the buffer of its object and the output,
    and the output is still right where it was. -/
theorem Core.post {output' : List UInt8} (h : Core input s) (hq : s.inflight[i]? = some q)
    (hsame : ∀ id, SameBlock (s.data id) (data' id))
    (hother : ∀ id, id ≠ q.data → data' id = s.data id) (hshape : Shape s.offset (data' q.data))
    (hcopied : ∀ id, id < s.next → Copied input s.output (s.data id) →
      Copied input output' (s.data id)) (hsize : output'.length ≤ input.length) {res : Int}
    (hcqe : CqeOk input output' (data' q.data) ⟨q.data, res⟩) :
    Core input (post { s with data := data', output := output' } i ⟨q.data, res⟩) := by
  have hbefore := outstanding_perm_others hq
  have hperm : (outstanding s).Perm (outstanding (IoUring.post s i ⟨q.data, res⟩)) :=
    hbefore.trans (outstanding_post s i ⟨q.data, res⟩).symm
  have hne : ∀ id ∈ others s i, id ≠ q.data := by
    intro id hid heq
    exact (List.nodup_cons.mp (hbefore.nodup_iff.mp h.books.nodup)).1 (heq ▸ hid)
  refine ⟨?_, h.objects.split, ?_, ?_, ?_, ?_, ?_, hsize⟩
  · have hb := (h.books.perm hperm).congr output' hsame
    exact ⟨hb.nodup, hb.known, hb.reads, hb.writes, hb.room, hb.left⟩
  · intro id hid
    by_cases heq : id = q.data
    · rw [heq]
      exact hshape
    · have hs := h.objects.shape id hid
      rw [← hother id heq] at hs
      exact hs
  · intro j hj
    obtain ⟨id, hid, hle, hlt⟩ := h.objects.cover j hj
    rw [← (hsame id).firstOffset] at hle hlt
    rw [← (hsame id).firstLen] at hlt
    exact ⟨id, hid, hle, hlt⟩
  · intro q' hq'
    obtain ⟨hmem, hoth⟩ := mem_requests_of_others hq'
    have hok := h.objects.request q' hmem
    rw [← hother _ (hne _ hoth)] at hok
    exact hok
  · intro c' hc'
    rcases List.mem_append.mp hc' with hmem | hmem
    · have hok := h.objects.cqe c' hmem
      have hid := h.books.known _ (mem_outstanding_of_cqe hmem)
      have hok' : CqeOk input output' (s.data c'.data) c' :=
        ⟨hok.res, hok.fetched, fun hw => hcopied _ hid (hok.copied hw)⟩
      rw [← hother _ (hne _ (List.mem_append_right _ (List.mem_map_of_mem hmem)))] at hok'
      exact hok'
    · rw [List.mem_singleton.mp hmem]
      exact hcqe
  · intro id hid hfree
    have hfree' : id ∉ outstanding s := fun hmem => hfree (hperm.mem_iff.mp hmem)
    have hneq : id ≠ q.data := by
      rintro rfl
      exact hfree' (hbefore.mem_iff.mpr List.mem_cons_self)
    have hcop := hcopied id hid (h.objects.freed id hid hfree')
    rw [← hother id hneq] at hcop
    exact hcop

theorem overwrite_zero {buf xs : List UInt8} (h : xs.length = buf.length) :
    overwrite buf 0 xs = xs := by
  rw [overwrite, List.take_zero, List.nil_append, Nat.zero_add, h, List.drop_length,
    List.append_nil]

theorem Core.fetch (h : Core input s) (hq : s.inflight[i]? = some q)
    (hd : Shape s.offset (s.data q.data)) (hin : Shape input.length (s.data q.data))
    (hr : (s.data q.data).read = true) :
    Core input (IoUring.post
      (s.put q.data { s.data q.data with buffer := block input (s.data q.data) }) i
      ⟨q.data, (s.data q.data).firstLen⟩) := by
  refine h.post hq ?_ (fun id hid => put_data_of_ne s _ hid) ?_ (fun _ _ hc => hc) h.objects.size ?_
  · intro id
    by_cases hid : id = q.data
    · subst hid
      rw [put_data_self]
      exact ⟨rfl, rfl, rfl⟩
    · rw [put_data_of_ne s _ hid]
      exact ⟨rfl, rfl, rfl⟩
  · rw [put_data_self]
    exact ⟨hd.offset, hd.base, hd.len, hd.pos, hd.le, length_slice hin.le⟩
  · rw [put_data_self]
    exact ⟨rfl, fun _ => rfl, fun hw => absurd (hr.symm.trans hw) (by decide)⟩

theorem Core.store (h : Core input s) (hq : s.inflight[i]? = some q)
    (hd : Shape s.offset (s.data q.data)) (hin : Shape input.length (s.data q.data))
    (hr : (s.data q.data).read = false) :
    Core input (IoUring.post
      { s with output := pwrite 0 s.output (s.data q.data).firstOffset (block input (s.data q.data)) }
      i ⟨q.data, (s.data q.data).firstLen⟩) := by
  refine h.post hq (fun _ => ⟨rfl, rfl, rfl⟩) (fun _ _ => rfl) hd ?_ ?_ ?_
  · intro id hid hc
    exact hc.pwrite (h.objects.shape_input hid).le hin.le
  · rw [length_pwrite, block, length_slice hin.le]
    exact Nat.max_le.mpr ⟨h.objects.size, hin.le⟩
  · exact ⟨rfl, fun hw => absurd (hr.symm.trans hw) (by decide), fun _ => stored_pwrite hin.le⟩

theorem transfer_read (hok : RequestOk input (s.data q.data) q) (hd : Shape s.offset (s.data q.data))
    (hin : Shape input.length (s.data q.data)) (hr : (s.data q.data).read = true) :
    transfer input s q (s.data q.data).len =
      some (s.put q.data { s.data q.data with buffer := block input (s.data q.data) }) := by
  have hle : q.offset + (s.data q.data).len ≤ input.length := by
    rw [hok.offset, hd.len]
    exact hin.le
  have hbuf : overwrite (s.data q.data).buffer (s.data q.data).base
      (slice input q.offset (s.data q.data).len) = block input (s.data q.data) := by
    rw [hd.base, hok.offset, hd.len, overwrite_zero ((length_slice hin.le).trans hd.buffer.symm)]
    rfl
  rw [transfer, if_pos (hok.read.trans hr), if_pos hle, hbuf]

theorem transfer_write (hok : RequestOk input (s.data q.data) q)
    (hd : Shape s.offset (s.data q.data)) (hr : (s.data q.data).read = false) :
    transfer input s q (s.data q.data).len = some { s with
      output := pwrite 0 s.output (s.data q.data).firstOffset (block input (s.data q.data)) } := by
  have hbuf : slice (s.data q.data).buffer (s.data q.data).base (s.data q.data).len =
      block input (s.data q.data) := by
    rw [hd.base, hd.len, slice, List.drop_zero, ← hd.buffer, List.take_length]
    exact hok.fetched hr
  rw [transfer, hok.read, hr, if_neg Bool.false_ne_true, hbuf, hok.offset]

/-- What the program has in its variables. -/
def vars (s : State) : Pc × Nat × Int × Nat × Nat × List Request :=
  (s.pc, s.insize, s.writeLeft, s.reads, s.writes, s.sq)

/-- The kernel completes a request in full. -/
theorem core_complete (h : Core input s) (hs : complete input s i .full = some s') :
    Core input s' ∧ vars s' = vars s := by
  unfold complete at hs
  cases hq : s.inflight[i]? with
  | none =>
    rw [hq] at hs
    cases hs
  | some q =>
    have hmem : q ∈ requests s := List.mem_append_left _ (List.mem_of_getElem? hq)
    have hid := h.books.known _ (mem_outstanding_of_request hmem)
    have hok := h.objects.request q hmem
    have hd := h.objects.shape _ hid
    have hin := h.objects.shape_input hid
    simp only [hq] at hs
    cases hr : (s.data q.data).read with
    | true =>
      rw [transfer_read hok hd hin hr, hd.len] at hs
      obtain rfl := Option.some.inj hs
      exact ⟨h.fetch hq hd hin hr, rfl⟩
    | false =>
      rw [transfer_write hok hd hr, hd.len] at hs
      obtain rfl := Option.some.inj hs
      exact ⟨h.store hq hd hin hr, rfl⟩

/-! ## The program sees a completion -/

section Handle

variable {cs : List Cqe}

/-- What is outstanding beside the first completion. -/
def behind (s : State) (cs : List Cqe) : List Nat := (requests s).map (·.data) ++ cs.map (·.data)

theorem outstanding_perm_behind (hcq : s.cq = c :: cs) :
    (outstanding s).Perm (c.data :: behind s cs) := by
  rw [outstanding, hcq, List.map_cons]
  exact List.perm_middle

theorem Core.not_mem_behind (h : Core input s) (hcq : s.cq = c :: cs) : c.data ∉ behind s cs :=
  (List.nodup_cons.mp ((outstanding_perm_behind hcq).nodup_iff.mp h.books.nodup)).1

/-- The state after the completion `c` of a read. -/
def written (s : State) (c : Cqe) (cs : List Cqe) : State :=
  let d := s.data c.data
  { s.put c.data { d with read := false } with
    pc := .inner true
    inflight := s.inflight ++ [⟨c.data, false, d.firstOffset⟩]
    cq := cs
    writeLeft := s.writeLeft - d.firstLen
    reads := s.reads - 1
    writes := s.writes + 1 }

theorem handle_read (h : Core input s) (hsq : s.sq = []) (hcq : s.cq = c :: cs)
    (hr : (s.data c.data).read = true) : handle s c = written s c cs := by
  have hmem : c ∈ s.cq := hcq ▸ List.mem_cons_self
  have hd := h.objects.shape _ (h.books.known _ (mem_outstanding_of_cqe hmem))
  have hpos : 1 ≤ s.reads := by
    have hle := le_tally s.data isRead (mem_outstanding_of_cqe hmem)
    rw [isRead, if_pos hr, ← h.books.reads] at hle
    exact hle
  have hroom : s.reads + s.writes ≤ 2 := h.books.room
  have hreads : s.reads < 2 ^ 64 := by omega
  have hwrites : s.writes + 1 < 2 ^ 64 := by omega
  have hres := h.res_eq hmem
  have hd' : { s.data c.data with
      read := false, offset := (s.data c.data).firstOffset, base := 0,
      len := (s.data c.data).firstLen } = { s.data c.data with read := false } := by
    rw [← hd.offset, ← hd.base, ← hd.len]
  unfold handle
  rw [if_neg (by omega), if_neg (by omega), if_pos hr, queueWrite, hd', queuePrepped, if_pos]
  · simp only [Option.map_some, submit, cqeSeen, put_data_self]
    simp only [written, State.put, hsq, hcq, List.nil_append, List.tail_cons, hd.offset,
      u64Sub_of_le hpos hreads, u64Add_of_lt hwrites]
  · simp only [State.put, hsq, List.length_nil]
    decide

theorem outstanding_written (s : State) (c : Cqe) (cs : List Cqe) :
    (outstanding (written s c cs)).Perm (c.data :: behind s cs) := by
  have heq : outstanding (written s c cs) =
      s.inflight.map (·.data) ++ c.data :: (s.sq.map (·.data) ++ cs.map (·.data)) := by
    simp only [outstanding, requests, written, State.put, List.map_append, List.map_cons,
      List.append_assoc, List.cons_append, List.nil_append]
  rw [heq, behind, requests, List.map_append, List.append_assoc]
  exact List.perm_middle

/-- A read becomes a write. -/
theorem Books.written (h : Books s (c.data :: ids)) (hr : (s.data c.data).read = true)
    (cs : List Cqe) : Books (written s c cs) (c.data :: ids) := by
  have hnot := (List.nodup_cons.mp h.nodup).1
  have hrest : ∀ f, tally (IoUring.written s c cs).data f ids = tally s.data f ids := by
    intro f
    refine tally_congr fun id hid => ?_
    exact congrArg f (put_data_of_ne s _ fun heq => hnot (heq ▸ hid))
  have hself : (IoUring.written s c cs).data c.data = { s.data c.data with read := false } :=
    put_data_self s _ _
  have hreads := h.reads
  have hwrites := h.writes
  have hleft := h.left
  have hroom := h.room
  rw [tally_cons, isRead, if_pos hr] at hreads
  rw [tally_cons, isWrite, if_pos hr] at hwrites
  rw [tally_cons, unread, if_pos hr] at hleft
  refine ⟨h.nodup, h.known, ?_, ?_, ?_, ?_⟩
  · rw [tally_cons, hself, hrest, isRead, if_neg Bool.false_ne_true]
    show s.reads - 1 = _
    omega
  · rw [tally_cons, hself, hrest, isWrite, if_neg Bool.false_ne_true]
    show s.writes + 1 = _
    omega
  · show s.reads - 1 + (s.writes + 1) ≤ qd
    omega
  · rw [tally_cons, hself, hrest, unread, if_neg Bool.false_ne_true]
    show s.writeLeft - (s.data c.data).firstLen = ((s.insize + _ : Nat) : Int)
    omega

theorem core_written (h : Core input s) (hcq : s.cq = c :: cs)
    (hr : (s.data c.data).read = true) : Core input (written s c cs) := by
  have hbefore := outstanding_perm_behind hcq
  have hafter := outstanding_written s c cs
  have hmem : c ∈ s.cq := hcq ▸ List.mem_cons_self
  have hd := h.objects.shape _ (h.books.known _ (mem_outstanding_of_cqe hmem))
  have hok := h.objects.cqe c hmem
  have hself : (written s c cs).data c.data = { s.data c.data with read := false } :=
    put_data_self s _ _
  have hother : ∀ id, id ≠ c.data → (written s c cs).data id = s.data id :=
    fun id hid => put_data_of_ne s _ hid
  have hbehind : ∀ id ∈ behind s cs, id ≠ c.data := fun id hid heq =>
    h.not_mem_behind hcq (heq ▸ hid)
  refine ⟨((h.books.perm hbefore).written hr cs).perm hafter.symm, h.objects.split, ?_, ?_, ?_, ?_,
    ?_, h.objects.size⟩
  · intro id hid
    by_cases heq : id = c.data
    · rw [heq, hself]
      exact ⟨hd.offset, hd.base, hd.len, hd.pos, hd.le, hd.buffer⟩
    · rw [hother id heq]
      exact h.objects.shape id hid
  · intro j hj
    obtain ⟨id, hid, hle, hlt⟩ := h.objects.cover j hj
    refine ⟨id, hid, ?_⟩
    by_cases heq : id = c.data
    · subst heq
      rw [hself]
      exact ⟨hle, hlt⟩
    · rw [hother id heq]
      exact ⟨hle, hlt⟩
  · intro q hq
    have hcases : q ∈ requests s ∨ q = ⟨c.data, false, (s.data c.data).firstOffset⟩ := by
      simp only [requests, written, State.put, List.mem_append, List.mem_singleton] at hq ⊢
      tauto
    rcases hcases with hold | rfl
    · rw [hother _ (hbehind _ (List.mem_append_left _ (List.mem_map_of_mem hold)))]
      exact h.objects.request q hold
    · rw [hself]
      exact ⟨rfl, rfl, fun _ => hok.fetched hr⟩
  · intro c' hc'
    rw [hother _ (hbehind _ (List.mem_append_right _ (List.mem_map_of_mem hc')))]
    exact h.objects.cqe c' (hcq ▸ List.mem_cons_of_mem c hc')
  · intro id hid hfree
    have hfree' : id ∉ outstanding s := fun hm =>
      hfree (hafter.mem_iff.mpr (hbefore.mem_iff.mp hm))
    have hneq : id ≠ c.data := by
      rintro rfl
      exact hfree' (mem_outstanding_of_cqe hmem)
    rw [hother id hneq]
    exact h.objects.freed id hid hfree'

/-- The state after the completion of a write. -/
def freed (s : State) (cs : List Cqe) : State :=
  { s with pc := .inner true, cq := cs, writes := s.writes - 1 }

theorem handle_write (h : Core input s) (hcq : s.cq = c :: cs)
    (hr : (s.data c.data).read = false) : handle s c = freed s cs := by
  have hmem : c ∈ s.cq := hcq ▸ List.mem_cons_self
  have hpos : 1 ≤ s.writes := by
    have hle := le_tally s.data isWrite (mem_outstanding_of_cqe hmem)
    rw [isWrite, hr, if_neg Bool.false_ne_true, ← h.books.writes] at hle
    exact hle
  have hroom : s.reads + s.writes ≤ 2 := h.books.room
  have hres := h.res_eq hmem
  unfold handle
  rw [if_neg (by omega), if_neg (by omega), hr, if_neg Bool.false_ne_true,
    u64Sub_of_le hpos (by omega), cqeSeen, freed, hcq, List.tail_cons]

theorem core_freed (h : Core input s) (hcq : s.cq = c :: cs)
    (hr : (s.data c.data).read = false) : Core input (freed s cs) := by
  have hbefore := outstanding_perm_behind hcq
  have hmem : c ∈ s.cq := hcq ▸ List.mem_cons_self
  have hb := h.books.perm hbefore
  have hreads := hb.reads
  have hwrites := hb.writes
  have hleft := hb.left
  have hroom := hb.room
  rw [tally_cons, isRead, hr, if_neg Bool.false_ne_true] at hreads
  rw [tally_cons, isWrite, hr, if_neg Bool.false_ne_true] at hwrites
  rw [tally_cons, unread, hr, if_neg Bool.false_ne_true] at hleft
  refine ⟨⟨(List.nodup_cons.mp hb.nodup).2, ?_, ?_, ?_, ?_, ?_⟩, h.objects.split, h.objects.shape,
    h.objects.cover, h.objects.request, ?_, ?_, h.objects.size⟩
  · intro id hid
    exact hb.known id (List.mem_cons_of_mem _ hid)
  · show s.reads = tally s.data isRead (behind s cs)
    omega
  · show s.writes - 1 = tally s.data isWrite (behind s cs)
    omega
  · show s.reads + (s.writes - 1) ≤ qd
    omega
  · show s.writeLeft = ((s.insize + tally s.data unread (behind s cs) : Nat) : Int)
    omega
  · intro c' hc'
    exact h.objects.cqe c' (hcq ▸ List.mem_cons_of_mem c hc')
  · intro id hid hfree
    by_cases heq : id = c.data
    · rw [heq]
      exact (h.objects.cqe c hmem).copied hr
    · refine h.objects.freed id hid fun hm => ?_
      rcases List.mem_cons.mp (hbefore.mem_iff.mp hm) with hid' | hid'
      · exact heq hid'
      · exact hfree hid'

/-- The program sees a completion: a block is to be written, or it is done with. -/
theorem core_handle (h : Core input s) (hsq : s.sq = []) (hcq : s.cq = c :: cs) :
    Core input (handle s c) ∧ (handle s c).sq = [] ∧ (handle s c).pc = .inner true := by
  cases hr : (s.data c.data).read with
  | true =>
    rw [handle_read h hsq hcq hr]
    exact ⟨core_written h hcq hr, hsq, rfl⟩
  | false =>
    rw [handle_write h hcq hr]
    exact ⟨core_freed h hcq hr, hsq, rfl⟩

end Handle

/-! ## The program queues reads -/

/-- The state after one more read is queued. -/
def queued (junk : Nat → Nat → UInt8) (s : State) : State :=
  let size := min s.insize bs
  let d : IoData :=
    ⟨true, s.offset, s.offset, size, 0, size, (List.range size).map (junk s.next)⟩
  { s.put s.next d with
    next := s.next + 1
    sq := s.sq ++ [⟨s.next, true, s.offset⟩]
    insize := s.insize - size
    offset := s.offset + size
    reads := s.reads + 1 }

theorem Core.sq_length (h : Core input s) : s.sq.length ≤ s.reads + s.writes := by
  rw [← h.books.length]
  simp only [outstanding, requests, List.map_append, List.length_append, List.length_map]
  omega

theorem queueReads_succ (h : Core input s) (hroom : s.reads + s.writes < qd) (hin : s.insize ≠ 0)
    (n : Nat) : queueReads junk (n + 1) s = queueReads junk n (queued junk s) := by
  have hlen : s.sq.length < qd := Nat.lt_of_le_of_lt h.sq_length hroom
  have hreads : s.reads + 1 < 2 ^ 64 := by
    rw [qd] at hroom
    omega
  simp only [queueReads, if_neg hin, queueRead, if_pos hlen, queued, State.put, u64Add_of_lt hreads]

theorem outstanding_queued (junk : Nat → Nat → UInt8) (s : State) :
    (outstanding (queued junk s)).Perm (s.next :: outstanding s) := by
  have heq : outstanding (queued junk s) =
      (requests s).map (·.data) ++ s.next :: s.cq.map (·.data) := by
    simp only [outstanding, requests, queued, State.put, List.map_append, List.map_cons,
      List.map_nil, List.append_assoc, List.singleton_append]
  rw [heq, outstanding]
  exact List.perm_middle

theorem queued_data_self (junk : Nat → Nat → UInt8) (s : State) :
    (queued junk s).data s.next = ⟨true, s.offset, s.offset, min s.insize bs, 0, min s.insize bs,
      (List.range (min s.insize bs)).map (junk s.next)⟩ := put_data_self s _ _

theorem queued_data_of_lt (junk : Nat → Nat → UInt8) (s : State) (hid : id < s.next) :
    (queued junk s).data id = s.data id := put_data_of_ne s _ (Nat.ne_of_lt hid)

/-- One more read, of bytes that nothing was queued for. -/
theorem Books.queued (h : Books s ids) (hroom : s.reads + s.writes < qd)
    (junk : Nat → Nat → UInt8) : Books (queued junk s) (s.next :: ids) := by
  have hrest : ∀ f, tally (IoUring.queued junk s).data f ids = tally s.data f ids := fun f =>
    tally_congr fun id hid => congrArg f (queued_data_of_lt junk s (h.known id hid))
  refine ⟨?_, ?_, ?_, ?_, ?_, ?_⟩
  · exact List.nodup_cons.mpr ⟨fun hm => Nat.lt_irrefl _ (h.known _ hm), h.nodup⟩
  · intro id hid
    rcases List.mem_cons.mp hid with rfl | hid
    · exact Nat.lt_succ_self _
    · exact Nat.lt_succ_of_lt (h.known id hid)
  · rw [tally_cons, queued_data_self, hrest, ← h.reads]
    exact Nat.add_comm _ _
  · rw [tally_cons, queued_data_self, hrest, ← h.writes]
    exact (Nat.zero_add _).symm
  · show s.reads + 1 + s.writes ≤ qd
    omega
  · rw [tally_cons, queued_data_self, hrest]
    have hleft := h.left
    show s.writeLeft = ((s.insize - min s.insize bs + (min s.insize bs + _) : Nat) : Int)
    omega

theorem core_queued (h : Core input s) (hroom : s.reads + s.writes < qd) (hin : s.insize ≠ 0) :
    Core input (queued junk s) := by
  have hperm := outstanding_queued junk s
  have hself := queued_data_self junk s
  have hother : ∀ id, id < s.next → (queued junk s).data id = s.data id :=
    fun _ hid => queued_data_of_lt junk s hid
  have hsize : 0 < min s.insize bs := by
    rw [bs]
    omega
  have hsplit := h.objects.split
  refine ⟨(h.books.queued hroom junk).perm hperm.symm, ?_, ?_, ?_, ?_, ?_, ?_, h.objects.size⟩
  · show s.insize - min s.insize bs + (s.offset + min s.insize bs) = input.length
    omega
  · intro id hid
    show Shape (s.offset + min s.insize bs) _
    rcases Nat.lt_succ_iff_lt_or_eq.mp hid with hid | rfl
    · rw [hother id hid]
      exact (h.objects.shape id hid).mono (Nat.le_add_right _ _)
    · rw [hself]
      exact ⟨rfl, rfl, rfl, hsize, Nat.le_refl _, by simp only [List.length_map, List.length_range]⟩
  · intro j hj
    by_cases hlt : j < s.offset
    · obtain ⟨id, hid, hcov⟩ := h.objects.cover j hlt
      rw [← hother id hid] at hcov
      exact ⟨id, Nat.lt_succ_of_lt hid, hcov⟩
    · refine ⟨s.next, Nat.lt_succ_self _, ?_⟩
      rw [hself]
      exact ⟨Nat.le_of_not_lt hlt, hj⟩
  · intro q hq
    have hcases : q ∈ requests s ∨ q = ⟨s.next, true, s.offset⟩ := by
      simp only [requests, queued, State.put, List.mem_append, List.mem_singleton] at hq ⊢
      tauto
    rcases hcases with hold | rfl
    · rw [hother _ (h.books.known _ (mem_outstanding_of_request hold))]
      exact h.objects.request q hold
    · rw [hself]
      exact ⟨rfl, rfl, fun hw => absurd hw.symm Bool.false_ne_true⟩
  · intro c hc
    rw [hother _ (h.books.known _ (mem_outstanding_of_cqe hc))]
    exact h.objects.cqe c hc
  · intro id hid hfree
    rcases Nat.lt_succ_iff_lt_or_eq.mp hid with hid | rfl
    · rw [hother id hid]
      refine h.objects.freed id hid fun hm => hfree ?_
      exact hperm.mem_iff.mpr (List.mem_cons_of_mem _ hm)
    · exact absurd (hperm.mem_iff.mpr List.mem_cons_self) hfree

/-- No more reads can be queued. -/
def Queued (s : State) : Prop := s.insize = 0 ∨ qd ≤ s.reads + s.writes

theorem core_queueReads (n : Nat) (h : Core input s) (hn : n = qd - (s.reads + s.writes))
    (hs : s' = queueReads junk n s) :
    Core input s' ∧ Queued s' ∧ s.reads ≤ s'.reads ∧ (s'.reads = s.reads → s'.sq = s.sq) ∧
      s'.writeLeft = s.writeLeft ∧ s'.cq = s.cq := by
  induction n generalizing s with
  | zero =>
    subst hs
    exact ⟨h, Or.inr (by omega), Nat.le_refl _, fun _ => rfl, rfl, rfl⟩
  | succ n ih =>
    by_cases hin : s.insize = 0
    · rw [queueReads, if_pos hin] at hs
      subst hs
      exact ⟨h, Or.inl hin, Nat.le_refl _, fun _ => rfl, rfl, rfl⟩
    · have hroom : s.reads + s.writes < qd := by omega
      rw [queueReads_succ h hroom hin] at hs
      have hn' : n = qd - ((queued junk s).reads + (queued junk s).writes) := by
        show n = qd - (s.reads + 1 + s.writes)
        omega
      obtain ⟨hc, hq, hle, _, hleft, hcq⟩ := ih (core_queued h hroom hin) hn' hs
      have hlt : s.reads + 1 ≤ s'.reads := hle
      exact ⟨hc, hq, by omega, fun he => by omega, hleft, hcq⟩

theorem core_submit (h : Core input s) : Core input (submit s) := by
  have hreq : requests (submit s) = requests s := List.append_nil _
  have hout : outstanding (submit s) = outstanding s := by
    rw [outstanding, hreq]
    rfl
  refine ⟨?_, h.objects.split, h.objects.shape, h.objects.cover, ?_, h.objects.cqe, ?_,
    h.objects.size⟩
  · rw [hout]
    exact ⟨h.books.nodup, h.books.known, h.books.reads, h.books.writes, h.books.room, h.books.left⟩
  · rw [hreq]
    exact h.objects.request
  · rw [hout]
    exact h.objects.freed

/-- The outer loop, unless it is over: as many reads as possible are queued and submitted. -/
theorem core_outerLoop (h : Core input s) (hsq : s.sq = [])
    (hgo : ¬(s.insize = 0 ∧ s.writeLeft = 0)) (hs : s' = outerLoop junk s) :
    Core input s' ∧ s'.sq = [] ∧ s'.pc = .inner false ∧ Queued s' ∧
      s'.writeLeft = s.writeLeft ∧ s'.cq = s.cq := by
  rw [outerLoop, if_neg hgo] at hs
  dsimp only at hs
  generalize hread : queueReads junk (qd - (s.reads + s.writes)) s = s₁ at hs
  obtain ⟨hc, hq, _, hsame, hleft, hcq⟩ := core_queueReads _ h rfl hread.symm
  by_cases hreads : s₁.reads ≠ s.reads
  · rw [if_pos hreads] at hs
    subst hs
    exact ⟨(core_submit hc).pc _, rfl, rfl, hq, hleft, hcq⟩
  · -- no read was queued, so there is nothing to submit
    rw [if_neg hreads] at hs
    subst hs
    exact ⟨hc.pc _, (hsame (not_not.mp hreads)).trans hsq, rfl, hq, hleft, hcq⟩

/-! ## Runs -/

def PcOk (s : State) : Prop :=
  match s.pc with
  | .outer => True
  | .inner gotComp => gotComp = false → Queued s
  | .waiting => s.writeLeft ≠ 0 ∧ Queued s
  | .returned ret => ret = 0 ∧ s.insize = 0 ∧ s.writeLeft = 0
  | .aborted => False

structure Inv (input : List UInt8) (s : State) : Prop where
  core : Core input s
  sq : s.sq = []
  pc : PcOk s

theorem inv_init (input : List UInt8) : Inv input (initState input) :=
  ⟨core_init input, rfl, trivial⟩

theorem outerLoop_inv (h : Inv input s) : Inv input (outerLoop junk s) := by
  by_cases hend : s.insize = 0 ∧ s.writeLeft = 0
  · rw [outerLoop, if_pos hend]
    exact ⟨h.core.pc _, h.sq, rfl, hend⟩
  · obtain ⟨hc, hsq, hpc, hq, _⟩ := core_outerLoop h.core h.sq hend rfl
    refine ⟨hc, hsq, ?_⟩
    rw [PcOk, hpc]
    exact fun _ => hq

theorem handle_inv (h : Inv input s) {cs : List Cqe} (hcq : s.cq = c :: cs) :
    Inv input (handle s c) := by
  obtain ⟨hc, hsq, hpc⟩ := core_handle h.core h.sq hcq
  refine ⟨hc, hsq, ?_⟩
  rw [PcOk, hpc]
  exact fun hfalse => absurd hfalse.symm Bool.false_ne_true

theorem program_inv (h : Inv input s) (hs : program junk s = some s') : Inv input s' := by
  have hpc := h.pc
  unfold program at hs
  unfold PcOk at hpc
  cases hp : s.pc with
  | outer =>
    rw [hp] at hs
    obtain rfl := Option.some.inj hs
    exact outerLoop_inv h
  | inner gotComp =>
    simp only [hp] at hs hpc
    by_cases hleft : s.writeLeft = 0
    · rw [if_pos hleft] at hs
      obtain rfl := Option.some.inj hs
      exact ⟨h.core.pc _, h.sq, trivial⟩
    · rw [if_neg hleft] at hs
      by_cases hgot : gotComp = false
      · rw [if_pos hgot] at hs
        obtain rfl := Option.some.inj hs
        exact ⟨h.core.pc _, h.sq, hleft, hpc hgot⟩
      · rw [if_neg hgot] at hs
        split at hs
        · obtain rfl := Option.some.inj hs
          exact ⟨h.core.pc _, h.sq, trivial⟩
        · rename_i c cs hcq
          obtain rfl := Option.some.inj hs
          exact handle_inv h hcq
  | waiting =>
    simp only [hp] at hs
    cases hcq : s.cq with
    | nil =>
      rw [hcq] at hs
      cases hs
    | cons c cs =>
      rw [hcq] at hs
      obtain rfl := Option.some.inj hs
      exact handle_inv h hcq
  | returned ret =>
    rw [hp] at hs
    cases hs
  | aborted =>
    rw [hp] at hs
    cases hs

theorem complete_inv (h : Inv input s) (hs : complete input s i .full = some s') :
    Inv input s' := by
  obtain ⟨hc, hv⟩ := core_complete h.core hs
  simp only [vars, Prod.mk.injEq] at hv
  obtain ⟨hpc, hin, hleft, hreads, hwrites, hsq⟩ := hv
  refine ⟨hc, hsq.trans h.sq, ?_⟩
  have hok := h.pc
  rw [PcOk, Queued] at hok ⊢
  rw [hpc, hin, hleft, hreads, hwrites]
  exact hok

/-- The program moves, or the kernel completes a request in full. -/
def Act.Full : Act → Prop
  | .program => True
  | .complete _ r => r = .full

theorem step_inv {a : Act} {es : List Empty} (ha : a.Full) (h : Inv input s)
    (hs : (copyFile junk input).step s a = some (s', es)) : Inv input s' := by
  obtain ⟨hstep, _⟩ := Machine.quiet_step hs
  cases a with
  | program => exact program_inv h hstep
  | complete i r =>
    cases ha
    exact complete_inv h hstep

/-- While it waits, something is outstanding. -/
theorem Inv.not_stuck (h : Inv input s) : ¬Stuck s := by
  rintro ⟨hpc, hfly, hcq⟩
  have hok := h.pc
  rw [PcOk, hpc] at hok
  obtain ⟨hleft, hq⟩ := hok
  have hout : outstanding s = [] := by rw [outstanding, requests, hfly, h.sq, hcq]; rfl
  have hlen := h.core.books.length
  have hbooks := h.core.books.left
  rw [hout] at hlen hbooks
  rcases hq with hin | hfull
  · rw [hin] at hbooks
    exact hleft hbooks
  · rw [← hlen] at hfull
    exact absurd hfull (by decide)

/-- Once every byte has been read, what is outstanding is to be written. -/
theorem Inv.only_writes (h : Inv input s) (hleft : s.writeLeft = 0) (hid : id ∈ outstanding s) :
    (s.data id).read = false := by
  have hbooks := h.core.books.left
  have hle := le_tally s.data unread hid
  have hpos := (h.core.objects.shape id (h.core.books.known id hid)).pos
  cases hr : (s.data id).read with
  | false => rfl
  | true =>
    rw [unread, if_pos hr] at hle
    omega

/-- The copy is complete when everything has been read and nothing is in flight. -/
theorem Inv.output_eq (h : Inv input s) (hin : s.insize = 0) (hleft : s.writeLeft = 0)
    (hfly : s.inflight = []) : s.output = input := by
  have hsplit := h.core.objects.split
  have hcopied : ∀ id, id < s.next → Copied input s.output (s.data id) := by
    intro id hid
    by_cases hout : id ∈ outstanding s
    · have hcqe : id ∈ s.cq.map (·.data) := by
        simpa only [outstanding, requests, hfly, h.sq, List.append_nil, List.map_nil,
          List.nil_append] using hout
      obtain ⟨c, hc, rfl⟩ := List.mem_map.mp hcqe
      exact (h.core.objects.cqe c hc).copied (h.only_writes hleft hout)
    · exact h.core.objects.freed id hid hout
  refine eq_of_stored h.core.objects.size fun j hj => ?_
  obtain ⟨id, hid, hle, hlt⟩ := h.core.objects.cover j (by omega)
  exact hcopied id hid j hle hlt

/-- Full results only: the program is never stuck, so all that can be wrong is that it returns too
    early. -/
theorem Inv.faithful_iff (h : Inv input s) :
    Faithful input s ↔ (s.pc = .returned 0 → s.inflight = []) := by
  have hreturned : s.pc = .returned 0 → s.insize = 0 ∧ s.writeLeft = 0 := by
    intro hp
    have hpc := h.pc
    rw [PcOk, hp] at hpc
    exact hpc.2
  constructor
  · intro hf hp
    obtain ⟨⟨hreads, _⟩, _⟩ := hf.2 hp
    refine List.eq_nil_iff_forall_not_mem.mpr fun q hq => ?_
    -- a request in flight is a write by now, and none is left
    have hmem : q ∈ requests s := List.mem_append_left _ hq
    have hwrite := h.only_writes (hreturned hp).2 (mem_outstanding_of_request hmem)
    rw [← (h.core.objects.request q hmem).read, hreads q hmem] at hwrite
    exact Bool.false_ne_true hwrite.symm
  · intro hfly
    refine ⟨h.not_stuck, fun hp => ⟨⟨?_, fun c hc _ => h.core.res_eq hc⟩, ?_⟩⟩
    · rw [requests, hfly hp, h.sq]
      exact nofun
    · exact h.output_eq (hreturned hp).1 (hreturned hp).2 (hfly hp)

end DemosOsLinux.IoUring
