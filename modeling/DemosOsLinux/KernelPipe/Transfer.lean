/-
  The copying parts of `pipe_read` and `pipe_write` in closed form.

  On a well-formed pipe the two branches on the order of `read_pos` and `write_pos` are one
  split: a first chunk of at most what lies before the end of the buffer, then the rest from
  index 0. `readOutcome` and `writeOutcome` write that down without machine arithmetic, and
  `pipeReadCopy_eq`, `pipeWriteCopy_eq` prove that the translated code computes them; in
  particular it never meets a failed `BUG_ON`.

  A copy that faults leaves the positions where they are, but the code returns the number of
  bytes left uncopied as if it were a byte count. `fault_contract_iff` says exactly when such
  a call keeps the read/write contract.
-/
import DemosOsLinux.KernelPipe.Ring

namespace DemosOsLinux.KernelPipe

open Lib

/-! ## One user copy -/

variable {k work : Nat} {p : Pipe}

theorem wrap_eq_ringIdx {size pos : Nat} (h : pos + k ≤ size) :
    (if pos + k = size then 0 else pos + k) = ringIdx size pos k := by
  unfold ringIdx
  split <;> split <;> omega

theorem pipeCopyToUser_eq (wf : Wf p) (hk : p.readPos + k ≤ p.size) (res : Nat) :
    pipeCopyToUser p (intOfU64 k) res =
      some (if min res k = 0 then (advanceRead p k, slice p.data p.readPos k, 0)
        else (p, slice p.data p.readPos (k - min res k), ((min res k : Nat) : Int))) := by
  have hs := wf.sizeLt
  have hn : u64OfInt (intOfU64 k) = k := by
    rw [intOfU64_of_lt (by omega), u64OfInt_natCast (by omega)]
  have hr : intOfU64 (min res k) = ((min res k : Nat) : Int) := intOfU64_of_lt (by omega)
  unfold pipeCopyToUser
  simp only [hn, hr, copyToUser]
  by_cases h0 : min res k = 0
  · rw [if_pos h0, if_pos h0, u64Add_of_lt (by omega), if_neg (by omega),
      wrap_eq_ringIdx hk, h0]
    rfl
  · rw [if_neg h0, if_neg h0]

/-- What a copy of `k` bytes that leaves `left` of them uncopied puts at `write_pos`. -/
def filled (buf : List UInt8) (k left : Nat) : List UInt8 :=
  buf.take (k - left) ++ List.replicate left 0

theorem length_filled (buf : List UInt8) (k left : Nat) (hk : k ≤ buf.length)
    (hl : left ≤ k) : (filled buf k left).length = k := by
  simp only [filled, List.length_append, List.length_take, List.length_replicate]
  omega

theorem pipeCopyFromUser_eq (wf : Wf p) {buf : List UInt8} (hk : p.writePos + k ≤ p.size)
    (hb : k ≤ buf.length) (res : Nat) :
    pipeCopyFromUser p (intOfU64 k) buf res =
      some (if min res k = 0 then (advanceWrite p (buf.take k), buf.drop k, 0)
        else (scribble p (filled buf k (min res k)), buf, ((min res k : Nat) : Int))) := by
  have hs := wf.sizeLt
  have hn : u64OfInt (intOfU64 k) = k := by
    rw [intOfU64_of_lt (by omega), u64OfInt_natCast (by omega)]
  have hr : intOfU64 (min res k) = ((min res k : Nat) : Int) := intOfU64_of_lt (by omega)
  have hlen : (buf.take k).length = k := by
    rw [List.length_take]
    omega
  unfold pipeCopyFromUser
  simp only [hn, hr, copyFromUser]
  by_cases h0 : min res k = 0
  · rw [if_pos h0, if_pos (by omega), u64Add_of_lt (by omega), if_neg (by omega),
      wrap_eq_ringIdx hk, h0]
    simp only [advanceWrite, hlen, Nat.sub_zero, List.replicate_zero, List.append_nil]
    rfl
  · rw [if_neg h0, if_neg (by omega)]
    rfl

/-! ## Closed forms -/

/-- The first chunk of a transfer of `work` bytes at `pos`: up to the end of the buffer. -/
def headChunk (p : Pipe) (pos work : Nat) : Nat := min work (p.size - pos)

/-- `pipe_read` from "now data > 0" on, in closed form. -/
def readOutcome (p : Pipe) (count : Nat) (f : Faults) : Transfer :=
  let work := min (pipeData p) count
  let k := headChunk p p.readPos work
  let m := work - k
  let p₁ := advanceRead p k
  if min f.first k ≠ 0 then
    ⟨p, slice p.data p.readPos (k - min f.first k), (min f.first k : Nat), false, [⟨p, k⟩]⟩
  else if m = 0 then
    ⟨p₁, slice p.data p.readPos k, work, true, [⟨p, k⟩]⟩
  else if min f.second m ≠ 0 then
    ⟨p₁, slice p.data p.readPos k ++ slice p.data p₁.readPos (m - min f.second m),
      (min f.second m : Nat), false, [⟨p, k⟩, ⟨p₁, m⟩]⟩
  else
    ⟨advanceRead p₁ m, slice p.data p.readPos k ++ slice p.data p₁.readPos m, work, true,
      [⟨p, k⟩, ⟨p₁, m⟩]⟩

/-- `pipe_write` from "now room > 0" on, in closed form. -/
def writeOutcome (p : Pipe) (buf : List UInt8) (f : Faults) : Transfer :=
  let work := min (pipeRoom p) buf.length
  let k := headChunk p p.writePos work
  let m := work - k
  let p₁ := advanceWrite p (buf.take k)
  if min f.first k ≠ 0 then
    ⟨scribble p (filled buf k (min f.first k)), [], (min f.first k : Nat), false, [⟨p, k⟩]⟩
  else if m = 0 then
    ⟨p₁, [], work, true, [⟨p, k⟩]⟩
  else if min f.second m ≠ 0 then
    ⟨scribble p₁ (filled (buf.drop k) m (min f.second m)), [], (min f.second m : Nat), false,
      [⟨p, k⟩, ⟨p₁, m⟩]⟩
  else
    ⟨advanceWrite p₁ ((buf.drop k).take m), [], work, true, [⟨p, k⟩, ⟨p₁, m⟩]⟩

/-- The four ends of a transfer: `a` bytes of the first chunk are left, the second chunk has `m`
    bytes, `c` bytes of it are left. -/
theorem two_chunks {P : Transfer → Prop} {a m c : Nat} {t₁ t₂ t₃ t₄ : Transfer} (h₁ : a ≠ 0 → P t₁)
    (h₂ : a = 0 → m = 0 → P t₂) (h₃ : a = 0 → c ≠ 0 → P t₃) (h₄ : a = 0 → c = 0 → P t₄) :
    P (if a ≠ 0 then t₁ else if m = 0 then t₂ else if c ≠ 0 then t₃ else t₄) := by
  split
  · next ha => exact h₁ ha
  · next ha =>
    have ha : a = 0 := not_not.mp ha
    split
    · next hm => exact h₂ ha hm
    · split
      · next hc => exact h₃ ha hc
      · next hc => exact h₄ ha (not_not.mp hc)

/-- Both chunks of a transfer end within the buffer. -/
theorem chunks_fit (pos work : Nat) (hpos : pos < p.size) (hw : work ≤ p.size) :
    pos + headChunk p pos work ≤ p.size ∧ headChunk p pos work ≤ work ∧
      ringIdx p.size pos (headChunk p pos work) + (work - headChunk p pos work) ≤ p.size := by
  have hk : headChunk p pos work = min work (p.size - pos) := rfl
  refine ⟨by omega, by omega, ?_⟩
  unfold ringIdx
  by_cases h : pos + headChunk p pos work < p.size
  · rw [if_pos h]
    omega
  · rw [if_neg h]
    omega

/-- On a well-formed pipe the single-chunk branch is the first chunk of the split. -/
theorem readChunk_eq_work (wf : Wf p) (hw : work ≤ pipeData p) (h : p.readPos ≤ p.writePos) :
    headChunk p p.readPos work = work := by
  have h3 := wf.writeLt
  rw [pipeData_eq wf, fill, if_pos h] at hw
  unfold headChunk
  omega

theorem writeChunk_eq_work (wf : Wf p) (hw : work ≤ pipeRoom p) (h : ¬ p.readPos ≤ p.writePos) :
    headChunk p p.writePos work = work := by
  have h2 := wf.readLt
  rw [pipeRoom_eq wf, pipeData_eq wf, fill, if_neg h] at hw
  unfold headChunk
  omega

theorem pipeReadCopy_eq (wf : Wf p) (count : Nat) (f : Faults) :
    pipeReadCopy p count f = some (readOutcome p count f) := by
  have hs := wf.sizeLt
  have hd := pipeData_lt wf
  unfold pipeReadCopy readOutcome
  generalize hwork : min (pipeData p) count = work
  have hwd : work ≤ pipeData p := by omega
  obtain ⟨hk1, hk2, hk3⟩ := chunks_fit p.readPos work wf.readLt (by omega)
  -- every number converted here is at most `work`, so each conversion is exact
  obtain ⟨hint, hsz, hret⟩ := conversions_exact (show work < 2 ^ 31 by omega)
  have hzero : u64OfInt 0 = 0 := rfl
  by_cases hle : p.readPos ≤ p.writePos
  · have hfc := readChunk_eq_work wf hwd hle
    rw [hfc] at hk1
    simp only [hfc, if_pos hle, pipeCopyToUser_eq wf hk1, Option.bind_eq_bind, Option.bind_some,
      Nat.sub_self, if_true]
    generalize hl : min f.first work = left
    have hlw : left ≤ work := by omega
    by_cases h1 : left = 0
    · simp [h1, hret, hint, hzero]
    · simp [h1, hret, hint, hsz, hlw]
  · have hfc : min work (u64Sub p.size p.readPos) = headChunk p p.readPos work := by
      rw [u64Sub_of_le (by have := wf.readLt; omega) (by omega)]
      rfl
    simp only [if_neg hle, hfc, pipeCopyToUser_eq wf hk1, Option.bind_eq_bind, Option.bind_some]
    generalize hk : headChunk p p.readPos work = k at *
    generalize hl : min f.first k = left
    have hlw : left ≤ work := by omega
    by_cases h1 : left = 0
    · by_cases h2 : k < work
      · have hwf₁ : Wf (advanceRead p k) := wf_advanceRead wf (by omega)
        have hsub : u64Sub work k = work - k := u64Sub_of_le (by omega) (by omega)
        have hm : ¬ work - k = 0 := by omega
        simp only [if_pos h1, if_pos h2, hsub, pipeCopyToUser_eq hwf₁ hk3]
        generalize hl₂ : min f.second (work - k) = left₂
        have hlw₂ : left₂ ≤ work := by omega
        by_cases h3 : left₂ = 0
        · simp [h1, h3, hm, hret, hint, hzero, hk2]
          rfl
        · simp [h1, h3, hm, hret, hint, hsz, hzero, hk2, hlw₂]
          rfl
      · have hm : work - k = 0 := by omega
        simp [h1, h2, hm, hret, hint, hzero, hk2]
    · simp [h1, hret, hint, hsz, hk2, hlw]

theorem pipeWriteCopy_eq (wf : Wf p) (buf : List UInt8) (f : Faults) :
    pipeWriteCopy p buf f = some (writeOutcome p buf f) := by
  have hs := wf.sizeLt
  have hrd := pipeRoom_add_pipeData wf
  unfold pipeWriteCopy writeOutcome
  generalize hwork : min (pipeRoom p) buf.length = work
  have hwr : work ≤ pipeRoom p := by omega
  have hwb : work ≤ buf.length := by omega
  obtain ⟨hk1, hk2, hk3⟩ := chunks_fit p.writePos work wf.writeLt (by omega)
  obtain ⟨hint, hsz, hret⟩ := conversions_exact (show work < 2 ^ 31 by omega)
  have hzero : u64OfInt 0 = 0 := rfl
  by_cases hle : p.readPos ≤ p.writePos
  · have hfc : min work (u64Sub p.size p.writePos) = headChunk p p.writePos work := by
      rw [u64Sub_of_le (by have := wf.writeLt; omega) (by omega)]
      rfl
    have hb₁ : headChunk p p.writePos work ≤ buf.length := by omega
    simp only [if_pos hle, hfc, pipeCopyFromUser_eq wf hk1 hb₁, Option.bind_eq_bind,
      Option.bind_some]
    generalize hk : headChunk p p.writePos work = k at *
    generalize hl : min f.first k = left
    have hlw : left ≤ work := by omega
    by_cases h1 : left = 0
    · by_cases h2 : k < work
      · have hlen : (buf.take k).length = k := by
          rw [List.length_take]
          omega
        have hwf₁ : Wf (advanceWrite p (buf.take k)) := wf_advanceWrite wf (by omega)
        have hsub : u64Sub work k = work - k := u64Sub_of_le (by omega) (by omega)
        have hm : ¬ work - k = 0 := by omega
        have hk3' : (advanceWrite p (buf.take k)).writePos + (work - k) ≤
            (advanceWrite p (buf.take k)).size := by
          simp only [advanceWrite, hlen]
          exact hk3
        have hb : work - k ≤ (buf.drop k).length := by
          rw [List.length_drop]
          omega
        simp only [if_pos h1, if_pos h2, hsub, pipeCopyFromUser_eq hwf₁ hk3' hb]
        generalize hl₂ : min f.second (work - k) = left₂
        have hlw₂ : left₂ ≤ work := by omega
        by_cases h3 : left₂ = 0
        · simp [h1, h3, hm, hret, hint, hzero, hk2]
        · simp [h1, h3, hm, hret, hint, hsz, hzero, hk2, hlw₂]
      · have hm : work - k = 0 := by omega
        simp [h1, h2, hm, hret, hint, hzero, hk2]
    · simp [h1, hret, hint, hsz, hk2, hlw]
  · have hfc := writeChunk_eq_work wf hwr hle
    rw [hfc] at hk1
    simp only [hfc, if_neg hle, pipeCopyFromUser_eq wf hk1 hwb, Option.bind_eq_bind,
      Option.bind_some, Nat.sub_self, if_true]
    generalize hl : min f.first work = left
    have hlw : left ≤ work := by omega
    by_cases h1 : left = 0
    · simp [h1, hret, hint, hzero]
    · simp [h1, hret, hint, hsz, hlw]

/-! ## The ring after a transfer -/

/-- A chunk handed to `copy_to_user` lies inside the buffer. -/
def ReadCopyOk (c : Copy) : Prop :=
  0 ≤ c.count ∧ c.pipe.readPos + c.count ≤ c.pipe.size

/-- A chunk handed to `copy_from_user` lies inside the buffer and covers no stored byte. -/
def WriteCopyOk (c : Copy) : Prop :=
  0 ≤ c.count ∧ c.pipe.writePos + c.count ≤ c.pipe.size ∧
    ∀ j, StoredAt c.pipe j → ¬ (c.pipe.writePos ≤ j ∧ (j : Int) < c.pipe.writePos + c.count)

/-- The parts of the pipe a transfer does not touch. -/
def SameFrame (p q : Pipe) : Prop :=
  q.size = p.size ∧ q.readers = p.readers ∧ q.writers = p.writers

theorem readCopyOk_of (hk : p.readPos + k ≤ p.size) : ReadCopyOk ⟨p, k⟩ := by
  refine ⟨Int.natCast_nonneg k, ?_⟩
  show (p.readPos : Int) + (k : Int) ≤ p.size
  omega

theorem writeCopyOk_of (wf : Wf p) (hk : p.writePos + k ≤ p.size) (hroom : k ≤ pipeRoom p) :
    WriteCopyOk ⟨p, k⟩ := by
  have hd := pipeData_lt wf
  have hrd := pipeRoom_add_pipeData wf
  have hw := writePos_eq_ringIdx wf
  refine ⟨Int.natCast_nonneg k, ?_, ?_⟩
  · show (p.writePos : Int) + (k : Int) ≤ p.size
    omega
  · rintro j ⟨i, hi, rfl⟩ ⟨h1, h2⟩
    simp only at hi h1 h2
    have hle : pipeData p + k ≤ p.size := by omega
    have hout := ringIdx_outside (r := p.readPos) hle hi
    rw [← hw] at hout
    exact hout ⟨h1, by omega⟩

/-- Whatever the copies do, a read keeps the ring invariant and issues good chunks only. -/
theorem readOutcome_safe (wf : Wf p) (count : Nat) (f : Faults) :
    Wf (readOutcome p count f).pipe ∧ SameFrame p (readOutcome p count f).pipe ∧
      ∀ c ∈ (readOutcome p count f).copies, ReadCopyOk c := by
  have hd := pipeData_lt wf
  obtain ⟨work, hwork⟩ : ∃ work, min (pipeData p) count = work := ⟨_, rfl⟩
  obtain ⟨k, hk⟩ : ∃ k, headChunk p p.readPos work = k := ⟨_, rfl⟩
  obtain ⟨hk1, hk2, hk3⟩ := chunks_fit p.readPos work wf.readLt (by omega)
  rw [hk] at hk1 hk2 hk3
  have hc₁ : ReadCopyOk ⟨p, k⟩ := readCopyOk_of hk1
  have hwf₁ : Wf (advanceRead p k) := wf_advanceRead wf (by omega)
  have hd₁ : pipeData (advanceRead p k) = pipeData p - k := pipeData_advanceRead wf (by omega)
  have hc₂ : ReadCopyOk ⟨advanceRead p k, (work - k : Nat)⟩ := readCopyOk_of hk3
  unfold readOutcome
  simp only [hwork, hk]
  refine two_chunks (P := fun t => Wf t.pipe ∧ SameFrame p t.pipe ∧ ∀ c ∈ t.copies, ReadCopyOk c)
    (fun _ => ?_) (fun _ _ => ?_) (fun _ _ => ?_) (fun _ _ => ?_)
  · exact ⟨wf, ⟨rfl, rfl, rfl⟩, by simpa using hc₁⟩
  · exact ⟨hwf₁, ⟨rfl, rfl, rfl⟩, by simpa using hc₁⟩
  · exact ⟨hwf₁, ⟨rfl, rfl, rfl⟩, by simpa using ⟨hc₁, hc₂⟩⟩
  · exact ⟨wf_advanceRead hwf₁ (by omega), ⟨rfl, rfl, rfl⟩, by simpa using ⟨hc₁, hc₂⟩⟩

/-- The pipe between the two chunks of a write: well formed, with the first chunk stored and
    room for the second. -/
theorem afterFirstChunk (wf : Wf p) {buf : List UInt8} (hwork : min (pipeRoom p) buf.length = work)
    (hk : headChunk p p.writePos work = k) :
    Wf (advanceWrite p (buf.take k)) ∧ (buf.take k).length = k ∧ k ≤ work ∧
      p.writePos + k ≤ p.size ∧
      stored (advanceWrite p (buf.take k)) = stored p ++ buf.take k ∧
      work - k ≤ pipeRoom (advanceWrite p (buf.take k)) ∧
      (advanceWrite p (buf.take k)).writePos + (work - k) ≤ p.size := by
  have hrd := pipeRoom_add_pipeData wf
  obtain ⟨hk1, hk2, hk3⟩ := chunks_fit p.writePos work wf.writeLt (by omega)
  rw [hk] at hk1 hk2 hk3
  have hlen : (buf.take k).length = k := by
    rw [List.length_take]
    omega
  have hwf₁ : Wf (advanceWrite p (buf.take k)) := wf_advanceWrite wf (by omega)
  have hd₁ : pipeData (advanceWrite p (buf.take k)) = pipeData p + (buf.take k).length :=
    pipeData_advanceWrite wf (by omega) (by omega)
  have hrd₁ := pipeRoom_add_pipeData hwf₁
  have hsz₁ : (advanceWrite p (buf.take k)).size = p.size := rfl
  refine ⟨hwf₁, hlen, hk2, hk1, stored_advanceWrite wf (by omega) (by omega), by omega, ?_⟩
  simp only [advanceWrite, hlen]
  exact hk3

/-- Whatever the copies do, a write keeps the ring invariant and issues good chunks only. -/
theorem writeOutcome_safe (wf : Wf p) (buf : List UInt8) (f : Faults) :
    Wf (writeOutcome p buf f).pipe ∧ SameFrame p (writeOutcome p buf f).pipe ∧
      ∀ c ∈ (writeOutcome p buf f).copies, WriteCopyOk c := by
  obtain ⟨work, hwork⟩ : ∃ work, min (pipeRoom p) buf.length = work := ⟨_, rfl⟩
  obtain ⟨k, hk⟩ : ∃ k, headChunk p p.writePos work = k := ⟨_, rfl⟩
  obtain ⟨hwf₁, hlen, hkw, hkend, _, hroom₁, hend₁⟩ := afterFirstChunk wf hwork hk
  have hlen₂ : (buf.drop k).length = buf.length - k := List.length_drop
  have hc₁ : WriteCopyOk ⟨p, k⟩ := writeCopyOk_of wf hkend (by omega)
  have hc₂ : WriteCopyOk ⟨advanceWrite p (buf.take k), (work - k : Nat)⟩ :=
    writeCopyOk_of hwf₁ hend₁ hroom₁
  unfold writeOutcome
  simp only [hwork, hk]
  refine two_chunks (P := fun t => Wf t.pipe ∧ SameFrame p t.pipe ∧ ∀ c ∈ t.copies, WriteCopyOk c)
    (fun _ => ?_) (fun _ _ => ?_) (fun _ _ => ?_) (fun _ _ => ?_)
  · have hl := length_filled buf k (min f.first k) (by omega) (by omega)
    exact ⟨wf_scribble wf (by omega), ⟨rfl, rfl, rfl⟩, by simpa using hc₁⟩
  · exact ⟨hwf₁, ⟨rfl, rfl, rfl⟩, by simpa using hc₁⟩
  · have hl := length_filled (buf.drop k) (work - k) (min f.second (work - k)) (by omega)
      (by omega)
    refine ⟨wf_scribble hwf₁ ?_, ⟨rfl, rfl, rfl⟩, by simpa using ⟨hc₁, hc₂⟩⟩
    rw [hl]
    exact hend₁
  · refine ⟨wf_advanceWrite hwf₁ ?_, ⟨rfl, rfl, rfl⟩, by simpa using ⟨hc₁, hc₂⟩⟩
    rw [List.length_take, hlen₂, Nat.min_eq_left (by omega)]
    exact hend₁

/-! ## Transfers whose copies succeed -/

/-- A read whose copies succeed delivers the front of the queue and removes it. -/
theorem readOutcome_noFaults (wf : Wf p) (count : Nat) (hwork : min (pipeData p) count = work) :
    (readOutcome p count noFaults).finished = true ∧
      (readOutcome p count noFaults).ret = (work : Nat) ∧
      (readOutcome p count noFaults).bytes = (stored p).take work ∧
      stored (readOutcome p count noFaults).pipe = (stored p).drop work := by
  have hd := pipeData_lt wf
  obtain ⟨k, hk⟩ : ∃ k, headChunk p p.readPos work = k := ⟨_, rfl⟩
  obtain ⟨hk1, hk2, hk3⟩ := chunks_fit p.readPos work wf.readLt (by omega)
  rw [hk] at hk1 hk2 hk3
  have hwf₁ : Wf (advanceRead p k) := wf_advanceRead wf (by omega)
  have hd₁ : pipeData (advanceRead p k) = pipeData p - k := pipeData_advanceRead wf (by omega)
  have hst₁ : stored (advanceRead p k) = (stored p).drop k := stored_advanceRead wf (by omega)
  have hb₁ : slice p.data p.readPos k = (stored p).take k :=
    slice_eq_take_contents p.data p.readPos (pipeData p) k (by omega) (by rw [wf.dataLen]; omega)
  have hb₂ : slice p.data (advanceRead p k).readPos (work - k) =
      (stored (advanceRead p k)).take (work - k) :=
    slice_eq_take_contents p.data _ (pipeData (advanceRead p k)) _ (by omega)
      (by rw [wf.dataLen]; exact hk3)
  unfold readOutcome
  simp only [hwork, hk]
  refine two_chunks (P := fun t => t.finished = true ∧ t.ret = (work : Nat) ∧
      t.bytes = (stored p).take work ∧ stored t.pipe = (stored p).drop work)
    (fun h1 => absurd (Nat.zero_min k) h1) (fun _ hm => ?_)
    (fun _ h2 => absurd (Nat.zero_min (work - k)) h2) (fun _ _ => ⟨rfl, rfl, ?_, ?_⟩)
  · have hkw : k = work := by omega
    rw [hkw] at hb₁ hst₁ ⊢
    exact ⟨rfl, rfl, hb₁, hst₁⟩
  · rw [hb₁, hb₂, hst₁, ← List.take_add, Nat.add_sub_of_le hk2]
  · rw [stored_advanceRead hwf₁ (by omega), hst₁, List.drop_drop, Nat.add_sub_of_le hk2]

/-- A write whose copies succeed appends the first `min (room, count)` bytes. -/
theorem writeOutcome_noFaults (wf : Wf p) (buf : List UInt8)
    (hwork : min (pipeRoom p) buf.length = work) :
    (writeOutcome p buf noFaults).finished = true ∧
      (writeOutcome p buf noFaults).ret = (work : Nat) ∧
      stored (writeOutcome p buf noFaults).pipe = stored p ++ buf.take work := by
  obtain ⟨k, hk⟩ : ∃ k, headChunk p p.writePos work = k := ⟨_, rfl⟩
  obtain ⟨hwf₁, hlen, hkw, hkend, hst₁, hroom₁, hend₁⟩ := afterFirstChunk wf hwork hk
  have hlen₂ : ((buf.drop k).take (work - k)).length = work - k := by
    rw [List.length_take, List.length_drop]
    omega
  unfold writeOutcome
  simp only [hwork, hk]
  refine two_chunks (P := fun t => t.finished = true ∧ t.ret = (work : Nat) ∧
      stored t.pipe = stored p ++ buf.take work)
    (fun h1 => absurd (Nat.zero_min k) h1) (fun _ hm => ?_)
    (fun _ h2 => absurd (Nat.zero_min (work - k)) h2) (fun _ _ => ⟨rfl, rfl, ?_⟩)
  · have hkw : k = work := by omega
    rw [hkw] at hst₁ ⊢
    exact ⟨rfl, rfl, hst₁⟩
  · rw [stored_advanceWrite hwf₁ (by omega) (by rw [hlen₂]; exact hend₁), hst₁,
      List.append_assoc, ← List.take_add, Nat.add_sub_of_le hkw]

/-! ## Transfers that meet a fault -/

/-- One of the copies the call issues leaves bytes uncopied; `pos` and `work` are the position
    it moves and the bytes it wants to move. -/
def MeetsFault (p : Pipe) (pos work : Nat) (f : Faults) : Prop :=
  min f.first (headChunk p pos work) ≠ 0 ∨ min f.second (work - headChunk p pos work) ≠ 0

/-- The number of bytes by which the ring was advanced. -/
def advanced (p q : Pipe) : Nat :=
  fill p.size p.readPos q.readPos + fill p.size p.writePos q.writePos

/-- What a call that meets a fault owes its caller: a negative error code with the ring as it
    was, or exactly the number of bytes by which it advanced the ring. -/
def FaultContract (p : Pipe) (t : Transfer) : Prop :=
  (t.ret < 0 ∧ t.pipe.readPos = p.readPos ∧ t.pipe.writePos = p.writePos) ∨
    t.ret = advanced p t.pipe

instance (p : Pipe) (pos work : Nat) (f : Faults) : Decidable (MeetsFault p pos work f) :=
  inferInstanceAs (Decidable (_ ∨ _))

instance (p : Pipe) (t : Transfer) : Decidable (FaultContract p t) :=
  inferInstanceAs (Decidable (_ ∨ _))

/-- The first copy succeeds, and the second one leaves exactly as many bytes uncopied as the
    first chunk had. -/
def ResidueIsFirstChunk (p : Pipe) (pos work : Nat) (f : Faults) : Prop :=
  min f.first (headChunk p pos work) = 0 ∧
    min f.second (work - headChunk p pos work) = headChunk p pos work

instance (p : Pipe) (pos work : Nat) (f : Faults) :
    Decidable (ResidueIsFirstChunk p pos work f) :=
  inferInstanceAs (Decidable (_ ∧ _))

theorem advanced_advanceRead (wf : Wf p) (hk : k < p.size) : advanced p (advanceRead p k) = k := by
  unfold advanced
  simp only [advanceRead]
  rw [fill_unique wf.readLt hk rfl, fill_self]
  omega

theorem advanced_advanceWrite (wf : Wf p) {bs : List UInt8} (hk : bs.length < p.size) :
    advanced p (advanceWrite p bs) = bs.length := by
  unfold advanced
  simp only [advanceWrite]
  rw [fill_unique wf.writeLt hk rfl, fill_self]
  omega

/-- A call that returns a residue keeps the contract when it is what the ring was advanced. -/
theorem residue_contract {t : Transfer} {left : Nat} (hret : t.ret = left) :
    FaultContract p t ↔ left = advanced p t.pipe := by
  unfold FaultContract
  rw [hret]
  constructor
  · rintro (⟨hneg, _⟩ | h)
    · exact absurd hneg (Int.not_lt.mpr (Int.natCast_nonneg left))
    · exact Int.ofNat_inj.mp h
  · intro h
    exact Or.inr (congrArg Int.ofNat h)

/-- A transfer that meets a fault returns a residue: with nothing advanced, or the first chunk. -/
theorem faultContract_of_ends {pos : Nat} {f : Faults} {t₁ t₂ t₃ t₄ : Transfer}
    (hk : headChunk p pos work = k) (hf : MeetsFault p pos work f)
    (h₁ : t₁.ret = (min f.first k : Nat) ∧ advanced p t₁.pipe = 0)
    (h₃ : t₃.ret = (min f.second (work - k) : Nat) ∧ advanced p t₃.pipe = k) :
    FaultContract p (if min f.first k ≠ 0 then t₁ else if work - k = 0 then t₂
      else if min f.second (work - k) ≠ 0 then t₃ else t₄) ↔ ResidueIsFirstChunk p pos work f := by
  unfold MeetsFault at hf
  unfold ResidueIsFirstChunk
  rw [hk] at hf ⊢
  refine two_chunks (P := fun t => FaultContract p t ↔ _) (fun h1 => ?_) (fun h1 hm => ?_)
    (fun h1 _ => ?_) (fun h1 h2 => ?_)
  · -- nothing was advanced, and a positive number is returned
    rw [residue_contract h₁.1, h₁.2]
    exact ⟨fun h => absurd h h1, fun h => absurd h.1 h1⟩
  · simp [h1, hm] at hf
  · rw [residue_contract h₃.1, h₃.2]
    exact ⟨fun h => ⟨h1, h⟩, fun h => h.2⟩
  · simp [h1, h2] at hf

theorem readOutcome_fault (wf : Wf p) (count : Nat) (f : Faults)
    (hf : MeetsFault p p.readPos (min (pipeData p) count) f) :
    FaultContract p (readOutcome p count f) ↔
      ResidueIsFirstChunk p p.readPos (min (pipeData p) count) f := by
  have hd := pipeData_lt wf
  obtain ⟨work, hwork⟩ : ∃ work, min (pipeData p) count = work := ⟨_, rfl⟩
  obtain ⟨k, hk⟩ : ∃ k, headChunk p p.readPos work = k := ⟨_, rfl⟩
  have hkw : k ≤ work := hk ▸ Nat.min_le_left _ _
  have hadv : advanced p (advanceRead p k) = k := advanced_advanceRead wf (by omega)
  have hself : advanced p p = 0 := by simp [advanced, fill_self]
  unfold readOutcome
  simp only [hwork, hk] at hf ⊢
  exact faultContract_of_ends hk hf ⟨rfl, hself⟩ ⟨rfl, hadv⟩

theorem writeOutcome_fault (wf : Wf p) (buf : List UInt8) (f : Faults)
    (hf : MeetsFault p p.writePos (min (pipeRoom p) buf.length) f) :
    FaultContract p (writeOutcome p buf f) ↔
      ResidueIsFirstChunk p p.writePos (min (pipeRoom p) buf.length) f := by
  have hd := pipeData_lt wf
  have hrd := pipeRoom_add_pipeData wf
  obtain ⟨work, hwork⟩ : ∃ work, min (pipeRoom p) buf.length = work := ⟨_, rfl⟩
  obtain ⟨k, hk⟩ : ∃ k, headChunk p p.writePos work = k := ⟨_, rfl⟩
  obtain ⟨_, hlen, hkw, _, _, _, _⟩ := afterFirstChunk wf hwork hk
  have hadv : advanced p (advanceWrite p (buf.take k)) = (buf.take k).length :=
    advanced_advanceWrite wf (by omega)
  have hself : advanced p p = 0 := by simp [advanced, fill_self]
  rw [hlen] at hadv
  unfold writeOutcome
  simp only [hwork, hk] at hf ⊢
  exact faultContract_of_ends hk hf ⟨rfl, hself⟩ ⟨rfl, hadv⟩

/-- **Fault handling.** A read or a write that meets a fault keeps the contract exactly when
    the residue of its second copy happens to equal its first chunk. In every other case it
    returns the residue, a positive number, as a byte count: with the ring not moved at all
    (fault in the first chunk), or moved by another number of bytes. -/
theorem fault_contract_iff (p : Pipe) (wf : Wf p) :
    (∀ count f t, pipeReadCopy p count f = some t →
      MeetsFault p p.readPos (min (pipeData p) count) f →
      (FaultContract p t ↔ ResidueIsFirstChunk p p.readPos (min (pipeData p) count) f)) ∧
    (∀ buf f t, pipeWriteCopy p buf f = some t →
      MeetsFault p p.writePos (min (pipeRoom p) buf.length) f →
      (FaultContract p t ↔
        ResidueIsFirstChunk p p.writePos (min (pipeRoom p) buf.length) f)) := by
  constructor
  · intro count f t ht hf
    rw [pipeReadCopy_eq wf, Option.some.injEq] at ht
    rw [← ht]
    exact readOutcome_fault wf count f hf
  · intro buf f t ht hf
    rw [pipeWriteCopy_eq wf, Option.some.injEq] at ht
    rw [← ht]
    exact writeOutcome_fault wf buf f hf

/-- Two stored bytes, one at the end of the buffer and one at its start. -/
def wrappedPipe : Pipe := ⟨[2, 0, 0, 1], 4, 3, 1, 1, 1⟩

theorem wf_wrappedPipe : Wf wrappedPipe := ⟨by decide, by decide, by decide, by decide⟩

/-- A fault in the second chunk, one byte after a first chunk of one byte: the residue 1 that
    is returned is also the number of bytes the ring was advanced. -/
theorem fault_contract_wrapped :
    ∃ t, pipeReadCopy wrappedPipe 2 ⟨0, 1⟩ = some t ∧ FaultContract wrappedPipe t :=
  ⟨readOutcome wrappedPipe 2 ⟨0, 1⟩, pipeReadCopy_eq wf_wrappedPipe 2 _,
    ((fault_contract_iff wrappedPipe wf_wrappedPipe).1 2 ⟨0, 1⟩ _
      (pipeReadCopy_eq wf_wrappedPipe 2 _) (by decide)).mpr (by decide)⟩

/-- One stored byte. -/
def oneBytePipe : Pipe := ⟨[7, 0, 0, 0], 4, 0, 1, 1, 1⟩

theorem wf_oneBytePipe : Wf oneBytePipe := ⟨by decide, by decide, by decide, by decide⟩

/-- `read(fd, buf, 1)` with a faulting buffer returns 1, and the ring has not moved. -/
theorem read_fault_returns_residue :
    Wf oneBytePipe ∧
      MeetsFault oneBytePipe oneBytePipe.readPos (min (pipeData oneBytePipe) 1) ⟨1, 0⟩ ∧
      ∃ t, pipeReadCopy oneBytePipe 1 ⟨1, 0⟩ = some t ∧ t.ret = 1 ∧ t.bytes = [] ∧
        advanced oneBytePipe t.pipe = 0 ∧ ¬ FaultContract oneBytePipe t :=
  ⟨wf_oneBytePipe, by decide, readOutcome oneBytePipe 1 ⟨1, 0⟩,
    pipeReadCopy_eq wf_oneBytePipe 1 _, by decide, by decide, by decide, by decide⟩

end DemosOsLinux.KernelPipe
