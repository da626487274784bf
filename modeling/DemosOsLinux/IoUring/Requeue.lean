/-
  The io_uring copy when the kernel does not complete every request in full.

  `queue_prepped` puts a request that is to be made again into the submission queue, and nothing
  submits it: the next `io_uring_submit` is that of a later read or write.
  * `again_stuck`: if everything in flight comes back with `-EAGAIN`, there is no later one, and
    `copy_file` waits for ever.
  * `full_faithful_iff`: with full results only, what must hold when the loop of `copy_file` ends.
  * `copy_faithful_iff`: it can wait for ever with every file that is not empty.
  * `short_read_repeats`: what is left of a short read is read from where the read began, not from
    where it ended.
-/
import DemosOsLinux.IoUring.FullResults

namespace DemosOsLinux.IoUring

open Lib

variable {junk : Nat → Nat → UInt8} {input : List UInt8} {s : State}

/-- Some run leads from `s` to a wait without end. -/
def CanStick (junk : Nat → Nat → UInt8) (input : List UInt8) (s : State) : Prop :=
  (copyFile junk input).CanReach (fun _ => True) (fun s' _ => Stuck s') s

theorem canStick_step (a : Act) (s₁ : State) (hs : step junk input s a = some s₁)
    (h : CanStick junk input s₁) : CanStick junk input s := by
  have hstep : (copyFile junk input).step s a = some (s₁, []) := by
    show (step junk input s a).map _ = _
    rw [hs]
    rfl
  exact Machine.canReach_step (copyFile junk input) trivial hstep h

/-- The completions the kernel posts. -/
def againOf (qs : List Request) : List Cqe := qs.map fun q => ⟨q.data, -eagain⟩

/-- The kernel completes everything it has with `-EAGAIN`. -/
theorem canStick_again (qs : List Request) (hfly : s.inflight = qs)
    (h : CanStick junk input { s with inflight := [], cq := s.cq ++ againOf qs }) :
    CanStick junk input s := by
  induction qs generalizing s with
  | nil =>
    rw [againOf, List.map_nil, List.append_nil, ← hfly] at h
    exact h
  | cons q qs ih =>
    refine canStick_step (.complete 0 .again) (post s 0 ⟨q.data, -eagain⟩) ?_ ?_
    · simp only [step, complete, hfly, List.getElem?_cons_zero]
    · refine ih ?_ ?_
      · rw [post, hfly]
        rfl
      · rw [againOf, List.map_cons, ← List.singleton_append, ← List.append_assoc] at h
        exact h

theorem handle_again (id : Nat) (hsq : s.sq.length < qd) :
    handle s ⟨id, -eagain⟩ = { s with
      sq := s.sq ++ [⟨id, (s.data id).read, (s.data id).offset⟩], cq := s.cq.tail,
      pc := .inner true } := by
  simp only [handle, requeue, queuePrepped, if_pos hsq, cqeSeen]
  rfl

/-- The program takes these completions, queues the requests again and submits none. -/
theorem canStick_requeue (qs : List Request) (hpc : s.pc = .inner true) (hleft : s.writeLeft ≠ 0)
    (hcq : s.cq = againOf qs) (hroom : s.sq.length + qs.length ≤ qd)
    (h : ∀ sq, CanStick junk input { s with sq := sq, cq := [] }) : CanStick junk input s := by
  induction qs generalizing s with
  | nil =>
    have hnow := h s.sq
    rw [againOf, List.map_nil] at hcq
    rw [← hcq] at hnow
    exact hnow
  | cons q qs ih =>
    rw [List.length_cons] at hroom
    rw [againOf, List.map_cons] at hcq
    have hhandle := handle_again q.data (show s.sq.length < qd by omega)
    refine canStick_step .program (handle s ⟨q.data, -eagain⟩) ?_ ?_
    · simp only [step, program, hpc, if_neg hleft, hcq]
      rfl
    · rw [hhandle]
      refine ih rfl hleft ?_ ?_ ?_
      · rw [hcq]
        rfl
      · rw [List.length_append, List.length_singleton]
        omega
      · intro sq
        have hnow := h sq
        rw [hpc] at hnow
        exact hnow

theorem queueReads_of_queued (hq : Queued s) :
    queueReads junk (qd - (s.reads + s.writes)) s = s := by
  cases hn : qd - (s.reads + s.writes) with
  | zero => rfl
  | succ n =>
    rcases hq with hin | hfull
    · rw [queueReads, if_pos hin]
    · omega

/-- With no completion to come, the program goes round once more and waits. -/
theorem canStick_of_idle (hpc : s.pc = .inner true) (hleft : s.writeLeft ≠ 0) (hq : Queued s)
    (hfly : s.inflight = []) (hcq : s.cq = []) : CanStick junk input s := by
  refine canStick_step .program { s with pc := .outer } ?_ ?_
  · simp only [step, program, hpc, if_neg hleft, hcq]
    rfl
  refine canStick_step .program { s with pc := .inner false } ?_ ?_
  · have hloop : queueReads junk (qd - (s.reads + s.writes)) { s with pc := .outer } =
        { s with pc := .outer } := queueReads_of_queued (s := { s with pc := .outer }) hq
    simp only [step, program, outerLoop, hleft, and_false, if_false, hloop, ne_eq,
      not_true_eq_false]
  refine canStick_step .program { s with pc := .waiting } ?_ ?_
  · simp only [step, program, if_neg hleft, if_true]
  exact Machine.canReach_here (copyFile junk input) ⟨rfl, hfly, hcq⟩

/-- Everything in flight may come back with `-EAGAIN` while the program waits. -/
theorem again_stuck (hpc : s.pc = .inner false) (hleft : s.writeLeft ≠ 0) (hq : Queued s)
    (hsq : s.sq = []) (hcq : s.cq = []) (hfly : s.inflight ≠ []) (hlen : s.inflight.length ≤ qd) :
    CanStick junk input s := by
  obtain ⟨q, qs, hqs⟩ := List.exists_cons_of_ne_nil hfly
  rw [hqs, List.length_cons] at hlen
  refine canStick_again (q :: qs) hqs ?_
  rw [hcq, List.nil_append, againOf, List.map_cons]
  refine canStick_step .program { s with
    inflight := [], cq := ⟨q.data, -eagain⟩ :: againOf qs, pc := .waiting } ?_ ?_
  · simp only [step, program, hpc, if_neg hleft, if_true]
    rfl
  refine canStick_step .program { s with
    inflight := [], cq := againOf qs, pc := .inner true,
    sq := s.sq ++ [⟨q.data, (s.data q.data).read, (s.data q.data).offset⟩] } ?_ ?_
  · have hroom : s.sq.length < qd := by
      rw [hsq]
      decide
    simp only [step, program, List.head?_cons, Option.map_some, handle_again, hroom, List.tail_cons]
  refine canStick_requeue qs rfl hleft rfl ?_ fun sq => ?_
  · rw [hsq, List.nil_append, List.length_singleton]
    omega
  · exact canStick_of_idle rfl hleft hq rfl rfl

/-- The first step queues reads, unless the file is empty. -/
theorem canStick_init (hin : input ≠ []) : CanStick junk input (initState input) := by
  have hlen : ¬((initState input).insize = 0 ∧ (initState input).writeLeft = 0) :=
    fun h => hin (List.eq_nil_of_length_eq_zero h.1)
  refine canStick_step .program (outerLoop junk (initState input)) rfl ?_
  generalize hs : outerLoop junk (initState input) = s₁
  obtain ⟨hc, hsq, hpc, hq, hleft, hcq⟩ := core_outerLoop (core_init input) rfl hlen hs.symm
  have hne : s₁.writeLeft ≠ 0 := by
    rw [hleft]
    exact fun h0 => hin (List.eq_nil_of_length_eq_zero (Int.ofNat_eq_zero.mp h0))
  refine again_stuck hpc hne hq hsq hcq (fun hfly => ?_) ?_
  · -- with nothing in flight it would be stuck although nothing went wrong
    have hwait : Inv input { s₁ with pc := .waiting } := ⟨hc.pc _, hsq, hne, hq⟩
    exact hwait.not_stuck ⟨rfl, hfly, hcq⟩
  · have hle := hc.books.room
    rw [← hc.books.length, outstanding, requests, List.length_append, List.length_map,
      List.length_append] at hle
    omega

/-! ## Which files are copied faithfully -/

/-- An empty file needs no request. -/
theorem run_nil {acts : List Act} {tr : List Empty}
    (hr : (copyFile junk []).run (initState []) acts = some (s, tr)) :
    s = initState [] ∨ s = { initState [] with pc := .returned 0 } := by
  refine (copyFile junk []).run_inv (fun _ => True)
    (fun s => s = initState [] ∨ s = { initState [] with pc := .returned 0 }) ?_
    (fun _ _ => trivial) (Or.inl rfl) hr
  intro s a s₁ es _ hs hstep
  obtain ⟨hstep, _⟩ := Machine.quiet_step hstep
  rcases hs with rfl | rfl <;> cases a with
  | program =>
    first
    | exact Or.inr (Option.some.inj hstep).symm
    | cases hstep
  | complete i r => cases hstep

/-- The state after this step is faithful. -/
def StaysFaithful (junk : Nat → Nat → UInt8) (input : List UInt8) (s : State) (a : Act) : Prop :=
  ∀ s' es, (copyFile junk input).step s a = some (s', es) → Faithful input s'

/-- When the outer loop finds that nothing is left to be read or written, nothing is in flight. -/
def EndsIdle (s : State) (a : Act) : Prop :=
  a = .program → s.pc = .outer → s.insize = 0 → s.writeLeft = 0 → s.inflight = []

theorem handle_pc (s : State) (c : Cqe) : (handle s c).pc ≠ .returned 0 := by
  unfold handle requeue cqeSeen
  dsimp only
  split
  · split
    · split <;> exact nofun
    · exact nofun
  · split
    · split <;> exact nofun
    · split
      · split <;> exact nofun
      · exact nofun

/-- `copy_file` returns 0 only at the condition of its outer loop. -/
theorem program_returns {s' : State} (hs : program junk s = some s') (hret : s'.pc = .returned 0) :
    s.pc = .outer ∧ s.insize = 0 ∧ s.writeLeft = 0 ∧ s'.inflight = s.inflight := by
  unfold program at hs
  split at hs
  · next hpc =>
    obtain rfl := Option.some.inj hs
    unfold outerLoop at hret ⊢
    split at hret
    · next hend =>
      rw [if_pos hend]
      exact ⟨hpc, hend.1, hend.2, rfl⟩
    · cases hret
  · split at hs
    · obtain rfl := Option.some.inj hs
      cases hret
    · split at hs
      · obtain rfl := Option.some.inj hs
        cases hret
      · split at hs <;> obtain rfl := Option.some.inj hs
        · cases hret
        · exact absurd hret (handle_pc s _)
  · obtain ⟨c, -, rfl⟩ := Option.map_eq_some_iff.mp hs
    exact absurd hret (handle_pc s c)
  · cases hs
  · cases hs

/-- What is known of the states of a run with full results that has been faithful. -/
def Settled (input : List UInt8) (s : State) : Prop :=
  Inv input s ∧ (s.pc = .returned 0 → s.inflight = [])

theorem settled_of_step {a : Act} {s' : State} {es : List Empty} (h : Settled input s) (ha : a.Full)
    (hend : EndsIdle s a) (hs : (copyFile junk input).step s a = some (s', es)) : Settled input s' := by
  refine ⟨step_inv ha h.1 hs, fun hret => ?_⟩
  obtain ⟨hstep, -⟩ := Machine.quiet_step hs
  cases a with
  | program =>
    obtain ⟨hpc, hin, hleft, hfly⟩ := program_returns hstep hret
    rw [hfly]
    exact hend rfl hpc hin hleft
  | complete i r =>
    cases ha
    -- after the return there is nothing to complete
    obtain ⟨-, hvars⟩ := core_complete h.1.core hstep
    have hfly := h.2 ((congrArg Prod.fst hvars).symm.trans hret)
    simp [step, complete, hfly] at hstep

/-- A run with full results stays faithful if and only if nothing is in flight when `copy_file`
    returns. -/
theorem full_faithful_iff {acts : List Act} (ha : ∀ a ∈ acts, a.Full) :
    (copyFile junk input).Along (StaysFaithful junk input) (initState input) acts ↔
      (copyFile junk input).Along EndsIdle (initState input) acts := by
  have hfull := (copyFile junk input).along_of_forall Act.Full acts ha (initState input)
  have hinit : Settled input (initState input) := ⟨inv_init input, nofun⟩
  constructor
  · intro h
    refine (copyFile junk input).along_imp (Settled input) ?_ ?_ hinit
      ((copyFile junk input).along_and hfull h)
    · rintro s a s' es inv ⟨ha, h⟩ hs
      have hinv := step_inv ha inv.1 hs
      exact ⟨hinv, hinv.faithful_iff.mp (h s' es hs)⟩
    · rintro s a inv ⟨ha, h⟩ rfl hpc hin hleft
      have hs : (copyFile junk input).step s .program = some ({ s with pc := .returned 0 }, []) := by
        simp [copyFile, step, program, hpc, outerLoop, hin, hleft]
      exact (step_inv ha inv.1 hs).faithful_iff.mp (h _ _ hs) rfl
  · intro h
    refine (copyFile junk input).along_imp (Settled input) ?_ ?_ hinit
      ((copyFile junk input).along_and hfull h)
    · rintro s a s' es inv ⟨ha, h⟩ hs
      exact settled_of_step inv ha h hs
    · rintro s a inv ⟨ha, h⟩ s' es hs
      obtain ⟨hinv, hfly⟩ := settled_of_step inv ha h hs
      exact hinv.faithful_iff.mpr hfly

/-- Every file that is not empty has a run that is not faithful: with `-EAGAIN` it may wait for ever, and
    what is left of a short result is transferred wrongly (`short_read_repeats`). A run in which the
    kernel does all it is asked for is faithful in every state if and only if nothing is in flight when
    the outer loop finds that nothing is left to be read or written. -/
theorem copy_faithful_iff (junk : Nat → Nat → UInt8) (input : List UInt8) :
    ((∀ acts s tr, (copyFile junk input).run (initState input) acts = some (s, tr) →
      Faithful input s) ↔ input = []) ∧
    ∀ acts, (∀ a ∈ acts, a.Full) →
      ((copyFile junk input).Along (StaysFaithful junk input) (initState input) acts ↔
        (copyFile junk input).Along EndsIdle (initState input) acts) := by
  refine ⟨⟨?_, ?_⟩, fun acts ha => full_faithful_iff ha⟩
  · intro h
    by_contra hin
    have hstick : CanStick junk input (initState input) := canStick_init hin
    obtain ⟨acts, s, tr, _, hr, hstuck⟩ := hstick
    exact (h acts s tr hr).1 hstuck
  · rintro rfl acts s tr hr
    rcases run_nil hr with rfl | rfl
    · exact ⟨fun hst => absurd hst.1 (by decide), fun hpc => absurd hpc (by decide)⟩
    · exact ⟨fun hst => absurd hst.1 (by decide), fun _ => ⟨⟨nofun, nofun⟩, rfl⟩⟩

instance (s : State) (a : Act) : Decidable (EndsIdle s a) := by
  unfold EndsIdle
  infer_instance

/-- A file of one byte; the write is completed before the inner loop ends. -/
def oneByteRun : List Act :=
  [.program, .complete 0 .full, .program, .program, .complete 0 .full, .program, .program]

theorem copy_faithful_oneByteRun :
    ∃ s tr, (copyFile (fun _ _ => 0) [7]).run (initState [7]) oneByteRun = some (s, tr) ∧
      (s.pc = .returned 0 ∧ s.output = [7]) ∧
      (copyFile (fun _ _ => 0) [7]).Along (StaysFaithful (fun _ _ => 0) [7]) (initState [7])
        oneByteRun := by
  obtain ⟨s, tr, hr, hend⟩ := (copyFile (fun _ _ => 0) [7]).exists_of_check (initState [7]) oneByteRun
    (fun s _ => s.pc = .returned 0 ∧ s.output = [7]) (by decide)
  have hidle := (copyFile (fun _ _ => 0) [7]).along_of_check (fun s a => decide (EndsIdle s a))
    oneByteRun (initState [7]) (by decide)
  simp only [decide_eq_true_eq] at hidle
  refine ⟨s, tr, hr, hend, ((copy_faithful_iff (fun _ _ => 0) [7]).2 oneByteRun ?_).mpr hidle⟩
  simp [oneByteRun, Act.Full]

instance (s : State) : Decidable (Stuck s) :=
  inferInstanceAs (Decidable (s.pc = .waiting ∧ s.inflight = [] ∧ s.cq = []))

instance (s : State) : Decidable (WritesDone s) :=
  inferInstanceAs (Decidable (_ ∧ _))

instance (input : List UInt8) (s : State) : Decidable (Faithful input s) :=
  inferInstanceAs (Decidable (_ ∧ _))

/-- A file of one byte. The read comes back with `-EAGAIN`, and the program waits for ever; or it is
    made, and the program returns with the write in flight. -/
theorem one_byte_copies :
    (∃ s tr, (copyFile (fun _ _ => 0) [7]).run (initState [7])
      ([.program, .complete 0 .again] ++ List.replicate 5 .program) = some (s, tr) ∧
        Stuck s ∧ ¬Faithful [7] s) ∧
    ∃ s tr, (copyFile (fun _ _ => 0) [7]).run (initState [7])
      ([.program, .complete 0 .full] ++ List.replicate 4 .program) = some (s, tr) ∧
        s.pc = .returned 0 ∧ s.inflight = [⟨0, false, 0⟩] ∧ s.output = [] ∧ ¬Faithful [7] s :=
  ⟨Machine.exists_of_check _ _ _ (fun s _ => Stuck s ∧ ¬Faithful [7] s) (by decide),
    Machine.exists_of_check _ _ _
      (fun (s : State) _ => s.pc = .returned 0 ∧ s.inflight = [⟨0, false, 0⟩] ∧ s.output = [] ∧
        ¬Faithful [7] s)
      (by decide)⟩

/-! ## Short reads -/

/-- A buffer that is filled in two goes. -/
theorem overwrite_twice (buf xs ys : List UInt8) (h : xs.length + ys.length = buf.length) :
    overwrite (overwrite buf 0 xs) xs.length ys = xs ++ ys := by
  have hfirst : overwrite buf 0 xs = xs ++ buf.drop xs.length := by
    rw [overwrite, List.take_zero, List.nil_append, Nat.zero_add]
  rw [hfirst, overwrite, List.take_left, List.drop_append, h, List.drop_drop, List.drop_eq_nil_of_le,
    List.drop_eq_nil_of_le, List.append_nil, List.append_nil]
  · omega
  · omega

theorem transfer_eq_some {q : Request} {k : Nat} {s₁ : State} (hq : q.read = true)
    (h : transfer input s q k = some s₁) : q.offset + k ≤ input.length ∧
      s₁ = s.put q.data { s.data q.data with
        buffer := overwrite (s.data q.data).buffer (s.data q.data).base (slice input q.offset k) } := by
  rw [transfer, if_pos hq] at h
  split at h
  · rename_i hle
    exact ⟨hle, (Option.some.inj h).symm⟩
  · cases h

theorem handle_short {id k : Nat} (hk : k < (s.data id).len) (hsq : s.sq.length < qd) :
    handle s ⟨id, k⟩ = cqeSeen { s.put id { s.data id with
        base := (s.data id).base + k, len := (s.data id).len - k } with
      sq := s.sq ++ [⟨id, (s.data id).read, (s.data id).offset⟩] } := by
  have hsq' : ∀ d, (s.put id d).sq.length < qd := fun _ => hsq
  simp only [handle, requeue, queuePrepped, hsq', if_true, put_data_self, Int.toNat_natCast]
  rw [if_neg (by omega), if_pos (by omega)]
  rfl

/-- A read that got `k` bytes is made again as the very same request, so the buffer receives the start
    of the block twice. -/
theorem short_read_repeats {q : Request} {k : Nat} {s₁ s₂ s₃ : State} (hq : q.read = true)
    (hr : (s.data q.data).read = true) (hoff : (s.data q.data).offset = q.offset)
    (hbase : (s.data q.data).base = 0) (hbuf : (s.data q.data).buffer.length = (s.data q.data).len)
    (hk : k < (s.data q.data).len) (hsq : s.sq.length < qd) (h₁ : transfer input s q k = some s₁)
    (h₂ : s₂ = handle s₁ ⟨q.data, k⟩) (h₃ : transfer input s₂ q (s₂.data q.data).len = some s₃) :
    s₂.sq = s.sq ++ [q] ∧ (s₃.data q.data).buffer =
      slice input q.offset k ++ slice input q.offset ((s.data q.data).len - k) := by
  obtain ⟨hle₁, hs₁⟩ := transfer_eq_some hq h₁
  obtain ⟨hle₃, hs₃⟩ := transfer_eq_some hq h₃
  have hd₁ : s₁.data q.data = { s.data q.data with
      buffer := overwrite (s.data q.data).buffer 0 (slice input q.offset k) } := by
    rw [hs₁, put_data_self, hbase]
  have hsq₁ : s₁.sq = s.sq := by rw [hs₁]; rfl
  have hk₁ : k < (s₁.data q.data).len := by rw [hd₁]; exact hk
  rw [handle_short hk₁ (hsq₁ ▸ hsq)] at h₂
  have hd₂ : s₂.data q.data = { s₁.data q.data with
      base := k, len := (s.data q.data).len - k } := by
    rw [h₂]
    show (State.put _ _ _).data q.data = _
    rw [put_data_self, hd₁, hbase, Nat.zero_add]
  refine ⟨?_, ?_⟩
  · rw [h₂, hd₁, hr, hoff, ← hq]
    exact congrArg (· ++ [q]) hsq₁
  · rw [hs₃, put_data_self, hd₂, hd₁]
    rw [hd₂] at hle₃
    have hlen₁ := length_slice hle₁
    have hlen₃ : (slice input q.offset ((s.data q.data).len - k)).length =
        (s.data q.data).len - k := length_slice hle₃
    have htwice := overwrite_twice (s.data q.data).buffer (slice input q.offset k)
      (slice input q.offset ((s.data q.data).len - k)) (by omega)
    rw [hlen₁] at htwice
    exact htwice

end DemosOsLinux.IoUring
