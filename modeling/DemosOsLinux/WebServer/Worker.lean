/-
  The worker thread of the web server (exercises/pthreads/pthread_web_server/solution.c).

  After the request has been received into `buff` the file is sent block by block: `read(2)` puts a
  block at the start of `buff`, and `send(2)` is called until it has taken the whole block. One step
  is one system call; `n` and `k` are what it returns, at least 1 unless the file is at its end. The
  trace has the blocks that were read and, for each `send`, what it was asked to send, its flags and
  what it took. The source passes `offset` as the flags.
  * `WorkerInv`: `offset`, `pointer` and `written` are the same number, the part of the block that
    has been sent; what is asked for is the rest of it.
  * `worker_sends`: so the file arrives, but the flags are 0 if and only if every `send` takes all
    that it is asked to send.
-/
import DemosOsLinux.Lib.Machine
import DemosOsLinux.Lib.RingBuffer

namespace DemosOsLinux.WebServer

open Lib

def buflen : Nat := 1024

/-- The places of `worker` where it makes a call, with the variables that are live there;
    `pointer` is an index of `buff`. -/
inductive Pc where
  | recv
  | read
  | send (ires offset pointer written : Nat)
  | returned
  deriving DecidableEq

/-- The buffer and the rest of the file. -/
structure State where
  buff : List UInt8
  file : List UInt8
  pc : Pc

/-- One `send`: what it was asked to send, and what it took. -/
structure Send where
  asked : List UInt8
  flags : Nat
  sent : List UInt8
  deriving DecidableEq

inductive Event where
  | block (bs : List UInt8)
  | send (e : Send)
  deriving DecidableEq

inductive Act where
  | recv (bs : List UInt8)
  | read (n : Nat)
  | send (k : Nat)

/-- The test of the inner loop; after it the next block is read. -/
def innerLoop (ires offset pointer written : Nat) : Pc :=
  if written < ires then .send ires offset pointer written else .read

def step (s : State) (a : Act) : Option (State × List Event) :=
  match s.pc, a with
  | .recv, .recv bs =>
      if bs.length ≤ buflen then some ({ s with buff := overwrite s.buff 0 bs, pc := .read }, [])
      else none
  | .read, .read n =>
      if n ≤ buflen ∧ n ≤ s.file.length ∧ (n = 0 → s.file = []) then
        some (
          { s with
            buff := overwrite s.buff 0 (s.file.take n)
            file := s.file.drop n
            pc := if n ≠ 0 then innerLoop n 0 0 0 else .returned },
          [.block (s.file.take n)])
      else none
  | .send ires offset pointer written, .send k =>
      if 0 < k ∧ k ≤ ires - written then
        some (
          { s with pc := innerLoop ires (offset + k) (pointer + k) (written + k) },
          [.send ⟨slice s.buff pointer (ires - written), offset, slice s.buff pointer k⟩])
      else none
  | _, _ => none

def machine : Machine State Act Event where
  step := step

/-- `mem` is what is on the stack. -/
def initState (mem : Nat → UInt8) (file : List UInt8) : State :=
  ⟨(List.range buflen).map mem, file, .recv⟩

/-! ## Reading the trace -/

/-- The bytes that `send` has taken. -/
def sentBytes (tr : List Event) : List UInt8 :=
  tr.flatMap fun
    | .block _ => []
    | .send e => e.sent

/-- What is left of the block after one more event. -/
def unsentAfter (bs : List UInt8) : Event → List UInt8
  | .block bs' => bs'
  | .send e => bs.drop e.sent.length

/-- The part of the last block that `send` has not taken. -/
def unsent (tr : List Event) : List UInt8 := tr.foldl unsentAfter []

/-- Every `send` is asked for what is left of the block. -/
def AsksRest (tr : List Event) : Prop := ∀ tr₁ e tr₂, tr = tr₁ ++ .send e :: tr₂ → e.asked = unsent tr₁

def NoFlags (tr : List Event) : Prop := ∀ e, .send e ∈ tr → e.flags = 0

section Trace

variable {tr : List Event}

theorem sentBytes_block (bs : List UInt8) : sentBytes (tr ++ [.block bs]) = sentBytes tr := by
  simp [sentBytes]

theorem sentBytes_send (e : Send) : sentBytes (tr ++ [.send e]) = sentBytes tr ++ e.sent := by
  simp [sentBytes]

theorem unsent_append (ev : Event) : unsent (tr ++ [ev]) = unsentAfter (unsent tr) ev := by
  simp [unsent]

theorem AsksRest.append (h : AsksRest tr) {ev : Event}
    (hev : ∀ e, ev = .send e → e.asked = unsent tr) : AsksRest (tr ++ [ev]) := by
  intro tr₁ e tr₂ heq
  rcases List.eq_nil_or_concat tr₂ with rfl | ⟨tr₃, ev', rfl⟩
  · obtain ⟨rfl, hlast⟩ := List.append_inj' heq rfl
    exact hev e (List.cons.inj hlast).1
  · rw [List.concat_eq_append, ← List.cons_append, ← List.append_assoc] at heq
    exact h tr₁ e tr₃ (List.append_inj' heq rfl).1

end Trace

/-! ## One call -/

/-- What holds at each place when `left` is the unsent part of the block. -/
def Place (left : List UInt8) (s : State) : Prop :=
  match s.pc with
  | .recv | .read => left = []
  | .send ires offset pointer written =>
      offset = written ∧ pointer = written ∧ written < ires ∧ ires ≤ buflen ∧
        slice s.buff written (ires - written) = left ∧ left.length = ires - written
  | .returned => left = [] ∧ s.file = []

structure WorkerInv (file : List UInt8) (s : State) (tr : List Event) : Prop where
  buff : s.buff.length = buflen
  bytes : sentBytes tr ++ (unsent tr ++ s.file) = file
  place : Place (unsent tr) s
  asked : AsksRest tr

/-- What one step can do. -/
inductive Steps (s : State) : Act → State → List Event → Prop
  | recv (bs : List UInt8) (hpc : s.pc = .recv) (hlen : bs.length ≤ buflen) :
      Steps s (.recv bs) { s with buff := overwrite s.buff 0 bs, pc := .read } []
  | read (n : Nat) (hpc : s.pc = .read) (hbuf : n ≤ buflen) (hfile : n ≤ s.file.length)
      (hzero : n = 0 → s.file = []) :
      Steps s (.read n)
        { s with
          buff := overwrite s.buff 0 (s.file.take n)
          file := s.file.drop n
          pc := if n ≠ 0 then innerLoop n 0 0 0 else .returned }
        [.block (s.file.take n)]
  | send (k ires offset pointer written : Nat) (hpc : s.pc = .send ires offset pointer written)
      (hpos : 0 < k) (hle : k ≤ ires - written) :
      Steps s (.send k)
        { s with pc := innerLoop ires (offset + k) (pointer + k) (written + k) }
        [.send ⟨slice s.buff pointer (ires - written), offset, slice s.buff pointer k⟩]

theorem steps_of_step {s s' : State} {a : Act} {es : List Event}
    (h : machine.step s a = some (s', es)) : Steps s a s' es := by
  obtain ⟨buff, file, pc⟩ := s
  cases pc with
  | recv =>
    cases a with
    | recv bs =>
      obtain ⟨hlen, rfl, rfl⟩ := guard_result_inj h
      exact .recv bs rfl hlen
    | _ => cases h
  | read =>
    cases a with
    | read n =>
      obtain ⟨⟨hbuf, hfile, hzero⟩, h⟩ := Option.ite_none_right_eq_some.mp h
      obtain ⟨rfl, rfl⟩ := result_inj h
      exact .read n rfl hbuf hfile hzero
    | _ => cases h
  | send ires offset pointer written =>
    cases a with
    | send k =>
      obtain ⟨⟨hpos, hle⟩, h⟩ := Option.ite_none_right_eq_some.mp h
      obtain ⟨rfl, rfl⟩ := result_inj h
      exact .send k ires offset pointer written rfl hpos hle
    | _ => cases h
  | returned => cases a <;> cases h

section Slices

variable {buff left : List UInt8} {pos len k : Nat}

theorem slice_overwrite (buff bs : List UInt8) : slice (overwrite buff 0 bs) 0 bs.length = bs := by
  simp [slice, overwrite]

/-- The first bytes of what is left. -/
theorem slice_take (h : slice buff pos len = left) (hk : k ≤ len) :
    slice buff pos k = left.take k := by
  rw [← h, slice, slice, List.take_take, Nat.min_eq_left hk]

/-- What is left after them. -/
theorem slice_drop (h : slice buff pos len = left) :
    slice buff (pos + k) (len - k) = left.drop k := by
  rw [← h, slice, slice, List.drop_take, List.drop_drop]

end Slices

section Inv

variable {file : List UInt8} {s s' : State} {tr es : List Event} {a : Act}

section Steps

variable (inv : WorkerInv file s tr)
include inv

theorem WorkerInv.placeAt {pc : Pc} (hpc : s.pc = pc) : Place (unsent tr) { s with pc := pc } := by
  subst hpc
  exact inv.place

theorem WorkerInv.read (hpc : s.pc = .read) {n : Nat}
    (hbuf : n ≤ buflen) (hfile : n ≤ s.file.length) (hzero : n = 0 → s.file = []) :
    WorkerInv file
      { s with
        buff := overwrite s.buff 0 (s.file.take n)
        file := s.file.drop n
        pc := if n ≠ 0 then innerLoop n 0 0 0 else .returned }
      (tr ++ [.block (s.file.take n)]) := by
  have hlen : (s.file.take n).length = n := by
    rw [List.length_take]
    omega
  have hdone : unsent tr = [] := inv.placeAt hpc
  have hbytes := inv.bytes
  rw [hdone, List.nil_append] at hbytes
  refine ⟨?_, ?_, ?_, inv.asked.append fun e he => nomatch he⟩
  · rw [length_overwrite _ _ _ (by rw [hlen, inv.buff]; omega)]
    exact inv.buff
  · rw [sentBytes_block, unsent_append, unsentAfter, List.take_append_drop]
    exact hbytes
  · rw [unsent_append, unsentAfter]
    unfold Place
    by_cases hn : n = 0
    · rw [if_neg (not_not_intro hn)]
      exact ⟨by rw [hn, List.take_zero], by rw [hzero hn, List.drop_nil]⟩
    · rw [if_pos hn, innerLoop, if_pos (Nat.pos_of_ne_zero hn)]
      have hslice := slice_overwrite s.buff (s.file.take n)
      rw [hlen] at hslice
      exact ⟨rfl, rfl, Nat.pos_of_ne_zero hn, hbuf, hslice, hlen⟩

theorem WorkerInv.send {k ires offset pointer written : Nat}
    (hpc : s.pc = .send ires offset pointer written) (hle : k ≤ ires - written) :
    WorkerInv file
      { s with pc := innerLoop ires (offset + k) (pointer + k) (written + k) }
      (tr ++ [.send ⟨slice s.buff pointer (ires - written), offset, slice s.buff pointer k⟩]) := by
  obtain ⟨rfl, rfl, _, hbuf, hslice, hleft⟩ := inv.placeAt hpc
  have htake := slice_take hslice hle
  have hlen : (slice s.buff pointer k).length = k := by
    rw [htake, List.length_take]
    omega
  have hdrop : unsent (tr ++ [.send ⟨slice s.buff pointer (ires - pointer), pointer,
      slice s.buff pointer k⟩]) = (unsent tr).drop k := by
    rw [unsent_append, unsentAfter, hlen]
  refine ⟨inv.buff, ?_, ?_, inv.asked.append ?_⟩
  · rw [sentBytes_send, hdrop, htake, append_take_drop]
    exact inv.bytes
  · rw [hdrop]
    unfold Place innerLoop
    by_cases hmore : pointer + k < ires
    · rw [if_pos hmore]
      have hrest := slice_drop (k := k) hslice
      rw [← Nat.sub_add_eq] at hrest
      exact ⟨rfl, rfl, hmore, hbuf, hrest, by rw [List.length_drop]; omega⟩
    · rw [if_neg hmore]
      exact List.drop_eq_nil_of_le (by omega)
  · rintro e ⟨rfl⟩
    exact hslice

theorem workerInv_of_steps (h : Steps s a s' es) : WorkerInv file s' (tr ++ es) := by
  cases h with
  | recv bs hpc hlen =>
    rw [List.append_nil]
    have hdone : unsent tr = [] := inv.placeAt hpc
    refine ⟨?_, inv.bytes, hdone, inv.asked⟩
    rw [length_overwrite _ _ _ (by rw [inv.buff]; omega)]
    exact inv.buff
  | read n hpc hbuf hfile hzero => exact inv.read hpc hbuf hfile hzero
  | send k ires offset pointer written hpc hpos hle => exact inv.send hpc hle

end Steps

theorem workerInv_initState (mem : Nat → UInt8) (file : List UInt8) :
    WorkerInv file (initState mem file) [] := by
  refine ⟨by simp [initState], rfl, rfl, ?_⟩
  intro tr₁ e tr₂ h
  cases tr₁ <;> cases h

end Inv

/-! ## The worker returns -/

/-- The calls that are left before and after a block, at most. -/
def Pc.left : Pc → Nat
  | .recv => 2
  | .read => 1
  | .send ires _ _ written => ires - written + 1
  | .returned => 0

def remaining (s : State) : Nat := 2 * s.file.length + s.pc.left

section Returns

variable {file : List UInt8} {s s' : State} {tr es : List Event} {a : Act}

theorem left_innerLoop (ires offset pointer written : Nat) :
    (innerLoop ires offset pointer written).left = ires - written + 1 := by
  unfold innerLoop
  split
  · rfl
  · simp only [Pc.left]
    omega

theorem remaining_of_steps (h : Steps s a s' es) : remaining s' < remaining s := by
  cases h with
  | recv bs hpc hlen =>
    simp only [remaining, hpc, Pc.left]
    omega
  | read n hpc hbuf hfile hzero =>
    simp only [remaining, hpc, List.length_drop]
    by_cases hn : n = 0
    · simp [hn, Pc.left]
    · rw [if_pos hn, left_innerLoop, Pc.left]
      omega
  | send k ires offset pointer written hpc hpos hle =>
    have hleft := left_innerLoop ires (offset + k) (pointer + k) (written + k)
    simp only [remaining, hpc, hleft]
    rw [Pc.left]
    omega

theorem WorkerInv.enabled (inv : WorkerInv file s tr) (h : s.pc ≠ .returned) :
    ∃ a, (machine.step s a).isSome = true := by
  cases hpc : s.pc with
  | recv => exact ⟨.recv [], by simp [machine, step, hpc]⟩
  | read =>
    cases hfile : s.file with
    | nil => exact ⟨.read 0, by simp [machine, step, hpc, hfile]⟩
    | cons b rest => exact ⟨.read 1, by simp [machine, step, hpc, hfile, buflen]⟩
  | send ires offset pointer written =>
    obtain ⟨_, _, hlt, _⟩ := inv.placeAt hpc
    have hle : 1 ≤ ires - written := by omega
    exact ⟨.send 1, by simp [machine, step, hpc, hle]⟩
  | returned => exact absurd hpc h

end Returns

/-! ## The flags -/

/-- If this step is a `send`, it takes all that it is asked to send. -/
def takesAll (s : State) (a : Act) : Bool :=
  match s.pc, a with
  | .send ires _ _ written, .send k => k = ires - written
  | _, _ => true

/-- Between two calls: no `send` had flags, and the next one will not have any. -/
def Clear (s : State) (tr : List Event) : Prop :=
  NoFlags tr ∧ ∀ ires offset pointer written, s.pc = .send ires offset pointer written → offset = 0

/-- A `send` had flags, or the next one will have. -/
def Flagged (s : State) (tr : List Event) : Prop :=
  (∃ e, .send e ∈ tr ∧ e.flags ≠ 0) ∨
    ∃ ires offset pointer written, s.pc = .send ires offset pointer written ∧ 0 < offset

section Flags

variable {s s' : State} {tr es : List Event} {a : Act}

theorem clear_initState (mem : Nat → UInt8) (file : List UInt8) : Clear (initState mem file) [] := by
  refine ⟨?_, ?_⟩
  · intro e he
    cases he
  · intro ires offset pointer written hpc
    cases hpc

theorem innerLoop_send {ires offset pointer written i o p w : Nat}
    (h : innerLoop ires offset pointer written = .send i o p w) : offset = o := by
  unfold innerLoop at h
  split at h
  · cases h
    rfl
  · cases h

theorem clear_of_steps (hall : takesAll s a = true) (hclear : Clear s tr)
    (h : Steps s a s' es) : Clear s' (tr ++ es) := by
  cases h with
  | recv bs hpc hlen =>
    rw [List.append_nil]
    exact ⟨hclear.1, fun _ _ _ _ h => nomatch h⟩
  | read n hpc hbuf hfile hzero =>
    refine ⟨?_, ?_⟩
    · intro e he
      simp only [List.mem_append, List.mem_singleton, reduceCtorEq, or_false] at he
      exact hclear.1 e he
    · intro i o p w hnext
      simp only at hnext
      split at hnext
      · exact (innerLoop_send hnext).symm
      · cases hnext
  | send k ires offset pointer written hpc hpos hle =>
    have hoffset := hclear.2 _ _ _ _ hpc
    simp only [takesAll, hpc, decide_eq_true_eq] at hall
    refine ⟨?_, ?_⟩
    · intro e he
      simp only [List.mem_append, List.mem_singleton, Event.send.injEq] at he
      rcases he with he | rfl
      · exact hclear.1 e he
      · exact hoffset
    · -- the block is finished
      intro i o p w hnext
      simp only [innerLoop] at hnext
      rw [if_neg (by omega)] at hnext
      cases hnext

theorem flagged_of_short (hshort : ¬takesAll s a = true) (h : Steps s a s' es) :
    Flagged s' (tr ++ es) := by
  cases h with
  | send k ires offset pointer written hpc hpos hle =>
    simp only [takesAll, hpc, decide_eq_true_eq] at hshort
    refine Or.inr ⟨ires, offset + k, pointer + k, written + k, ?_, by omega⟩
    simp only [innerLoop]
    exact if_pos (by omega)
  | _ => simp [takesAll] at hshort

theorem flagged_of_steps (hflag : Flagged s tr) (h : Steps s a s' es) : Flagged s' (tr ++ es) := by
  left
  rcases hflag with ⟨e, he, hne⟩ | ⟨ires, offset, pointer, written, hpc, hpos⟩
  · exact ⟨e, List.mem_append_left _ he, hne⟩
  · cases h with
    | send k i o p w hpc' hk hle =>
      rw [hpc] at hpc'
      cases hpc'
      exact ⟨_, List.mem_append_right _ (List.mem_singleton.mpr rfl), Nat.ne_of_gt hpos⟩
    | recv bs hpc' hlen =>
      rw [hpc] at hpc'
      cases hpc'
    | read n hpc' hbuf hfile hzero =>
      rw [hpc] at hpc'
      cases hpc'

theorem not_noFlags_of_flagged (hret : s.pc = .returned) (h : Flagged s tr) : ¬NoFlags tr := by
  rcases h with ⟨e, he, hne⟩ | ⟨_, _, _, _, hpc, _⟩
  · exact fun hno => hne (hno e he)
  · rw [hret] at hpc
    cases hpc

end Flags

/-- **The worker.** For every file, every request and every sequence of short reads and short sends:
    each `send` is asked for exactly what is left of the block, and the worker is done after at most
    `2 * file.length + 2` calls. Then the bytes that `send` took are the file, and all flags were 0 if
    and only if every `send` took all that it was asked to send. -/
theorem worker_sends (mem : Nat → UInt8) (file : List UInt8) (acts : List Act) (s : State)
    (tr : List Event) (hr : machine.run (initState mem file) acts = some (s, tr)) :
    AsksRest tr ∧
    (acts.length ≤ 2 * file.length + 2 ∧
      (s.pc ≠ .returned → ∃ a, (machine.step s a).isSome = true)) ∧
    (s.pc = .returned → sentBytes tr = file ∧
      (NoFlags tr ↔
        machine.Along (fun s a => takesAll s a = true) (initState mem file) acts)) := by
  have hinit := workerInv_initState mem file
  have inv : WorkerInv file s tr := machine.run_induct (fun _ => True) (WorkerInv file)
    (fun _ _ _ _ _ _ inv hs => workerInv_of_steps inv (steps_of_step hs)) (fun _ _ => trivial)
    hinit hr
  have hlen := machine.run_length_add (fun _ => True) remaining
    (fun _ _ _ _ _ hs => ⟨trivial, remaining_of_steps (steps_of_step hs)⟩) trivial hr
  have hstart : remaining (initState mem file) = 2 * file.length + 2 := rfl
  refine ⟨inv.asked, ⟨by omega, inv.enabled⟩, fun hret => ⟨?_, ?_⟩⟩
  · obtain ⟨hdone, hfile⟩ : unsent tr = [] ∧ s.file = [] := inv.placeAt hret
    have hbytes := inv.bytes
    rwa [hdone, hfile, List.append_nil, List.append_nil] at hbytes
  · refine machine.run_along_iff (fun s a => takesAll s a = true)
      Clear Flagged ?_ ?_ ?_ (clear_initState mem file) hr (fun hclear => hclear.1)
      (not_noFlags_of_flagged hret)
    · intro s tr a s₁ es hall hclear hs
      exact clear_of_steps hall hclear (steps_of_step hs)
    · intro s tr a s₁ es hshort _ hs
      exact flagged_of_short hshort (steps_of_step hs)
    · intro s tr a s₁ es hflag hs
      exact flagged_of_steps hflag (steps_of_step hs)

/-- Short reads, and every block is sent in one call. -/
def wholeSends : List Act :=
  [.recv [71, 69, 84], .read 2, .send 2, .read 1, .send 1, .read 0]

theorem worker_sends_wholeSends :
    ∃ s tr, machine.run (initState (fun _ => 0) [1, 2, 3]) wholeSends = some (s, tr) ∧
      s.pc = .returned ∧ AsksRest tr ∧ sentBytes tr = [1, 2, 3] ∧ NoFlags tr := by
  obtain ⟨s, tr, hr, hret⟩ := machine.exists_of_check (initState (fun _ => 0) [1, 2, 3]) wholeSends
    (fun s _ => s.pc = .returned) (by decide +kernel)
  have hal := machine.along_of_check takesAll wholeSends (initState (fun _ => 0) [1, 2, 3])
    (by decide +kernel)
  obtain ⟨hasked, _, hdone⟩ := worker_sends (fun _ => 0) [1, 2, 3] wholeSends s tr hr
  exact ⟨s, tr, hr, hret, hasked, (hdone hret).1, (hdone hret).2.mpr hal⟩

/-- The first `send` of the only block is short. -/
def shortSend : List Act := [.recv [], .read 3, .send 1, .send 2, .read 0]

/-- The second `send` has flags 1 (`MSG_OOB`). -/
theorem short_send_sets_flags :
    ∃ s tr, machine.run (initState (fun _ => 0) [1, 2, 3]) shortSend = some (s, tr) ∧
      s.pc = .returned ∧
      tr = [.block [1, 2, 3], .send ⟨[1, 2, 3], 0, [1]⟩, .send ⟨[2, 3], 1, [2, 3]⟩, .block []] :=
  machine.exists_of_check (initState (fun _ => 0) [1, 2, 3]) shortSend
    (fun s tr => s.pc = .returned ∧
      tr = [.block [1, 2, 3], .send ⟨[1, 2, 3], 0, [1]⟩, .send ⟨[2, 3], 1, [2, 3]⟩, .block []])
    (by decide +kernel)

end DemosOsLinux.WebServer
