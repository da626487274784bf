/-
  The order of the jobs.

  The `ID` of a job is its record's number plus 1, and the server prints from the first record on.
  Until the client's index goes back to 0 the records are filled once, from the front, so the
  `ID`s increase and the jobs are printed in the order of submission. The job that goes back to
  record 0 has a smaller `ID` than the one before, and it is printed before the older jobs behind
  it.
  * `InStep`: as long as the index has not gone back, job `k` is in record `k`.
  * `order_iff_noWrap`: the `ID`s increase, and the jobs are printed in order, if and only if no
    job is accepted behind record 128.
-/
import Mathlib.Data.List.ReduceOption
import DemosOsLinux.Spooler.Jobs

namespace DemosOsLinux.Spooler

open Lib

/-- The `ID`s that the clients print. -/
def spooledIds (tr : List Event) : List Nat :=
  tr.filterMap fun
    | .spooled _ id _ => some id
    | _ => none

/-- The jobs that the server prints. -/
def printedJobs (tr : List Event) : List Nat := (ledger tr).printed.reduceOption

/-- The header of the file. -/
def header : File → Nat
  | none => 0
  | some ix => ix.currid

/-- A client that finds the header behind record 128 is turned away. -/
def noWrap (f : File) : Act → Bool
  | .client _ garbage =>
      header f ≤ maxIndexSize || ((readRecord f (clientId f)).getD garbage).used
  | .server _ => true

/-- What holds as long as the index has not gone back. -/
structure InStep (f : File) (tr : List Event) : Prop where
  inv : FileInv f
  kept : Kept f (ledger tr)
  jobs : (ledger tr).jobs = header f
  /-- Job `k` is in record `k`. -/
  held : ∀ k j, (ledger tr).held k = some j → j = k
  ids : spooledIds tr = List.range' 1 (header f)
  printed : (printedJobs tr).Pairwise (· < ·)
  /-- What is printed is older than what is held. -/
  older : ∀ j ∈ printedJobs tr, ∀ k, InUse f k → j < k

section Step

variable {f f' : File} {a : Act} {es tr : List Event}

theorem mem_printedJobs {j : Nat} : j ∈ printedJobs tr ↔ some j ∈ (ledger tr).printed :=
  List.reduceOption_mem_iff

theorem printedJobs_spooled (k id : Nat) (path : List UInt8) :
    printedJobs (tr ++ [.spooled k id path]) = printedJobs tr := by
  rw [printedJobs, ledger_append]
  rfl

theorem printedJobs_printing {k j : Nat} (h : (ledger tr).held k = some j) (id : Nat)
    (path : List UInt8) : printedJobs (tr ++ [.printing k id path]) = printedJobs tr ++ [j] := by
  have hadd : ((ledger tr).add (.printing k id path)).printed =
      (ledger tr).printed ++ [(ledger tr).held k] := rfl
  rw [printedJobs, ledger_append, hadd, h, List.reduceOption_append]
  rfl

theorem spooledIds_append (tr es : List Event) :
    spooledIds (tr ++ es) = spooledIds tr ++ spooledIds es :=
  List.filterMap_append

theorem clientId_of_le (h : header f ≤ maxIndexSize) : clientId f = header f := by
  cases f with
  | none => rfl
  | some ix => exact if_neg (Nat.not_lt.mpr h)

theorem clientId_of_lt (h : maxIndexSize < header f) : clientId f = 0 := by
  cases f with
  | none => rfl
  | some ix => exact if_pos h

/-- A job in the record behind those used so far. -/
theorem InStep.spooled (hi : InStep f tr) {k id : Nat} {path : List UInt8} {garbage : Record}
    (hs : Steps f (.client path garbage) f' [.spooled k id path]) (hk : k = header f)
    (hid : id = header f + 1) (hhd : header f' = header f + 1)
    (huse : ∀ i, InUse f' i → i = k ∨ InUse f i) : InStep f' (tr ++ [.spooled k id path]) := by
  refine ⟨fileInv_of_steps hi.inv hs, kept_of_steps hi.inv hi.kept hs, ?_, ?_, ?_, ?_, ?_⟩
  · rw [ledger_append, hhd, ← hi.jobs]
    rfl
  · intro i j hij
    rw [ledger_append] at hij
    rcases held_spooled.mp hij with ⟨hik, hj⟩ | ⟨_, hold⟩
    · rw [hik, hj, hk, hi.jobs]
    · exact hi.held i j hold
  · have hone : spooledIds [.spooled k id path] = [id] := rfl
    rw [spooledIds_append, hone, hi.ids, hhd, List.range'_1_concat, hid, Nat.add_comm 1]
  · rw [printedJobs_spooled]
    exact hi.printed
  · intro j hj i hi'
    rw [printedJobs_spooled] at hj
    rcases huse i hi' with hik | hold
    · rw [hik, hk, ← hi.jobs]
      exact (hi.kept.jobs j).mpr (Or.inl (mem_printedJobs.mp hj))
    · exact hi.older j hj i hold

/-- The first job of the file is printed. -/
theorem InStep.printing (hi : InStep f tr) {k id : Nat} {path : List UInt8} {garbage : Record}
    (hs : Steps f (.server garbage) f' [.printing k id path]) (hk : InUse f k)
    (hhd : header f' = header f) (huse : ∀ i, InUse f' i → k < i ∧ InUse f i) :
    InStep f' (tr ++ [.printing k id path]) := by
  obtain ⟨j₀, hj₀⟩ := (hi.kept.used k).mp hk
  obtain rfl := hi.held k j₀ hj₀
  have hjobs := printedJobs_printing hj₀ id path
  refine ⟨fileInv_of_steps hi.inv hs, kept_of_steps hi.inv hi.kept hs, ?_, ?_, ?_, ?_, ?_⟩
  · rw [ledger_append, hhd, ← hi.jobs]
    rfl
  · intro i j hij
    rw [ledger_append] at hij
    exact hi.held i j (held_printing.mp hij).2
  · rw [spooledIds_append, hi.ids, hhd]
    exact List.append_nil _
  · rw [hjobs, List.pairwise_append]
    refine ⟨hi.printed, List.pairwise_singleton _ _, fun j hj i hij => ?_⟩
    rw [List.mem_singleton.mp hij]
    exact hi.older j hj j₀ hk
  · intro j hj i hi'
    obtain ⟨hlt, hold⟩ := huse i hi'
    rw [hjobs, List.mem_append, List.mem_singleton] at hj
    rcases hj with hj | rfl
    · exact hi.older j hj i hold
    · exact hlt

/-- A client that finds the file full changes nothing. -/
theorem InStep.full (hi : InStep f tr) : InStep f (tr ++ [.full]) := by
  have hledger : ledger (tr ++ [.full]) = ledger tr := by
    rw [ledger_append]
    rfl
  have hids : spooledIds (tr ++ [.full]) = spooledIds tr := by
    rw [spooledIds_append]
    exact List.append_nil _
  have hjobs : printedJobs (tr ++ [.full]) = printedJobs tr := by
    rw [printedJobs, hledger]
    rfl
  refine ⟨hi.inv, ?_, ?_, ?_, ?_, ?_, ?_⟩
  · rw [hledger]
    exact hi.kept
  · rw [hledger]
    exact hi.jobs
  · rw [hledger]
    exact hi.held
  · rw [hids]
    exact hi.ids
  · rw [hjobs]
    exact hi.printed
  · rw [hjobs]
    exact hi.older

theorem inStep_of_steps (hi : InStep f tr) (hw : noWrap f a = true) (h : Steps f a f' es) :
    InStep f' (tr ++ es) := by
  have hinv := fileInv_of_steps hi.inv h
  have hkept := kept_of_steps hi.inv hi.kept h
  cases h with
  | full path garbage h => exact hi.full
  | spooled path garbage h =>
    have hle : header f ≤ maxIndexSize := by
      simpa [noWrap, h] using hw
    have hk := clientId_of_le hle
    refine hi.spooled (.spooled path garbage h) hk (by rw [hk]) ?_ fun i hi' => ?_
    · rw [← hk]
      rfl
    · rw [inUse_writeRecord (clientId_le hi.inv).1 rfl] at hi'
      rcases hi' with ⟨hik, _⟩ | ⟨_, hold⟩
      · exact Or.inl hik
      · exact Or.inr hold
  | first garbage h =>
    subst h
    rw [List.append_nil] at hkept ⊢
    refine ⟨hinv, hkept, hi.jobs, hi.held, hi.ids, hi.printed, fun j hj k hk => ?_⟩
    obtain ⟨i, hij⟩ := (hkept.used k).mp hk
    exact hi.older j hj k ((hi.kept.used k).mpr ⟨i, hij⟩)
  | print garbage ix zs rest r h hrs hz hr =>
    have h' := h
    subst h'
    obtain ⟨hget, hle⟩ := record_of_split hrs
    refine hi.printing (.print garbage ix zs rest r h hrs hz hr) ⟨r, hget, hr⟩ rfl
      fun i hi' => ?_
    rw [inUse_writeRecord hle rfl] at hi'
    rcases hi' with ⟨_, hused⟩ | ⟨hne, hold⟩
    · cases hused
    · refine ⟨Nat.lt_of_le_of_ne (Nat.le_of_not_lt fun hlt => ?_) (Ne.symm hne), hold⟩
      -- the records before are free
      obtain ⟨q, hq, hused⟩ := hold
      change ix.records[i]? = some q at hq
      rw [hrs, List.getElem?_append_left hlt] at hq
      rw [hz q (List.mem_of_getElem? hq)] at hused
      cases hused
  | bare garbage ix f' es h hrs =>
    have hpos := (hi.inv ix h).length_pos
    rw [hrs] at hpos
    cases hpos

/-- The job that goes back to record 0. -/
theorem ids_of_wrap (hi : InStep f tr) (hw : ¬noWrap f a = true) (h : Steps f a f' es) :
    ¬(spooledIds (tr ++ es)).Pairwise (· < ·) := by
  cases h with
  | full path garbage h => simp [noWrap, h] at hw
  | spooled path garbage h =>
    have hlt : maxIndexSize < header f := by
      simpa [noWrap, h] using hw
    have hone : spooledIds [.spooled (clientId f) (clientId f + 1) path] = [clientId f + 1] := rfl
    rw [spooledIds_append, hone, hi.ids, clientId_of_lt hlt, List.pairwise_append]
    rintro ⟨_, _, hall⟩
    have hmem : 1 ∈ List.range' 1 (header f) := by
      rw [List.mem_range'_1]
      omega
    exact absurd (hall 1 hmem 1 (List.mem_singleton_self _)) (Nat.lt_irrefl 1)
  | first garbage h => exact absurd rfl hw
  | print garbage ix zs rest r h hrs hz hr => exact absurd rfl hw
  | bare garbage ix f' es h hrs => exact absurd rfl hw

end Step

theorem inStep_init : InStep none [] := by
  obtain ⟨inv, hk⟩ := kept_of_run (spooler.run_nil none)
  exact ⟨inv, hk, rfl, fun k j h => (by cases h), rfl, List.Pairwise.nil, fun j h => (by cases h)⟩

/-- **The order of the jobs.** In a sequence of client runs and of server runs that end, from an
    empty file on, each job has a greater `ID` than the one before and the jobs are printed in
    the order of submission, if and only if no job is accepted when the header is behind record
    128. -/
theorem order_iff_noWrap (acts : List Act) (f : File) (tr : List Event)
    (hr : spooler.run none acts = some (f, tr)) :
    ((spooledIds tr).Pairwise (· < ·) ∧ (printedJobs tr).Pairwise (· < ·)) ↔
      spooler.Along (fun f a => noWrap f a = true) none acts := by
  refine spooler.run_along_iff (fun f a => noWrap f a = true) InStep
    (fun _ tr => ¬(spooledIds tr).Pairwise (· < ·))
    (fun f tr a f' es hw hi hs => inStep_of_steps hi hw (steps_of_step hs))
    (fun f tr a f' es hw hi hs => ids_of_wrap hi hw (steps_of_step hs))
    ?_ inStep_init hr ?_ ?_
  · intro f tr a f' es hb _ hp
    rw [spooledIds_append] at hp
    exact hb (List.pairwise_append.mp hp).1
  · intro hi
    refine ⟨?_, hi.printed⟩
    rw [hi.ids]
    exact List.pairwise_lt_range'
  · rintro hb ⟨hids, _⟩
    exact hb hids

/-- Two jobs, both printed. -/
def bothPrintedRun : List Act :=
  [.client [97] ⟨0, []⟩, .client [98] ⟨0, []⟩, .server ⟨0, []⟩, .server ⟨0, []⟩]

theorem order_iff_noWrap_bothPrintedRun :
    ∃ f tr, spooler.run none bothPrintedRun = some (f, tr) ∧ printedJobs tr = [0, 1] ∧
      spooler.Along (fun f a => noWrap f a = true) none bothPrintedRun := by
  obtain ⟨f, tr, hr, hids, hp⟩ := spooler.exists_of_check none bothPrintedRun
    (fun _ tr => spooledIds tr = [1, 2] ∧ printedJobs tr = [0, 1]) (by decide +kernel)
  refine ⟨f, tr, hr, hp, (order_iff_noWrap bothPrintedRun f tr hr).mp ?_⟩
  rw [hids, hp]
  decide

/-- 129 jobs, the first of them printed, one more job, and two more printed. -/
def wrapRun : List Act :=
  List.replicate 129 (.client [97] ⟨0, []⟩) ++
    [.server ⟨0, []⟩, .client [98] ⟨0, []⟩, .server ⟨0, []⟩, .server ⟨0, []⟩]

/-- The job submitted last has `ID` 1, and it is printed before job 1. -/
theorem last_job_overtakes :
    ∃ f tr, spooler.run none wrapRun = some (f, tr) ∧
      (spooledIds tr).drop 128 = [129, 1] ∧ printedJobs tr = [0, 129, 1] :=
  spooler.exists_of_check none wrapRun
    (fun _ tr => (spooledIds tr).drop 128 = [129, 1] ∧ printedJobs tr = [0, 129, 1])
    (by decide +kernel)

end DemosOsLinux.Spooler
