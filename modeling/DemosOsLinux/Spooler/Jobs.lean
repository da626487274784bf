/-
  What becomes of a job.

  A job is a client run that was not turned away; the jobs are numbered in this order. The
  `Ledger` of a run is read off its messages: which job each record holds, which jobs were
  printed, and which were overwritten before.
  * `Kept`: the records in use are those that hold a job, and each job is in one record or was
    printed, once.
  * `spooler_keeps_jobs`: this holds after every sequence of runs, and no job is overwritten.
-/
import Mathlib.Logic.Function.Basic
import DemosOsLinux.Spooler.Index

namespace DemosOsLinux.Spooler

open Lib

structure Ledger where
  /-- The number of jobs so far. -/
  jobs : Nat
  /-- The job that a record holds. -/
  held : Nat → Option Nat
  printed : List (Option Nat)
  overwritten : List Nat

def Ledger.add (l : Ledger) : Event → Ledger
  | .spooled k _ _ =>
      { l with
        jobs := l.jobs + 1
        held := Function.update l.held k (some l.jobs)
        overwritten := l.overwritten ++ (l.held k).toList }
  | .printing k _ _ =>
      { l with
        held := Function.update l.held k none
        printed := l.printed ++ [l.held k] }
  | _ => l

def ledger (tr : List Event) : Ledger := tr.foldl Ledger.add ⟨0, fun _ => none, [], []⟩

theorem ledger_append (tr : List Event) (e : Event) : ledger (tr ++ [e]) = (ledger tr).add e :=
  List.foldl_append

/-- Record `k` is in use. -/
def InUse (f : File) (k : Nat) : Prop := ∃ r, (records f)[k]? = some r ∧ r.used = true

structure Kept (f : File) (l : Ledger) : Prop where
  used : ∀ k, InUse f k ↔ ∃ j, l.held k = some j
  apart : ∀ k i j, l.held k = some j → l.held i = some j → k = i
  /-- Each job is held or was printed. -/
  jobs : ∀ j, j < l.jobs ↔ some j ∈ l.printed ∨ ∃ k, l.held k = some j
  /-- Not both. -/
  held : ∀ k j, l.held k = some j → some j ∉ l.printed
  known : none ∉ l.printed
  once : l.printed.Nodup
  overwritten : l.overwritten = []

section Step

variable {f f' : File} {l : Ledger} {k : Nat}

theorem held_spooled {id i j : Nat} {path : List UInt8} :
    (l.add (.spooled k id path)).held i = some j ↔
      (i = k ∧ j = l.jobs) ∨ (i ≠ k ∧ l.held i = some j) := by
  simp only [Ledger.add]
  by_cases e : i = k
  · simp [e, eq_comm]
  · simp [e]

theorem held_printing {id i j : Nat} {path : List UInt8} :
    (l.add (.printing k id path)).held i = some j ↔ i ≠ k ∧ l.held i = some j := by
  simp only [Ledger.add]
  by_cases e : i = k
  · simp [e]
  · simp [e]

theorem Kept.held_lt (h : Kept f l) {j : Nat} (hk : l.held k = some j) : j < l.jobs :=
  (h.jobs j).mpr (Or.inr ⟨k, hk⟩)

/-- What is not in use holds no job. -/
theorem Kept.held_none (h : Kept f l) (hk : ¬InUse f k) : l.held k = none := by
  cases hj : l.held k with
  | none => rfl
  | some j => exact absurd ((h.used k).mpr ⟨j, hj⟩) hk

/-- Only the records in use matter. -/
theorem Kept.congr (h : Kept f l) (huse : ∀ k, InUse f' k ↔ InUse f k) : Kept f' l :=
  { h with used := fun k => (huse k).trans (h.used k) }

/-- A new job in a record that is free. -/
theorem Kept.spooled (h : Kept f l) (hk : ¬InUse f k) (id : Nat) (path : List UInt8)
    (huse : ∀ i, InUse f' i ↔ i = k ∨ InUse f i) : Kept f' (l.add (.spooled k id path)) := by
  have hnone := h.held_none hk
  refine ⟨fun i => ?_, fun i i' j hi hi' => ?_, fun j => ?_, fun i j hi => ?_, h.known, h.once, ?_⟩
  · simp only [huse, held_spooled, h.used]
    by_cases e : i = k
    · simp [e]
    · simp [e]
  · rcases held_spooled.mp hi with ⟨hik, hj⟩ | ⟨_, hold⟩
    · rcases held_spooled.mp hi' with ⟨hik', _⟩ | ⟨_, hold'⟩
      · rw [hik, hik']
      · exact absurd (hj ▸ h.held_lt hold') (Nat.lt_irrefl _)
    · rcases held_spooled.mp hi' with ⟨_, hj⟩ | ⟨_, hold'⟩
      · exact absurd (hj ▸ h.held_lt hold) (Nat.lt_irrefl _)
      · exact h.apart i i' j hold hold'
  · change j < l.jobs + 1 ↔ some j ∈ l.printed ∨ _
    constructor
    · intro hj
      rcases Nat.lt_succ_iff_lt_or_eq.mp hj with hj | rfl
      · rcases (h.jobs j).mp hj with hmem | ⟨i, hi⟩
        · exact Or.inl hmem
        · refine Or.inr ⟨i, held_spooled.mpr (Or.inr ⟨?_, hi⟩)⟩
          rintro rfl
          rw [hnone] at hi
          cases hi
      · exact Or.inr ⟨k, held_spooled.mpr (Or.inl ⟨rfl, rfl⟩)⟩
    · rintro (hmem | ⟨i, hi⟩)
      · exact Nat.lt_succ_of_lt ((h.jobs j).mpr (Or.inl hmem))
      · rcases held_spooled.mp hi with ⟨_, rfl⟩ | ⟨_, hi⟩
        · exact Nat.lt_succ_self _
        · exact Nat.lt_succ_of_lt (h.held_lt hi)
  · rcases held_spooled.mp hi with ⟨_, rfl⟩ | ⟨_, hi⟩
    · intro hmem
      exact absurd ((h.jobs l.jobs).mpr (Or.inl hmem)) (Nat.lt_irrefl _)
    · exact h.held i j hi
  · simp [Ledger.add, h.overwritten, hnone]

/-- The job of record `k` is printed and the record marked free. -/
theorem Kept.printing (h : Kept f l) (hk : InUse f k) (id : Nat) (path : List UInt8)
    (huse : ∀ i, InUse f' i ↔ i ≠ k ∧ InUse f i) : Kept f' (l.add (.printing k id path)) := by
  obtain ⟨j₀, hj₀⟩ := (h.used k).mp hk
  have hmem (x : Option Nat) : x ∈ (l.add (.printing k id path)).printed ↔
      x ∈ l.printed ∨ x = some j₀ := by
    simp only [Ledger.add, List.mem_append, List.mem_singleton, hj₀]
  refine ⟨fun i => ?_, fun i i' j hi hi' => ?_, fun j => ?_, fun i j hi => ?_, ?_, ?_,
    h.overwritten⟩
  · simp only [huse, held_printing, h.used]
    exact ⟨fun ⟨hne, j, hj⟩ => ⟨j, hne, hj⟩, fun ⟨j, hne, hj⟩ => ⟨hne, j, hj⟩⟩
  · exact h.apart i i' j (held_printing.mp hi).2 (held_printing.mp hi').2
  · rw [hmem]
    constructor
    · intro hj
      rcases (h.jobs j).mp hj with hj | ⟨i, hi⟩
      · exact Or.inl (Or.inl hj)
      · by_cases e : i = k
        · rw [e, hj₀] at hi
          exact Or.inl (Or.inr hi.symm)
        · exact Or.inr ⟨i, held_printing.mpr ⟨e, hi⟩⟩
    · rintro ((hj | hj) | ⟨i, hi⟩)
      · exact (h.jobs j).mpr (Or.inl hj)
      · cases hj
        exact h.held_lt hj₀
      · exact h.held_lt (held_printing.mp hi).2
  · rw [hmem]
    obtain ⟨hne, hi⟩ := held_printing.mp hi
    rintro (hj | hj)
    · exact h.held i j hi hj
    · cases hj
      exact hne (h.apart i k _ hi hj₀)
  · rw [hmem]
    rintro (hn | hn)
    · exact h.known hn
    · cases hn
  · refine List.nodup_append.mpr ⟨h.once, by simp, ?_⟩
    intro x hx y hy hxy
    rw [List.mem_singleton.mp hy, hj₀] at hxy
    rw [hxy] at hx
    exact h.held k j₀ hj₀ hx

end Step

/-! ## One run -/

section Run

variable {f f' : File} {a : Act} {es tr : List Event}

theorem inUse_writeRecord {ix : Index} {k : Nat} {r : Record} (hk : k ≤ (records f).length)
    (hix : ix.records = writeRecord (records f) k r) (i : Nat) :
    InUse (some ix) i ↔ (i = k ∧ r.used = true) ∨ (i ≠ k ∧ InUse f i) := by
  change (∃ q, ix.records[i]? = some q ∧ q.used = true) ↔ _
  rw [hix]
  by_cases e : i = k
  · rw [e, writeRecord_self hk]
    simp
  · rw [writeRecord_of_ne hk e]
    simp [e, InUse]

/-- The record that the server prints. -/
theorem record_of_split {ix : Index} {zs rest : List Record} {r : Record}
    (hrs : ix.records = zs ++ r :: rest) :
    (records (some ix))[zs.length]? = some r ∧ zs.length ≤ (records (some ix)).length := by
  change ix.records[zs.length]? = some r ∧ zs.length ≤ ix.records.length
  rw [hrs, List.length_append]
  exact ⟨by simp, Nat.le_add_right _ _⟩

/-- The record that the client takes is free. -/
theorem not_inUse_clientId {garbage : Record}
    (h : ((readRecord f (clientId f)).getD garbage).used = false) : ¬InUse f (clientId f) := by
  rintro ⟨r, hr, hused⟩
  cases f with
  | none => cases hr
  | some ix =>
    have hread : readRecord (some ix) (clientId (some ix)) = some r := hr
    rw [hread, Option.getD_some, hused] at h
    cases h

theorem kept_of_steps (inv : FileInv f) (hk : Kept f (ledger tr)) (h : Steps f a f' es) :
    Kept f' (ledger (tr ++ es)) := by
  cases h with
  | full path garbage h =>
    rw [ledger_append]
    exact hk
  | first garbage h =>
    rw [List.append_nil]
    refine hk.congr fun k => ?_
    subst h
    simp [InUse, records, List.getElem?_singleton, Record.used]
  | spooled path garbage h =>
    rw [ledger_append]
    refine hk.spooled (not_inUse_clientId h) _ _ fun i => ?_
    rw [inUse_writeRecord (clientId_le inv).1 rfl]
    by_cases e : i = clientId f
    · simp [e, Record.used]
    · simp [e]
  | print garbage ix zs rest r h hrs hz hr =>
    subst h
    obtain ⟨hget, hle⟩ := record_of_split hrs
    rw [ledger_append]
    refine hk.printing ⟨r, hget, hr⟩ _ _ fun i => ?_
    rw [inUse_writeRecord hle rfl]
    simp [Record.used]
  | bare garbage ix f' es h hrs =>
    have hpos := (inv ix h).length_pos
    rw [hrs] at hpos
    cases hpos

end Run

/-! ## All runs -/

theorem kept_of_run {acts : List Act} {f : File} {tr : List Event}
    (hr : spooler.run none acts = some (f, tr)) : FileInv f ∧ Kept f (ledger tr) := by
  refine spooler.run_induct (fun _ => True) (fun f tr => FileInv f ∧ Kept f (ledger tr)) ?_
    (fun _ _ => trivial) ?_ hr
  · rintro f tr a f' es _ ⟨inv, hk⟩ hs
    exact ⟨fileInv_of_steps inv (steps_of_step hs), kept_of_steps inv hk (steps_of_step hs)⟩
  · refine ⟨fun _ h => (by cases h), ⟨fun k => ?_, fun _ _ _ h => (by cases h), fun j => ?_,
      fun _ _ h => (by cases h), List.not_mem_nil, List.nodup_nil, rfl⟩⟩
    · simp [InUse, records, ledger]
    · simp [ledger]

/-- **The spooler keeps its jobs.** After every sequence of client runs and of server runs that
    end, from an empty file on, whatever the buffers held before: record `k` has `ID` 0 or
    `k + 1`; there are at most 129 records, and no client run left a gap between them; no job was
    overwritten; each job is printed at most once, and its record is in use until the server run
    that prints it. -/
theorem spooler_keeps_jobs (acts : List Act) (f : File) (tr : List Event)
    (hr : spooler.run none acts = some (f, tr)) :
    (∀ k r, (records f)[k]? = some r → r.id = 0 ∨ r.id = k + 1) ∧
    (records f).length ≤ 129 ∧
    spooler.Along (fun f _ => clientId f ≤ (records f).length) none acts ∧
    Kept f (ledger tr) := by
  obtain ⟨inv, hk⟩ := kept_of_run hr
  refine ⟨fun _ _ => ids_records inv, length_records_le inv, ?_, hk⟩
  refine (spooler.along_congr (Q := fun _ _ => True) FileInv ?_ ?_ ?_ hr).mpr ?_
  · intro f a f' es inv _ hs
    exact fileInv_of_steps inv (steps_of_step hs)
  · intro f a f' es inv hs
    exact iff_true_intro (clientId_le inv).1
  · rintro _ ⟨⟩
  · exact spooler.along_of_forall (fun _ => True) acts (fun _ _ => trivial) none

/-- Two jobs, one of them printed, and a client whose buffer says that the table is full. -/
def twoJobsRun : List Act :=
  [.client [97] ⟨0, []⟩, .client [98] ⟨0, [1]⟩, .server ⟨7, []⟩, .client [99] ⟨7, []⟩]

theorem spooler_keeps_jobs_twoJobsRun :
    ∃ f tr, spooler.run none twoJobsRun = some (f, tr) ∧
      records f = [⟨0, [97]⟩, ⟨2, [98]⟩] ∧ (ledger tr).printed = [some 0] ∧
      Kept f (ledger tr) := by
  obtain ⟨f, tr, hr, hf, hp⟩ := spooler.exists_of_check none twoJobsRun
    (fun f tr => records f = [⟨0, [97]⟩, ⟨2, [98]⟩] ∧ (ledger tr).printed = [some 0])
    (by decide +kernel)
  exact ⟨f, tr, hr, hf, hp, (spooler_keeps_jobs twoJobsRun f tr hr).2.2.2⟩

end DemosOsLinux.Spooler
