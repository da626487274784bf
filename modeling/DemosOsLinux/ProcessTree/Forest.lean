/-
  The parent relation among scanned processes.

  A scan of /proc is a list of records with distinct pids. The parents are arbitrary: they need not
  have been scanned, and they may form cycles. `Rooted p d`: the parents of `p` lead to a pid that was
  not scanned, past `d` scanned ancestors.
  * `Rooted.unique`, `Rooted.lt_length`: the depth is determined by the pid, and it is less than the
    number of records.
  * `forall_rooted_iff`: every process is rooted if and only if the parents have no cycle.
-/
import Mathlib.Data.Fintype.EquivFin
import Mathlib.Data.Fintype.Sets
import Mathlib.Data.List.Nodup
import Mathlib.Logic.Relation

namespace DemosOsLinux.ProcessTree

structure Record where
  pid : Int
  ppid : Int
  name : String

/-- What `scan_proc` has read. -/
structure Scan where
  records : List Record
  distinct : (records.map Record.pid).Nodup

variable {scan : Scan} {d : Nat} {p : Int}

def Scan.Scanned (scan : Scan) (p : Int) : Prop := ∃ r ∈ scan.records, r.pid = p

/-- `q` was recorded as the parent of `p`. -/
def Scan.Parent (scan : Scan) (p q : Int) : Prop := ∃ r ∈ scan.records, r.pid = p ∧ r.ppid = q

/-- The parents of `p` lead to a pid that was not scanned, past `d` scanned ancestors. -/
inductive Rooted (scan : Scan) : Int → Nat → Prop where
  | root {r : Record} : r ∈ scan.records → ¬scan.Scanned r.ppid → Rooted scan r.pid 0
  | child {r : Record} {d : Nat} : r ∈ scan.records → Rooted scan r.ppid d →
      Rooted scan r.pid (d + 1)

theorem Scan.eq_of_pid {r r' : Record} (hr : r ∈ scan.records) (hr' : r' ∈ scan.records)
    (h : r.pid = r'.pid) : r = r' := List.inj_on_of_nodup_map scan.distinct hr hr' h

theorem Rooted.scanned (h : Rooted scan p d) : scan.Scanned p := by
  cases h with
  | root hr _ => exact ⟨_, hr, rfl⟩
  | child hr _ => exact ⟨_, hr, rfl⟩

/-- One step up from a rooted process. -/
theorem Rooted.up {r : Record} (hr : r ∈ scan.records) (h : Rooted scan r.pid d) :
    (d = 0 ∧ ¬scan.Scanned r.ppid) ∨ ∃ e, d = e + 1 ∧ Rooted scan r.ppid e := by
  generalize hp : r.pid = p at h
  cases h with
  | root hr' hroot =>
    obtain rfl := scan.eq_of_pid hr hr' hp
    exact Or.inl ⟨rfl, hroot⟩
  | @child r' e hr' hparent =>
    obtain rfl := scan.eq_of_pid hr hr' hp
    exact Or.inr ⟨e, rfl, hparent⟩

theorem Rooted.unique {e : Nat} (h : Rooted scan p d) (h' : Rooted scan p e) : d = e := by
  induction h generalizing e with
  | root hr hroot =>
    rcases h'.up hr with ⟨rfl, -⟩ | ⟨_, -, hparent⟩
    · rfl
    · exact absurd hparent.scanned hroot
  | child hr hparent ih =>
    rcases h'.up hr with ⟨-, hroot⟩ | ⟨e', rfl, hparent'⟩
    · exact absurd hparent.scanned hroot
    · rw [ih hparent']

/-- A process and its scanned ancestors. -/
theorem Rooted.exists_ancestors (h : Rooted scan p d) :
    ∃ l : List Int, l.length = d + 1 ∧ l.Nodup ∧ ∀ q ∈ l, ∃ e ≤ d, Rooted scan q e := by
  induction h with
  | @root r hr hroot =>
    exact ⟨[r.pid], rfl, List.nodup_singleton _, fun q hq =>
      ⟨0, Nat.le_refl 0, List.mem_singleton.mp hq ▸ Rooted.root hr hroot⟩⟩
  | @child r d hr hparent ih =>
    obtain ⟨l, hlen, hnodup, hl⟩ := ih
    refine ⟨r.pid :: l, by rw [List.length_cons, hlen], List.nodup_cons.mpr ⟨?_, hnodup⟩, ?_⟩
    · intro hmem
      obtain ⟨e, he, hrooted⟩ := hl _ hmem
      have heq := hrooted.unique (Rooted.child hr hparent)
      omega
    · intro q hq
      rcases List.mem_cons.mp hq with rfl | hq
      · exact ⟨d + 1, Nat.le_refl _, Rooted.child hr hparent⟩
      · obtain ⟨e, he, hrooted⟩ := hl q hq
        exact ⟨e, by omega, hrooted⟩

theorem Rooted.lt_length (h : Rooted scan p d) : d < scan.records.length := by
  obtain ⟨l, hlen, hnodup, hl⟩ := h.exists_ancestors
  have hsub : l ⊆ scan.records.map Record.pid := by
    intro q hq
    obtain ⟨e, -, hrooted⟩ := hl q hq
    obtain ⟨r, hr, rfl⟩ := hrooted.scanned
    exact List.mem_map_of_mem hr
  have hle := (hnodup.subperm hsub).length_le
  rw [hlen, List.length_map] at hle
  exact hle

/-! ## Cycles -/

/-- The way up from a rooted process to a scanned one is downwards in depth. -/
theorem Rooted.lt_of_transGen {q : Int} (h : Rooted scan p d)
    (hpq : Relation.TransGen scan.Parent p q) (hq : scan.Scanned q) : ∃ e < d, Rooted scan q e := by
  induction hpq using Relation.TransGen.head_induction_on generalizing d with
  | single hparent =>
    obtain ⟨r, hr, rfl, rfl⟩ := hparent
    rcases h.up hr with ⟨-, hroot⟩ | ⟨e, rfl, hrooted⟩
    · exact absurd hq hroot
    · exact ⟨e, Nat.lt_succ_self e, hrooted⟩
  | head hparent hrest ih =>
    obtain ⟨r, hr, rfl, rfl⟩ := hparent
    rcases h.up hr with ⟨-, hroot⟩ | ⟨e, rfl, hrooted⟩
    · refine absurd ?_ hroot
      obtain ⟨_, ⟨r', hr', hpid, -⟩, -⟩ := Relation.TransGen.head'_iff.mp hrest
      exact ⟨r', hr', hpid⟩
    · obtain ⟨e', he', hq'⟩ := ih hrooted
      exact ⟨e', by omega, hq'⟩

/-- Without cycles, going up comes to an end. -/
theorem exists_rooted (hacyclic : ∀ p, ¬Relation.TransGen scan.Parent p p) {r : Record}
    (hr : r ∈ scan.records) : ∃ d, Rooted scan r.pid d := by
  let above : {p // p ∈ scan.records.map Record.pid} → {p // p ∈ scan.records.map Record.pid} →
    Prop := fun q p => Relation.TransGen scan.Parent p q
  have htrans : IsTrans _ above := ⟨fun _ _ _ hqp hps => hps.trans hqp⟩
  have hirrefl : Std.Irrefl above := ⟨fun p => hacyclic p⟩
  have hwf : WellFounded above := Finite.wellFounded_of_trans_of_irrefl above
  have hall : ∀ p : {p // p ∈ scan.records.map Record.pid}, ∃ d, Rooted scan p d := by
    intro p
    induction p using hwf.induction with
    | _ p ih =>
      obtain ⟨p, hp⟩ := p
      obtain ⟨r, hr, rfl⟩ := List.mem_map.mp hp
      by_cases hscanned : scan.Scanned r.ppid
      · obtain ⟨r', hr', hpid⟩ := hscanned
        have hparent : scan.Parent r.pid r'.pid := ⟨r, hr, rfl, hpid.symm⟩
        obtain ⟨d, hd⟩ := ih ⟨r'.pid, List.mem_map_of_mem hr'⟩ (Relation.TransGen.single hparent)
        exact ⟨d + 1, Rooted.child hr (hpid ▸ hd)⟩
      · exact ⟨0, Rooted.root hr hscanned⟩
  exact hall ⟨r.pid, List.mem_map_of_mem hr⟩

theorem forall_rooted_iff :
    (∀ r ∈ scan.records, ∃ d, Rooted scan r.pid d) ↔
      ∀ p, ¬Relation.TransGen scan.Parent p p := by
  constructor
  · intro hall p hcycle
    obtain ⟨_, ⟨r, hr, rfl, -⟩, -⟩ := Relation.TransGen.head'_iff.mp hcycle
    obtain ⟨d, hd⟩ := hall r hr
    obtain ⟨e, he, hrooted⟩ := hd.lt_of_transGen hcycle ⟨r, hr, rfl⟩
    rw [hd.unique hrooted] at he
    exact absurd he (Nat.lt_irrefl e)
  · exact fun hacyclic r hr => exists_rooted hacyclic hr

end DemosOsLinux.ProcessTree
