/-
  The kernel list as a queue (kernel/list.inc): elements are added at the head and removed at the
  tail.

  * `QueueInv`: what has been added is what has been removed followed by what is in the list.
  * `list_is_fifo`: adding, removing, testing and printing in every run without iterator deletion.
-/
import DemosOsLinux.KernelList.Runs

namespace DemosOsLinux.KernelList

open Lib

/-- The entries added, in the order of the calls. -/
def added (tr : List Event) : List (Addr × Addr) :=
  tr.filterMap fun
    | .added node ptr => some (node, ptr)
    | _ => none

/-- The entries removed: the node that was freed and the pointer that was returned. -/
def removed (tr : List Event) : List (Addr × Addr) :=
  tr.filterMap fun
    | .removed node ptr => some (node, ptr)
    | _ => none

theorem added_append (tr es : List Event) : added (tr ++ es) = added tr ++ added es :=
  List.filterMap_append

theorem removed_append (tr es : List Event) : removed (tr ++ es) = removed tr ++ removed es :=
  List.filterMap_append

def Act.IsQueueOp : Act → Prop
  | .add _ _ | .del | .isempty | .print => True
  | _ => False

/-- There is a list, and what has been added and not removed is in it. -/
structure QueueInv (s : State) (tr : List Event) : Prop where
  inv : Inv s
  created : s.lptr ≠ 0
  entries : added tr = removed tr ++ s.entries.reverse

section Queue

variable {s s' : State} {act : Act} {es tr : List Event}

theorem Inv.step_eq_callStep (inv : Inv s) (act : Act) (hact : act.IsQueueOp) :
    driver.step s act = callStep s act := by
  simp only [driver, step, if_neg inv.not_fault]
  cases act with
  | add ptr a => rfl
  | del => rfl
  | isempty => rfl
  | print => rfl
  | _ => exact hact.elim

/-- A call that neither adds nor removes. -/
theorem QueueInv.unchanged (q : QueueInv s tr) (hadded : added es = []) (hremoved : removed es = []) :
    QueueInv s (tr ++ es) := by
  refine ⟨q.inv, q.created, ?_⟩
  rw [added_append, removed_append, hadded, hremoved, List.append_nil, List.append_nil]
  exact q.entries

theorem QueueInv.of_step (q : QueueInv s tr) (hact : act.IsQueueOp)
    (h : driver.step s act = some (s', es)) : QueueInv s' (tr ++ es) := by
  rw [q.inv.step_eq_callStep act hact] at h
  have hharmless : Harmless s act := by
    cases act with
    | destroy => exact hact.elim
    | iterDel advance => exact hact.elim
    | _ => trivial
  have inv' : Inv s' := q.inv.of_callStep hharmless h
  cases act with
  | add ptr a =>
    have hfresh : Fresh s.heap a := by
      by_contra hno
      simp only [callStep, if_neg hno] at h
      cases h
    obtain ⟨heap, hadd, _⟩ := q.inv.callStep_add q.created hfresh ptr
    rw [hadd] at h
    obtain ⟨rfl, rfl⟩ := result_inj h
    refine ⟨inv', q.created, ?_⟩
    rw [added_append, removed_append, q.entries]
    simp [added, removed]
  | del =>
    rcases List.eq_nil_or_concat s.entries with hempty | ⟨rest, e, hentries⟩
    · rw [q.inv.callStep_del_empty q.created hempty] at h
      obtain ⟨rfl, rfl⟩ := result_inj h
      exact q.unchanged rfl rfl
    · rw [List.concat_eq_append] at hentries
      obtain ⟨heap, hdel, _⟩ := q.inv.callStep_del q.created hentries
      rw [hdel] at h
      obtain ⟨rfl, rfl⟩ := result_inj h
      refine ⟨inv', q.created, ?_⟩
      rw [added_append, removed_append, q.entries, hentries]
      simp [added, removed]
  | isempty =>
    rw [q.inv.callStep_isempty q.created] at h
    obtain ⟨rfl, rfl⟩ := result_inj h
    exact q.unchanged rfl rfl
  | print =>
    rw [q.inv.callStep_print q.created] at h
    obtain ⟨rfl, rfl⟩ := result_inj h
    exact q.unchanged rfl rfl
  | _ => exact hact.elim

theorem queueInv_of_run {h : Heap} {a : Addr} {acts : List Act}
    (hacts : ∀ act ∈ acts, act.IsQueueOp)
    (hr : driver.run (initState h) (.create a :: acts) = some (s, tr)) : QueueInv s tr := by
  obtain ⟨s₁, es, es₂, hcreate, hrest, rfl⟩ := (driver.run_cons_eq_some _ _ _ _ _).mp hr
  have hcall : callStep (initState h) (.create a) = some (s₁, es) := hcreate
  have hfresh : Fresh h a := by
    by_contra hno
    have hnone : callStep (initState h) (.create a) = none := if_neg hno
    rw [hnone] at hcall
    cases hcall
  obtain ⟨heap, hcreated, rep⟩ := callStep_create (initState h) hfresh
  have inv₁ := (inv_initState h).of_create hcall
  rw [hcreated] at hcall
  obtain ⟨rfl, rfl⟩ := result_inj hcall
  refine driver.run_induct Act.IsQueueOp QueueInv ?_ hacts ⟨inv₁, hfresh.1, rfl⟩ hrest
  intro s tr act s' es hact q hs
  exact q.of_step hact hs

end Queue

/-- **A queue.** A list is created, then elements are added and removed, the list is tested and
    printed, in any order. What has been removed is the beginning of what has been added, in the
    order of adding. `isempty` says whether as many elements were removed as added. If so, `del`
    returns `NULL` and changes nothing; if not, it returns the pointer of the oldest element left and
    frees its node and nothing else. The loop of `print` ends, and it visits every element left once,
    newest first. -/
theorem list_is_fifo (h : Heap) (a : Addr) (acts : List Act) (s : State) (tr : List Event)
    (hacts : ∀ act ∈ acts, act.IsQueueOp)
    (hr : driver.run (initState h) (.create a :: acts) = some (s, tr)) :
    removed tr <+: added tr ∧
    driver.step s .isempty =
      some (s, [.isempty (decide ((removed tr).length = (added tr).length))]) ∧
    ((removed tr).length = (added tr).length → driver.step s .del = some (s, [.notRemoved 0,
      .error "ERROR - pop should not be called on an empty list"])) ∧
    (∀ e, (added tr)[(removed tr).length]? = some e →
      ∃ s', driver.step s .del = some (s', [.removed e.1 e.2]) ∧ e.1 ∈ s.heap.live ∧
        s'.heap.live = s.heap.live.erase e.1) ∧
    (driver.step s .print =
      some (s, [.printed ((added tr).drop (removed tr).length).reverse]) ∧
      (((added tr).drop (removed tr).length).map Prod.fst).Nodup ∧
      ∃ n, ∀ fuel, n ≤ fuel → printLoop s.heap s.lptr fuel (s.heap.next s.lptr) =
        some ((added tr).drop (removed tr).length).reverse) := by
  have q := queueInv_of_run hacts hr
  have rep := q.inv.rep q.created
  have hleft : (added tr).drop (removed tr).length = s.entries.reverse := by
    rw [q.entries, List.drop_left]
  have hlength : (removed tr).length = (added tr).length ↔ s.entries = [] := by
    rw [q.entries, List.length_append, List.length_reverse, Nat.left_eq_add, List.length_eq_zero_iff]
  refine ⟨⟨s.entries.reverse, q.entries.symm⟩, ?_, ?_, ?_, ?_, ?_, ?_⟩
  · rw [q.inv.step_eq_callStep .isempty trivial, q.inv.callStep_isempty q.created]
    simp only [hlength]
  · intro heq
    rw [q.inv.step_eq_callStep .del trivial]
    exact q.inv.callStep_del_empty q.created (hlength.mp heq)
  · intro e he
    rw [q.entries, List.getElem?_append_right (Nat.le_refl _), Nat.sub_self,
      ← List.head?_eq_getElem?, List.head?_reverse] at he
    obtain ⟨rest, hentries⟩ := List.getLast?_eq_some_iff.mp he
    obtain ⟨heap, hdel, _, hlive⟩ := q.inv.callStep_del q.created hentries
    refine ⟨_, (q.inv.step_eq_callStep .del trivial).trans hdel, rep.live e.1 ?_, hlive⟩
    rw [hentries]
    simp
  · rw [q.inv.step_eq_callStep .print trivial, q.inv.callStep_print q.created, hleft,
      List.reverse_reverse]
  · rw [hleft, List.map_reverse, List.nodup_reverse]
    exact (List.nodup_cons.mp rep.ring.nodup).2
  · refine ⟨s.entries.length + 1, fun fuel hfuel => ?_⟩
    rw [hleft, List.reverse_reverse]
    exact printLoop_rep rep q.created hfuel

/-- Three elements are added and two removed. -/
def threeTwoRun : List Act := [.add 7 101, .add 8 102, .del, .isempty, .add 9 103, .print, .del]

theorem list_is_fifo_threeTwoRun :
    ∃ s tr, driver.run (initState noHeap) (.create 100 :: threeTwoRun) = some (s, tr) ∧
      (added tr = [(101, 7), (102, 8), (103, 9)] ∧ removed tr = [(101, 7), (102, 8)]) ∧
      ∃ s', driver.step s .del = some (s', [.removed 103 9]) ∧
        s'.heap.live = s.heap.live.erase 103 := by
  obtain ⟨s, tr, hr, hadded, hremoved⟩ := driver.exists_of_check (initState noHeap)
    (.create 100 :: threeTwoRun)
    (fun _ tr => added tr = [(101, 7), (102, 8), (103, 9)] ∧ removed tr = [(101, 7), (102, 8)])
    (by decide +kernel)
  have hacts : ∀ act ∈ threeTwoRun, act.IsQueueOp := by
    simp [threeTwoRun, Act.IsQueueOp]
  obtain ⟨_, _, _, hdel, _⟩ := list_is_fifo noHeap 100 threeTwoRun s tr hacts hr
  obtain ⟨s', hs', _, hlive⟩ := hdel (103, 9) (by rw [hadded, hremoved]; rfl)
  exact ⟨s, tr, hr, ⟨hadded, hremoved⟩, s', hs', hlive⟩

end DemosOsLinux.KernelList
