/-
  Sequences of calls on one list (kernel/list.inc, with the global `lptr` of kernel/mod_list.c).

  `create` sets `lptr`, `destroy` sets it to `NULL`; the six commands of `kern_unlocked_ioctl` are
  the first six actions. A client goes through the list with an iterator; it takes values and deletes
  only where the iterator is not over, and its iterator ends with the next `del`. At a deletion it
  may have taken the successor before (`advance`).

  `entries` is the abstract sequence: the nodes with their pointers, newest first. `pending` are the
  nodes that were ever added and have not been freed, `lost` the nodes of lists that a later `create`
  has replaced. `fault`: memory that is not allocated has been accessed or freed.
  * `Inv`: the state of a list on which `api_list_iter_del` has not been called.
  * `Inv.callStep_add`, `Inv.callStep_del`, …: what each call does in such a state.
  * `list_well_formed_iff`: which runs keep the list well-formed.
-/
import DemosOsLinux.KernelList.Api
import DemosOsLinux.Lib.Machine

namespace DemosOsLinux.KernelList

open Lib

structure State where
  heap : Heap
  lptr : Addr
  iter : Option Addr
  entries : List (Addr × Addr)
  pending : List Addr
  lost : List Addr
  fault : Bool

/-- `create` and `add` have the address that `kmalloc` returns. -/
inductive Act where
  | create (a : Addr)
  | destroy
  | isempty
  | add (ptr a : Addr)
  | del
  | print
  | iterInit
  | iterGetval
  | iterNext
  | iterDel (advance : Bool)

inductive Event where
  | isempty (res : Bool)
  | added (node ptr : Addr)
  | removed (node ptr : Addr)
  | notRemoved (ret : Addr)
  | printed (items : List (Addr × Addr))
  | value (ptr : Addr)
  | freed (node : Addr)
  | error (msg : String)
  | crash

def State.crash (s : State) : State × List Event := ({ s with fault := true }, [.crash])

/-- What `kmalloc` can return. -/
def Fresh (h : Heap) (a : Addr) : Prop := a ≠ 0 ∧ a ∉ h.live

instance (h : Heap) (a : Addr) : Decidable (Fresh h a) :=
  inferInstanceAs (Decidable (a ≠ 0 ∧ a ∉ h.live))

/-- The calls on the list itself. -/
def callStep (s : State) : Act → Option (State × List Event)
  | .create a =>
      if Fresh s.heap a then
        match apiListCreate s.heap a with
        | none => some s.crash
        | some (h, lptr) =>
            some ({ s with
              heap := h
              lptr := lptr
              iter := none
              entries := []
              lost := s.entries.map Prod.fst ++ s.lost }, [])
      else none
  | .destroy =>
      match apiListDestroy s.heap s.lptr with
      | none => some s.crash
      | some (h, errs) =>
          some ({ s with heap := h, lptr := 0, iter := none, entries := [] }, errs.map .error)
  | .isempty =>
      match apiListIsempty s.heap s.lptr with
      | none => some s.crash
      | some (b, errs) => some (s, .isempty b :: errs.map .error)
  | .add ptr a =>
      if Fresh s.heap a then
        match apiListAdd s.heap s.lptr ptr a with
        | none => some s.crash
        | some (h, []) =>
            some ({ s with
              heap := h
              entries := (a, ptr) :: s.entries
              pending := a :: s.pending }, [.added a ptr])
        | some (h, errs) => some ({ s with heap := h }, errs.map .error)
      else none
  | .del =>
      match apiListDel s.heap s.lptr with
      | none => some s.crash
      | some (h, ret, []) =>
          some ({ s with
            heap := h
            iter := none
            entries := s.entries.dropLast
            pending := s.pending.erase (s.heap.prev s.lptr) }, [.removed (s.heap.prev s.lptr) ret])
      | some (h, ret, errs) => some ({ s with heap := h }, .notRemoved ret :: errs.map .error)
  | .print =>
      -- a loop that visits more places than there are allocated nodes does not end
      match apiListPrint s.heap s.lptr (s.heap.live.card + 1) with
      | none => some s.crash
      | some (items, errs) => some (s, .printed items :: errs.map .error)
  | _ => none

/-- The steps of an iterator. -/
def iterStep (s : State) (i : Addr) : Act → Option (State × List Event)
  | .iterGetval =>
      if i = s.lptr then none
      else match apiListIterGetval s.heap s.lptr i with
        | none => some s.crash
        | some (v, errs) => some (s, .value v :: errs.map .error)
  | .iterNext =>
      match apiListIterNext s.heap s.lptr i with
      | none => some s.crash
      | some (j, errs) => some ({ s with iter := some j }, errs.map .error)
  | .iterDel advance =>
      if i = s.lptr then none
      else match apiListIterDel s.heap s.lptr i with
        | none => some s.crash
        | some (h, errs) =>
            some ({ s with
              heap := h
              iter := some (if advance then s.heap.next i else i)
              entries := s.entries.filter fun e => e.1 ≠ i
              pending := s.pending.erase i }, .freed i :: errs.map .error)
  | _ => none

def step (s : State) (act : Act) : Option (State × List Event) :=
  if s.fault then none
  else match act with
    | .iterInit =>
        match apiListIterInit s.heap s.lptr with
        | none => some s.crash
        | some (i, []) => some ({ s with iter := some i }, [])
        | some (_, errs) => some ({ s with iter := none }, errs.map .error)
    | .iterGetval | .iterNext | .iterDel _ =>
        match s.iter with
        | none => none
        | some i => iterStep s i act
    | _ => callStep s act

def driver : Machine State Act Event := ⟨step⟩

def initState (h : Heap) : State := ⟨h, 0, none, [], [], [], false⟩

/-! ## Well-formed lists -/

/-- The links form one circular list through allocated nodes that holds the abstract sequence, and
    when the list has been destroyed every node ever added has been freed. -/
structure WellFormed (s : State) : Prop where
  noFault : s.fault = false
  ring : s.lptr ≠ 0 → ∃ nodes, Ring s.heap.next s.heap.prev s.lptr nodes ∧
    (∀ a ∈ s.lptr :: nodes, a ∈ s.heap.live) ∧ nodes.map s.heap.ptr = s.entries.map Prod.snd
  freed : s.lptr = 0 → s.pending = []

/-- No node is deleted at an iterator; a list is destroyed only when it is empty and no `create` has
    replaced one that was not. -/
def Harmless (s : State) : Act → Prop
  | .iterDel _ => False
  | .destroy => s.entries = [] ∧ s.lost = []
  | _ => True

structure Inv (s : State) : Prop where
  noFault : s.fault = false
  rep : s.lptr ≠ 0 → Rep s.heap s.lptr s.entries
  absent : s.lptr = 0 → s.entries = [] ∧ s.lost = []
  pending : s.pending = s.entries.map Prod.fst ++ s.lost
  iter : ∀ i, s.iter = some i → s.lptr ≠ 0 ∧ i ∈ s.lptr :: s.entries.map Prod.fst

theorem inv_initState (h : Heap) : Inv (initState h) :=
  ⟨rfl, fun hne => absurd rfl hne, fun _ => ⟨rfl, rfl⟩, rfl, nofun⟩

theorem Inv.wellFormed {s : State} (inv : Inv s) : WellFormed s := by
  refine ⟨inv.noFault, fun hlptr => ?_, fun hlptr => ?_⟩
  · have rep := inv.rep hlptr
    refine ⟨s.entries.map Prod.fst, rep.ring, rep.live, ?_⟩
    rw [List.map_map]
    exact List.map_congr_left rep.ptr
  · obtain ⟨hentries, hlost⟩ := inv.absent hlptr
    rw [inv.pending, hentries, hlost]
    rfl

/-! ## The calls on a list -/

variable {a : Addr}

section Calls

-- Nearly every proof of this section needs the equations of these three; they are generated once, here.
attribute [local simp] callStep iterStep step

variable {s s' : State} {act : Act} {es : List Event}

theorem callStep_create (s : State) (hfresh : Fresh s.heap a) :
    ∃ h, callStep s (.create a) = some ({ s with
        heap := h
        lptr := a
        iter := none
        entries := []
        lost := s.entries.map Prod.fst ++ s.lost }, []) ∧ Rep h a [] := by
  obtain ⟨h, hcreate, rep, _⟩ := apiListCreate_rep s.heap a
  refine ⟨h, ?_, rep⟩
  simp only [callStep, if_pos hfresh, hcreate]

section Steps

variable (inv : Inv s)
include inv

theorem Inv.callStep_isempty (hlptr : s.lptr ≠ 0) :
    callStep s .isempty = some (s, [.isempty (decide (s.entries = []))]) := by
  simp only [callStep, apiListIsempty_rep (inv.rep hlptr) hlptr, List.map_nil]

theorem Inv.callStep_print (hlptr : s.lptr ≠ 0) :
    callStep s .print = some (s, [.printed s.entries]) := by
  have rep := inv.rep hlptr
  simp only [callStep, apiListPrint_rep rep hlptr rep.length_lt_card, List.map_nil]

theorem Inv.callStep_add (hlptr : s.lptr ≠ 0) (hfresh : Fresh s.heap a) (ptr : Addr) :
    ∃ h, callStep s (.add ptr a) = some ({ s with
        heap := h
        entries := (a, ptr) :: s.entries
        pending := a :: s.pending }, [.added a ptr]) ∧ Rep h s.lptr ((a, ptr) :: s.entries) := by
  obtain ⟨h, hadd, rep, _⟩ := apiListAdd_rep (inv.rep hlptr) hlptr hfresh.2 ptr
  refine ⟨h, ?_, rep⟩
  simp only [callStep, if_pos hfresh, hadd]

theorem Inv.callStep_del_empty (hlptr : s.lptr ≠ 0) (hempty : s.entries = []) :
    callStep s .del = some (s, [.notRemoved 0,
      .error "ERROR - pop should not be called on an empty list"]) := by
  have rep := inv.rep hlptr
  rw [hempty] at rep
  simp only [callStep, apiListDel_empty rep hlptr, List.map_cons, List.map_nil]

theorem Inv.callStep_del (hlptr : s.lptr ≠ 0) {rest : List (Addr × Addr)}
    {e : Addr × Addr} (hentries : s.entries = rest ++ [e]) :
    ∃ h, callStep s .del = some ({ s with
        heap := h
        iter := none
        entries := rest
        pending := rest.map Prod.fst ++ s.lost }, [.removed e.1 e.2]) ∧
      Rep h s.lptr rest ∧ h.live = s.heap.live.erase e.1 := by
  have rep := inv.rep hlptr
  rw [hentries] at rep
  obtain ⟨hprev, h, hdel, hrep, hlive⟩ := apiListDel_rep rep hlptr
  refine ⟨h, ?_, hrep, hlive⟩
  have hnodup := (List.nodup_cons.mp rep.ring.nodup).2
  rw [List.map_append, List.nodup_append] at hnodup
  have hnode : e.1 ∉ rest.map Prod.fst := fun hm =>
    hnodup.2.2 e.1 hm e.1 (List.mem_singleton_self _) rfl
  have hpending : s.pending.erase e.1 = rest.map Prod.fst ++ s.lost := by
    rw [inv.pending, hentries, List.map_append, List.append_assoc, List.erase_append_right _ hnode]
    simp
  have hlast : s.entries.dropLast = rest := by
    rw [hentries, List.dropLast_concat]
  simp only [callStep, hdel, hprev, hpending, hlast]

/-- A call on no list logs and changes nothing. -/
theorem Inv.callStep_null (hlptr : s.lptr = 0) (hact : ∀ a, act ≠ .create a)
    (h : callStep s act = some (s', es)) : s' = s := by
  have hiter : s.iter = none := by
    rcases hi : s.iter with _ | i
    · rfl
    · exact absurd hlptr (inv.iter i hi).1
  have hs : s = { s with lptr := 0, iter := none, entries := [] } := by
    rw [← hlptr, ← hiter, ← (inv.absent hlptr).1]
  cases act with
  | create a => exact absurd rfl (hact a)
  | destroy =>
    simp only [callStep, apiListDestroy, if_pos hlptr] at h
    obtain ⟨rfl, _⟩ := result_inj h
    exact hs.symm
  | isempty =>
    simp only [callStep, apiListIsempty, if_pos hlptr] at h
    exact (result_inj h).1.symm
  | add ptr a =>
    simp only [callStep, apiListAdd, if_pos hlptr] at h
    obtain ⟨_, heq⟩ := Option.ite_none_right_eq_some.mp h
    exact (result_inj heq).1.symm
  | del =>
    simp only [callStep, apiListDel, if_pos hlptr] at h
    exact (result_inj h).1.symm
  | print =>
    simp only [callStep, apiListPrint, apiListIterInit, if_pos hlptr] at h
    exact (result_inj h).1.symm
  | _ => cases h

theorem Inv.of_create (h : callStep s (.create a) = some (s', es)) : Inv s' := by
  have hfresh : Fresh s.heap a := by
    by_contra hno
    simp only [callStep, if_neg hno] at h
    cases h
  obtain ⟨heap, hcreate, rep⟩ := callStep_create s hfresh
  rw [hcreate] at h
  obtain ⟨rfl, _⟩ := result_inj h
  exact ⟨inv.noFault, fun _ => rep, fun h0 => absurd h0 hfresh.1, inv.pending, nofun⟩

theorem Inv.of_callStep (hharmless : Harmless s act)
    (h : callStep s act = some (s', es)) : Inv s' := by
  by_cases hlptr : s.lptr = 0
  · by_cases hact : ∀ a, act ≠ .create a
    · rw [inv.callStep_null hlptr hact h]
      exact inv
    · push Not at hact
      obtain ⟨a, rfl⟩ := hact
      exact inv.of_create h
  · cases act with
    | create a => exact inv.of_create h
    | destroy =>
      simp only [callStep, apiListDestroy_rep (inv.rep hlptr) hlptr] at h
      obtain ⟨rfl, _⟩ := result_inj h
      obtain ⟨hentries, hlost⟩ : s.entries = [] ∧ s.lost = [] := hharmless
      refine ⟨inv.noFault, fun hne => absurd rfl hne, fun _ => ⟨rfl, hlost⟩, ?_, nofun⟩
      rw [inv.pending, hentries]
    | isempty =>
      rw [inv.callStep_isempty hlptr] at h
      obtain ⟨rfl, _⟩ := result_inj h
      exact inv
    | add ptr a =>
      have hfresh : Fresh s.heap a := by
        by_contra hno
        simp only [callStep, if_neg hno] at h
        cases h
      obtain ⟨heap, hadd, rep⟩ := inv.callStep_add hlptr hfresh ptr
      rw [hadd] at h
      obtain ⟨rfl, _⟩ := result_inj h
      refine ⟨inv.noFault, fun _ => rep, fun h0 => absurd h0 hlptr, ?_, fun i hi => ?_⟩
      · rw [inv.pending]
        rfl
      · obtain ⟨_, hmem⟩ := inv.iter i hi
        refine ⟨hlptr, ?_⟩
        rcases List.mem_cons.mp hmem with rfl | hmem
        · exact List.mem_cons_self
        · exact List.mem_cons_of_mem _ (List.mem_cons_of_mem _ hmem)
    | del =>
      rcases List.eq_nil_or_concat s.entries with hempty | ⟨rest, e, hentries⟩
      · rw [inv.callStep_del_empty hlptr hempty] at h
        obtain ⟨rfl, _⟩ := result_inj h
        exact inv
      · rw [List.concat_eq_append] at hentries
        obtain ⟨heap, hdel, rep, _⟩ := inv.callStep_del hlptr hentries
        rw [hdel] at h
        obtain ⟨rfl, _⟩ := result_inj h
        exact ⟨inv.noFault, fun _ => rep, fun h0 => absurd h0 hlptr, rfl, nofun⟩
    | print =>
      rw [inv.callStep_print hlptr] at h
      obtain ⟨rfl, _⟩ := result_inj h
      exact inv
    | _ => cases h

/-- The iterator: `api_list_iter_del` apart, it only moves. -/
theorem Inv.of_iterStep {i : Addr} (hi : s.iter = some i)
    (hharmless : Harmless s act) (h : iterStep s i act = some (s', es)) : Inv s' := by
  obtain ⟨hlptr, hmem⟩ := inv.iter i hi
  have hlive : i ∈ s.heap.live := (inv.rep hlptr).live i hmem
  cases act with
  | iterGetval =>
    obtain ⟨_, heq⟩ := Option.ite_none_left_eq_some.mp h
    simp only [apiListIterGetval, if_neg hlptr, Heap.loadPtr, if_pos hlive] at heq
    obtain ⟨rfl, _⟩ := result_inj heq
    exact inv
  | iterNext =>
    simp only [iterStep, apiListIterNext, if_neg hlptr, Heap.loadNext, if_pos hlive] at h
    obtain ⟨rfl, _⟩ := result_inj h
    refine ⟨inv.noFault, inv.rep, inv.absent, inv.pending, fun j hj => ?_⟩
    obtain rfl := Option.some.inj hj
    exact ⟨hlptr, (inv.rep hlptr).ring.next_mem hmem⟩
  | iterDel advance => exact hharmless.elim
  | _ => cases h

theorem Inv.not_fault : ¬s.fault = true := by
  rw [inv.noFault]
  decide

theorem Inv.of_step (hharmless : Harmless s act) (h : step s act = some (s', es)) : Inv s' := by
  have hiterStep (h : (match s.iter with
      | none => none
      | some i => iterStep s i act) = some (s', es)) : Inv s' := by
    cases hi : s.iter with
    | none =>
      rw [hi] at h
      cases h
    | some i =>
      rw [hi] at h
      exact inv.of_iterStep hi hharmless h
  simp only [step, if_neg inv.not_fault] at h
  cases act with
  | iterInit =>
    by_cases hlptr : s.lptr = 0
    · simp only [apiListIterInit, if_pos hlptr] at h
      obtain ⟨rfl, _⟩ := result_inj h
      refine ⟨inv.noFault, inv.rep, inv.absent, inv.pending, fun j hj => ?_⟩
      cases hj
    · have rep := inv.rep hlptr
      simp only [apiListIterInit, if_neg hlptr, Heap.loadNext, if_pos rep.live_head] at h
      obtain ⟨rfl, _⟩ := result_inj h
      refine ⟨inv.noFault, inv.rep, inv.absent, inv.pending, fun j hj => ?_⟩
      obtain rfl := Option.some.inj hj
      exact ⟨hlptr, rep.ring.next_mem List.mem_cons_self⟩
  | iterGetval => exact hiterStep h
  | iterNext => exact hiterStep h
  | iterDel advance => exact hharmless.elim
  | _ => exact inv.of_callStep hharmless h

/-- A node freed at the iterator stays linked. -/
theorem Inv.not_wellFormed_iterDel {advance : Bool}
    (h : step s (.iterDel advance) = some (s', es)) : ¬WellFormed s' := by
  simp only [step, if_neg inv.not_fault] at h
  cases hi : s.iter with
  | none =>
    rw [hi] at h
    cases h
  | some i =>
    rw [hi] at h
    obtain ⟨hlptr, hmem⟩ := inv.iter i hi
    have rep := inv.rep hlptr
    obtain ⟨hne, heq⟩ := Option.ite_none_left_eq_some.mp h
    simp only [apiListIterDel, if_neg hlptr, Heap.kfree, if_pos (rep.live i hmem)] at heq
    obtain ⟨rfl, _⟩ := result_inj heq
    intro hwf
    obtain ⟨nodes, hring, hlive, _⟩ := hwf.ring hlptr
    rw [hring.unique rep.ring] at hlive
    exact Finset.notMem_erase i s.heap.live (hlive i hmem)

/-- `api_list_destroy` frees none of the nodes. -/
theorem Inv.not_wellFormed_destroy (hleft : ¬(s.entries = [] ∧ s.lost = []))
    (h : step s .destroy = some (s', es)) : ¬WellFormed s' := by
  have hlptr : s.lptr ≠ 0 := fun h0 => hleft (inv.absent h0)
  simp only [step, if_neg inv.not_fault, callStep, apiListDestroy_rep (inv.rep hlptr) hlptr] at h
  obtain ⟨rfl, _⟩ := result_inj h
  intro hwf
  have hpending : s.pending = [] := hwf.freed rfl
  rw [inv.pending, List.append_eq_nil_iff, List.map_eq_nil_iff] at hpending
  exact hleft hpending

theorem Inv.wellFormed_iff (h : step s act = some (s', es)) : WellFormed s' ↔ Harmless s act := by
  by_cases hharmless : Harmless s act
  · exact iff_of_true (inv.of_step hharmless h).wellFormed hharmless
  · refine iff_of_false ?_ hharmless
    cases act with
    | iterDel advance => exact inv.not_wellFormed_iterDel h
    | destroy => exact inv.not_wellFormed_destroy hharmless h
    | _ => exact absurd trivial hharmless

end Steps

end Calls

/-! ## Runs that keep the list -/

/-- The list is well-formed after the step. -/
def Keeps (s : State) (act : Act) : Prop :=
  ∀ s' es, driver.step s act = some (s', es) → WellFormed s'

/-- **The list stays well-formed.** Any calls on the list and any traversals: in every state of the
    run the links form one circular list of allocated nodes that holds the abstract sequence, and
    whenever the list has been destroyed every node ever added has been freed, if and only if no node
    is deleted at an iterator and, whenever a list is destroyed, it is empty and no `create` has
    replaced one that was not. -/
theorem list_well_formed_iff (h : Heap) (acts : List Act) (s : State) (tr : List Event)
    (hr : driver.run (initState h) acts = some (s, tr)) :
    driver.Along Keeps (initState h) acts ↔ driver.Along Harmless (initState h) acts := by
  refine driver.along_congr Inv (fun s act s' es inv hharmless hs => inv.of_step hharmless hs)
    (fun s act s' es inv hs => ?_) (inv_initState h) hr
  constructor
  · intro hkeeps
    exact (inv.wellFormed_iff hs).mp (hkeeps s' es hs)
  · intro hharmless s₁ es₁ hs₁
    exact (inv.wellFormed_iff hs₁).mpr hharmless

def noHeap : Heap := ⟨fun _ => 0, fun _ => 0, fun _ => 0, ∅⟩

/-- Two elements are added, visited and removed again, and the list is destroyed. -/
def harmlessRun : List Act :=
  [.create 100, .add 7 101, .add 8 102, .iterInit, .iterGetval, .iterNext, .print, .del, .del,
    .destroy]

instance (s : State) (act : Act) : Decidable (Harmless s act) :=
  match act with
  | .iterDel _ => inferInstanceAs (Decidable False)
  | .destroy => inferInstanceAs (Decidable (s.entries = [] ∧ s.lost = []))
  | .create _ | .isempty | .add _ _ | .del | .print | .iterInit | .iterGetval | .iterNext =>
      inferInstanceAs (Decidable True)

theorem list_well_formed_harmlessRun :
    ∃ s tr, driver.run (initState noHeap) harmlessRun = some (s, tr) ∧ s.heap.live = ∅ ∧
      driver.Along Keeps (initState noHeap) harmlessRun := by
  obtain ⟨s, tr, hr, hlive⟩ := driver.exists_of_check (initState noHeap) harmlessRun
    (fun s _ => s.heap.live = ∅) (by decide +kernel)
  have halong := driver.along_of_check (fun s act => decide (Harmless s act)) harmlessRun
    (initState noHeap) (by decide +kernel)
  simp only [decide_eq_true_eq] at halong
  exact ⟨s, tr, hr, hlive, (list_well_formed_iff noHeap harmlessRun s tr hr).mpr halong⟩

theorem not_wellFormed_of_pending {s : State} (hlptr : s.lptr = 0) (ha : a ∈ s.pending) :
    ¬WellFormed s := by
  intro hwf
  rw [hwf.freed hlptr] at ha
  exact List.not_mem_nil ha

/-- Deleted at the iterator, node 101 is freed and the head still leads to it. Destroyed with one
    element, or replaced by another list that is then destroyed, the list leaves node 101
    allocated. -/
theorem list_not_well_formed :
    (∃ s tr, driver.run (initState noHeap)
        [.create 100, .add 7 101, .iterInit, .iterDel false] = some (s, tr) ∧
      (s.lptr = 100 ∧ s.heap.next 100 = 101 ∧ 101 ∉ s.heap.live) ∧ ¬WellFormed s) ∧
    (∃ s tr, driver.run (initState noHeap) [.create 100, .add 7 101, .destroy] = some (s, tr) ∧
      (s.lptr = 0 ∧ 101 ∈ s.pending ∧ 101 ∈ s.heap.live) ∧ ¬WellFormed s) ∧
    (∃ s tr, driver.run (initState noHeap)
        [.create 100, .add 7 101, .create 200, .destroy] = some (s, tr) ∧
      (s.lptr = 0 ∧ 101 ∈ s.pending ∧ 101 ∈ s.heap.live) ∧ ¬WellFormed s) := by
  refine ⟨?_, ?_, ?_⟩
  · obtain ⟨s, tr, hr, hlptr, hnext, hfreed⟩ := driver.exists_of_check (initState noHeap)
      [.create 100, .add 7 101, .iterInit, .iterDel false]
      (fun s _ => s.lptr = 100 ∧ s.heap.next 100 = 101 ∧ 101 ∉ s.heap.live) (by decide +kernel)
    refine ⟨s, tr, hr, ⟨hlptr, hnext, hfreed⟩, fun hwf => ?_⟩
    obtain ⟨nodes, hring, hlive, _⟩ := hwf.ring (by rw [hlptr]; decide)
    rw [hlptr] at hring hlive
    exact hfreed (hnext ▸ hlive _ (hring.next_mem List.mem_cons_self))
  · obtain ⟨s, tr, hr, hstate⟩ := driver.exists_of_check (initState noHeap)
      [.create 100, .add 7 101, .destroy]
      (fun s _ => s.lptr = 0 ∧ 101 ∈ s.pending ∧ 101 ∈ s.heap.live) (by decide +kernel)
    exact ⟨s, tr, hr, hstate, not_wellFormed_of_pending hstate.1 hstate.2.1⟩
  · obtain ⟨s, tr, hr, hstate⟩ := driver.exists_of_check (initState noHeap)
      [.create 100, .add 7 101, .create 200, .destroy]
      (fun s _ => s.lptr = 0 ∧ 101 ∈ s.pending ∧ 101 ∈ s.heap.live) (by decide +kernel)
    exact ⟨s, tr, hr, hstate, not_wellFormed_of_pending hstate.1 hstate.2.1⟩

end DemosOsLinux.KernelList
