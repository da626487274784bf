/-
  The list API of the kernel module (kernel/list.inc) over a heap.

  A node is a `list_struct`: its `list_head` is the first field, so `list_entry` is the identity on
  addresses. The head of a list is a `list_head` alone. `NULL` is 0. An access to memory that is not
  allocated, and `kfree` of it, is `none`: what happens then is not defined. `kmalloc` succeeds; the
  address it returns is an argument.

  The functions of <linux/list.h> are those of the kernel without list debugging. Each API function
  also gives what it logs with `pr_err`.
  * `Rep`: the list at `lptr` holds these entries, newest first.
  * `apiListCreate_rep`, `apiListAdd_rep`, `apiListDel_rep`, `printLoop_rep`, …: what each call does
    to a represented list.
-/
import DemosOsLinux.Lib.LinkedRing
import Mathlib.Data.Finset.Card

namespace DemosOsLinux.KernelList

open Lib Function

abbrev Addr := Nat

structure Heap where
  next : Addr → Addr
  prev : Addr → Addr
  ptr : Addr → Addr
  live : Finset Addr

namespace Heap

def loadNext (h : Heap) (a : Addr) : Option Addr := if a ∈ h.live then some (h.next a) else none

def loadPrev (h : Heap) (a : Addr) : Option Addr := if a ∈ h.live then some (h.prev a) else none

def loadPtr (h : Heap) (a : Addr) : Option Addr := if a ∈ h.live then some (h.ptr a) else none

def storeNext (h : Heap) (a v : Addr) : Option Heap :=
  if a ∈ h.live then some { h with next := update h.next a v } else none

def storePrev (h : Heap) (a v : Addr) : Option Heap :=
  if a ∈ h.live then some { h with prev := update h.prev a v } else none

def storePtr (h : Heap) (a v : Addr) : Option Heap :=
  if a ∈ h.live then some { h with ptr := update h.ptr a v } else none

/-- `kmalloc` that returns `a`. -/
def kmalloc (h : Heap) (a : Addr) : Heap := { h with live := insert a h.live }

def kfree (h : Heap) (a : Addr) : Option Heap :=
  if a ∈ h.live then some { h with live := h.live.erase a } else none

end Heap

/-! ## <linux/list.h> -/

def initListHead (h : Heap) (list : Addr) : Option Heap := do
  let h ← h.storeNext list list
  h.storePrev list list

def listAdd (h : Heap) (new head : Addr) : Option Heap := do
  let next ← h.loadNext head
  let h ← h.storePrev next new
  let h ← h.storeNext new next
  let h ← h.storePrev new head
  h.storeNext head new

/-- `LIST_POISON1` and `LIST_POISON2`. -/
def listPoison1 : Addr := 0xdead000000000100

def listPoison2 : Addr := 0xdead000000000122

def listDel (h : Heap) (entry : Addr) : Option Heap := do
  let prev ← h.loadPrev entry
  let next ← h.loadNext entry
  let h ← h.storePrev next prev
  let h ← h.storeNext prev next
  let h ← h.storeNext entry listPoison1
  h.storePrev entry listPoison2

def listEmpty (h : Heap) (head : Addr) : Option Bool := do
  let next ← h.loadNext head
  return decide (next = head)

/-! ## The API -/

/-- `api_list_create`, with the address of the head. -/
def apiListCreate (h : Heap) (a : Addr) : Option (Heap × Addr) := do
  let h ← initListHead (h.kmalloc a) a
  return (h, a)

def apiListDestroy (h : Heap) (lptr : Addr) : Option (Heap × List String) :=
  if lptr = 0 then some (h, ["destroy on null list"]) else do
    let h ← h.kfree lptr
    return (h, [])

def apiListIsempty (h : Heap) (lptr : Addr) : Option (Bool × List String) :=
  if lptr = 0 then some (false, ["isempty on null list"]) else do
    let b ← listEmpty h lptr
    return (b, [])

def apiListIterInit (h : Heap) (lptr : Addr) : Option (Addr × List String) :=
  if lptr = 0 then some (0, ["iter_init on null list"]) else do
    let i ← h.loadNext lptr
    return (i, [])

def apiListIterIsover (lptr iter : Addr) : Bool × List String :=
  if lptr = 0 then (false, ["iter_isover on null list"]) else (decide (iter = lptr), [])

def apiListIterGetval (h : Heap) (lptr iter : Addr) : Option (Addr × List String) :=
  if lptr = 0 then some (0, ["iter_getval on null list"]) else do
    let v ← h.loadPtr iter
    return (v, [])

def apiListIterNext (h : Heap) (lptr iter : Addr) : Option (Addr × List String) :=
  if lptr = 0 then some (0, ["iter_next on null list"]) else do
    let i ← h.loadNext iter
    return (i, [])

def apiListIterDel (h : Heap) (lptr iter : Addr) : Option (Heap × List String) :=
  if lptr = 0 then some (h, ["iter_del on null list"]) else do
    let h ← h.kfree iter
    return (h, [])

/-- `api_list_del`: the heap, the pointer it returns, and the log. -/
def apiListDel (h : Heap) (lptr : Addr) : Option (Heap × Addr × List String) :=
  if lptr = 0 then some (h, 0, ["del on null list"]) else do
    let prev ← h.loadPrev lptr
    if ← listEmpty h lptr then
      return (h, 0, ["ERROR - pop should not be called on an empty list"])
    else
      let ret ← h.loadPtr prev
      let h ← listDel h prev
      let h ← h.kfree prev
      return (h, ret, [])

/-- `api_list_add`, with the address of the new node. -/
def apiListAdd (h : Heap) (lptr ptr a : Addr) : Option (Heap × List String) :=
  if lptr = 0 then some (h, ["add on null list"]) else do
    let h ← (h.kmalloc a).storePtr a ptr
    let h ← listAdd h a lptr
    return (h, [])

/-- The loop of `api_list_print`: the places of the iterator and the items, of which the message
    shows the low 32 bits. `none` also stands for a loop that has not come to its end. -/
def printLoop (h : Heap) (lptr : Addr) : Nat → Addr → Option (List (Addr × Addr))
  | 0, _ => none
  | fuel + 1, iter =>
      if (apiListIterIsover lptr iter).1 then some [] else do
        let item ← apiListIterGetval h lptr iter
        let next ← apiListIterNext h lptr iter
        let rest ← printLoop h lptr fuel next.1
        return (iter, item.1) :: rest

def apiListPrint (h : Heap) (lptr : Addr) (fuel : Nat) :
    Option (List (Addr × Addr) × List String) := do
  let iter ← apiListIterInit h lptr
  if lptr = 0 then
    return ([], iter.2 ++ ["print on null list"])
  else
    let items ← printLoop h lptr fuel iter.1
    return (items, [])

/-! ## A represented list -/

/-- The list at `lptr` holds the entries `es` (a node and its pointer each), newest first, and its
    head and nodes are allocated. -/
structure Rep (h : Heap) (lptr : Addr) (es : List (Addr × Addr)) : Prop where
  ring : Ring h.next h.prev lptr (es.map Prod.fst)
  live : ∀ a ∈ lptr :: es.map Prod.fst, a ∈ h.live
  ptr : ∀ e ∈ es, h.ptr e.1 = e.2

section Rep

variable {h : Heap} {lptr a : Addr} {es : List (Addr × Addr)} {fuel : Nat}

theorem Rep.live_head (rep : Rep h lptr es) : lptr ∈ h.live := rep.live lptr List.mem_cons_self

theorem Rep.live_next (rep : Rep h lptr es) {x : Addr} (hx : x ∈ lptr :: es.map Prod.fst) :
    h.next x ∈ h.live := rep.live _ (rep.ring.next_mem hx)

theorem apiListCreate_rep (h : Heap) (a : Addr) :
    ∃ h', apiListCreate h a = some (h', a) ∧ Rep h' a [] ∧ h'.live = insert a h.live := by
  have hlive : a ∈ insert a h.live := Finset.mem_insert_self a h.live
  refine ⟨⟨update h.next a a, update h.prev a a, h.ptr, insert a h.live⟩, ?_,
    ⟨Ring.self (update_self _ _ _) (update_self _ _ _), ?_, nofun⟩, rfl⟩
  · simp [apiListCreate, initListHead, Heap.storeNext, Heap.storePrev, Heap.kmalloc]
  · intro x hx
    rw [List.mem_singleton.mp hx]
    exact hlive

theorem listEmpty_rep (rep : Rep h lptr es) : listEmpty h lptr = some (decide (es = [])) := by
  have hempty : h.next lptr = lptr ↔ es = [] := rep.ring.next_head_iff.trans List.map_eq_nil_iff
  simp [listEmpty, Heap.loadNext, rep.live_head, hempty]

theorem apiListIsempty_rep (rep : Rep h lptr es) (hnull : lptr ≠ 0) :
    apiListIsempty h lptr = some (decide (es = []), []) := by
  simp [apiListIsempty, hnull, listEmpty_rep rep]

theorem apiListDestroy_rep (rep : Rep h lptr es) (hnull : lptr ≠ 0) :
    apiListDestroy h lptr = some ({ h with live := h.live.erase lptr }, []) := by
  simp [apiListDestroy, hnull, Heap.kfree, rep.live_head]

theorem apiListAdd_rep (rep : Rep h lptr es) (hnull : lptr ≠ 0) (hfresh : a ∉ h.live) (ptr : Addr) :
    ∃ h', apiListAdd h lptr ptr a = some (h', []) ∧ Rep h' lptr ((a, ptr) :: es) ∧
      h'.live = insert a h.live := by
  have hnode : a ∉ lptr :: es.map Prod.fst := fun hm => hfresh (rep.live a hm)
  refine ⟨⟨update (update h.next a (h.next lptr)) lptr a,
    update (update h.prev (h.next lptr) a) a lptr,
    update h.ptr a ptr, insert a h.live⟩, ?_, ⟨rep.ring.insert hnode, ?_, ?_⟩, rfl⟩
  · have hnext := rep.live_next List.mem_cons_self
    simp [apiListAdd, listAdd, Heap.storePtr, Heap.loadNext, Heap.storeNext, Heap.storePrev,
      Heap.kmalloc, hnull, rep.live_head, hnext]
  · intro x hx
    by_cases hxa : x = a
    · exact hxa ▸ Finset.mem_insert_self a h.live
    · refine Finset.mem_insert_of_mem (rep.live x ?_)
      simpa [hxa] using hx
  · intro e he
    rcases List.mem_cons.mp he with rfl | hold
    · exact update_self _ _ _
    · have hne : e.1 ≠ a := by
        rintro rfl
        exact hnode (List.mem_cons_of_mem _ (List.mem_map_of_mem hold))
      exact (update_of_ne hne _ _).trans (rep.ptr e hold)

theorem apiListDel_empty (rep : Rep h lptr []) (hnull : lptr ≠ 0) :
    apiListDel h lptr =
      some (h, 0, ["ERROR - pop should not be called on an empty list"]) := by
  simp [apiListDel, hnull, Heap.loadPrev, rep.live_head, listEmpty_rep rep]

/-- The oldest entry is unlinked, its node is freed, its pointer is returned. -/
theorem apiListDel_rep {e : Addr × Addr} (rep : Rep h lptr (es ++ [e])) (hnull : lptr ≠ 0) :
    h.prev lptr = e.1 ∧ ∃ h', apiListDel h lptr = some (h', e.2, []) ∧ Rep h' lptr es ∧
      h'.live = h.live.erase e.1 := by
  have hring : Ring h.next h.prev lptr (es.map Prod.fst ++ [e.1]) := by
    rw [← List.map_singleton, ← List.map_append]
    exact rep.ring
  have hlive {x : Addr} (hx : x ∈ lptr :: es.map Prod.fst) : x ∈ h.live := by
    refine rep.live x ?_
    rw [List.map_append]
    exact List.mem_append_left _ hx
  have hlast : e.1 ∈ h.live := rep.live e.1 (by simp)
  have hother : e.1 ∉ lptr :: es.map Prod.fst := fun hm => by
    have hdis := (List.nodup_append.mp (show ((lptr :: es.map Prod.fst) ++ [e.1]).Nodup from
      hring.nodup)).2.2
    exact hdis e.1 hm e.1 (List.mem_singleton_self _) rfl
  have hne {x : Addr} (hx : x ∈ lptr :: es.map Prod.fst) : x ≠ e.1 := fun he => hother (he ▸ hx)
  obtain ⟨hprev, hnext, hbefore⟩ := hring.last
  refine ⟨hprev, ⟨update (update h.next (h.prev e.1) lptr) e.1 listPoison1,
    update (update h.prev lptr (h.prev e.1)) e.1 listPoison2, h.ptr,
    h.live.erase e.1⟩, ?_, ⟨?_, ?_, ?_⟩, rfl⟩
  · have hptr : h.ptr e.1 = e.2 := rep.ptr e (by simp)
    simp [apiListDel, listDel, hnull, Heap.loadPrev, Heap.loadNext, Heap.loadPtr, Heap.storeNext,
      Heap.storePrev, Heap.kfree, listEmpty_rep rep, rep.live_head, hprev, hnext, hlast,
      hlive hbefore, hptr]
  · refine hring.removeLast.frame (fun x hx => ?_) (fun x hx => ?_)
    · exact update_of_ne (hne hx) _ _
    · exact update_of_ne (hne hx) _ _
  · exact fun x hx => Finset.mem_erase_of_ne_of_mem (hne hx) (hlive hx)
  · exact fun x hx => rep.ptr x (List.mem_append_left _ hx)

/-- The loop from an iterator in the list, whose rest is `es`. -/
theorem printLoop_linked (hnull : lptr ≠ 0)
    (hlinked : Linked h.next h.prev a (es.map Prod.fst) lptr)
    (hother : ∀ e ∈ es, e.1 ≠ lptr ∧ e.1 ∈ h.live ∧ h.ptr e.1 = e.2) (hfuel : es.length < fuel) :
    printLoop h lptr fuel (h.next a) = some es := by
  induction es generalizing a fuel with
  | nil =>
    obtain ⟨fuel, rfl⟩ := Nat.exists_eq_succ_of_ne_zero (Nat.ne_of_gt hfuel)
    have hover : h.next a = lptr := hlinked.1
    simp [printLoop, apiListIterIsover, hnull, hover]
  | cons e es ih =>
    obtain ⟨fuel, rfl⟩ := Nat.exists_eq_succ_of_ne_zero (Nat.ne_of_gt (Nat.zero_lt_of_lt hfuel))
    obtain ⟨hnext, _, hrest⟩ := hlinked
    obtain ⟨hne, hlive, hptr⟩ := hother e List.mem_cons_self
    have htail := ih hrest (fun x hx => hother x (List.mem_cons_of_mem e hx))
      (Nat.lt_of_succ_lt_succ hfuel)
    simp [printLoop, apiListIterIsover, apiListIterGetval, apiListIterNext, Heap.loadPtr,
      Heap.loadNext, hnull, hnext, hne, hlive, hptr, htail]

theorem printLoop_rep (rep : Rep h lptr es) (hnull : lptr ≠ 0) (hfuel : es.length < fuel) :
    printLoop h lptr fuel (h.next lptr) = some es := by
  refine printLoop_linked hnull rep.ring.linked (fun e he => ?_) hfuel
  have hm : e.1 ∈ es.map Prod.fst := List.mem_map_of_mem he
  refine ⟨?_, rep.live e.1 (List.mem_cons_of_mem _ hm), rep.ptr e he⟩
  rintro rfl
  exact (List.nodup_cons.mp rep.ring.nodup).1 hm

theorem apiListPrint_rep (rep : Rep h lptr es) (hnull : lptr ≠ 0) (hfuel : es.length < fuel) :
    apiListPrint h lptr fuel = some (es, []) := by
  simp [apiListPrint, apiListIterInit, Heap.loadNext, hnull, rep.live_head,
    printLoop_rep rep hnull hfuel]

/-- Every node is allocated, so there are no more nodes than allocated addresses. -/
theorem Rep.length_lt_card (rep : Rep h lptr es) : es.length < h.live.card + 1 := by
  have hnodup : (es.map Prod.fst).Nodup := (List.nodup_cons.mp rep.ring.nodup).2
  have hsub : (es.map Prod.fst).toFinset ⊆ h.live := fun x hx =>
    rep.live x (List.mem_cons_of_mem _ (List.mem_toFinset.mp hx))
  have hcard := Finset.card_le_card hsub
  rw [List.toFinset_card_of_nodup hnodup, List.length_map] at hcard
  exact Nat.lt_succ_of_le hcard

end Rep

end DemosOsLinux.KernelList
