/-
  Circular doubly linked lists in a heap.

  The links are two functions `next` and `prev` on addresses. `Linked next prev a xs b` says that
  `next` leads from `a` through `xs` to `b` and that `prev` leads back the same way; a `Ring` leads
  from its head back to it, through distinct nodes.
  * `linked_append`: a segment is cut at each of its nodes.
  * `Linked.frame`: a segment does not see the links of other addresses.
  * `Ring.unique`: the links determine the nodes; `Ring.last`: the node before the head.
  * `Ring.insert`, `Ring.removeLast`: a node linked in behind the head, the last node cut out.
-/
import Mathlib.Data.List.Basic
import Mathlib.Logic.Function.Basic

namespace DemosOsLinux.Lib

open Function

variable {α : Type}

def Linked (next prev : α → α) : α → List α → α → Prop
  | a, [], b => next a = b ∧ prev b = a
  | a, x :: xs, b => next a = x ∧ prev x = a ∧ Linked next prev x xs b

section Linked

variable {next prev next' prev' : α → α} {a b : α}

theorem linked_append {xs ys : List α} {y : α} :
    Linked next prev a (xs ++ y :: ys) b ↔ Linked next prev a xs y ∧ Linked next prev y ys b := by
  induction xs generalizing a with
  | nil => exact and_assoc.symm
  | cons x xs ih =>
    simp only [List.cons_append, Linked, ih]
    tauto

theorem Linked.frame {xs : List α} (h : Linked next prev a xs b)
    (hnext : ∀ x ∈ a :: xs, next' x = next x) (hprev : ∀ x ∈ xs ++ [b], prev' x = prev x) :
    Linked next' prev' a xs b := by
  induction xs generalizing a with
  | nil =>
    refine ⟨(hnext a List.mem_cons_self).trans h.1, (hprev b ?_).trans h.2⟩
    exact List.mem_singleton_self b
  | cons x xs ih =>
    obtain ⟨h1, h2, h3⟩ := h
    refine ⟨(hnext a List.mem_cons_self).trans h1, (hprev x ?_).trans h2, ih h3 ?_ ?_⟩
    · exact List.mem_cons_self
    · exact fun y hy => hnext y (List.mem_cons_of_mem a hy)
    · exact fun y hy => hprev y (List.mem_cons_of_mem x hy)

/-- Two segments from `a` that meet `b` only at their ends are one. -/
theorem Linked.unique {xs ys : List α} (hx : Linked next prev a xs b)
    (hy : Linked next prev a ys b) (hbx : b ∉ xs) (hby : b ∉ ys) : xs = ys := by
  induction xs generalizing a ys with
  | nil =>
    cases ys with
    | nil => rfl
    | cons y ys =>
      have hyb : y = b := hy.1.symm.trans hx.1
      exact absurd (hyb ▸ List.mem_cons_self) hby
  | cons x xs ih =>
    cases ys with
    | nil =>
      have hxb : x = b := hx.1.symm.trans hy.1
      exact absurd (hxb ▸ List.mem_cons_self) hbx
    | cons y ys =>
      obtain rfl : x = y := hx.1.symm.trans hy.1
      rw [ih hx.2.2 hy.2.2 (fun h => hbx (List.mem_cons_of_mem x h))
        (fun h => hby (List.mem_cons_of_mem x h))]

end Linked

/-- The nodes `xs` behind `head`, in the order of `next`. -/
structure Ring (next prev : α → α) (head : α) (xs : List α) : Prop where
  linked : Linked next prev head xs head
  nodup : (head :: xs).Nodup

section Ring

variable {next prev : α → α} {head x : α} {xs : List α}

theorem Ring.unique {ys : List α} (hx : Ring next prev head xs) (hy : Ring next prev head ys) :
    xs = ys :=
  hx.linked.unique hy.linked (List.nodup_cons.mp hx.nodup).1 (List.nodup_cons.mp hy.nodup).1

/-- The head alone. -/
theorem Ring.self (hnext : next head = head) (hprev : prev head = head) : Ring next prev head [] :=
  ⟨⟨hnext, hprev⟩, List.nodup_cons.mpr ⟨List.not_mem_nil, List.nodup_nil⟩⟩

theorem Ring.next_mem (h : Ring next prev head xs) (hx : x ∈ head :: xs) : next x ∈ head :: xs := by
  rcases List.mem_cons.mp hx with rfl | hx
  · cases xs with
    | nil =>
      rw [h.linked.1]
      exact List.mem_cons_self
    | cons y ys =>
      rw [h.linked.1]
      exact List.mem_cons_of_mem _ List.mem_cons_self
  · obtain ⟨ys, zs, rfl⟩ := List.append_of_mem hx
    have htail := (linked_append.mp h.linked).2
    cases zs with
    | nil =>
      rw [htail.1]
      exact List.mem_cons_self
    | cons z zs =>
      rw [htail.1]
      simp

/-- The head is linked to itself if and only if there are no nodes. -/
theorem Ring.next_head_iff (h : Ring next prev head xs) : next head = head ↔ xs = [] := by
  cases xs with
  | nil => exact iff_of_true h.linked.1 rfl
  | cons x xs =>
    refine iff_of_false (fun hself => ?_) (List.cons_ne_nil x xs)
    have hx : x = head := h.linked.1.symm.trans hself
    exact (List.nodup_cons.mp h.nodup).1 (hx ▸ List.mem_cons_self)

theorem Ring.frame {next' prev' : α → α} (h : Ring next prev head xs)
    (hnext : ∀ x ∈ head :: xs, next' x = next x) (hprev : ∀ x ∈ head :: xs, prev' x = prev x) :
    Ring next' prev' head xs := by
  refine ⟨h.linked.frame hnext fun x hx => hprev x ?_, h.nodup⟩
  rcases List.mem_append.mp hx with hx | hx
  · exact List.mem_cons_of_mem head hx
  · rw [List.mem_singleton.mp hx]
    exact List.mem_cons_self

/-- The last node is before the head, and it is behind the head or another node. -/
theorem Ring.last (h : Ring next prev head (xs ++ [x])) :
    prev head = x ∧ next x = head ∧ prev x ∈ head :: xs := by
  obtain ⟨hfront, hnext, hprev⟩ := linked_append.mp h.linked
  refine ⟨hprev, hnext, ?_⟩
  rcases List.eq_nil_or_concat xs with rfl | ⟨ys, y, rfl⟩
  · rw [hfront.2]
    exact List.mem_cons_self
  · rw [List.concat_eq_append] at hfront ⊢
    rw [(linked_append.mp hfront).2.2]
    simp

variable [DecidableEq α]

/-- Link `x` in between `head` and its successor. -/
theorem Ring.insert (h : Ring next prev head xs) (hx : x ∉ head :: xs) :
    Ring (update (update next x (next head)) head x)
      (update (update prev (next head) x) x head) head (x :: xs) := by
  have hhead : x ≠ head := fun e => hx (e ▸ List.mem_cons_self)
  have hnodup := List.nodup_cons.mp h.nodup
  refine ⟨⟨update_self _ _ _, update_self _ _ _, ?_⟩, ?_⟩
  · cases xs with
    | nil =>
      have hself : next head = head := h.linked.1
      refine ⟨?_, ?_⟩
      · rw [update_of_ne hhead, update_self, hself]
      · rw [update_of_ne hhead.symm, hself, update_self]
    | cons y ys =>
      obtain ⟨hy, _, hrest⟩ := h.linked
      have hyx : y ≠ x := fun e => hx (e ▸ List.mem_cons_of_mem _ List.mem_cons_self)
      have hyhead : y ≠ head := fun e => hnodup.1 (e ▸ List.mem_cons_self)
      have hys := List.nodup_cons.mp hnodup.2
      refine ⟨?_, ?_, hrest.frame (fun z hz => ?_) (fun z hz => ?_)⟩
      · rw [update_of_ne hhead, update_self, hy]
      · rw [update_of_ne hyx, hy, update_self]
      · have hzhead : z ≠ head := fun e => hnodup.1 (e ▸ hz)
        have hzx : z ≠ x := fun e => hx (e ▸ List.mem_cons_of_mem _ hz)
        rw [update_of_ne hzhead, update_of_ne hzx]
      · have hzy : z ≠ y := by
          rintro rfl
          rcases List.mem_append.mp hz with hz | hz
          · exact hys.1 hz
          · exact hyhead (List.mem_singleton.mp hz)
        have hzx : z ≠ x := by
          rintro rfl
          rcases List.mem_append.mp hz with hz | hz
          · exact hx (List.mem_cons_of_mem _ (List.mem_cons_of_mem _ hz))
          · exact hhead (List.mem_singleton.mp hz)
        rw [update_of_ne hzx, hy, update_of_ne hzy]
  · refine List.nodup_cons.mpr ⟨?_, List.nodup_cons.mpr ⟨fun hm => ?_, hnodup.2⟩⟩
    · rintro (_ | ⟨_, hm⟩)
      · exact hhead rfl
      · exact hnodup.1 hm
    · exact hx (List.mem_cons_of_mem _ hm)

/-- Cut the last node out. -/
theorem Ring.removeLast (h : Ring next prev head (xs ++ [x])) :
    Ring (update next (prev x) head) (update prev head (prev x)) head xs := by
  have hnodup := List.nodup_cons.mp h.nodup
  obtain ⟨hfront, _⟩ := linked_append.mp h.linked
  refine ⟨?_, List.nodup_cons.mpr ⟨fun hm => hnodup.1 (List.mem_append_left _ hm), ?_⟩⟩
  · rcases List.eq_nil_or_concat xs with rfl | ⟨ys, y, rfl⟩
    · have hx : prev x = head := hfront.2
      rw [hx]
      exact ⟨update_self _ _ _, update_self _ _ _⟩
    · rw [List.concat_eq_append] at hfront hnodup ⊢
      obtain ⟨hys, hy⟩ := linked_append.mp hfront
      have hx : prev x = y := hy.2
      rw [hx]
      refine linked_append.mpr ⟨hys.frame (fun z hz => ?_) (fun z hz => ?_),
        update_self _ _ _, update_self _ _ _⟩
      · refine update_of_ne ?_ _ _
        rintro rfl
        rcases List.mem_cons.mp hz with rfl | hz
        · exact hnodup.1 (by simp)
        · have hdis := (List.nodup_append.mp (List.nodup_append.mp hnodup.2).1).2.2
          exact hdis z hz z (List.mem_singleton_self z) rfl
      · refine update_of_ne ?_ _ _
        rintro rfl
        exact hnodup.1 (List.mem_append_left _ hz)
  · exact (List.nodup_append.mp hnodup.2).1

end Ring

end DemosOsLinux.Lib
