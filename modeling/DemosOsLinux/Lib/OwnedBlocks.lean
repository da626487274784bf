/-
  Blocks of memory and their owners.

  A heap is a list of blocks, each with its contents and the number of times it was released; a
  pointer is the place of a block in the list, or null. A block is not readable once it was released.
  Owners are objects or local variables; `owns i` is the pointer of owner `i`.
  * `Owned`: every pointer is good, no two owners have the same, and a block without an owner was
    released once.
  * `Owned.alloc`, `Owned.release`: an owner gets a new block, and gives one back.
  * `Blocks.load_alloc`, `Owned.load_release`: what is left alone.
-/
import Mathlib.Data.List.Basic
import Mathlib.Logic.Function.Basic

namespace DemosOsLinux.Lib

open Function

structure Block (β : Type) where
  contents : β
  released : Nat

abbrev Blocks (β : Type) := List (Block β)

namespace Blocks

variable {β : Type} {hp : Blocks β} {b c : Nat} {x y : β}

/-- Reading through a pointer that is not null. -/
def load (hp : Blocks β) (b : Nat) : Option β :=
  hp[b]?.bind fun block => if block.released = 0 then some block.contents else none

/-- A new block, and the pointer to it. -/
def alloc (hp : Blocks β) (x : β) : Blocks β × Nat := (hp ++ [⟨x, 0⟩], hp.length)

/-- New contents for a block. -/
def fill (hp : Blocks β) (b : Nat) (x : β) : Blocks β :=
  hp.modify b fun block => { block with contents := x }

/-- `delete[]`, which does nothing for a null pointer. -/
def release (hp : Blocks β) : Option Nat → Blocks β
  | none => hp
  | some b => hp.modify b fun block => { block with released := block.released + 1 }

theorem load_eq_some : load hp b = some x ↔ hp[b]? = some ⟨x, 0⟩ := by
  unfold load
  rw [Option.bind_eq_some_iff]
  constructor
  · rintro ⟨⟨y, n⟩, hb, h⟩
    dsimp only at h
    split at h
    · next hn => rw [hb, ← Option.some.inj h, hn]
    · cases h
  · exact fun hb => ⟨_, hb, rfl⟩

theorem load_lt (h : load hp b = some x) : b < hp.length := by
  obtain ⟨hlt, -⟩ := List.getElem?_eq_some_iff.mp (load_eq_some.mp h)
  exact hlt

theorem ne_alloc (h : load hp b = some x) (y : β) : b ≠ (alloc hp y).2 := Nat.ne_of_lt (load_lt h)

theorem load_alloc (h : load hp b = some x) (y : β) : load (alloc hp y).1 b = some x := by
  rw [load_eq_some, alloc, List.getElem?_append_left (load_lt h)]
  exact load_eq_some.mp h

theorem load_alloc_self (hp : Blocks β) (x : β) : load (alloc hp x).1 (alloc hp x).2 = some x := by
  rw [load_eq_some]
  exact List.getElem?_concat_length

/-- Filling a new block. -/
theorem fill_alloc (hp : Blocks β) (x y : β) :
    fill (alloc hp x).1 (alloc hp x).2 y = (alloc hp y).1 := by
  unfold fill alloc
  dsimp only
  rw [List.modify_eq_set_getElem?, List.getElem?_concat_length]
  dsimp only [Option.map_eq_map, Option.map_some, Option.getD_some]
  rw [List.set_append_right _ _ (Nat.le_refl _), Nat.sub_self, List.set_cons_zero]

theorem load_release_ne (hne : b ≠ c) : load (release hp (some c)) b = load hp b := by
  unfold load release
  dsimp only
  rw [List.getElem?_modify_ne _ _ hne.symm]

end Blocks

section Owned

variable {β ι : Type} {hp : Blocks β} {owns : ι → Option Nat} {i j : ι} {b : Nat}

structure Owned (hp : Blocks β) (owns : ι → Option Nat) : Prop where
  good : ∀ i b, owns i = some b → ∃ x, Blocks.load hp b = some x
  apart : ∀ i j b, owns i = some b → owns j = some b → i = j
  once : ∀ b block, hp[b]? = some block → (∀ i, owns i ≠ some b) → block.released = 1

theorem Owned.lt (h : Owned hp owns) (hb : owns i = some b) : b < hp.length := by
  obtain ⟨x, hx⟩ := h.good i b hb
  exact Blocks.load_lt hx

theorem Owned.load_release (h : Owned hp owns) (hj : owns j = some b) (hne : j ≠ i) :
    Blocks.load (Blocks.release hp (owns i)) b = Blocks.load hp b := by
  cases hi : owns i with
  | none => rfl
  | some c =>
    refine Blocks.load_release_ne fun hbc => hne ?_
    exact h.apart j i b hj (hbc ▸ hi)

variable [DecidableEq ι]

theorem Owned.alloc (h : Owned hp owns) (hi : owns i = none) (x : β) :
    Owned (Blocks.alloc hp x).1 (update owns i (some (Blocks.alloc hp x).2)) where
  good := by
    intro j b hb
    by_cases hj : j = i
    · rw [hj, update_self] at hb
      obtain rfl := Option.some.inj hb
      exact ⟨x, Blocks.load_alloc_self hp x⟩
    · rw [update_of_ne hj] at hb
      obtain ⟨y, hy⟩ := h.good j b hb
      exact ⟨y, Blocks.load_alloc hy x⟩
  apart := by
    -- the new pointer is beyond all others
    have hnew : ∀ j, owns j ≠ some hp.length := fun j hj => absurd (h.lt hj) (Nat.lt_irrefl _)
    intro j k b hj hk
    by_cases hji : j = i <;> by_cases hki : k = i
    · rw [hji, hki]
    · rw [hji, update_self] at hj
      rw [update_of_ne hki, ← hj] at hk
      exact absurd hk (hnew k)
    · rw [hki, update_self] at hk
      rw [update_of_ne hji, ← hk] at hj
      exact absurd hj (hnew j)
    · rw [update_of_ne hji] at hj
      rw [update_of_ne hki] at hk
      exact h.apart j k b hj hk
  once := by
    intro b block hb hnone
    have hlt : b < hp.length := by
      obtain ⟨hle, -⟩ := List.getElem?_eq_some_iff.mp hb
      have hne : b ≠ hp.length := fun hb => hnone i (by rw [update_self, hb]; rfl)
      rw [Blocks.alloc, List.length_append, List.length_singleton] at hle
      omega
    rw [Blocks.alloc, List.getElem?_append_left hlt] at hb
    refine h.once b block hb fun j hj => ?_
    by_cases hji : j = i
    · rw [hji, hi] at hj
      cases hj
    · exact hnone j (by rw [update_of_ne hji, hj])

theorem update_none_eq_some {k : ι} (hk : update owns i none k = some b) :
    k ≠ i ∧ owns k = some b := by
  by_cases hki : k = i
  · rw [hki, update_self] at hk
    cases hk
  · rw [update_of_ne hki] at hk
    exact ⟨hki, hk⟩

theorem Owned.release (h : Owned hp owns) (i : ι) :
    Owned (Blocks.release hp (owns i)) (update owns i none) where
  good := by
    intro j b hj
    obtain ⟨hne, hj⟩ := update_none_eq_some hj
    rw [h.load_release hj hne]
    exact h.good j b hj
  apart := by
    intro j k b hj hk
    exact h.apart j k b (update_none_eq_some hj).2 (update_none_eq_some hk).2
  once := by
    intro b block hb hnone
    have hothers : ∀ j, j ≠ i → owns j ≠ some b := fun j hne hj =>
      hnone j (by rw [update_of_ne hne, hj])
    cases hi : owns i with
    | none =>
      rw [hi] at hb
      refine h.once b block hb fun j hj => ?_
      by_cases hne : j = i
      · rw [hne, hi] at hj
        cases hj
      · exact hothers j hne hj
    | some c =>
      rw [hi, Blocks.release] at hb
      by_cases hbc : b = c
      · subst hbc
        obtain ⟨x, hx⟩ := h.good i b hi
        rw [List.getElem?_modify_eq, Blocks.load_eq_some.mp hx] at hb
        obtain rfl := Option.some.inj hb
        rfl
      · rw [List.getElem?_modify_ne _ _ (Ne.symm hbc)] at hb
        refine h.once b block hb fun j hj => ?_
        by_cases hne : j = i
        · rw [hne, hi] at hj
          exact hbc (Option.some.inj hj).symm
        · exact hothers j hne hj

end Owned

end DemosOsLinux.Lib
