/-
  A memory with store buffers (total store order).

  Each core has a queue of its own writes, the oldest first. A write goes into the queue of its core; a
  read sees the memory as it will be when the queue of its core is written out; at any time the oldest
  write of a queue may reach the memory. A fence, and an instruction that locks the bus, runs only when
  the queue of its core is empty (`Drained`).
  * `read_write_self`, `read_write_of_core_ne`: a write is seen by its own core, and by no other yet.
  * `read_flush_self`: a core does not notice that its queue is written out.
  * `read_eq_mem`: a core with no write to a place in its queue sees the memory there.
  * `InOrder`: what each write of a core does to the memory as that core sees it, it does to the memory
    when it gets there (`InOrder.write`, `InOrder.flush`).
-/
import Mathlib.Logic.Function.Basic

namespace DemosOsLinux.Lib

open Function

/-- `κ` are the cores, `α` the places and `ν` the values. -/
structure StoreBuffer (κ α ν : Type) where
  mem : α → ν
  buf : κ → List (α × ν)

namespace StoreBuffer

variable {κ α ν : Type}

/-- Writes reach the memory. -/
def writeOut [DecidableEq α] (mem : α → ν) (writes : List (α × ν)) : α → ν :=
  writes.foldl (fun f w => update f w.1 w.2) mem

/-- What core `c` reads at `a`: its newest write there, or else the memory. -/
def read [DecidableEq α] (m : StoreBuffer κ α ν) (c : κ) (a : α) : ν := writeOut m.mem (m.buf c) a

def write [DecidableEq κ] (m : StoreBuffer κ α ν) (c : κ) (a : α) (v : ν) : StoreBuffer κ α ν :=
  { m with buf := update m.buf c (m.buf c ++ [(a, v)]) }

/-- The oldest write of core `c` reaches the memory. -/
def flush [DecidableEq κ] [DecidableEq α] (m : StoreBuffer κ α ν) (c : κ) :
    Option (StoreBuffer κ α ν) :=
  match m.buf c with
  | [] => none
  | (a, v) :: rest => some ⟨update m.mem a v, update m.buf c rest⟩

/-- The memory `mem`, with nothing pending. -/
def settled (mem : α → ν) : StoreBuffer κ α ν := ⟨mem, fun _ => []⟩

def Drained (m : StoreBuffer κ α ν) (c : κ) : Prop := m.buf c = []

instance (m : StoreBuffer κ α ν) (c : κ) : Decidable (m.Drained c) :=
  decidable_of_iff ((m.buf c).isEmpty = true) List.isEmpty_iff

/-! ## Writing out -/

section WriteOut

variable [DecidableEq α]

theorem writeOut_cons (mem : α → ν) (w : α × ν) (ws : List (α × ν)) :
    writeOut mem (w :: ws) = writeOut (update mem w.1 w.2) ws := rfl

theorem writeOut_append (mem : α → ν) (ws ws' : List (α × ν)) :
    writeOut mem (ws ++ ws') = writeOut (writeOut mem ws) ws' := by
  rw [writeOut, List.foldl_append]
  rfl

/-- What is seen at `a` is the memory there or one of the writes. -/
theorem writeOut_cases (mem : α → ν) (ws : List (α × ν)) (a : α) :
    writeOut mem ws a = mem a ∨ (a, writeOut mem ws a) ∈ ws := by
  induction ws generalizing mem with
  | nil => exact Or.inl rfl
  | cons w ws ih =>
    rw [writeOut_cons]
    rcases ih (update mem w.1 w.2) with h | h
    · rw [h]
      by_cases e : a = w.1
      · subst e
        rw [update_self]
        exact Or.inr List.mem_cons_self
      · rw [update_of_ne e]
        exact Or.inl rfl
    · exact Or.inr (List.mem_cons_of_mem w h)

end WriteOut

/-! ## Reading -/

section Reading

variable {m m' : StoreBuffer κ α ν} {c d : κ} {a b : α} {v w : ν}

theorem read_cases [DecidableEq α] (m : StoreBuffer κ α ν) (c : κ) (a : α) :
    m.read c a = m.mem a ∨ (a, m.read c a) ∈ m.buf c := writeOut_cases m.mem (m.buf c) a

theorem read_eq_mem [DecidableEq α] (h : ∀ w, (a, w) ∉ m.buf c) : m.read c a = m.mem a :=
  (read_cases m c a).resolve_right (h _)

theorem Drained.read [DecidableEq α] (h : m.Drained c) : m.read c = m.mem := by
  funext a
  refine read_eq_mem fun w hw => ?_
  rw [h] at hw
  cases hw

theorem drained_settled (mem : α → ν) (c : κ) : (settled mem : StoreBuffer κ α ν).Drained c := rfl

/-- The writes in the queues after one more. -/
theorem pending_write [DecidableEq κ] :
    (b, w) ∈ (m.write c a v).buf d ↔ (b, w) ∈ m.buf d ∨ (d = c ∧ b = a ∧ w = v) := by
  by_cases e : d = c
  · subst e
    simp [write]
  · simp [write, e]

variable [DecidableEq κ] [DecidableEq α]

theorem read_write_self : (m.write c a v).read c = update (m.read c) a v := by
  funext b
  rw [read, write]
  simp only [update_self]
  rw [writeOut_append]
  rfl

theorem read_write_of_core_ne (h : d ≠ c) : (m.write c a v).read d = m.read d := by
  funext b
  rw [read, write]
  simp only [update_of_ne h]
  rfl

theorem flush_eq_some :
    m.flush c = some m' ↔ ∃ a v rest, m.buf c = (a, v) :: rest ∧
      m' = ⟨update m.mem a v, update m.buf c rest⟩ := by
  unfold flush
  split
  · rename_i h
    simp [h]
  · rename_i a v rest h
    constructor
    · intro heq
      exact ⟨a, v, rest, h, (Option.some.inj heq).symm⟩
    · rintro ⟨a', v', rest', hbuf, rfl⟩
      rw [h] at hbuf
      obtain ⟨heq, rfl⟩ := List.cons.inj hbuf
      obtain ⟨rfl, rfl⟩ := Prod.mk.inj heq
      rfl

theorem flush_write (h : m.Drained c) (a : α) (v : ν) :
    (m.write c a v).flush c = some ⟨update m.mem a v, m.buf⟩ := by
  have hbuf := update_eq_self c m.buf
  rw [h] at hbuf
  refine flush_eq_some.mpr ⟨a, v, [], ?_, ?_⟩
  · simp only [write, update_self]
    rw [h, List.nil_append]
  · simp only [write, update_idem, hbuf]

theorem pending_flush (h : m.flush c = some m') (hw : (b, w) ∈ m'.buf d) : (b, w) ∈ m.buf d := by
  obtain ⟨a, v, rest, hbuf, rfl⟩ := flush_eq_some.mp h
  by_cases e : d = c
  · subst e
    rw [hbuf]
    simp only [update_self] at hw
    exact List.mem_cons_of_mem _ hw
  · simpa only [update_of_ne e] using hw

theorem not_drained_of_flush (h : m.flush c = some m') : ¬m.Drained c := by
  intro hd
  obtain ⟨a, v, rest, hbuf, _⟩ := flush_eq_some.mp h
  rw [hd] at hbuf
  cases hbuf

theorem Drained.flush (hd : m.Drained d) (h : m.flush c = some m') : m'.Drained d := by
  refine List.eq_nil_iff_forall_not_mem.mpr fun w hw => ?_
  have hold := pending_flush (b := w.1) (w := w.2) h hw
  rw [hd] at hold
  cases hold

theorem read_flush_self (h : m.flush c = some m') : m'.read c = m.read c := by
  obtain ⟨a, v, rest, hbuf, rfl⟩ := flush_eq_some.mp h
  funext b
  rw [read, read, hbuf]
  simp only [update_self]
  rfl

end Reading

/-! ## Writes in order -/

section InOrder

variable [DecidableEq α]

/-- Each of the writes takes the memory from a state to one with `R`. -/
def Steps (R : (α → ν) → (α → ν) → Prop) : (α → ν) → List (α × ν) → Prop
  | _, [] => True
  | mem, w :: ws =>
      R mem (update mem w.1 w.2) ∧ Steps R (update mem w.1 w.2) ws

/-- Each pending write of core `c` will take the memory from a state to one with `R`, if no other core
    writes. -/
def InOrder (R : (α → ν) → (α → ν) → Prop) (m : StoreBuffer κ α ν) (c : κ) : Prop :=
  Steps R m.mem (m.buf c)

variable {R : (α → ν) → (α → ν) → Prop} {mem : α → ν} {ws : List (α × ν)} {a : α} {v : ν}
  {m m' : StoreBuffer κ α ν} {c : κ}

theorem Steps.append (h : Steps R mem ws)
    (hw : R (writeOut mem ws) (update (writeOut mem ws) a v)) :
    Steps R mem (ws ++ [(a, v)]) := by
  induction ws generalizing mem with
  | nil => exact ⟨hw, trivial⟩
  | cons w ws ih => exact ⟨h.1, ih h.2 hw⟩

theorem InOrder.of_drained (h : m.Drained c) : m.InOrder R c := by
  rw [InOrder, h]
  trivial

variable [DecidableEq κ]

theorem InOrder.write (h : m.InOrder R c) (hw : R (m.read c) (update (m.read c) a v)) :
    (m.write c a v).InOrder R c := by
  rw [InOrder, StoreBuffer.write]
  simp only [update_self]
  exact Steps.append h hw

theorem InOrder.flush (h : m.InOrder R c) (hm : m.flush c = some m') :
    R m.mem m'.mem ∧ m'.InOrder R c := by
  obtain ⟨a, v, rest, hbuf, rfl⟩ := flush_eq_some.mp hm
  rw [InOrder, hbuf] at h
  refine ⟨h.1, ?_⟩
  rw [InOrder]
  simp only [update_self]
  exact h.2

end InOrder

end StoreBuffer

end DemosOsLinux.Lib
