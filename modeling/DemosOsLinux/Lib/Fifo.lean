/-
  The bounded FIFO queue, as a machine: the specification a byte pipe refines.

  The state is the queue itself. `put bs` appends a block that fits, `get n` removes the first
  `n` elements. `fifo_law`: in every run the elements taken out, followed by the queue, are
  the elements put in, so nothing is lost, duplicated or reordered.
-/
import DemosOsLinux.Lib.Machine

namespace DemosOsLinux.Lib

/-- An operation on the queue. -/
inductive FifoOp (α : Type) where
  | put (bs : List α)
  | get (n : Nat)

/-- What an operation shows: the block put in, or the block taken out. -/
inductive FifoEvent (α : Type) where
  | put (bs : List α)
  | got (bs : List α)

variable {α : Type}

/-- All elements put in, in order. -/
def putAll : List (FifoEvent α) → List α
  | [] => []
  | .put bs :: es => bs ++ putAll es
  | .got _ :: es => putAll es

/-- All elements taken out, in order. -/
def gotAll : List (FifoEvent α) → List α
  | [] => []
  | .put _ :: es => gotAll es
  | .got bs :: es => bs ++ gotAll es

/-- The FIFO queue of at most `cap` elements. -/
def fifo (α : Type) (cap : Nat) : Machine (List α) (FifoOp α) (FifoEvent α) where
  step q
    | .put bs => if q.length + bs.length ≤ cap then some (q ++ bs, [.put bs]) else none
    | .get n => if n ≤ q.length then some (q.drop n, [.got (q.take n)]) else none

theorem putAll_append (es fs : List (FifoEvent α)) :
    putAll (es ++ fs) = putAll es ++ putAll fs := by
  induction es with
  | nil => rfl
  | cons e es ih => cases e <;> simp [putAll, ih]

theorem gotAll_append (es fs : List (FifoEvent α)) :
    gotAll (es ++ fs) = gotAll es ++ gotAll fs := by
  induction es with
  | nil => rfl
  | cons e es ih => cases e <;> simp [gotAll, ih]

theorem fifo_step_law (cap : Nat) (q q₁ : List α) (o : FifoOp α) (es : List (FifoEvent α))
    (h : (fifo α cap).step q o = some (q₁, es)) : gotAll es ++ q₁ = q ++ putAll es := by
  cases o with
  | put bs =>
    simp only [fifo] at h
    obtain ⟨_, rfl, rfl⟩ := guard_result_inj h
    simp [gotAll, putAll]
  | get n =>
    simp only [fifo] at h
    obtain ⟨_, rfl, rfl⟩ := guard_result_inj h
    simp [gotAll, putAll]

/-- What came out, then what is still queued, is what was there and what was put in. -/
theorem fifo_law (cap : Nat) (q q₁ : List α) (os : List (FifoOp α)) (tr : List (FifoEvent α))
    (h : (fifo α cap).run q os = some (q₁, tr)) : gotAll tr ++ q₁ = q ++ putAll tr := by
  refine (fifo α cap).run_induct (fun _ => True)
    (fun q' tr => gotAll tr ++ q' = q ++ putAll tr) ?_ (fun _ _ => trivial) (by simp [gotAll,
      putAll]) h
  intro q' tr o q₂ es _ hi hs
  rw [gotAll_append, putAll_append, List.append_assoc, fifo_step_law cap q' q₂ o es hs,
    ← List.append_assoc, hi, List.append_assoc]

/-- A block that fits can be put in. -/
theorem fifo_put (cap : Nat) (q bs : List α) (h : q.length + bs.length ≤ cap) :
    (fifo α cap).run q [.put bs] = some (q ++ bs, [.put bs]) := by
  simp [Machine.run, fifo, h]

theorem fifo_get (cap : Nat) (q : List α) (n : Nat) (h : n ≤ q.length) :
    (fifo α cap).run q [.get n] = some (q.drop n, [.got (q.take n)]) := by
  simp [Machine.run, fifo, h]

end DemosOsLinux.Lib
