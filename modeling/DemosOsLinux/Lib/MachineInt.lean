/-
  C integer conversions and unsigned 64-bit arithmetic on `Nat` and `Int`.

  A `size_t` (or `unsigned long`) is a `Nat` below `2 ^ 64`; `u64Sub` and `u64Add` wrap as the
  machine operations do. `checkedSub` and `checkedAdd` return `none` where the machine
  operation would wrap, so "this subtraction never wraps" is a statement about them.
-/
import Mathlib.Algebra.Ring.Int.Defs
import Mathlib.Algebra.Ring.Nat

namespace DemosOsLinux.Lib

/-- `a - b` on `size_t`. -/
def u64Sub (a b : Nat) : Nat := (a + (2 ^ 64 - b % 2 ^ 64)) % 2 ^ 64

/-- `a + b` on `size_t`. -/
def u64Add (a b : Nat) : Nat := (a + b) % 2 ^ 64

/-- `a - b` where the result is representable, `none` where `size_t` wraps. -/
def checkedSub (a b : Nat) : Option Nat := if b ≤ a then some (a - b) else none

/-- `a + b` where the result is representable, `none` where `size_t` wraps. -/
def checkedAdd (a b : Nat) : Option Nat := if a + b < 2 ^ 64 then some (a + b) else none

/-- `(int) n`: the low 32 bits, as a signed number. -/
def intOfU64 (n : Nat) : Int := Int.bmod n (2 ^ 32)

/-- `(size_t) i`: sign extension to 64 bits, read as an unsigned number. -/
def u64OfInt (i : Int) : Nat := (i % 2 ^ 64).toNat

/-- `(ssize_t) n`. -/
def i64OfU64 (n : Nat) : Int := Int.bmod n (2 ^ 64)

/-- `x` is an `int`. -/
def FitsI32 (x : Int) : Prop := -2 ^ 31 ≤ x ∧ x < 2 ^ 31

/-- `x` is a `long long`. -/
def FitsI64 (x : Int) : Prop := -2 ^ 63 ≤ x ∧ x < 2 ^ 63

theorem u64Sub_of_le {a b : Nat} (h : b ≤ a) (ha : a < 2 ^ 64) : u64Sub a b = a - b := by
  unfold u64Sub
  omega

theorem u64Add_of_lt {a b : Nat} (h : a + b < 2 ^ 64) : u64Add a b = a + b := by
  unfold u64Add
  omega

theorem checkedSub_of_le {a b : Nat} (h : b ≤ a) : checkedSub a b = some (a - b) := by
  unfold checkedSub
  rw [if_pos h]

theorem checkedAdd_of_lt {a b : Nat} (h : a + b < 2 ^ 64) : checkedAdd a b = some (a + b) := by
  unfold checkedAdd
  rw [if_pos h]

theorem intOfU64_of_lt {n : Nat} (h : n < 2 ^ 31) : intOfU64 n = n := by
  unfold intOfU64
  rw [Int.bmod_def]
  omega

theorem u64OfInt_natCast {n : Nat} (h : n < 2 ^ 64) : u64OfInt n = n := by
  unfold u64OfInt
  omega

theorem i64OfU64_of_lt {n : Nat} (h : n < 2 ^ 63) : i64OfU64 n = n := by
  unfold i64OfU64
  rw [Int.bmod_def]
  omega

theorem FitsI32.bmod {x : Int} (h : FitsI32 x) : x.bmod (2 ^ 32) = x := by
  obtain ⟨hlo, hhi⟩ := h
  rw [Int.bmod_def]
  omega

theorem FitsI64.bmod {x : Int} (h : FitsI64 x) : x.bmod (2 ^ 64) = x := by
  obtain ⟨hlo, hhi⟩ := h
  rw [Int.bmod_def]
  omega

theorem u64OfInt_bmod (x : Int) : u64OfInt (x.bmod (2 ^ 64)) = u64OfInt x := by
  unfold u64OfInt
  exact congrArg Int.toNat (Int.bmod_emod (m := 2 ^ 64))

/-- A number under its own sign mask. -/
theorem and_sshiftRight_last {w : Nat} (x : BitVec w) :
    x &&& x.sshiftRight (w - 1) = if x.msb = true then x else 0#w := by
  -- every bit of the mask is the sign bit
  have hmask : ∀ i (hi : i < w), (x.sshiftRight (w - 1))[i] = x.msb := by
    intro i hi
    rw [BitVec.getElem_sshiftRight]
    split
    · have hzero : i = 0 := by omega
      subst hzero
      rw [BitVec.msb_eq_getLsbD_last, BitVec.getLsbD_eq_getElem (by omega)]
      rfl
    · rfl
  ext i hi
  rw [BitVec.getElem_and, hmask i hi]
  cases x.msb with
  | true => rw [Bool.and_true, if_pos rfl]
  | false => rw [Bool.and_false, if_neg Bool.false_ne_true, BitVec.getElem_zero]

/-- Below `2 ^ 31` no conversion changes a number. -/
theorem conversions_exact {m : Nat} (h : m < 2 ^ 31) :
    (∀ n : Nat, n ≤ m → intOfU64 n = n) ∧ (∀ n : Nat, n ≤ m → u64OfInt n = n) ∧
      (∀ n : Nat, n ≤ m → i64OfU64 n = n) := by
  refine ⟨fun n hn => ?_, fun n hn => ?_, fun n hn => ?_⟩
  · exact intOfU64_of_lt (by omega)
  · exact u64OfInt_natCast (by omega)
  · exact i64OfU64_of_lt (by omega)

end DemosOsLinux.Lib
