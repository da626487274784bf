/-
  64-bit division in the kernel (kernel/mod_div.c).

  A 32-bit kernel has no 64-bit division, so the compiler's `__udivdi3` and `__divdi3` are given by
  the module itself, by way of `div_u64_rem` and `div64_s64`. The divisor of the former is a `u32`.
  A division by zero is a trap; `copy_from_user` and `copy_to_user` return how many bytes they left.
  * `narrowed_div_iff`: for which operands the lost upper half of the divisor makes no difference.
  * `div_toInt_iff`: the signed quotient that does not fit.
  * `ioctl_exact_iff`: when the call does what it is for.
-/
import Mathlib.Data.Nat.Basic
import Mathlib.Data.UInt

namespace DemosOsLinux.DivIoctl

/-- `EINVAL`. -/
def einval : Int := 22

/-- `IOCTL_DIV_DOOPS`, that is `_IO('d', 27)`. -/
def ioctlDivDoops : UInt32 := (100 : UInt32) <<< (8 : UInt32) ||| 27

/-- `buffer` of shared.h. -/
structure Buffer where
  u1 : UInt64
  u2 : UInt64
  udiv : UInt64
  umul : UInt64
  uadd : UInt64
  usub : UInt64
  d1 : Int64
  d2 : Int64
  ddiv : Int64
  dmul : Int64
  dadd : Int64
  dsub : Int64
deriving DecidableEq

/-- `div_u64_rem`: quotient and remainder, or the trap. -/
def divU64Rem (dividend : UInt64) (divisor : UInt32) : Option (UInt64 × UInt32) :=
  if divisor = 0 then none
  else some (dividend / divisor.toUInt64, (dividend % divisor.toUInt64).toUInt32)

/-- `__udivdi3`. -/
def udivdi3 (divided divisor : UInt64) : Option UInt64 :=
  (divU64Rem divided divisor.toUInt32).map Prod.fst

/-- `div64_s64`; the one quotient that is no `s64` wraps. -/
def div64S64 (dividend divisor : Int64) : Option Int64 :=
  if divisor = 0 then none else some (dividend / divisor)

/-- `__divdi3`. -/
def divdi3 (divided divisor : Int64) : Option Int64 := div64S64 divided divisor

/-- The eight operations on the copy of the buffer. -/
def operations (b : Buffer) : Option Buffer := do
  let udiv ← udivdi3 b.u1 b.u2
  let ddiv ← divdi3 b.d1 b.d2
  return { b with
    udiv := udiv
    umul := b.u1 * b.u2
    uadd := b.u1 + b.u2
    usub := b.u1 - b.u2
    ddiv := ddiv
    dmul := b.d1 * b.d2
    dadd := b.d1 + b.d2
    dsub := b.d1 - b.d2 }

inductive Outcome where
  /-- The division trapped. -/
  | divideError
  /-- The return value, and the user's buffer unless it was written in part only. -/
  | returned (ret : Int) (user : Option Buffer)
deriving DecidableEq

/-- Bytes of the buffer that a copy can leave. -/
abbrev Left := Fin 97

/-- `kern_unlocked_ioctl`; the copies leave `fromLeft` and `toLeft` bytes. -/
def kernUnlockedIoctl (cmd : UInt32) (user : Buffer) (fromLeft toLeft : Left) : Outcome :=
  if cmd = ioctlDivDoops then
    if fromLeft.val ≠ 0 then .returned fromLeft.val (some user)
    else
      match operations user with
      | none => .divideError
      | some b =>
        if toLeft.val ≠ 0 then .returned toLeft.val none
        else .returned 0 (some b)
  else .returned (-einval) (some user)

/-! ## The quotients -/

/-- Without its upper half a divisor of more than 32 bits is less than half of what it was. -/
theorem narrowed_div_iff {m n : Nat} (hpos : n % 2 ^ 32 ≠ 0) :
    m / (n % 2 ^ 32) = m / n ↔ n < 2 ^ 32 ∨ m < n % 2 ^ 32 := by
  constructor
  · intro heq
    refine Decidable.byContradiction fun hnot => ?_
    obtain ⟨hn, hm⟩ := not_or.mp hnot
    rw [Nat.not_lt] at hn hm
    have hhalf : 2 * (n % 2 ^ 32) ≤ n := by omega
    have hone : 1 ≤ m / (n % 2 ^ 32) := (Nat.one_le_div_iff (Nat.pos_of_ne_zero hpos)).mpr hm
    have htwice : 2 * (m / n) ≤ m / (n % 2 ^ 32) := by
      rw [Nat.le_div_iff_mul_le (Nat.pos_of_ne_zero hpos)]
      calc 2 * (m / n) * (n % 2 ^ 32) = m / n * (2 * (n % 2 ^ 32)) := by
            rw [Nat.mul_comm 2, Nat.mul_assoc]
        _ ≤ m / n * n := Nat.mul_le_mul_left _ hhalf
        _ ≤ m := Nat.div_mul_le_self m n
    omega
  · rintro (hn | hm)
    · rw [Nat.mod_eq_of_lt hn]
    · rw [Nat.div_eq_of_lt hm, Nat.div_eq_of_lt (Nat.lt_of_lt_of_le hm (Nat.mod_le n _))]

theorem udivdi3_eq {m n q : UInt64} :
    udivdi3 m n = some q ↔ n.toNat % 2 ^ 32 ≠ 0 ∧ q.toNat = m.toNat / (n.toNat % 2 ^ 32) := by
  have hzero : n.toUInt32 = 0 ↔ n.toNat % 2 ^ 32 = 0 := by
    rw [← UInt32.toNat_inj, UInt64.toNat_toUInt32]
    rfl
  unfold udivdi3 divU64Rem
  split
  · next h => simp only [Option.map_none, reduceCtorEq, hzero.mp h, ne_eq, not_true, false_and]
  · next h =>
    have hquot : (m / n.toUInt32.toUInt64).toNat = m.toNat / (n.toNat % 2 ^ 32) := by
      rw [UInt64.toNat_div, UInt32.toNat_toUInt64, UInt64.toNat_toUInt32]
    rw [Option.map_some, Option.some_inj, ← UInt64.toNat_inj, hquot,
      and_iff_right (mt hzero.mpr h), eq_comm]

theorem div64S64_eq {m n q : Int64} : div64S64 m n = some q ↔ n ≠ 0 ∧ m / n = q := by
  unfold div64S64
  split
  · next h => simp only [reduceCtorEq, h, ne_eq, not_true, false_and]
  · next h => rw [Option.some_inj, and_iff_right h]

theorem div_toInt_iff {m n : Int64} :
    (m / n).toInt = m.toInt.tdiv n.toInt ↔ ¬ (m = Int64.minValue ∧ n = -1) := by
  constructor
  · rintro heq ⟨rfl, rfl⟩
    revert heq
    decide
  · intro hnot
    by_cases hm : m = Int64.minValue
    · exact Int64.toInt_div_of_ne_right m n fun hn => hnot ⟨hm, hn⟩
    · exact Int64.toInt_div_of_ne_left m n hm

/-! ## The call -/

/-- A negative error code, or success with both quotients exact. -/
def Exact (user : Buffer) : Outcome → Prop
  | .divideError => False
  | .returned ret left => ret < 0 ∨ ret = 0 ∧ ∃ b ∈ left,
      b.udiv.toNat = user.u1.toNat / user.u2.toNat ∧ b.ddiv.toInt = user.d1.toInt.tdiv user.d2.toInt

instance (user : Buffer) : DecidablePred (Exact user)
  | .divideError => .isFalse id
  | .returned ret left => inferInstanceAs (Decidable (ret < 0 ∨ ret = 0 ∧ ∃ b ∈ left,
      b.udiv.toNat = user.u1.toNat / user.u2.toNat ∧ b.ddiv.toInt = user.d1.toInt.tdiv user.d2.toInt))

/-- The operands whose quotients come out right. -/
structure Divisible (b : Buffer) : Prop where
  low : b.u2.toNat % 2 ^ 32 ≠ 0
  narrow : b.u2.toNat < 2 ^ 32 ∨ b.u1.toNat < b.u2.toNat % 2 ^ 32
  nonzero : b.d2 ≠ 0
  fits : ¬ (b.d1 = Int64.minValue ∧ b.d2 = -1)

theorem operations_eq {b b' : Buffer} (h : operations b = some b') :
    udivdi3 b.u1 b.u2 = some b'.udiv ∧ divdi3 b.d1 b.d2 = some b'.ddiv := by
  obtain ⟨udiv, hu, h⟩ := Option.bind_eq_some_iff.mp h
  obtain ⟨ddiv, hd, h⟩ := Option.bind_eq_some_iff.mp h
  obtain rfl := Option.some.inj h
  exact ⟨hu, hd⟩

theorem operations_isSome {b : Buffer} (h : Divisible b) : ∃ b', operations b = some b' := by
  have hu := (udivdi3_eq (m := b.u1) (n := b.u2) (q := b.u1 / b.u2.toUInt32.toUInt64)).mpr
    ⟨h.low, by rw [UInt64.toNat_div, UInt32.toNat_toUInt64, UInt64.toNat_toUInt32]⟩
  have hd := (div64S64_eq (m := b.d1)).mpr ⟨h.nonzero, rfl⟩
  unfold operations divdi3
  rw [hu, hd]
  exact ⟨_, rfl⟩

theorem operations_exact_iff {b b' : Buffer} (h : operations b = some b') :
    b'.udiv.toNat = b.u1.toNat / b.u2.toNat ∧ b'.ddiv.toInt = b.d1.toInt.tdiv b.d2.toInt ↔
      Divisible b := by
  obtain ⟨hu, hd⟩ := operations_eq h
  obtain ⟨hlow, hudiv⟩ := udivdi3_eq.mp hu
  obtain ⟨hnonzero, hddiv⟩ := div64S64_eq.mp hd
  rw [hudiv, narrowed_div_iff hlow, ← hddiv, div_toInt_iff]
  exact ⟨fun ⟨hnarrow, hfits⟩ => ⟨hlow, hnarrow, hnonzero, hfits⟩, fun h => ⟨h.narrow, h.fits⟩⟩

/-- The failures of the copies are reported by a positive number. -/
theorem ioctl_exact_iff (user : Buffer) (fromLeft toLeft : Left) :
    Exact user (kernUnlockedIoctl ioctlDivDoops user fromLeft toLeft) ↔
      fromLeft.val = 0 ∧ toLeft.val = 0 ∧ Divisible user := by
  have hpositive : ∀ (n : Nat) left, n ≠ 0 → ¬ Exact user (.returned n left) := by
    intro n left hn hexact
    rcases hexact with hneg | ⟨hzero, -⟩ <;> omega
  unfold kernUnlockedIoctl
  rw [if_pos rfl]
  by_cases hfrom : fromLeft.val = 0
  · rw [if_neg (not_not_intro hfrom), and_iff_right hfrom]
    cases hops : operations user with
    | none =>
      refine ⟨False.elim, fun ⟨_, hdiv⟩ => ?_⟩
      obtain ⟨b, hb⟩ := operations_isSome hdiv
      rw [hops] at hb
      cases hb
    | some b =>
      by_cases hto : toLeft.val = 0
      · dsimp only
        rw [if_neg (not_not_intro hto), and_iff_right hto, ← operations_exact_iff hops]
        simp [Exact]
      · dsimp only
        rw [if_pos hto]
        exact iff_of_false (hpositive _ _ hto) fun h => hto h.1
  · rw [if_pos hfrom]
    exact iff_of_false (hpositive _ _ hfrom) fun h => hfrom h.1

/-- The user's buffer before the call. -/
def operands (u1 u2 : UInt64) (d1 d2 : Int64) : Buffer := ⟨u1, u2, 0, 0, 0, 0, d1, d2, 0, 0, 0, 0⟩

/-- A divisor whose lower half is zero; one whose lower half is 1; a division by zero; the quotient
`2 ^ 63`; and a copy that stops after one byte. -/
theorem ioctl_failures :
    kernUnlockedIoctl ioctlDivDoops (operands 7 (2 ^ 32) 1 1) 0 0 = .divideError ∧
    ¬ Exact (operands (2 ^ 32 + 1) (2 ^ 32 + 1) 1 1)
      (kernUnlockedIoctl ioctlDivDoops (operands (2 ^ 32 + 1) (2 ^ 32 + 1) 1 1) 0 0) ∧
    kernUnlockedIoctl ioctlDivDoops (operands 7 2 1 0) 0 0 = .divideError ∧
    ¬ Exact (operands 7 2 Int64.minValue (-1))
      (kernUnlockedIoctl ioctlDivDoops (operands 7 2 Int64.minValue (-1)) 0 0) ∧
    kernUnlockedIoctl ioctlDivDoops (operands 7 2 7 2) 95 0 =
      .returned 95 (some (operands 7 2 7 2)) := by
  decide

end DemosOsLinux.DivIoctl
