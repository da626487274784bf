/-
  Integer powers by squaring (examples/arithmetic/ipow.c).

  The exponent selects by a table at which case of a `switch` the function enters; from there it
  falls through, with one multiplication and one squaring for each bit. `base` is an `int32_t` and
  its squares are modulo 2^32; `result` is an `uint64_t`, and `base` is sign-extended when it is
  multiplied in. Exponents from 63 on have a case of their own.
  * `switchFrom_result`: the result is the product of the wrapped squares that the bits select.
  * `lower_fits`: if the power fits, only the square of the highest bit can have wrapped.
  * `ipow_exact_iff`: and if it has, the result is wrong.
-/
import Mathlib.Algebra.Order.Ring.Int
import Mathlib.Tactic.Ring

namespace DemosOsLinux.Ipow

/-- `highest_bit_set`, an array of 256 bytes. -/
def highestBitSet : List Nat :=
  [0, 1] ++ List.replicate 2 2 ++ List.replicate 4 3 ++ List.replicate 8 4 ++
    List.replicate 16 5 ++ List.replicate 31 6 ++ List.replicate 193 255

/-- The variables of the function. -/
structure Vars where
  result : Int
  exp : Nat
  base : Int

/-- `if (exp & 1) result *= base`. -/
def Vars.multiply (v : Vars) : Vars :=
  if v.exp &&& 1 = 1 then { v with result := v.result * v.base % 2 ^ 64 } else v

/-- `exp >>= 1; base *= base`. -/
def Vars.square (v : Vars) : Vars :=
  { v with exp := v.exp >>> 1, base := Int.bmod (v.base * v.base) (2 ^ 32) }

/-- The cases 1 to 6, entered at the given one, down to the default. -/
def switchFrom : Nat → Vars → Vars
  | 0, v => v
  | 1, v => v.multiply
  | n + 2, v => switchFrom (n + 1) v.multiply.square

/-- `ipow`. -/
def ipow (base : Int32) (exp : UInt8) : Int :=
  let entry := highestBitSet[exp.toNat]?.getD 255
  if entry = 255 then
    if base.toInt = 1 then 1
    else if base.toInt = -1 then 1 - 2 * (exp.toNat &&& 1 : Nat)
    else 0
  else Int.bmod (switchFrom entry ⟨1, exp.toNat, base.toInt⟩).result (2 ^ 64)

/-! ## The table -/

variable {e : Nat} {b : Int}

theorem highestBitSet_small (h : e < 63) :
    highestBitSet[e]?.getD 255 = if e = 0 then 0 else e.log2 + 1 := by
  revert e
  decide +kernel

theorem highestBitSet_large (h : 63 ≤ e) : highestBitSet[e]?.getD 255 = 255 := by
  have htail : highestBitSet.drop 63 = List.replicate 193 255 := by decide +kernel
  have hget : highestBitSet[e]? = (List.replicate 193 255)[e - 63]? := by
    rw [← htail, List.getElem?_drop, Nat.add_sub_of_le h]
  rw [hget, List.getElem?_replicate]
  split <;> rfl

/-! ## The cases -/

/-- What `base` holds after `k` squarings. -/
def wrapped (b : Int) (k : Nat) : Int := Int.bmod (b ^ 2 ^ k) (2 ^ 32)

theorem wrapped_succ (b : Int) (k : Nat) :
    Int.bmod (wrapped b k * wrapped b k) (2 ^ 32) = wrapped b (k + 1) := by
  unfold wrapped
  rw [Int.bmod_mul_bmod, Int.mul_bmod_bmod, ← pow_two, ← pow_mul, pow_succ 2 k]

/-- The product of the wrapped squares for the lowest `n` bits of `e`. -/
def product (b : Int) : Nat → Nat → Nat → Int
  | 0, _, _ => 1
  | n + 1, e, k => (if e % 2 = 1 then wrapped b k else 1) * product b n (e / 2) (k + 1)

theorem multiply_eq (x : Int) (e : Nat) (w : Int) :
    Vars.multiply ⟨x % 2 ^ 64, e, w⟩ = ⟨x * (if e % 2 = 1 then w else 1) % 2 ^ 64, e, w⟩ := by
  unfold Vars.multiply
  rw [Nat.and_one_is_mod]
  by_cases hbit : e % 2 = 1
  · rw [if_pos hbit, if_pos hbit, Int.mul_emod, Int.emod_emod_of_dvd _ (dvd_refl _), ← Int.mul_emod]
  · rw [if_neg hbit, if_neg hbit, mul_one]

theorem switchFrom_result (b : Int) (n e k : Nat) (x : Int) :
    (switchFrom n ⟨x % 2 ^ 64, e, wrapped b k⟩).result = x * product b n e k % 2 ^ 64 := by
  induction n generalizing e k x with
  | zero => simp [switchFrom, product]
  | succ n ih =>
    cases n with
    | zero =>
      rw [switchFrom, multiply_eq]
      simp only [product, mul_one]
    | succ n =>
      rw [switchFrom, multiply_eq]
      have hsquare : Vars.square ⟨x * (if e % 2 = 1 then wrapped b k else 1) % 2 ^ 64, e,
          wrapped b k⟩ = ⟨x * (if e % 2 = 1 then wrapped b k else 1) % 2 ^ 64, e / 2,
          wrapped b (k + 1)⟩ := by
        simp only [Vars.square, wrapped_succ, Nat.shiftRight_one]
      rw [hsquare, ih, mul_assoc]
      rfl

/-- If no square below the highest bit has wrapped, the product is a power times the highest
    square. -/
theorem product_eq (b : Int) {h : Nat} (k : Nat) (hlo : 2 ^ h ≤ e) (hhi : e < 2 ^ (h + 1))
    (hexact : ∀ j < h, e / 2 ^ j % 2 = 1 → wrapped b (k + j) = b ^ 2 ^ (k + j)) :
    product b (h + 1) e k = b ^ (2 ^ k * (e - 2 ^ h)) * wrapped b (k + h) := by
  induction h generalizing e k with
  | zero =>
    obtain rfl : e = 1 := by omega
    simp [product]
  | succ h ih =>
    have hpow : 2 ^ (h + 1) = 2 * 2 ^ h := pow_succ' 2 h
    have hpow' : 2 ^ (h + 1 + 1) = 2 * (2 * 2 ^ h) := by rw [pow_succ', hpow]
    have hrest : ∀ j < h, e / 2 / 2 ^ j % 2 = 1 → wrapped b (k + 1 + j) = b ^ 2 ^ (k + 1 + j) := by
      intro j hj hbit
      rw [Nat.div_div_eq_div_mul, ← pow_succ'] at hbit
      rw [Nat.add_assoc, Nat.add_comm 1 j]
      exact hexact (j + 1) (by omega) hbit
    have hexp : e - 2 ^ (h + 1) = e % 2 + 2 * (e / 2 - 2 ^ h) := by omega
    rw [product, ih (k + 1) (by omega) (by omega) hrest, hexp, Nat.mul_add, pow_add b, ← mul_assoc]
    have hlow : (if e % 2 = 1 then wrapped b k else 1) = b ^ (2 ^ k * (e % 2)) := by
      by_cases hbit : e % 2 = 1
      · have h0 := hexact 0 (Nat.succ_pos h) (by rw [pow_zero, Nat.div_one]; exact hbit)
        rw [if_pos hbit, hbit, mul_one]
        exact h0
      · rw [if_neg hbit, show e % 2 = 0 by omega, mul_zero, pow_zero]
    rw [hlow, pow_succ 2 k, mul_assoc (2 ^ k) 2, Nat.add_assoc k 1 h, Nat.add_comm 1 h]

/-! ## Powers that fit -/

/-- `x` is an `int32_t`. -/
def Fits32 (x : Int) : Prop := -2 ^ 31 ≤ x ∧ x < 2 ^ 31

/-- `x` is an `int64_t`. -/
def Fits64 (x : Int) : Prop := -2 ^ 63 ≤ x ∧ x < 2 ^ 63

theorem wrapped_of_fits {k : Nat} (h : Fits32 (b ^ 2 ^ k)) : wrapped b k = b ^ 2 ^ k := by
  obtain ⟨hlo, hhi⟩ := h
  rw [wrapped, Int.bmod_def]
  split <;> omega

theorem natAbs_wrapped_le (b : Int) (k : Nat) : (wrapped b k).natAbs ≤ 2 ^ 31 := by
  rw [wrapped, Int.bmod_def]
  split <;> omega

/-- A power that is not an `int32_t` is a square that is too large. -/
theorem large_of_not_fits (hb : Fits32 b) {k : Nat} (h : ¬Fits32 (b ^ 2 ^ k)) :
    0 < k ∧ 2 ^ 31 ≤ b.natAbs ^ 2 ^ k := by
  cases k with
  | zero =>
    rw [pow_zero, pow_one] at h
    exact absurd hb h
  | succ k =>
    refine ⟨Nat.succ_pos k, ?_⟩
    have hsquare : 0 ≤ b ^ 2 ^ (k + 1) := by
      rw [pow_succ, pow_mul]
      exact sq_nonneg _
    have habs := Int.natAbs_pow b (2 ^ (k + 1))
    unfold Fits32 at h
    omega

/-- A set bit below the highest one: its square cannot have wrapped, or the power would have more
    than 93 bits. -/
theorem lower_fits (hb : Fits32 b) {h j : Nat} (hfits : Fits64 (b ^ e)) (hlo : 2 ^ h ≤ e)
    (hj : j < h) (hbit : e / 2 ^ j % 2 = 1) : Fits32 (b ^ 2 ^ j) := by
  by_contra hno
  obtain ⟨_, hlarge⟩ := large_of_not_fits hb hno
  have hpos : 0 < 2 ^ j := Nat.two_pow_pos j
  have hthree : 2 ^ j * 3 ≤ e := by
    have hdouble : 2 ^ j * 2 ≤ e := (pow_succ 2 j ▸ Nat.pow_le_pow_right (by decide) hj).trans hlo
    have hdiv := (Nat.le_div_iff_mul_le hpos).mpr (Nat.mul_comm _ _ ▸ hdouble)
    rw [Nat.mul_comm]
    exact (Nat.le_div_iff_mul_le hpos).mp (by omega)
  have hb1 : 0 < b.natAbs := by
    by_contra hzero
    rw [show b.natAbs = 0 by omega, Nat.zero_pow hpos] at hlarge
    exact absurd hlarge (by decide)
  have hbig : 2 ^ 93 ≤ b.natAbs ^ e := calc
    2 ^ 93 = (2 ^ 31) ^ 3 := by rw [← pow_mul]
    _ ≤ (b.natAbs ^ 2 ^ j) ^ 3 := Nat.pow_le_pow_left hlarge 3
    _ = b.natAbs ^ (2 ^ j * 3) := (pow_mul _ _ _).symm
    _ ≤ b.natAbs ^ e := Nat.pow_le_pow_right hb1 hthree
  rw [← Int.natAbs_pow] at hbig
  obtain ⟨hmin, hmax⟩ := hfits
  omega

/-- 2^31 is not a square. -/
theorem sq_ne (y : Nat) : y ^ 2 ≠ 2 ^ 31 := by
  intro h
  rcases Nat.lt_or_ge y 46341 with hlt | hge
  · have hle : y ^ 2 ≤ 46340 ^ 2 := Nat.pow_le_pow_left (by omega) 2
    omega
  · have hle : 46341 ^ 2 ≤ y ^ 2 := Nat.pow_le_pow_left hge 2
    omega

/-- A highest square that has wrapped gives a wrong result. -/
theorem wrong_of_wrapped (hb : Fits32 b) {h : Nat} (hlo : 2 ^ h ≤ e) (hfits : Fits64 (b ^ e))
    (hno : ¬Fits32 (b ^ 2 ^ h)) : Int.bmod (b ^ (e - 2 ^ h) * wrapped b h) (2 ^ 64) ≠ b ^ e := by
  obtain ⟨hpos, hlarge⟩ := large_of_not_fits hb hno
  have hpow : b ^ e = b ^ (e - 2 ^ h) * b ^ 2 ^ h := by
    rw [← pow_add, Nat.sub_add_cancel hlo]
  obtain ⟨y, hy⟩ : ∃ y, b.natAbs ^ 2 ^ h = y ^ 2 := by
    obtain ⟨m, rfl⟩ := Nat.exists_eq_succ_of_ne_zero hpos.ne'
    exact ⟨b.natAbs ^ 2 ^ m, by rw [← pow_mul, pow_succ]⟩
  have hw := natAbs_wrapped_le b h
  have hne : wrapped b h ≠ b ^ 2 ^ h := by
    intro heq
    have hrange : Fits32 (wrapped b h) := by
      rw [wrapped, Int.bmod_def]
      constructor <;> split <;> omega
    exact hno (heq ▸ hrange)
  have hr0 : b ^ (e - 2 ^ h) ≠ 0 := by
    refine pow_ne_zero _ fun hzero => ?_
    rw [hzero, Int.natAbs_zero, Nat.zero_pow (Nat.two_pow_pos h)] at hlarge
    exact absurd hlarge (by decide)
  have habs : (b ^ 2 ^ h).natAbs = y ^ 2 := (Int.natAbs_pow _ _).trans hy
  rw [hpow] at hfits ⊢
  rw [hy] at hlarge
  generalize b ^ (e - 2 ^ h) = r at hfits hr0 ⊢
  generalize b ^ 2 ^ h = x at hfits hne habs ⊢
  generalize wrapped b h = w at hw hne ⊢
  have hrx : r.natAbs * y ^ 2 ≤ 2 ^ 63 := by
    rw [← habs, ← Int.natAbs_mul]
    obtain ⟨hmin, hmax⟩ := hfits
    omega
  have hr : r.natAbs ≤ 2 ^ 32 := by
    by_contra hgt
    have hmul : (2 ^ 32 + 1) * 2 ^ 31 ≤ r.natAbs * y ^ 2 := Nat.mul_le_mul (by omega) hlarge
    omega
  have hrw : r.natAbs * w.natAbs ≤ 2 ^ 32 * 2 ^ 31 := Nat.mul_le_mul hr hw
  rw [← Int.natAbs_mul] at hrw
  intro heq
  obtain ⟨hmin, hmax⟩ := hfits
  -- equal modulo 2^64, and both at most 2^63: equal, or the two ends of the range
  have hcases : r * w = r * x ∨ (r * w = 2 ^ 63 ∧ r * x = -2 ^ 63) := by
    rw [Int.bmod_def] at heq
    generalize r * w = rw' at heq hrw
    split at heq <;> omega
  rcases hcases with hsame | ⟨hend, hbegin⟩
  · exact hne (mul_left_cancel₀ hr0 hsame)
  · -- both factors are at their bounds, so the square would be 2^31
    have hrw' : r.natAbs * w.natAbs = 2 ^ 63 := by rw [← Int.natAbs_mul, hend]; rfl
    have hrx' : r.natAbs * y ^ 2 = 2 ^ 63 := by rw [← habs, ← Int.natAbs_mul, hbegin]; rfl
    have hr' : r.natAbs = 2 ^ 32 := by
      by_contra hlt
      have hmul : r.natAbs * w.natAbs ≤ (2 ^ 32 - 1) * 2 ^ 31 := Nat.mul_le_mul (by omega) hw
      omega
    rw [hr'] at hrx'
    exact sq_ne y (by omega)

/-! ## The function -/

theorem fits32_toInt (base : Int32) : Fits32 base.toInt :=
  ⟨base.le_toInt, base.toInt_lt⟩

theorem ipow_zero (base : Int32) : ipow base 0 = 1 := by
  unfold ipow
  dsimp only
  rw [highestBitSet_small (by decide), if_neg (by decide)]
  rfl

/-- The exponents with a case of their own in the `switch`. -/
theorem ipow_small (base : Int32) {exp : UInt8} (hne : exp.toNat ≠ 0) (hlt : exp.toNat < 63) :
    ipow base exp =
      Int.bmod (product base.toInt (exp.toNat.log2 + 1) exp.toNat 0) (2 ^ 64) := by
  have hlog : exp.toNat.log2 < 8 := (Nat.log2_lt hne).mpr exp.toNat_lt
  have hstart : wrapped base.toInt 0 = base.toInt := by
    have hfits : Fits32 (base.toInt ^ 2 ^ 0) := by
      rw [pow_zero, pow_one]
      exact fits32_toInt base
    rw [wrapped_of_fits hfits, pow_zero, pow_one]
  have hresult := switchFrom_result base.toInt (exp.toNat.log2 + 1) exp.toNat 0 1
  rw [hstart, one_mul] at hresult
  unfold ipow
  dsimp only
  rw [highestBitSet_small hlt, if_neg hne, if_neg (by omega)]
  rw [show (1 : Int) = 1 % 2 ^ 64 from rfl, hresult]
  exact_mod_cast Int.emod_bmod _ (2 ^ 64)

/-- The exponents that the table marks as an overflow. -/
theorem ipow_large (base : Int32) {exp : UInt8} (hge : 63 ≤ exp.toNat) :
    ipow base exp = if base.toInt.natAbs ≤ 1 then base.toInt ^ exp.toNat else 0 := by
  unfold ipow
  dsimp only
  rw [highestBitSet_large hge, if_pos rfl]
  generalize base.toInt = b
  generalize exp.toNat = e at hge ⊢
  by_cases hone : b = 1
  · rw [if_pos hone, if_pos (by omega), hone, one_pow]
  rw [if_neg hone]
  by_cases hminus : b = -1
  · rw [if_pos hminus, if_pos (by omega), hminus, Nat.and_one_is_mod]
    rcases Nat.even_or_odd e with heven | hodd
    · rw [heven.neg_one_pow, Nat.even_iff.mp heven]
      rfl
    · rw [hodd.neg_one_pow, Nat.odd_iff.mp hodd]
      rfl
  rw [if_neg hminus]
  by_cases hzero : b = 0
  · rw [if_pos (by omega), hzero, zero_pow (by omega)]
  · rw [if_neg (by omega)]

theorem fits32_of_natAbs_le_one (hb : b.natAbs ≤ 1) (k : Nat) : Fits32 (b ^ k) := by
  have hpow : (b ^ k).natAbs ≤ 1 := by
    rw [Int.natAbs_pow]
    exact (Nat.pow_le_pow_left hb k).trans (Nat.one_pow k).le
  unfold Fits32
  omega

theorem not_fits32_of_two_le (hb : 2 ≤ b.natAbs) {k : Nat} (hk : 32 ≤ k) : ¬Fits32 (b ^ k) := by
  have hpow : 2 ^ 32 ≤ (b ^ k).natAbs := by
    rw [Int.natAbs_pow]
    exact (Nat.pow_le_pow_right (by decide) hk).trans (Nat.pow_le_pow_left hb k)
  unfold Fits32
  omega

/-- If the power is an `int64_t`, `ipow` computes it exactly when the square for the highest bit of
    the exponent is an `int32_t`. -/
theorem ipow_exact_iff (base : Int32) (exp : UInt8) (hfits : Fits64 (base.toInt ^ exp.toNat)) :
    ipow base exp = base.toInt ^ exp.toNat ↔ Fits32 (base.toInt ^ 2 ^ exp.toNat.log2) := by
  have hb := fits32_toInt base
  by_cases hzero : exp.toNat = 0
  · have hexp : exp = 0 := UInt8.toNat_inj.mp hzero
    subst hexp
    rw [ipow_zero]
    exact ⟨fun _ => by simpa using hb, fun _ => (pow_zero _).symm⟩
  have hlo : 2 ^ exp.toNat.log2 ≤ exp.toNat := Nat.log2_self_le hzero
  by_cases hlt : exp.toNat < 63
  · have hprod := product_eq base.toInt 0 hlo Nat.lt_log2_self fun j hj hbit => by
      rw [Nat.zero_add]
      exact wrapped_of_fits (lower_fits hb hfits hlo hj hbit)
    rw [pow_zero, one_mul, Nat.zero_add] at hprod
    rw [ipow_small base hzero hlt, hprod]
    constructor
    · intro hexact
      by_contra hno
      exact wrong_of_wrapped hb hlo hfits hno hexact
    · intro hsquare
      rw [wrapped_of_fits hsquare, ← pow_add, Nat.sub_add_cancel hlo]
      obtain ⟨hmin, hmax⟩ := hfits
      rw [Int.bmod_def]
      split <;> omega
  · have hge : 63 ≤ exp.toNat := Nat.le_of_not_lt hlt
    rw [ipow_large base hge]
    by_cases hsmall : base.toInt.natAbs ≤ 1
    · rw [if_pos hsmall]
      exact ⟨fun _ => fits32_of_natAbs_le_one hsmall _, fun _ => rfl⟩
    · rw [if_neg hsmall]
      have hlog : 5 ≤ exp.toNat.log2 := (Nat.le_log2 hzero).mpr (by omega)
      have hpow : 2 ^ 5 ≤ 2 ^ exp.toNat.log2 := Nat.pow_le_pow_right (by decide) hlog
      refine ⟨fun heq => ?_, fun hsquare => absurd hsquare
        (not_fits32_of_two_le (by omega) hpow)⟩
      exact absurd heq.symm (pow_ne_zero _ (by omega))

/-- 3^39 is an `int64_t`, and its highest square 3^32 is not an `int32_t`. -/
theorem ipow_exact_three :
    (Fits64 ((3 : Int32).toInt ^ (15 : UInt8).toNat) ∧ ipow 3 15 = 3 ^ 15) ∧
      Fits64 ((3 : Int32).toInt ^ (39 : UInt8).toNat) ∧ ipow 3 39 ≠ 3 ^ 39 := by
  have h15 : Fits64 ((3 : Int32).toInt ^ (15 : UInt8).toNat) := by unfold Fits64; decide
  have h39 : Fits64 ((3 : Int32).toInt ^ (39 : UInt8).toNat) := by unfold Fits64; decide
  have hlow : Fits32 ((3 : Int32).toInt ^ 2 ^ (15 : UInt8).toNat.log2) := by
    unfold Fits32; decide
  have hhigh : ¬Fits32 ((3 : Int32).toInt ^ 2 ^ (39 : UInt8).toNat.log2) := by
    unfold Fits32; decide
  exact ⟨⟨h15, (ipow_exact_iff 3 15 h15).mpr hlow⟩, h39,
    fun heq => hhigh ((ipow_exact_iff 3 39 h39).mp heq)⟩

/-- 2^32 is an `int64_t`, but the last squaring gives 0. -/
theorem ipow_two_wraps :
    Fits64 ((2 : Int32).toInt ^ (32 : UInt8).toNat) ∧
      ipow 2 32 ≠ (2 : Int32).toInt ^ (32 : UInt8).toNat := by
  constructor
  · unfold Fits64
    decide
  · decide +kernel

end DemosOsLinux.Ipow
