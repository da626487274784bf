/-
  The Mersenne twister (include/random_utils.hh).

  `integer` overwrites one word of `m_buffer` in place at each call. The words are those of a
  sequence given by a recurrence of order 624 (`sequence`, on natural numbers), and the buffer is a
  sliding window of it: before call `k` it holds terms `k, …, k + 623`, and `m_index` is `k % 624`
  (`Inv`). A buffer access fails outside of the buffer, and with it the call. What is returned is
  the tempering of a term, given by its bits (`temper`).
  * `twist_toNat`, `swizzle_bits`: the code's words are those of the recurrence and the tempering.
  * `integer_spec`: one call writes term `k + 624` and returns its tempering.
  * `construct_inv`: the constructor, whose 62400 calls are the first ones.
-/
import DemosOsLinux.Lib.ArrayLoops
import Mathlib.Algebra.Ring.Nat
import Mathlib.Data.Int.ModEq
import Mathlib.Data.UInt

namespace DemosOsLinux.MersenneTwister

open Lib

/-- `MT_IA`. -/
def mtIa : Nat := 397

/-- `MT_LEN`. -/
def mtLen : Nat := 624

/-- `class MersenneTwister`. -/
structure Twister where
  buffer : List UInt32
  index : Int

/-- `buffer[i]` with an `int` index. -/
def load (buffer : List UInt32) (i : Int) : Option UInt32 :=
  if 0 ≤ i then buffer[i.toNat]? else none

/-- `buffer[i] = v`. -/
def save (buffer : List UInt32) (i : Int) (v : UInt32) : Option (List UInt32) :=
  if 0 ≤ i then store buffer i.toNat v else none

/-- `i2`. -/
def nextIndex (index : Int) : Int := if index + 1 ≥ mtLen then 0 else index + 1

/-- `j`. -/
def farIndex (index : Int) : Int :=
  if index + mtIa ≥ mtLen then index + mtIa - mtLen else index + mtIa

/-- The word `s`: the top bit of one word and the others of the next. -/
def joined (a b : UInt32) : UInt32 := (a &&& 0x80000000) ||| (b &&& 0x7fffffff)

/-- "Twist". -/
def twist (a b far : UInt32) : UInt32 :=
  let s := joined a b
  far ^^^ (s >>> 1) ^^^ ((s &&& 1) * 0x9908B0DF)

/-- "Swizzle". -/
def swizzle (r : UInt32) : UInt32 :=
  let r := r ^^^ (r >>> 11)
  let r := r ^^^ ((r <<< 7) &&& 0x9d2c5680)
  let r := r ^^^ ((r <<< 15) &&& 0xefc60000)
  r ^^^ (r >>> 18)

/-- `MersenneTwister::integer`. -/
def integer (m : Twister) : Option (UInt32 × Twister) := do
  let a ← load m.buffer m.index
  let b ← load m.buffer (nextIndex m.index)
  let far ← load m.buffer (farIndex m.index)
  let r := twist a b far
  let buffer ← save m.buffer m.index r
  return (swizzle r, ⟨buffer, nextIndex m.index⟩)

/-- `MersenneTwister::MersenneTwister`, in memory that holds `uninit`. -/
def construct (uninit : Fin mtLen → UInt32) (seed : UInt32) : Option Twister := do
  let buffer ← forLoop 0 mtLen 1 (fun i buffer => store buffer i seed) (List.ofFn uninit)
  forLoop 0 (mtLen * 100) 1 (fun _ m => (integer m).map Prod.snd) ⟨buffer, 0⟩

/-- The object after `n` calls of `integer`. -/
def afterCalls : Nat → Twister → Option Twister
  | 0, m => some m
  | n + 1, m => do
    let m' ← afterCalls n m
    let (_, m'') ← integer m'
    return m''

/-! ## A sliding window -/

section Window

variable {α : Type} {N k : Nat} {x : Nat → α} {buf : List α}

/-- `buf` holds the terms `x k, …, x (k + N - 1)`. -/
structure Window (N : Nat) (x : Nat → α) (k : Nat) (buf : List α) : Prop where
  length : buf.length = N
  get : ∀ i, k ≤ i → i < k + N → buf[i % N]? = some (x i)

theorem Window.replicate (N : Nat) {a : α} (h : ∀ i < N, x i = a) :
    Window N x 0 (List.replicate N a) := by
  refine ⟨List.length_replicate, fun i _ hi => ?_⟩
  rw [Nat.zero_add] at hi
  rw [Nat.mod_eq_of_lt hi, List.getElem?_replicate, if_pos hi, h i hi]

/-- Of `N` consecutive numbers, two have different remainders. -/
theorem mod_ne_of_lt {i j : Nat} (hij : i < j) (hj : j < i + N) : i % N ≠ j % N := by
  intro h
  have hdvd : N ∣ j - i := (Nat.modEq_iff_dvd' (Nat.le_of_lt hij)).mp h
  have hle := Nat.le_of_dvd (by omega) hdvd
  omega

theorem Window.advance (h : Window N x k buf) (hN : 0 < N) :
    Window N x (k + 1) (buf.set (k % N) (x (k + N))) := by
  refine ⟨by rw [List.length_set, h.length], fun i hlo hhi => ?_⟩
  rcases Nat.lt_or_ge i (k + N) with hold | hnew
  · rw [List.getElem?_set_ne (mod_ne_of_lt (by omega) hold)]
    exact h.get i (by omega) hold
  · obtain rfl : i = k + N := by omega
    rw [Nat.add_mod_right, List.getElem?_set_self (h.length.symm ▸ Nat.mod_lt k hN)]

end Window

/-! ## The sequence -/

/-- The next term from those 624, 623 and 227 before it: `s` is the top bit of the first and the
    low 31 bits of the second. -/
def recur (a b far : Nat) : Nat :=
  let s := a / 2 ^ 31 * 2 ^ 31 + b % 2 ^ 31
  far ^^^ (s / 2) ^^^ (if s % 2 = 1 then 0x9908B0DF else 0)

def sequence (seed n : Nat) : Nat :=
  if n < 624 then seed
  else recur (sequence seed (n - 624)) (sequence seed (n - 624 + 1)) (sequence seed (n - 624 + 397))

/-- Each bit, and the one `u` places above it. -/
def temperDown (u : Nat) (x : Nat → Bool) (i : Nat) : Bool := x i ^^ x (i + u)

/-- Each bit, and where `mask` has one the bit `t` places below it. -/
def temperUp (t mask : Nat) (x : Nat → Bool) (i : Nat) : Bool :=
  x i ^^ (mask.testBit i && decide (t ≤ i) && x (i - t))

/-- The tempering of the word with the bits `x`. -/
def temper (x : Nat → Bool) : Nat → Bool :=
  temperDown 18 (temperUp 15 0xefc60000 (temperUp 7 0x9d2c5680 (temperDown 11 x)))

section Words

variable {seed : Nat}

theorem sequence_of_lt {n : Nat} (h : n < 624) : sequence seed n = seed := by
  rw [sequence, if_pos h]

theorem sequence_add (k : Nat) : sequence seed (k + 624) =
    recur (sequence seed k) (sequence seed (k + 1)) (sequence seed (k + 397)) := by
  rw [sequence, if_neg (by omega), Nat.add_sub_cancel]

theorem testBit_of_ge (w : UInt32) {i : Nat} (h : 32 ≤ i) : w.toNat.testBit i = false :=
  Nat.testBit_lt_two_pow (Nat.lt_of_lt_of_le w.toNat_lt (Nat.pow_le_pow_right (by decide) h))

/-- The masks cut `s` out of two words. -/
theorem joined_toNat (a b : UInt32) :
    (joined a b).toNat = a.toNat / 2 ^ 31 * 2 ^ 31 + b.toNat % 2 ^ 31 := by
  have hlow : b.toNat &&& 0x7fffffff = b.toNat % 2 ^ 31 := Nat.and_two_pow_sub_one_eq_mod b.toNat 31
  have hhigh : a.toNat &&& 0x80000000 = 2 ^ 31 * (a.toNat / 2 ^ 31) := by
    refine Nat.eq_of_testBit_eq fun i => ?_
    rw [Nat.testBit_and, show 0x80000000 = 2 ^ 31 from rfl, Nat.testBit_two_pow,
      Nat.testBit_two_pow_mul, Nat.testBit_div_two_pow]
    by_cases hi : 31 = i
    · simp [← hi]
    · by_cases hge : 31 ≤ i
      · simp [hi, testBit_of_ge a (i := i - 31 + 31) (by omega)]
      · simp [hi, hge]
  unfold joined
  rw [UInt32.toNat_or, UInt32.toNat_and, UInt32.toNat_and,
    show (0x80000000 : UInt32).toNat = 0x80000000 from rfl,
    show (0x7fffffff : UInt32).toNat = 0x7fffffff from rfl, hlow, hhigh,
    ← Nat.two_pow_add_eq_or_of_lt (Nat.mod_lt _ (by decide)), Nat.mul_comm]

/-- The product is the conditional. -/
theorem twist_toNat (a b far : UInt32) :
    (twist a b far).toNat = recur a.toNat b.toNat far.toNat := by
  have hodd : ((joined a b &&& 1) * 0x9908B0DF).toNat =
      if (joined a b).toNat % 2 = 1 then 0x9908B0DF else 0 := by
    have hand : (joined a b &&& 1).toNat = (joined a b).toNat % 2 := by
      rw [UInt32.toNat_and]
      exact Nat.and_one_is_mod _
    rw [UInt32.toNat_mul, hand]
    rcases Nat.mod_two_eq_zero_or_one (joined a b).toNat with h | h <;> rw [h] <;> rfl
  unfold twist recur
  dsimp only
  rw [UInt32.toNat_xor, UInt32.toNat_xor, hodd, UInt32.toNat_shiftRight, joined_toNat,
    Nat.shiftRight_eq_div_pow]
  rfl

theorem bits_down (r u : UInt32) (hu : u.toNat < 32) :
    (r ^^^ (r >>> u)).toNat.testBit = temperDown u.toNat r.toNat.testBit := by
  funext i
  rw [UInt32.toNat_xor, UInt32.toNat_shiftRight, Nat.mod_eq_of_lt hu, Nat.testBit_xor,
    Nat.testBit_shiftRight, Nat.add_comm, temperDown]

theorem bits_up (r t mask : UInt32) (ht : t.toNat < 32) :
    (r ^^^ ((r <<< t) &&& mask)).toNat.testBit = temperUp t.toNat mask.toNat r.toNat.testBit := by
  funext i
  rw [UInt32.toNat_xor, UInt32.toNat_and, UInt32.toNat_shiftLeft, Nat.mod_eq_of_lt ht,
    Nat.testBit_xor, Nat.testBit_and, Nat.testBit_mod_two_pow, Nat.testBit_shiftLeft, temperUp]
  by_cases hi : i < 32
  · simp [hi, Bool.and_assoc, Bool.and_comm, Bool.and_left_comm]
  · simp [testBit_of_ge mask (Nat.le_of_not_lt hi)]

theorem swizzle_bits (r : UInt32) : (swizzle r).toNat.testBit = temper r.toNat.testBit := by
  unfold swizzle temper
  dsimp only
  rw [bits_down _ 18 (by decide), bits_up _ 15 _ (by decide), bits_up _ 7 _ (by decide),
    bits_down _ 11 (by decide)]
  rfl

/-- Term `n` as a word. -/
def word (seed : UInt32) (n : Nat) : UInt32 := UInt32.ofNat (sequence seed.toNat n)

theorem recur_lt {a b far : Nat} (ha : a < 2 ^ 32) (hf : far < 2 ^ 32) :
    recur a b far < 2 ^ 32 := by
  have hs : a / 2 ^ 31 * 2 ^ 31 + b % 2 ^ 31 < 2 ^ 32 := by omega
  refine Nat.xor_lt_two_pow (Nat.xor_lt_two_pow hf (by omega)) ?_
  split <;> decide

theorem sequence_lt (seed : UInt32) (n : Nat) : sequence seed.toNat n < 2 ^ 32 := by
  induction n using Nat.strongRecOn with
  | _ n ih =>
    rw [sequence]
    split
    · exact seed.toNat_lt
    · exact recur_lt (ih _ (by omega)) (ih _ (by omega))

theorem word_toNat (seed : UInt32) (n : Nat) : (word seed n).toNat = sequence seed.toNat n :=
  UInt32.toNat_ofNat_of_lt (sequence_lt seed n)

theorem word_of_lt {seed : UInt32} {n : Nat} (h : n < 624) : word seed n = seed := by
  rw [← UInt32.toNat_inj, word_toNat, sequence_of_lt h]

theorem word_add (seed : UInt32) (k : Nat) :
    twist (word seed k) (word seed (k + 1)) (word seed (k + 397)) = word seed (k + 624) := by
  rw [← UInt32.toNat_inj, twist_toNat, word_toNat, word_toNat, word_toNat, word_toNat, sequence_add]

end Words

variable {seed : UInt32} {k : Nat} {m : Twister}

/-! ## One call -/

/-- Before call `k`. -/
structure Inv (seed : UInt32) (k : Nat) (m : Twister) : Prop where
  window : Window 624 (word seed) k m.buffer
  index : m.index = (k % 624 : Nat)

theorem nextIndex_mod (k : Nat) : nextIndex (k % 624 : Nat) = ((k + 1) % 624 : Nat) := by
  unfold nextIndex mtLen
  split <;> omega

theorem farIndex_mod (k : Nat) : farIndex (k % 624 : Nat) = ((k + 397) % 624 : Nat) := by
  unfold farIndex mtLen mtIa
  split <;> omega

theorem load_natCast (buffer : List UInt32) (i : Nat) : load buffer i = buffer[i]? :=
  if_pos (Int.natCast_nonneg i)

theorem save_natCast {buffer : List UInt32} {i : Nat} (h : i < buffer.length) (v : UInt32) :
    save buffer i v = some (buffer.set i v) := by
  rw [save, if_pos (Int.natCast_nonneg i)]
  exact store_of_lt h v

/-- The three words read are terms `k`, `k + 1` and `k + 397`; the one written is `k + 624`. -/
theorem integer_spec (h : Inv seed k m) :
    ∃ m', integer m = some (swizzle (word seed (k + 624)), m') ∧ Inv seed (k + 1) m' := by
  have hload : ∀ i, k ≤ i → i < k + 624 → load m.buffer (i % 624 : Nat) = some (word seed i) :=
    fun i hlo hhi => (load_natCast m.buffer (i % 624)).trans (h.window.get i hlo hhi)
  have hsave : ∀ v, save m.buffer (k % 624 : Nat) v = some (m.buffer.set (k % 624) v) :=
    fun v => save_natCast (h.window.length.symm ▸ Nat.mod_lt k (by decide)) v
  refine ⟨⟨m.buffer.set (k % 624) (word seed (k + 624)), ((k + 1) % 624 : Nat)⟩, ?_,
    h.window.advance (by decide), rfl⟩
  unfold integer
  rw [h.index, nextIndex_mod, farIndex_mod, hload k (by omega) (by omega),
    hload (k + 1) (by omega) (by omega), hload (k + 397) (by omega) (by omega)]
  simp only [Option.bind_eq_bind, Option.bind_some, hsave, word_add]
  rfl

theorem Inv.index_range (h : Inv seed k m) : 0 ≤ m.index ∧ m.index < mtLen := by
  rw [h.index]
  unfold mtLen
  omega

theorem afterCalls_inv (h : Inv seed k m) (n : Nat) :
    ∃ m', afterCalls n m = some m' ∧ Inv seed (k + n) m' := by
  induction n with
  | zero => exact ⟨m, rfl, h⟩
  | succ n ih =>
    obtain ⟨m', hcalls, hinv⟩ := ih
    obtain ⟨m'', hcall, hinv'⟩ := integer_spec hinv
    refine ⟨m'', ?_, hinv'⟩
    rw [afterCalls, hcalls]
    simp only [Option.bind_eq_bind, Option.bind_some, hcall]
    rfl

/-! ## The constructor -/

/-- The first loop of the constructor. -/
theorem fill_spec (uninit : Fin mtLen → UInt32) (seed : UInt32) :
    forLoop 0 mtLen 1 (fun i buffer => store buffer i seed) (List.ofFn uninit) =
      some (List.replicate mtLen seed) := by
  have hfill := forLoop_fill (List.ofFn uninit) seed
  rwa [List.length_ofFn] at hfill

/-- The second one, with any number of turns. -/
theorem shuffle_inv (h : Inv seed 0 m) (n : Nat) :
    ∃ m', forLoop 0 n 1 (fun _ m => (integer m).map Prod.snd) m = some m' ∧ Inv seed n m' := by
  refine forLoop_spec Nat.one_pos (Inv seed) (Nat.zero_le n) h ?_
  intro k m _ hk hinv
  obtain ⟨m', hcall, hinv'⟩ := integer_spec hinv
  refine ⟨m', by rw [hcall]; rfl, ?_⟩
  rw [Nat.min_eq_left hk]
  exact hinv'

theorem construct_inv (uninit : Fin mtLen → UInt32) (seed : UInt32) :
    ∃ m, construct uninit seed = some m ∧ Inv seed 62400 m := by
  have hfirst : Inv seed 0 ⟨List.replicate mtLen seed, 0⟩ :=
    ⟨Window.replicate 624 fun _ hi => word_of_lt hi, rfl⟩
  have hcalls : mtLen * 100 = 62400 := by decide
  obtain ⟨m, hloop, hinv⟩ := shuffle_inv hfirst (mtLen * 100)
  rw [hcalls] at hinv
  refine ⟨m, ?_, hinv⟩
  rw [construct, fill_spec, Option.bind_eq_bind, Option.bind_some, hloop]

/-- The calls return the tempered sequence from term 624 + 62400 on. -/
theorem twister_implements_recurrence (uninit : Fin mtLen → UInt32) (seed : UInt32) :
    ∃ m, construct uninit seed = some m ∧ ∀ n, ∃ m' r m'', afterCalls n m = some m' ∧
      integer m' = some (r, m'') ∧
      (∀ i, r.toNat.testBit i = temper (sequence seed.toNat (624 + 62400 + n)).testBit i) ∧
      0 ≤ m'.index ∧ m'.index < mtLen := by
  obtain ⟨m, hconstruct, hinv⟩ := construct_inv uninit seed
  refine ⟨m, hconstruct, fun n => ?_⟩
  obtain ⟨m', hcalls, hinv'⟩ := afterCalls_inv hinv n
  obtain ⟨m'', hcall, -⟩ := integer_spec hinv'
  refine ⟨m', _, m'', hcalls, hcall, fun i => ?_, hinv'.index_range⟩
  rw [swizzle_bits, word_toNat, show 62400 + n + 624 = 624 + 62400 + n by omega]

end DemosOsLinux.MersenneTwister
