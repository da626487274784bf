/-
  Bytes at 64-bit addresses.

  `store m b xs` copies `xs` to `b`, `b + 1`, …; `load m b n` reads `n` bytes. The addresses are
  modulo 2^64: a byte of a store is found by its distance from the base.
  * `store_append`, `load_append`: copies in several parts.
  * `load_store_inside`, `load_store_outside`: what a load finds after a store.
-/
import Mathlib.Algebra.Ring.Nat
import Mathlib.Data.List.Basic

namespace DemosOsLinux.Lib

abbrev ByteMemory := UInt64 → UInt8

namespace ByteMemory

def store (m : ByteMemory) (b : UInt64) (xs : List UInt8) : ByteMemory :=
  fun a => xs[(a - b).toNat]?.getD (m a)

def load (m : ByteMemory) (b : UInt64) (n : Nat) : List UInt8 :=
  (List.range n).map fun i => m (b + UInt64.ofNat i)

variable {m : ByteMemory} {a b : UInt64} {xs ys : List UInt8} {n k : Nat}

@[simp] theorem length_load : (load m b n).length = n := by
  rw [load, List.length_map, List.length_range]

/-- An address that is too far from the base keeps its byte. -/
theorem store_outside (h : xs.length ≤ (a - b).toNat) : store m b xs a = m a := by
  rw [store, List.getElem?_eq_none h, Option.getD_none]

/-- The distance from a base that is `n` further on. -/
theorem toNat_sub_add (a b : UInt64) (n : Nat) :
    (a - (b + UInt64.ofNat n)).toNat = ((a - b).toNat + (2 ^ 64 - n % 2 ^ 64)) % 2 ^ 64 := by
  have ha := a.toNat_lt
  have hb := b.toNat_lt
  rw [UInt64.toNat_sub, UInt64.toNat_sub, UInt64.toNat_add, UInt64.toNat_ofNat']
  omega

theorem store_append (h : xs.length + ys.length ≤ 2 ^ 64) :
    store (store m b xs) (b + UInt64.ofNat xs.length) ys = store m b (xs ++ ys) := by
  funext a
  have hdist := toNat_sub_add a b xs.length
  have hlt := (a - b).toNat_lt
  rcases Nat.lt_or_ge (a - b).toNat xs.length with hin | hout
  · rw [store_outside (by omega)]
    simp only [store]
    rw [List.getElem?_append_left hin]
  · simp only [store]
    rw [List.getElem?_append_right hout, List.getElem?_eq_none hout, Option.getD_none]
    congr 2
    omega

theorem load_append (m : ByteMemory) (b : UInt64) (n k : Nat) :
    load m b (n + k) = load m b n ++ load m (b + UInt64.ofNat n) k := by
  rw [load, List.range_add, List.map_append, List.map_map]
  congr 1
  refine List.map_congr_left fun i _ => ?_
  simp only [Function.comp_apply, UInt64.ofNat_add, UInt64.add_assoc]

/-- A load inside what was stored. -/
theorem load_store_inside (h : k + n ≤ xs.length) (hlen : xs.length ≤ 2 ^ 64) :
    load (store m b xs) (b + UInt64.ofNat k) n = (xs.drop k).take n := by
  refine List.ext_getElem (by simp; omega) fun i hi hi' => ?_
  rw [length_load] at hi
  have hdist : (b + UInt64.ofNat k + UInt64.ofNat i - b).toNat = k + i := by
    have hb := b.toNat_lt
    rw [UInt64.toNat_sub, UInt64.toNat_add, UInt64.toNat_add, UInt64.toNat_ofNat',
      UInt64.toNat_ofNat']
    omega
  have hget : xs[k + i]? = some (xs[k + i]) := List.getElem?_eq_getElem (by omega)
  simp only [load, List.getElem_map, List.getElem_range, List.getElem_take, List.getElem_drop,
    store, hdist, hget, Option.getD_some]

/-- A load of bytes that were not stored. -/
theorem load_store_outside (h : ∀ i, i < n → xs.length ≤ (a + UInt64.ofNat i - b).toNat) :
    load (store m b xs) a n = load m a n :=
  List.map_congr_left fun i hi => store_outside (h i (List.mem_range.mp hi))

end ByteMemory

end DemosOsLinux.Lib
