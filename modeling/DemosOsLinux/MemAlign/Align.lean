/-
  Aligned memory from malloc(3) (examples/memory_allocation/mem_align.cc, `malloc_align`).

  The size is rounded up to the next multiple of the page size that is greater than it, malloc(3) is
  asked for so much, and its address is rounded up in the same way. `size` is an `unsigned int`,
  `ps`, `pages` and `new_size` are `int`s, an address is an `unsigned long`.
  * `nextPage_add_mod`: how far a rounding goes, for every residue.
  * `malloc_align_usable_iff`: when the aligned block lies inside the allocated one.
-/
import DemosOsLinux.Lib.MachineInt

namespace DemosOsLinux.MemAlign

open Lib

/-- `int pages=size / ps + 1`; the right side is computed as `unsigned int`. -/
def pages (ps size : Nat) : Int := intOfU64 ((size / ps + 1) % 2 ^ 32)

/-- `int new_size=pages * ps`. -/
def newSize (ps size : Nat) : Int := Int.bmod (pages ps size * ps) (2 ^ 32)

/-- The argument of `malloc`, a `size_t`. -/
def request (ps size : Nat) : Nat := u64OfInt (newSize ps size)

/-- `(iptr / ps + 1) * ps` on `unsigned long`. -/
def alignUp (ps iptr : Nat) : Nat := (iptr / ps + 1) % 2 ^ 64 * ps % 2 ^ 64

/-- `malloc_align`, with the page size and the allocator. -/
def mallocAlign (ps : Nat) (malloc : Nat → Nat) (size : Nat) : Nat :=
  alignUp ps (malloc (request ps size))

/-- Both roundings, on numbers. -/
def nextPage (ps x : Nat) : Nat := (x / ps + 1) * ps

theorem nextPage_add_mod (ps x : Nat) : nextPage ps x + x % ps = x + ps := by
  have hx := Nat.div_add_mod x ps
  unfold nextPage
  rw [Nat.add_mul, Nat.one_mul, Nat.mul_comm (x / ps) ps]
  omega

theorem div_add_one_le_nextPage {ps : Nat} (hps : 0 < ps) (x : Nat) :
    x / ps + 1 ≤ nextPage ps x := Nat.le_mul_of_pos_right _ hps

/-- Without overflow `new_size` is the size rounded up. -/
theorem request_eq {ps size : Nat} (hps : 0 < ps) (hsize : nextPage ps size < 2 ^ 31) :
    request ps size = nextPage ps size := by
  have hle := div_add_one_le_nextPage hps size
  have hpages : pages ps size = (size / ps + 1 : Nat) := by
    rw [pages, Nat.mod_eq_of_lt (by omega), intOfU64_of_lt (by omega)]
  have hnew : newSize ps size = (nextPage ps size : Nat) := by
    have hmul : ((size / ps + 1 : Nat) : Int) * ps = (nextPage ps size : Nat) :=
      (Int.natCast_mul _ _).symm
    rw [newSize, hpages, hmul, Int.bmod_def]
    omega
  rw [request, hnew, u64OfInt_natCast (by omega)]

theorem alignUp_eq {ps p : Nat} (hps : 0 < ps) (hp : nextPage ps p < 2 ^ 64) :
    alignUp ps p = nextPage ps p := by
  have hle := div_add_one_le_nextPage hps p
  rw [alignUp, Nat.mod_eq_of_lt (show p / ps + 1 < 2 ^ 64 by omega)]
  exact Nat.mod_eq_of_lt hp

/-- **malloc_align.** Any page size that is a power of two, any size and any address that malloc(3)
    returns, without overflow in the roundings: the result is a multiple of the page size, and
    `size` bytes from there lie inside the allocated block, if and only if the address is at least
    as far into its page as the size is into its last one. -/
theorem malloc_align_usable_iff (k size : Nat) (malloc : Nat → Nat)
    (hsize : nextPage (2 ^ k) size < 2 ^ 31)
    (hp : nextPage (2 ^ k) (malloc (request (2 ^ k) size)) < 2 ^ 64) :
    (2 ^ k ∣ mallocAlign (2 ^ k) malloc size ∧
      malloc (request (2 ^ k) size) ≤ mallocAlign (2 ^ k) malloc size ∧
      mallocAlign (2 ^ k) malloc size + size ≤
        malloc (request (2 ^ k) size) + request (2 ^ k) size) ↔
    size % 2 ^ k ≤ malloc (request (2 ^ k) size) % 2 ^ k := by
  have hps : 0 < 2 ^ k := Nat.two_pow_pos k
  rw [mallocAlign, alignUp_eq hps hp, request_eq hps hsize]
  rw [request_eq hps hsize] at hp
  generalize malloc (nextPage (2 ^ k) size) = p
  generalize 2 ^ k = ps at hps
  have hsizes := nextPage_add_mod ps size
  have haddresses := nextPage_add_mod ps p
  have hlt := Nat.mod_lt p hps
  constructor
  · rintro ⟨_, _, hinside⟩
    omega
  · intro hle
    exact ⟨Nat.dvd_mul_left ps (p / ps + 1), by omega, by omega⟩

/-- An address near the end of its page. -/
theorem malloc_align_usable_endOfPage :
    4096 ∣ mallocAlign 4096 (fun _ => 409600 + 4080) 20200 ∧
      409600 + 4080 ≤ mallocAlign 4096 (fun _ => 409600 + 4080) 20200 ∧
      mallocAlign 4096 (fun _ => 409600 + 4080) 20200 + 20200 ≤
        409600 + 4080 + request 4096 20200 :=
  (malloc_align_usable_iff 12 20200 (fun _ => 409600 + 4080) (by decide) (by decide)).mpr (by decide)

/-- The size of `main`, with an address 16 bytes into its page: five pages are allocated, and the
    last 3800 bytes of the aligned block lie behind them. -/
theorem aligned_block_outside :
    request 4096 20200 = 20480 ∧
    mallocAlign 4096 (fun _ => 409600 + 16) 20200 + 20200 = 409600 + 16 + 20480 + 3800 := by
  decide

end DemosOsLinux.MemAlign
