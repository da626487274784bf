/-
  The transfers of the two clipboard drivers (kernel_standalone/clipboard_basic/main.c and
  kernel_standalone/clipboard/main.c), with any offset that `pread(2)` and `pwrite(2)` pass on.

  The number of bytes is `min(SIZE - *offset, (loff_t)count)`, a 64-bit signed minimum, cut to an
  `int`; the user copy takes it as an `unsigned long`. A copy of more than `INT_MAX` bytes is refused
  as a whole: `copy_to_user` and `copy_from_user` then return the number they were given. What a copy
  leaves uncopied is returned to the caller of the driver.

  Kernel memory is addressed relative to the buffer: the buffer is 0 … 4095.
  * `remainingBytes_of_le`, `remainingBytes_of_gt`: the number of bytes for every offset.
  * `readContract_iff`, `writeContract_iff`: when the common tail of the calls keeps the contract.
-/
import DemosOsLinux.Lib.MachineInt
import Mathlib.Data.List.Basic

namespace DemosOsLinux.Clipboard

open Lib

/-- `BUFFER_SIZE` and `CLIPBOARD_SIZE`. -/
def clipboardSize : Int := 4096

/-- `-EIO`. -/
def eIo : Int := -5

/-- What a call is given: a position that is not negative and a count below `2 ^ 31`. -/
structure Args where
  offset : Int
  count : Nat
  offset_nonneg : 0 ≤ offset
  offset_lt : offset < 2 ^ 63
  count_lt : count < 2 ^ 31

/-- `int remaining_bytes = min(CLIPBOARD_SIZE-(*offset), (loff_t)count)`. -/
def remainingBytes (a : Args) : Int := Int.bmod (min (clipboardSize - a.offset) a.count) (2 ^ 32)

abbrev Mem := Int → UInt8

def bytesAt (m : Mem) (addr : Int) (n : Nat) : List UInt8 :=
  (List.range n).map fun i => m (addr + i)

def storeAt (m : Mem) (addr : Int) (bs : List UInt8) : Mem := fun x =>
  if addr ≤ x then bs[(x - addr).toNat]?.getD (m x) else m x

/-- `copy_to_user(_, addr, n)` that leaves `res` bytes uncopied (cut to `n`): what arrives, and the
    result. -/
def copyToUser (m : Mem) (addr : Int) (n res : Nat) : List UInt8 × Nat :=
  if 2 ^ 31 ≤ n then ([], n) else (bytesAt m addr (n - min res n), min res n)

/-- `copy_from_user(addr, user, n)` that leaves `res` bytes uncopied (cut to `n`): the copied bytes
    arrive, and the rest of the destination is filled with zero bytes. -/
def copyFromUser (m : Mem) (addr : Int) (user : Nat → UInt8) (n res : Nat) : Mem × Nat :=
  if 2 ^ 31 ≤ n then (m, n)
  else (storeAt m addr ((List.range (n - min res n)).map user ++ List.replicate (min res n) 0),
    min res n)

/-- The end of a call: the value it returns, the position, what it has put into the user's buffer,
    and kernel memory. -/
structure Result where
  ret : Int
  offset : Int
  toUser : List UInt8
  mem : Mem

/-- The tail of both `clipboard_read`, from `copy_to_user` on. -/
def copyOut (m : Mem) (a : Args) (remaining : Int) (res : Nat) : Result :=
  let c := copyToUser m a.offset (u64OfInt remaining) res
  let ret := intOfU64 c.2
  if ret ≠ 0 then ⟨ret, a.offset, c.1, m⟩ else ⟨remaining, a.offset + remaining, c.1, m⟩

/-- The tail of both `clipboard_write`, from `copy_from_user` on. -/
def copyIn (m : Mem) (a : Args) (user : Nat → UInt8) (remaining : Int) (res : Nat) : Result :=
  let c := copyFromUser m a.offset user (u64OfInt remaining) res
  let ret := intOfU64 c.2
  if ret ≠ 0 then ⟨ret, a.offset, [], c.1⟩ else ⟨remaining, a.offset + remaining, [], c.1⟩

/-- `clipboard_read` of clipboard_basic. -/
def clipboardRead (m : Mem) (a : Args) (res : Nat) : Result :=
  let bytesToRead := remainingBytes a
  if bytesToRead = 0 then ⟨0, a.offset, [], m⟩ else copyOut m a bytesToRead res

/-- `clipboard_write` of clipboard_basic. -/
def clipboardWrite (m : Mem) (a : Args) (user : Nat → UInt8) (res : Nat) : Result :=
  let bytesToWrite := remainingBytes a
  if bytesToWrite = 0 then ⟨eIo, a.offset, [], m⟩ else copyIn m a user bytesToWrite res

/-! ## The number of bytes -/

theorem remainingBytes_of_le (a : Args) (h : a.offset ≤ clipboardSize) :
    remainingBytes a = min (clipboardSize - a.offset) a.count := by
  have h1 := a.offset_nonneg
  have h2 := a.count_lt
  unfold remainingBytes clipboardSize at *
  rw [Int.bmod_def]
  omega

theorem remainingBytes_of_gt (a : Args) (h : clipboardSize < a.offset) :
    remainingBytes a = if (a.offset - clipboardSize) % 2 ^ 32 ≤ 2 ^ 31
      then -((a.offset - clipboardSize) % 2 ^ 32)
      else 2 ^ 32 - (a.offset - clipboardSize) % 2 ^ 32 := by
  have hmin : min (clipboardSize - a.offset) a.count = clipboardSize - a.offset := by
    omega
  unfold remainingBytes
  rw [hmin, Int.bmod_def]
  split <;> split <;> omega

theorem remainingBytes_bounds (a : Args) :
    -(2 ^ 31) ≤ remainingBytes a ∧ remainingBytes a < 2 ^ 31 := by
  unfold remainingBytes
  rw [Int.bmod_def]
  split <;> omega

/-! ## The contract -/

/-- `IS_ERR_VALUE`: the values -1 … -4095 are error codes. -/
def IsError (ret : Int) : Prop := -4095 ≤ ret ∧ ret < 0

/-- A call returns an error code and changes nothing, or it returns the number of bytes that it has
    moved, and the position has advanced by it. -/
def Contract (a : Args) (r : Result) (unchanged : Prop) (moved : Nat → Prop) : Prop :=
  (IsError r.ret ∧ r.offset = a.offset ∧ unchanged) ∨
  ∃ n : Nat, r.ret = n ∧ (n : Int) ≤ min (a.count : Int) (max 0 (clipboardSize - a.offset)) ∧ moved n ∧
    r.offset = a.offset + n

def ReadContract (m : Mem) (a : Args) (r : Result) : Prop :=
  Contract a r (r.toUser = [] ∧ r.mem = m) fun n => r.toUser = bytesAt m a.offset n ∧ r.mem = m

def WriteContract (m : Mem) (a : Args) (user : Nat → UInt8) (r : Result) : Prop :=
  Contract a r (r.toUser = [] ∧ r.mem = m) fun n =>
    r.toUser = [] ∧ r.mem = storeAt m a.offset ((List.range n).map user)

/-- The position is in the buffer or at its end, and the copy leaves nothing uncopied or has nothing
    to copy; or the position is behind the buffer, by less than 4096 bytes modulo `2 ^ 32`. -/
def Fits (a : Args) (res : Nat) : Prop :=
  (a.offset ≤ clipboardSize ∧ (res = 0 ∨ a.count = 0 ∨ a.offset = clipboardSize)) ∨
  (clipboardSize < a.offset ∧ (a.offset - clipboardSize) % 2 ^ 32 ≤ 4095)

/-- `Fits` by the number of bytes. -/
theorem fits_iff (a : Args) (res : Nat) :
    Fits a res ↔ (remainingBytes a < 0 → -4095 ≤ remainingBytes a) ∧
      (0 ≤ remainingBytes a → min res (remainingBytes a).toNat = 0 ∧
        remainingBytes a ≤ min (a.count : Int) (max 0 (clipboardSize - a.offset))) := by
  rcases Int.lt_or_le clipboardSize a.offset with hgt | hle
  · rw [remainingBytes_of_gt a hgt]
    unfold Fits
    split <;> omega
  · rw [remainingBytes_of_le a hle]
    unfold Fits
    omega

theorem fits_of_zero {a : Args} (h : remainingBytes a = 0) (res : Nat) : Fits a res := by
  rw [fits_iff, h]
  omega

section Contract

variable {a : Args} {res : Nat} {r : Result} {unchanged : Prop} {moved : Nat → Prop}

/-- The three ways in which a copy ends: it is refused, it is complete, or it leaves a residue. -/
theorem contract_iff_fits (hrefused : remainingBytes a < 0 →
      r.ret = remainingBytes a ∧ r.offset = a.offset ∧ unchanged)
    (hdone : 0 ≤ remainingBytes a → min res (remainingBytes a).toNat = 0 →
      r.ret = remainingBytes a ∧ r.offset = a.offset + remainingBytes a ∧
        moved (remainingBytes a).toNat)
    (hresidue : 0 ≤ remainingBytes a → 0 < min res (remainingBytes a).toNat →
      0 < r.ret ∧ r.offset = a.offset) : Contract a r unchanged moved ↔ Fits a res := by
  rw [fits_iff]
  rcases Int.lt_or_le (remainingBytes a) 0 with hneg | hpos
  · obtain ⟨hret, hoffset, hunchanged⟩ := hrefused hneg
    constructor
    · rintro (⟨herror, _⟩ | ⟨n, hn, _⟩)
      · rw [hret] at herror
        exact ⟨fun _ => herror.1, fun h => absurd h (Int.not_le.mpr hneg)⟩
      · omega
    · rintro ⟨h, _⟩
      exact Or.inl ⟨⟨by rw [hret]; exact h hneg, by rw [hret]; exact hneg⟩, hoffset, hunchanged⟩
  · rcases Nat.eq_zero_or_pos (min res (remainingBytes a).toNat) with hzero | hleft
    · obtain ⟨hret, hoffset, hmoved⟩ := hdone hpos hzero
      have hn : ((remainingBytes a).toNat : Int) = remainingBytes a := Int.toNat_of_nonneg hpos
      constructor
      · rintro (⟨herror, _⟩ | ⟨n, hn, hle, _⟩)
        · exact absurd herror.2 (by omega)
        · exact ⟨fun h => absurd hpos (Int.not_le.mpr h), fun _ => ⟨hzero, by omega⟩⟩
      · rintro ⟨_, h⟩
        refine Or.inr ⟨(remainingBytes a).toNat, by rw [hret, hn], ?_, hmoved, by rw [hoffset, hn]⟩
        rw [hn]
        exact (h hpos).2
    · obtain ⟨hret, hoffset⟩ := hresidue hpos hleft
      refine iff_of_false ?_ fun h => Nat.ne_of_gt hleft (h.2 hpos).1
      rintro (⟨herror, _⟩ | ⟨n, hn, _, _, hadvance⟩)
      · exact absurd herror.2 (by omega)
      · omega

end Contract

theorem u64OfInt_of_nonneg {i : Int} (h : 0 ≤ i) (hlt : i < 2 ^ 31) : u64OfInt i = i.toNat := by
  unfold u64OfInt
  omega

/-- A negative number of bytes comes back as it was. -/
theorem intOfU64_u64OfInt {i : Int} (h : -(2 ^ 31) ≤ i) (hneg : i < 0) :
    2 ^ 31 ≤ u64OfInt i ∧ intOfU64 (u64OfInt i) = i := by
  have hn : (u64OfInt i : Int) = i + 2 ^ 64 := by
    unfold u64OfInt
    omega
  refine ⟨by omega, ?_⟩
  unfold intOfU64
  rw [hn, Int.bmod_def]
  omega

variable {n : Nat}

theorem intOfU64_residue {res : Nat} (hn : n < 2 ^ 31) : intOfU64 (min res n) = min res n :=
  intOfU64_of_lt (by omega)

theorem copyToUser_eq (m : Mem) (addr : Int) (hn : n < 2 ^ 31) (res : Nat) :
    copyToUser m addr n res = (bytesAt m addr (n - min res n), min res n) :=
  if_neg (Nat.not_le.mpr hn)

theorem copyFromUser_eq (m : Mem) (addr : Int) (user : Nat → UInt8) (hn : n < 2 ^ 31) (res : Nat) :
    copyFromUser m addr user n res =
      (storeAt m addr ((List.range (n - min res n)).map user ++ List.replicate (min res n) 0),
        min res n) :=
  if_neg (Nat.not_le.mpr hn)

theorem readContract_iff (m : Mem) (a : Args) (res : Nat) :
    ReadContract m a (copyOut m a (remainingBytes a) res) ↔ Fits a res := by
  obtain ⟨hlow, hhigh⟩ := remainingBytes_bounds a
  refine contract_iff_fits (fun hneg => ?_) (fun hpos hzero => ?_) (fun hpos hleft => ?_)
  · obtain ⟨hbig, hback⟩ := intOfU64_u64OfInt hlow hneg
    simp only [copyOut, copyToUser, if_pos hbig, hback]
    rw [if_pos (Int.ne_of_lt hneg)]
    exact ⟨rfl, rfl, rfl, rfl⟩
  · have hlt : (remainingBytes a).toNat < 2 ^ 31 := by omega
    simp only [copyOut, u64OfInt_of_nonneg hpos hhigh, copyToUser_eq m a.offset hlt,
      intOfU64_residue hlt]
    rw [if_neg (by omega), hzero]
    exact ⟨rfl, rfl, rfl, rfl⟩
  · have hlt : (remainingBytes a).toNat < 2 ^ 31 := by omega
    simp only [copyOut, u64OfInt_of_nonneg hpos hhigh, copyToUser_eq m a.offset hlt,
      intOfU64_residue hlt]
    rw [if_pos (by omega)]
    exact ⟨show (0 : Int) < min res (remainingBytes a).toNat by omega, rfl⟩

theorem writeContract_iff (m : Mem) (a : Args) (user : Nat → UInt8) (res : Nat) :
    WriteContract m a user (copyIn m a user (remainingBytes a) res) ↔ Fits a res := by
  obtain ⟨hlow, hhigh⟩ := remainingBytes_bounds a
  refine contract_iff_fits (fun hneg => ?_) (fun hpos hzero => ?_) (fun hpos hleft => ?_)
  · obtain ⟨hbig, hback⟩ := intOfU64_u64OfInt hlow hneg
    simp only [copyIn, copyFromUser, if_pos hbig, hback]
    rw [if_pos (Int.ne_of_lt hneg)]
    exact ⟨rfl, rfl, rfl, rfl⟩
  · have hlt : (remainingBytes a).toNat < 2 ^ 31 := by omega
    simp only [copyIn, u64OfInt_of_nonneg hpos hhigh, copyFromUser_eq m a.offset user hlt,
      intOfU64_residue hlt]
    rw [if_neg (by omega), hzero, List.replicate_zero, List.append_nil]
    exact ⟨rfl, rfl, rfl, rfl⟩
  · have hlt : (remainingBytes a).toNat < 2 ^ 31 := by omega
    simp only [copyIn, u64OfInt_of_nonneg hpos hhigh, copyFromUser_eq m a.offset user hlt,
      intOfU64_residue hlt]
    rw [if_pos (by omega)]
    exact ⟨show (0 : Int) < min res (remainingBytes a).toNat by omega, rfl⟩

/-! ## The driver without sleeping -/

theorem clipboardRead_contract (m : Mem) (a : Args) (res : Nat) :
    ReadContract m a (clipboardRead m a res) ↔ Fits a res := by
  unfold clipboardRead
  by_cases hzero : remainingBytes a = 0
  · -- the end of the file, at every position
    rw [if_pos hzero]
    refine iff_of_true (Or.inr ⟨0, rfl, by omega, ⟨rfl, rfl⟩, (Int.add_zero _).symm⟩) ?_
    exact fits_of_zero hzero res
  · rw [if_neg hzero]
    exact readContract_iff m a res

theorem clipboardWrite_contract (m : Mem) (a : Args) (user : Nat → UInt8) (res : Nat) :
    WriteContract m a user (clipboardWrite m a user res) ↔ Fits a res := by
  unfold clipboardWrite
  by_cases hzero : remainingBytes a = 0
  · rw [if_pos hzero]
    have herror : IsError eIo := ⟨by decide, by decide⟩
    exact iff_of_true (Or.inl ⟨herror, rfl, rfl, rfl⟩) (fits_of_zero hzero res)
  · rw [if_neg hzero]
    exact writeContract_iff m a user res

end DemosOsLinux.Clipboard
