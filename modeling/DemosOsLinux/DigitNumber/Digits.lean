/-
  Counting the characters of a number (examples/c/digit_number.c).

  `digit_num` divides by ten until nothing is left, and counts one more for the minus sign. The sign is
  removed by `l=-l`, which leaves the smallest `long` as it is: the loop is then not entered at all.
  * `digitLoop_spec`: from a positive number the loop counts its digits.
  * `digit_num_iff`: `digit_num` is right for all other numbers.
  * `main_counts_iff`: so is the output of the program.
-/
import DemosOsLinux.Lib.MachineInt

namespace DemosOsLinux.DigitNumber

open Lib

/-! ## The program -/

variable {l : Int64}

theorem toInt_div_ten (h : 0 < l) : (l / 10).toInt = l.toInt / 10 := by
  have hpos : 0 < l.toInt := Int64.lt_iff_toInt_lt.mp h
  rw [Int64.toInt_div_of_ne_right l 10 (by decide), Int.tdiv_eq_ediv_of_nonneg (Int.le_of_lt hpos)]
  rfl

/-- `while(l>0)`. -/
def digitLoop (l : Int64) (digits : Int32) : Int32 :=
  if 0 < l then digitLoop (l / 10) (digits + 1) else digits
termination_by l.toInt.toNat
decreasing_by
  rename_i h
  have hpos : 0 < l.toInt := Int64.lt_iff_toInt_lt.mp h
  rw [toInt_div_ten h]
  omega

def digitNum (l : Int64) : Int32 :=
  if l = 0 then 1
  else if l < 0 then digitLoop (-l) 1
  else digitLoop l 0

/-- A line of the output. -/
structure Line where
  name : String
  num : Int64
  digits : Int32

/-- `%ld` -/
def printed (l : Int64) : String := toString l.toInt

def Line.text (line : Line) : String :=
  line.name ++ " is " ++ printed line.num ++ ", " ++ toString line.digits.toInt ++ "\n"

def lines (num1 num2 : Int64) : List Line :=
  let mul := num1 * num2
  [⟨"num1", num1, digitNum num1⟩, ⟨"num2", num2, digitNum num2⟩, ⟨"mul", mul, digitNum mul⟩]

/-- What `main` writes when it reads `num1` and `num2`. -/
def main (num1 num2 : Int64) : String :=
  "enter the first number: " ++ "enter the second number: " ++
    String.join ((lines num1 num2).map Line.text)

/-! ## The loop -/

theorem length_repr_of_lt {n : Nat} (h : n < 10) : n.repr.length = 1 := by
  have hle : n.repr.length ≤ 1 := (Nat.length_repr_le_iff Nat.one_pos).mpr h
  have hpos : 0 < n.repr.length := Nat.length_repr_pos
  omega

theorem length_repr_of_ge {n : Nat} (h : 10 ≤ n) : n.repr.length = (n / 10).repr.length + 1 := by
  have hlast : (n % 10).repr.length = 1 := length_repr_of_lt (Nat.mod_lt n (by decide))
  rw [Nat.repr_eq_repr_append_repr h, String.length_append, hlast]

theorem digitLoop_of_not_pos (h : ¬ 0 < l) (digits : Int32) : digitLoop l digits = digits := by
  rw [digitLoop, if_neg h]

/-- One character for each digit; `digits` is far from the end of its range. -/
theorem digitLoop_spec (n : Nat) {digits : Int32} (hl : l.toInt = n) (hpos : 0 < n)
    (hlo : 0 ≤ digits.toInt) (hhi : digits.toInt + n.repr.length < 2 ^ 31) :
    (digitLoop l digits).toInt = digits.toInt + n.repr.length := by
  induction n using Nat.strongRecOn generalizing l digits with
  | ind n ih =>
    have hlt : 0 < l := Int64.lt_iff_toInt_lt.mpr (by rw [hl]; exact Int.ofNat_lt.mpr hpos)
    have hnext : (l / 10).toInt = (n / 10 : Nat) := by
      rw [toInt_div_ten hlt, hl]
      rfl
    have hlen : 0 < n.repr.length := Nat.length_repr_pos
    have hone : (digits + 1).toInt = digits.toInt + 1 := by
      have hfits : FitsI32 (digits.toInt + 1) := ⟨by omega, by omega⟩
      rw [Int32.toInt_add]
      exact hfits.bmod
    rw [digitLoop, if_pos hlt]
    by_cases hten : n < 10
    · -- the last digit: nothing is left
      have hzero : ¬ 0 < l / 10 := by
        rw [Int64.lt_iff_toInt_lt, hnext, Nat.div_eq_of_lt hten]
        decide
      rw [digitLoop_of_not_pos hzero, hone, length_repr_of_lt hten]
      rfl
    · have hlonger := length_repr_of_ge (Nat.le_of_not_lt hten)
      rw [ih (n / 10) (by omega) hnext (by omega) (by omega) (by omega), hone, hlonger]
      omega

/-! ## The numbers that are counted right -/

theorem lt_zero_iff : l < 0 ↔ l.toInt < 0 := Int64.lt_iff_toInt_lt

theorem length_printed_of_neg (h : l.toInt < 0) :
    (printed l).length = 1 + l.toInt.natAbs.repr.length := by
  have habs : (-l.toInt).toNat = l.toInt.natAbs := by omega
  rw [printed, Int.toString_eq_repr, Int.repr_eq_if, if_neg (Int.not_le.mpr h),
    String.length_append, habs]
  rfl

theorem length_printed_of_nonneg (h : 0 ≤ l.toInt) :
    (printed l).length = l.toInt.natAbs.repr.length := by
  have habs : l.toInt.toNat = l.toInt.natAbs := by omega
  rw [printed, Int.toString_eq_repr, Int.repr_eq_if, if_pos h, habs]

/-- A `long` has at most 19 digits. -/
theorem length_repr_le (l : Int64) : l.toInt.natAbs.repr.length ≤ 19 := by
  have hlo := l.le_toInt
  have hhi := l.toInt_lt
  refine (Nat.length_repr_le_iff (by decide)).mpr ?_
  omega

/-- The sign can be removed from every negative number but the smallest one. -/
theorem toInt_neg_of_ne (h : l.toInt < 0) (hmin : l ≠ Int64.minValue) :
    (-l).toInt = l.toInt.natAbs := by
  have hlo := l.le_toInt
  have hne : l.toInt ≠ -2 ^ 63 := fun heq => hmin (Int64.toInt_inj.mp heq)
  have hfits : FitsI64 (-l.toInt) := ⟨by omega, by omega⟩
  rw [Int64.toInt_neg, hfits.bmod]
  omega

theorem digitNum_eq_length (hmin : l ≠ Int64.minValue) :
    (digitNum l).toInt = (printed l).length := by
  have hlen := length_repr_le l
  have hsign : Int32.toInt 1 = 1 := rfl
  have hnone : Int32.toInt 0 = 0 := rfl
  unfold digitNum
  by_cases hzero : l = 0
  · rw [if_pos hzero, length_printed_of_nonneg (by rw [hzero]; decide), hzero]
    exact congrArg Int.ofNat (length_repr_of_lt (n := 0) (by decide)).symm
  · have hne : l.toInt ≠ 0 := fun heq => hzero (Int64.toInt_inj.mp heq)
    rw [if_neg hzero]
    by_cases hneg : l < 0
    · have hlt := lt_zero_iff.mp hneg
      rw [if_pos hneg, length_printed_of_neg hlt,
        digitLoop_spec _ (toInt_neg_of_ne hlt hmin) (by omega) (by decide) (by omega)]
      omega
    · have hge : 0 ≤ l.toInt := Int.not_lt.mp fun hlt => hneg (lt_zero_iff.mpr hlt)
      rw [if_neg hneg, length_printed_of_nonneg hge,
        digitLoop_spec l.toInt.natAbs (by omega) (by omega) (by decide) (by omega)]
      omega

/-- The loop finds no digit of the smallest number: only its sign is counted. -/
theorem digitNum_minValue : digitNum Int64.minValue = 1 := by
  rw [digitNum, if_neg (by decide), if_pos (by decide), digitLoop_of_not_pos (by decide)]

theorem length_printed_minValue : (printed Int64.minValue).length = 20 := by
  have hneg : Int64.minValue.toInt < 0 := by decide
  have habs : Int64.minValue.toInt.natAbs = 2 ^ 63 := by decide
  have hle : (2 ^ 63).repr.length ≤ 19 := (Nat.length_repr_le_iff (by decide)).mpr (by decide)
  have hgt : ¬ (2 ^ 63).repr.length ≤ 18 := fun h =>
    absurd ((Nat.length_repr_le_iff (by decide)).mp h) (by decide)
  rw [length_printed_of_neg hneg, habs]
  omega

theorem digitNum_minValue_ne :
    (digitNum Int64.minValue).toInt ≠ (printed Int64.minValue).length := by
  rw [digitNum_minValue, length_printed_minValue]
  decide

theorem digit_num_iff (l : Int64) :
    (digitNum l).toInt = (printed l).length ↔ l ≠ Int64.minValue := by
  refine ⟨?_, digitNum_eq_length⟩
  rintro h rfl
  exact digitNum_minValue_ne h

/-- `LONG_MIN`, the only one: 20 characters are printed, one is counted. -/
theorem digit_num_long_min :
    digitNum Int64.minValue = 1 ∧ (printed Int64.minValue).length = 20 ∧
      (digitNum Int64.minValue).toInt ≠ (printed Int64.minValue).length :=
  ⟨digitNum_minValue, length_printed_minValue, digitNum_minValue_ne⟩

/-- A line of the output counts the characters of its number. -/
def Line.Right (line : Line) : Prop := line.digits.toInt = (printed line.num).length

/-- The program counts right unless a number that it reads, or their product as it is computed, is
    the smallest one. -/
theorem main_counts_iff (num1 num2 : Int64) :
    (∀ line ∈ lines num1 num2, line.Right) ↔
      ∀ l ∈ [num1, num2, num1 * num2], l ≠ Int64.minValue := by
  have hlines : lines num1 num2 =
      [("num1", num1), ("num2", num2), ("mul", num1 * num2)].map
        fun x => ⟨x.1, x.2, digitNum x.2⟩ := rfl
  have hnums : [num1, num2, num1 * num2] =
      [("num1", num1), ("num2", num2), ("mul", num1 * num2)].map Prod.snd := rfl
  rw [hlines, hnums, List.forall_mem_map, List.forall_mem_map]
  refine forall₂_congr fun x _ => ⟨?_, digitNum_eq_length⟩
  intro h hmin
  have hright : (digitNum x.2).toInt = (printed x.2).length := h
  rw [hmin] at hright
  exact digitNum_minValue_ne hright

end DemosOsLinux.DigitNumber
