/-
  C strings in arrays of characters.

  A buffer is a list of characters, of which 0 ends the string that it holds. strlen(3) fails on a
  buffer without a 0, and strcpy(3), strncpy(3) and strncat(3) where the destination is too short.
  * `Holds.strlen`, `Holds.strcpy`, `Holds.strncpy`, `Holds.strncat`: on a buffer that holds a string.
  * `Holds.putLast`: a character and a new end, at a place inside of the string or at its end.
-/
import DemosOsLinux.Lib.ArrayLoops
import Mathlib.Algebra.Notation.Defs

namespace DemosOsLinux.Lib

variable {χ : Type} [Zero χ] [DecidableEq χ]

def strlen (buf : List χ) : Option Nat := buf.findIdx? (· = 0)

/-- `strcpy(dst, src)`, with the end of the string. -/
def strcpy (dst src : List χ) : Option (List χ) := do
  let n ← strlen src
  if n < dst.length then some (src.take (n + 1) ++ dst.drop (n + 1)) else none

/-- The characters of `src` before its end, at most `n`; it fails beyond the end of the buffer. -/
def strnread (src : List χ) (n : Nat) : Option (List χ) :=
  let s := (src.take n).takeWhile (· ≠ 0)
  if s.length < n ∧ src.length ≤ s.length then none else some s

/-- `strncpy(dst, src, n)`: all `n` characters of `dst` are written. -/
def strncpy (dst src : List χ) (n : Nat) : Option (List χ) := do
  let s ← strnread src n
  if n ≤ dst.length then some (s ++ List.replicate (n - s.length) 0 ++ dst.drop n) else none

/-- `strncat(dst, src, n)`: up to `n` characters, and an end. -/
def strncat (dst src : List χ) (n : Nat) : Option (List χ) := do
  let k ← strlen dst
  let s ← strnread src n
  if k + s.length < dst.length then
    some (dst.take k ++ s ++ 0 :: dst.drop (k + s.length + 1))
  else none

omit [DecidableEq χ] in
/-- `buf[k] = x; buf[k + 1] = 0`. -/
def putLast (buf : List χ) (k : Nat) (x : χ) : Option (List χ) := do
  let buf ← store buf k x
  store buf (k + 1) 0

omit [DecidableEq χ] in
/-- The buffer holds the string `s`. -/
def Holds (buf s : List χ) : Prop := 0 ∉ s ∧ ∃ rest, buf = s ++ 0 :: rest

variable {buf dst s t : List χ}

omit [DecidableEq χ] in
theorem Holds.length_lt (h : Holds buf s) : s.length < buf.length := by
  obtain ⟨-, rest, rfl⟩ := h
  rw [List.length_append, List.length_cons]
  omega

omit [DecidableEq χ] in
theorem Holds.getElem_lt (h : Holds buf s) {i : Nat} (hi : i < s.length) : buf[i]? = s[i]? := by
  obtain ⟨-, rest, rfl⟩ := h
  exact List.getElem?_append_left hi

theorem Holds.strlen (h : Holds buf s) : strlen buf = some s.length := by
  obtain ⟨hnul, rest, rfl⟩ := h
  have hnone : s.findIdx? (· = 0) = none := List.findIdx?_eq_none_iff.mpr fun x hx =>
    decide_eq_false fun hzero => hnul (hzero ▸ hx)
  rw [Lib.strlen, List.findIdx?_append, hnone, List.findIdx?_cons, decide_eq_true rfl]
  simp

theorem Holds.strcpy (h : Holds buf s) (hlen : s.length < dst.length) :
    ∃ dst', strcpy dst buf = some dst' ∧ Holds dst' s ∧ dst'.length = dst.length := by
  refine ⟨buf.take (s.length + 1) ++ dst.drop (s.length + 1), ?_, ?_, ?_⟩
  · rw [Lib.strcpy, h.strlen]
    exact if_pos hlen
  · obtain ⟨hnul, rest, rfl⟩ := h
    refine ⟨hnul, dst.drop (s.length + 1), ?_⟩
    rw [List.take_length_add_append, List.append_assoc]
    rfl
  · have hbuf := h.length_lt
    rw [List.length_append, List.length_take, List.length_drop]
    omega

theorem nonzero_of_notMem (h : 0 ∉ s) : ∀ x ∈ s, decide (x ≠ 0) = true :=
  fun _ hx => decide_eq_true fun hzero => h (hzero ▸ hx)

theorem Holds.takeWhile (h : Holds buf s) : buf.takeWhile (· ≠ 0) = s := by
  obtain ⟨hnul, rest, rfl⟩ := h
  rw [List.takeWhile_append_of_pos (nonzero_of_notMem hnul),
    List.takeWhile_cons_of_neg (by simp), List.append_nil]

theorem Holds.strnread (h : Holds buf s) {n : Nat} (hn : s.length ≤ n) :
    strnread buf n = some s := by
  have hlen := h.length_lt
  have hbefore : (buf.take n).takeWhile (· ≠ 0) = s := by
    obtain ⟨hnul, rest, rfl⟩ := h
    rw [List.take_append, List.take_of_length_le hn,
      List.takeWhile_append_of_pos (nonzero_of_notMem hnul)]
    cases hk : n - s.length with
    | zero => rw [List.take_zero, List.takeWhile_nil, List.append_nil]
    | succ k => rw [List.take_succ_cons, List.takeWhile_cons_of_neg (by simp), List.append_nil]
  unfold Lib.strnread
  rw [hbefore]
  exact if_neg fun hfail => by omega

theorem Holds.strncpy (h : Holds buf s) {n : Nat} (hn : s.length < n) (hlen : n ≤ dst.length) :
    ∃ dst', strncpy dst buf n = some dst' ∧ Holds dst' s ∧ dst'.length = dst.length := by
  refine ⟨s ++ List.replicate (n - s.length) 0 ++ dst.drop n, ?_, ⟨h.1, ?_⟩, ?_⟩
  · rw [Lib.strncpy, h.strnread (Nat.le_of_lt hn)]
    exact if_pos hlen
  · refine ⟨List.replicate (n - s.length - 1) 0 ++ dst.drop n, ?_⟩
    obtain ⟨k, hk⟩ : ∃ k, n - s.length = k + 1 := ⟨n - s.length - 1, by omega⟩
    rw [hk, List.replicate_succ, List.append_assoc, List.cons_append, Nat.add_sub_cancel]
  · rw [List.length_append, List.length_append, List.length_replicate, List.length_drop]
    omega

theorem Holds.strncat (hd : Holds dst t) (h : Holds buf s) {n : Nat} (hn : s.length ≤ n)
    (hlen : t.length + s.length < dst.length) :
    ∃ dst', strncat dst buf n = some dst' ∧ Holds dst' (t ++ s) ∧ dst'.length = dst.length := by
  refine ⟨dst.take t.length ++ s ++ 0 :: dst.drop (t.length + s.length + 1), ?_, ⟨?_, ?_⟩, ?_⟩
  · rw [Lib.strncat, hd.strlen, Option.bind_eq_bind, Option.bind_some, h.strnread hn]
    exact if_pos hlen
  · exact fun hmem => (List.mem_append.mp hmem).elim hd.1 h.1
  · obtain ⟨-, rest, rfl⟩ := hd
    rw [List.take_left]
    exact ⟨_, rfl⟩
  · rw [List.length_append, List.length_append, List.length_take, List.length_cons,
      List.length_drop]
    omega

theorem Holds.unique (h : Holds buf s) (h' : Holds buf t) : s = t := by
  have hlen : s.length = t.length := Option.some.inj (h.strlen.symm.trans h'.strlen)
  obtain ⟨-, rest, rfl⟩ := h
  obtain ⟨-, rest', hsplit⟩ := h'
  exact (List.append_inj hsplit hlen).1

omit [DecidableEq χ] in
theorem Holds.putLast (h : Holds buf s) {k : Nat} (hk : k ≤ s.length) {x : χ} (hx : x ≠ 0)
    (hlen : k + 1 < buf.length) :
    ∃ buf', putLast buf k x = some buf' ∧ Holds buf' (s.take k ++ [x]) ∧
      buf'.length = buf.length := by
  have hlt := h.length_lt
  rw [Lib.putLast, store_of_lt (by omega), Option.bind_eq_bind, Option.bind_some,
    store_of_lt (by rw [List.length_set]; exact hlen)]
  refine ⟨_, rfl, ⟨?_, buf.drop (k + 2), ?_⟩, by rw [List.length_set, List.length_set]⟩
  · intro hmem
    rcases List.mem_append.mp hmem with hmem | hmem
    · exact h.1 (List.mem_of_mem_take hmem)
    · exact hx (List.mem_singleton.mp hmem).symm
  · have htake : buf.take k = s.take k := by
      obtain ⟨-, rest, rfl⟩ := h
      exact List.take_append_of_le_length hk
    have hsplit : buf = s.take k ++ buf[k] :: buf[k + 1] :: buf.drop (k + 2) := by
      rw [← htake, ← List.drop_eq_getElem_cons hlen,
        ← List.drop_eq_getElem_cons (show k < buf.length by omega), List.take_append_drop]
    have hlenk : (s.take k).length = k := by rw [List.length_take]; omega
    conv => lhs; rw [hsplit]
    rw [List.set_append_right _ _ (Nat.le_of_eq hlenk), hlenk, Nat.sub_self, List.set_cons_zero,
      List.set_append_right _ _ (by omega), hlenk, Nat.add_sub_cancel_left, List.set_cons_succ,
      List.set_cons_zero, List.append_assoc]
    rfl

omit [DecidableEq χ] in
/-- No place for the new end. -/
theorem putLast_none {k : Nat} (h : buf.length ≤ k + 1) (x : χ) : putLast buf k x = none := by
  unfold putLast
  rcases Nat.lt_or_ge k buf.length with hlt | hge
  · rw [store_of_lt hlt, Option.bind_eq_bind, Option.bind_some, store,
      if_neg (by rw [List.length_set]; omega)]
  · rw [store, if_neg (by omega)]
    rfl

end DemosOsLinux.Lib
