/-
  Longest increasing subsequences by exhaustive search.

  The search goes through the string. It takes each character, as an extension of the current
  subsequence or as the start of a new one, searches the rest, and then searches the rest again
  without the character. `nodes` are the current subsequences in the order in which they occur, and
  the result is the first of the longest ones.
  * `nodes_sound`, `nodes_complete`: the nodes are the increasing subsequences.
  * `search_longest`: hence the result is a longest one.
  * `foldl_better_mem_middle`: where the result of such a search is found.
-/
import Mathlib.Data.List.Basic
import Mathlib.Order.Lattice

namespace DemosOsLinux.IncreasingSubsequence

/-! ## The first of the longest -/

section Better

variable {χ : Type} {b t u : List χ}

/-- `c` in place of `b` if it is longer. -/
def better (b c : List χ) : List χ := if b.length < c.length then c else b

theorem better_cases (b c : List χ) : better b c = b ∨ better b c = c := by
  unfold better
  split
  · exact Or.inr rfl
  · exact Or.inl rfl

theorem foldl_better_mem (b : List χ) (l : List (List χ)) : l.foldl better b ∈ b :: l := by
  induction l generalizing b with
  | nil => exact List.mem_singleton_self b
  | cons c l ih =>
    rw [List.foldl_cons]
    rcases List.mem_cons.mp (ih (better b c)) with heq | hin
    · rw [heq]
      rcases better_cases b c with h | h
      · rw [h]
        exact List.mem_cons_self
      · rw [h]
        exact List.mem_cons_of_mem _ List.mem_cons_self
    · exact List.mem_cons_of_mem _ (List.mem_cons_of_mem _ hin)

theorem length_better (b c : List χ) :
    b.length ≤ (better b c).length ∧ c.length ≤ (better b c).length := by
  unfold better
  split <;> omega

theorem length_le_foldl_better {l : List (List χ)} (ht : t ∈ b :: l) :
    t.length ≤ (l.foldl better b).length := by
  induction l generalizing b t with
  | nil => rw [List.mem_singleton.mp ht]; exact Nat.le_refl _
  | cons c l ih =>
    rw [List.foldl_cons]
    have hstart := ih (t := better b c) List.mem_cons_self
    have hlen := length_better b c
    rcases List.mem_cons.mp ht with rfl | ht
    · omega
    · rcases List.mem_cons.mp ht with rfl | ht
      · omega
      · exact ih (List.mem_cons_of_mem _ ht)

/-- Nothing that is not longer replaces the best one. -/
theorem foldl_better_eq {l : List (List χ)} (h : ∀ t ∈ l, t.length ≤ b.length) :
    l.foldl better b = b := by
  induction l with
  | nil => rfl
  | cons c l ih =>
    have hc := h c List.mem_cons_self
    rw [List.foldl_cons, better, if_neg (by omega)]
    exact ih fun t ht => h t (List.mem_cons_of_mem c ht)

/-- If all before `B` are shorter than one of `B` and none behind is longer, the result is of `B`. -/
theorem foldl_better_mem_middle {A B C : List (List χ)} (hA : ∀ t ∈ b :: A, t.length < u.length)
    (hu : u ∈ B) (hC : ∀ t ∈ C, t.length ≤ u.length) : (A ++ (B ++ C)).foldl better b ∈ B := by
  rw [List.foldl_append, List.foldl_append]
  have hlt := hA _ (foldl_better_mem b A)
  have hle : u.length ≤ (B.foldl better (A.foldl better b)).length :=
    length_le_foldl_better (List.mem_cons_of_mem _ hu)
  rw [foldl_better_eq fun t ht => Nat.le_trans (hC t ht) hle]
  rcases List.mem_cons.mp (foldl_better_mem (A.foldl better b) B) with heq | hin
  · rw [heq] at hle
    omega
  · exact hin

end Better

/-! ## The search -/

variable {χ : Type} [LinearOrder χ]

/-- The next character after the current subsequence, or a new start. -/
def extend (c : List χ) (x : χ) : List χ :=
  match c.getLast? with
  | none => [x]
  | some y => if y < x then c ++ [x] else [x]

/-- The best subsequence after a search of `s`, with `c` as the current and `b` as the best one. -/
def search (c b : List χ) : List χ → List χ
  | [] => b
  | x :: s => search c (search (extend c x) (better b (extend c x)) s) s

/-- The current subsequences of a search. -/
def nodes (c : List χ) : List χ → List (List χ)
  | [] => []
  | x :: s => extend c x :: (nodes (extend c x) s ++ nodes c s)

theorem search_eq (c b s : List χ) : search c b s = (nodes c s).foldl better b := by
  induction s generalizing c b with
  | nil => rfl
  | cons x s ih =>
    rw [search, nodes, List.foldl_cons, List.foldl_append, ih, ih]

def IncreasingIn (s t : List χ) : Prop := t.Sublist s ∧ t.Pairwise (· < ·)

def Longest (s t : List χ) : Prop :=
  IncreasingIn s t ∧ ∀ u, IncreasingIn s u → u.length ≤ t.length

/-! ## The nodes -/

variable {c b s t u w : List χ} {x : χ}

/-- The two cases, where the second one is not possible behind a smaller character. -/
theorem extend_cases (c : List χ) (x : χ) :
    (extend c x = c ++ [x] ∧ ∀ y ∈ c.getLast?, y < x) ∨
      (extend c x = [x] ∧ ∃ y ∈ c.getLast?, x ≤ y) := by
  unfold extend
  cases hlast : c.getLast? with
  | none =>
    rw [List.getLast?_eq_none_iff.mp hlast]
    exact Or.inl ⟨rfl, fun y hy => absurd hy (Option.not_mem_none y)⟩
  | some y =>
    dsimp only
    by_cases hlt : y < x
    · rw [if_pos hlt]
      exact Or.inl ⟨rfl, fun z hz => Option.mem_some.mp hz ▸ hlt⟩
    · rw [if_neg hlt]
      exact Or.inr ⟨rfl, y, rfl, not_lt.mp hlt⟩

/-- An increasing list with a last element is below what is above that. -/
theorem pairwise_concat (hc : c.Pairwise (· < ·)) (hlast : ∀ y ∈ c.getLast?, y < x) :
    (c ++ [x]).Pairwise (· < ·) := by
  refine List.pairwise_append.mpr ⟨hc, List.pairwise_singleton _ _, fun z hz y hy => ?_⟩
  obtain rfl := List.mem_singleton.mp hy
  rcases List.eq_nil_or_concat c with rfl | ⟨init, l, rfl⟩
  · exact absurd hz List.not_mem_nil
  · rw [List.concat_eq_append] at hc hz hlast
    have hl := hlast l (by rw [List.getLast?_concat]; rfl)
    rcases List.mem_append.mp hz with hz | hz
    · exact lt_trans ((List.pairwise_append.mp hc).2.2 z hz l (List.mem_singleton_self l)) hl
    · rwa [List.mem_singleton.mp hz]

theorem extend_increasing (h : IncreasingIn s c) (x : χ) :
    IncreasingIn (s ++ [x]) (extend c x) := by
  rcases extend_cases c x with ⟨heq, hlast⟩ | ⟨heq, -⟩
  · rw [heq]
    exact ⟨h.1.append (List.Sublist.refl [x]), pairwise_concat h.2 hlast⟩
  · rw [heq]
    exact ⟨List.sublist_append_right s [x], List.pairwise_singleton _ _⟩

theorem nodes_sound (h : IncreasingIn w c) (ht : t ∈ nodes c s) : IncreasingIn (w ++ s) t := by
  induction s generalizing c w with
  | nil => exact absurd ht List.not_mem_nil
  | cons x s ih =>
    rw [List.append_cons]
    rcases List.mem_cons.mp ht with rfl | ht
    · have hnew := extend_increasing h x
      exact ⟨hnew.1.trans (List.sublist_append_left _ s), hnew.2⟩
    · rcases List.mem_append.mp ht with ht | ht
      · exact ih (extend_increasing h x) ht
      · exact ih ⟨h.1.trans (List.sublist_append_left w [x]), h.2⟩ ht

theorem extend_of_pairwise (hinc : (c ++ x :: t).Pairwise (· < ·)) : extend c x = c ++ [x] := by
  rcases extend_cases c x with ⟨heq, -⟩ | ⟨-, y, hy, hle⟩
  · exact heq
  · have hlt := (List.pairwise_append.mp hinc).2.2 y (List.mem_of_getLast? hy) x List.mem_cons_self
    exact absurd hlt (not_lt.mpr hle)

theorem nodes_complete (hne : t ≠ []) (hsub : t.Sublist s) (hinc : (c ++ t).Pairwise (· < ·)) :
    c ++ t ∈ nodes c s := by
  induction s generalizing c t with
  | nil => exact absurd (List.sublist_nil.mp hsub) hne
  | cons x s ih =>
    cases hsub with
    | cons _ hsub => exact List.mem_cons_of_mem _ (List.mem_append_right _ (ih hne hsub hinc))
    | @cons_cons t' _ _ hsub =>
      have hextend := extend_of_pairwise hinc
      rw [List.append_cons] at hinc ⊢
      rw [nodes, hextend]
      rcases eq_or_ne t' [] with rfl | hne'
      · rw [List.append_nil]
        exact List.mem_cons_self
      · exact List.mem_cons_of_mem _ (List.mem_append_left _ (ih hne' hsub hinc))

/-! ## The result -/

theorem increasingIn_nil (s : List χ) : IncreasingIn s [] :=
  ⟨List.nil_sublist s, List.Pairwise.nil⟩

/-- The nodes of a whole search. -/
theorem nodes_increasing (ht : t ∈ nodes [] s) : IncreasingIn s t :=
  nodes_sound (increasingIn_nil []) ht

theorem search_longest (s : List χ) : Longest s (search [] [] s) := by
  rw [search_eq]
  constructor
  · rcases List.mem_cons.mp (foldl_better_mem [] (nodes [] s)) with heq | hin
    · rw [heq]
      exact increasingIn_nil s
    · exact nodes_increasing hin
  · intro t ht
    rcases eq_or_ne t [] with rfl | hne
    · exact Nat.zero_le _
    · have hmem : [] ++ t ∈ nodes [] s := nodes_complete hne ht.1 ht.2
      exact length_le_foldl_better (List.mem_cons_of_mem _ hmem)

end DemosOsLinux.IncreasingSubsequence
