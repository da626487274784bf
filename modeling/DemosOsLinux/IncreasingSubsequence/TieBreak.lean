/-
  Which of the longest increasing subsequences is found.

  The exercise asks for the one that starts first. The search first takes all characters, so that
  `curr` is the increasing run that ends at the current character, and then changes the last choices
  first.
  * `search_eq_firstBlock`: if a longest increasing subsequence is a contiguous part of the string, the
    first such part is found.
  * `search_head_le`: if not, the result starts with the least character that one can start with.
  * `firstPos_le_iff`: of two longest ones, the one with the greater first character starts first.
  * `maximum_subset_earliest_iff`: when the result is one that starts first.
-/
import DemosOsLinux.IncreasingSubsequence.Buffers

namespace DemosOsLinux.IncreasingSubsequence

open Lib

variable {χ : Type} [LinearOrder χ] {c b s t u w pre post rest : List χ} {g h x : χ}

/-- Where the first character of `t` occurs. -/
def firstPos (s t : List χ) : Nat :=
  match t with
  | [] => 0
  | x :: _ => s.idxOf x

theorem firstPos_cons (s : List χ) (x : χ) (t : List χ) : firstPos s (x :: t) = s.idxOf x := rfl

/-- A longest increasing subsequence whose first character occurs earliest. -/
def EarliestStart (s t : List χ) : Prop :=
  Longest s t ∧ ∀ u, Longest s u → firstPos s t ≤ firstPos s u

/-- The first contiguous part that is a longest increasing subsequence. -/
def FirstBlock (s w : List χ) : Prop :=
  Longest s w ∧ ∃ pre post, s = pre ++ w ++ post ∧
    ∀ pre' w' post', s = pre' ++ w' ++ post' → Longest s w' → pre.length ≤ pre'.length

theorem Longest.length_eq (ht : Longest s t) (hu : Longest s u) : t.length = u.length :=
  Nat.le_antisymm (hu.2 t ht.1) (ht.2 u hu.1)

theorem Longest.exists_cons (ht : Longest s (g :: t)) (hu : Longest s u) : ∃ h v, u = h :: v := by
  refine List.exists_cons_of_ne_nil fun hnil => ?_
  have hlen := ht.length_eq hu
  rw [hnil] at hlen
  exact absurd hlen (by simp)

/-- A longest one cannot be continued at its front. -/
theorem Longest.not_cons (ht : Longest s t) : ¬IncreasingIn s (x :: t) := by
  intro hx
  have hle := ht.2 _ hx
  rw [List.length_cons] at hle
  omega

theorem pairwise_cons_cons (ht : (g :: t).Pairwise (· < ·)) (hx : x < g) :
    (x :: g :: t).Pairwise (· < ·) := by
  refine List.pairwise_cons.mpr ⟨fun y hy => ?_, ht⟩
  rcases List.mem_cons.mp hy with rfl | hy
  · exact hx
  · exact lt_trans hx ((List.pairwise_cons.mp ht).1 y hy)

/-! ## First characters -/

theorem sublist_drop_idxOf (ht : (g :: t).Sublist s) : (g :: t).Sublist (s.drop (s.idxOf g)) := by
  induction s with
  | nil => exact ht
  | cons y s ih =>
    by_cases heq : y = g
    · subst heq
      rw [List.idxOf_cons_self]
      exact ht
    · rw [List.idxOf_cons_ne _ heq, List.drop_succ_cons]
      cases ht with
      | cons _ ht => exact ih ht
      | cons_cons _ _ => exact absurd rfl heq

/-- A lesser character that occurs earlier could be put in front. -/
theorem Longest.not_before (ht : Longest s (g :: t)) (hx : x ∈ s) (hlt : x < g) :
    ¬s.idxOf x < s.idxOf g := by
  intro hbefore
  have hmem : x ∈ s.take (s.idxOf g) := (List.mem_take_iff_idxOf_lt hx).mpr hbefore
  refine ht.not_cons ⟨?_, pairwise_cons_cons ht.1.2 hlt⟩
  have hsub := (List.singleton_sublist.mpr hmem).append (sublist_drop_idxOf ht.1.1)
  rw [List.take_append_drop] at hsub
  exact hsub

theorem firstPos_le_iff (ht : Longest s (g :: t)) (hu : Longest s (h :: u)) :
    firstPos s (g :: t) ≤ firstPos s (h :: u) ↔ h ≤ g := by
  have hg : g ∈ s := ht.1.1.subset List.mem_cons_self
  have hh : h ∈ s := hu.1.1.subset List.mem_cons_self
  rw [firstPos_cons, firstPos_cons]
  constructor
  · intro hle
    by_contra hlt
    have hlt := not_le.mp hlt
    have hne : s.idxOf g ≠ s.idxOf h := fun heq => ne_of_lt hlt ((List.idxOf_inj hg).mp heq)
    exact hu.not_before hg hlt (by omega)
  · intro hle
    rcases lt_or_eq_of_le hle with hlt | rfl
    · exact Nat.le_of_not_lt (ht.not_before hh hlt)
    · exact Nat.le_refl _

/-! ## The first path of the search -/

/-- The current subsequences while all characters are taken. -/
def runs (c : List χ) : List χ → List (List χ)
  | [] => []
  | x :: s => extend c x :: runs (extend c x) s

/-- They come first. -/
theorem nodes_append (c s rest : List χ) :
    ∃ others, nodes c (s ++ rest) = runs c s ++ (nodes (s.foldl extend c) rest ++ others) := by
  induction s generalizing c with
  | nil => exact ⟨[], by rw [List.nil_append, List.append_nil]; rfl⟩
  | cons x s ih =>
    obtain ⟨others, hothers⟩ := ih (extend c x)
    refine ⟨others ++ nodes c (s ++ rest), ?_⟩
    rw [List.cons_append, nodes, hothers, runs, List.foldl_cons]
    simp only [List.cons_append, List.append_assoc]

/-- The current subsequence ends with the last character, and is contiguous. -/
theorem extend_suffix (hc : c <:+ pre) (x : χ) : extend c x <:+ pre ++ [x] := by
  rcases extend_cases c x with ⟨heq, -⟩ | ⟨heq, -⟩
  · obtain ⟨p, rfl⟩ := hc
    exact ⟨p, by rw [heq, List.append_assoc]⟩
  · rw [heq]
    exact List.suffix_append pre [x]

theorem foldl_extend_suffix (hc : c <:+ pre) (s : List χ) : s.foldl extend c <:+ pre ++ s := by
  induction s generalizing c pre with
  | nil => rw [List.append_nil]; exact hc
  | cons x s ih =>
    rw [List.foldl_cons, List.append_cons]
    exact ih (extend_suffix hc x)

theorem runs_contiguous (hc : c <:+ pre) (ht : t ∈ runs c s) : t <:+: pre ++ s := by
  induction s generalizing c pre with
  | nil => exact absurd ht List.not_mem_nil
  | cons x s ih =>
    rw [List.append_cons]
    rcases List.mem_cons.mp ht with rfl | ht
    · exact (extend_suffix hc x).isInfix.trans (List.prefix_append _ s).isInfix
    · exact ih (extend_suffix hc x) ht

theorem nodes_length_le (ht : Longest s t) (hu : u ∈ nodes [] s) : u.length ≤ t.length :=
  ht.2 u (nodes_increasing hu)

/-- Behind the characters before a longest one, its first character is a new start. -/
theorem extend_start (ht : Longest (pre ++ g :: rest) (g :: t)) (hsub : t.Sublist rest) :
    extend (pre.foldl extend []) g = [g] := by
  rcases extend_cases (pre.foldl extend []) g with ⟨heq, hlast⟩ | ⟨heq, -⟩
  · rcases List.eq_nil_or_concat (pre.foldl extend []) with hnil | ⟨init, y, hconcat⟩
    · rw [heq, hnil]
      rfl
    · rw [List.concat_eq_append] at hconcat
      have hlt : y < g := hlast y (by rw [hconcat, List.getLast?_concat]; rfl)
      have hy : y ∈ pre := by
        have hsuffix := foldl_extend_suffix (List.suffix_refl ([] : List χ)) pre
        exact hsuffix.subset (by rw [hconcat]; simp)
      refine absurd ⟨?_, pairwise_cons_cons ht.1.2 hlt⟩ (ht.not_cons (x := y))
      exact (List.singleton_sublist.mpr hy).append (hsub.cons_cons g)
  · exact heq

/-! ## The result -/

/-- An increasing list is taken as a whole. -/
theorem foldl_extend_eq (hinc : (c ++ t).Pairwise (· < ·)) : t.foldl extend c = c ++ t := by
  induction t generalizing c with
  | nil => exact (List.append_nil c).symm
  | cons x t ih =>
    have hextend := extend_of_pairwise hinc
    rw [List.append_cons] at hinc ⊢
    rw [List.foldl_cons, hextend, ih hinc]

/-- A contiguous longest one is the current subsequence at its end. -/
theorem foldl_extend_block (ht : Longest (pre ++ (g :: t) ++ post) (g :: t)) :
    (pre ++ g :: t).foldl extend [] = g :: t := by
  rw [List.append_assoc] at ht
  have hstart := extend_start ht (List.sublist_append_left t post)
  rw [List.foldl_append, List.foldl_cons, hstart]
  exact foldl_extend_eq ht.1.2

/-- A part of the string that is as long as a longest one, and increasing. -/
theorem Longest.of_length (ht : Longest s t) (hu : IncreasingIn s u) (hlen : u.length = t.length) :
    Longest s u := ⟨hu, fun v hv => hlen ▸ ht.2 v hv⟩

/-- A run before a place is contiguous, and is a longest one if it is long enough. -/
theorem runs_block (hw : Longest (pre ++ rest) w) (ht : t ∈ runs [] pre)
    (hlen : t.length = w.length) :
    Longest (pre ++ rest) t ∧ ∃ pre' post', pre = pre' ++ t ++ post' := by
  obtain ⟨others, hothers⟩ := nodes_append [] pre rest
  have hmem : t ∈ nodes [] (pre ++ rest) := by
    rw [hothers]
    exact List.mem_append_left _ ht
  obtain ⟨pre', post', hpart⟩ := runs_contiguous (List.suffix_refl ([] : List χ)) ht
  exact ⟨hw.of_length (nodes_increasing hmem) hlen, pre', post', hpart.symm⟩

theorem search_eq_firstBlock (h : FirstBlock s w) : search [] [] s = w := by
  obtain ⟨hw, pre, post, rfl, hfirst⟩ := h
  rw [search_eq]
  rcases List.eq_nil_or_concat w with rfl | ⟨init, z, hconcat⟩
  · exact foldl_better_eq fun t ht => nodes_length_le hw ht
  rw [List.concat_eq_append] at hconcat
  have hend : extend ((pre ++ init).foldl extend []) z = w := by
    obtain ⟨g, t, rfl⟩ : ∃ g t, w = g :: t := List.exists_cons_of_ne_nil (by rw [hconcat]; simp)
    have hblock := foldl_extend_block hw
    rw [hconcat, ← List.append_assoc, List.foldl_append] at hblock
    rw [hconcat]
    exact hblock
  have hsplit : pre ++ w ++ post = pre ++ init ++ z :: post := by
    rw [hconcat]
    simp
  obtain ⟨others, hothers⟩ := nodes_append [] (pre ++ init) (z :: post)
  rw [nodes, hend, ← hsplit] at hothers
  have hall : ∀ t ∈ nodes [] (pre ++ w ++ post), t.length ≤ w.length := fun t ht =>
    nodes_length_le hw ht
  rw [hothers] at hall ⊢
  refine List.mem_singleton.mp (foldl_better_mem_middle (fun t ht => ?_) (List.mem_singleton_self w)
    fun t ht => hall t (List.mem_append_right _ (List.mem_cons_of_mem _ ht)))
  rcases List.mem_cons.mp ht with rfl | ht
  · rw [hconcat]
    simp
  · refine lt_of_le_of_ne (hall t (List.mem_append_left _ ht)) fun hlen => ?_
    -- it would be a block that is earlier
    obtain ⟨hlongest, pre', post', hpart⟩ := runs_block (hsplit ▸ hw) ht hlen
    have heq : pre ++ w ++ post = pre' ++ t ++ (post' ++ z :: post) := by
      rw [hsplit, hpart, List.append_assoc (pre' ++ t)]
    have hle := hfirst pre' t _ heq (hsplit ▸ hlongest)
    have hlengths := congrArg List.length hpart
    rw [hconcat] at hlen
    simp only [List.length_append, List.length_singleton] at hlen hlengths
    omega

/-- If no contiguous part is a longest one, the result is found behind the new start at the first
    character of any longest one. -/
theorem search_mem_behind (hno : ∀ p w q, pre ++ g :: rest = p ++ w ++ q →
      ¬Longest (pre ++ g :: rest) w) (hu : Longest (pre ++ g :: rest) (g :: u))
    (hsub : u.Sublist rest) : search [] [] (pre ++ g :: rest) ∈ nodes [g] rest := by
  have hne : u ≠ [] := by
    rintro rfl
    exact hno pre [g] rest (by simp) hu
  have hpos := List.length_pos_iff.mpr hne
  obtain ⟨others, hothers⟩ := nodes_append [] pre (g :: rest)
  rw [nodes, extend_start hu hsub] at hothers
  have hnodes : nodes [] (pre ++ g :: rest) = runs [] pre ++ [[g]] ++
      (nodes [g] rest ++ (nodes (pre.foldl extend []) rest ++ others)) := by
    rw [hothers]
    simp only [List.append_assoc, List.cons_append, List.nil_append]
  have hall : ∀ t ∈ nodes [] (pre ++ g :: rest), t.length ≤ (g :: u).length := fun t ht =>
    nodes_length_le hu ht
  have hbehind := nodes_complete hne hsub (show ([g] ++ u).Pairwise (· < ·) from hu.1.2)
  rw [search_eq, hnodes]
  refine foldl_better_mem_middle (fun t ht => ?_) hbehind fun t ht =>
    hall t (hnodes ▸ List.mem_append_right _ (List.mem_append_right _ ht))
  -- before: nothing, the runs of `pre`, and `[g]` itself
  rcases List.mem_cons.mp ht with rfl | ht
  · exact Nat.succ_pos _
  rcases List.mem_append.mp ht with ht | ht
  · refine lt_of_le_of_ne (hall t (hothers ▸ List.mem_append_left _ ht)) fun hlen => ?_
    obtain ⟨hlongest, pre', post', hpart⟩ := runs_block hu ht hlen
    refine hno pre' t (post' ++ g :: rest) ?_ hlongest
    rw [hpart, List.append_assoc (pre' ++ t)]
  · rw [List.mem_singleton.mp ht, List.singleton_append, List.length_cons, List.length_cons,
      List.length_nil]
    omega

/-- If no contiguous part is a longest one, none starts with a lesser character than the result. -/
theorem search_head_le (hno : ∀ pre w post, s = pre ++ w ++ post → ¬Longest s w)
    (hu : Longest s (g :: u)) : ∃ x t, search [] [] s = x :: t ∧ x ≤ g := by
  obtain ⟨r₁, r₂, rfl, hg, hsub⟩ := List.cons_sublist_iff.mp hu.1.1
  obtain ⟨pre, mid, rfl⟩ := List.append_of_mem hg
  have hsplit : pre ++ g :: mid ++ r₂ = pre ++ g :: (mid ++ r₂) := by simp
  rw [hsplit] at hu hno ⊢
  have hmem := search_mem_behind hno hu (hsub.trans (List.sublist_append_right mid r₂))
  have hlongest := search_longest (pre ++ g :: (mid ++ r₂))
  have hstart : IncreasingIn [g] [g] := ⟨List.Sublist.refl _, List.pairwise_singleton _ _⟩
  have hbehind := (nodes_sound hstart hmem).1
  obtain ⟨x, t, hresult⟩ := hu.exists_cons hlongest
  refine ⟨x, t, hresult, ?_⟩
  rw [hresult] at hbehind hlongest
  by_contra hlt
  have hlt := not_le.mp hlt
  -- `g` could be put in front
  cases hbehind with
  | cons _ hin =>
    refine hlongest.not_cons ⟨?_, pairwise_cons_cons hlongest.1.2 hlt⟩
    exact (hin.cons_cons g).trans (List.sublist_append_right pre _)
  | cons_cons _ _ => exact absurd hlt (lt_irrefl g)

theorem exists_firstBlock (hs : s = pre ++ w ++ post) (hw : Longest s w) :
    ∃ w', FirstBlock s w' := by
  induction hn : pre.length using Nat.strongRecOn generalizing pre w post with
  | ind n ih =>
    by_cases hfirst : ∀ pre' w' post', s = pre' ++ w' ++ post' → Longest s w' →
        pre.length ≤ pre'.length
    · exact ⟨w, hw, pre, post, hs, hfirst⟩
    · push Not at hfirst
      obtain ⟨pre', w', post', hs', hw', hlt⟩ := hfirst
      exact ih pre'.length (hn ▸ hlt) hs' hw' rfl

/-! ## The tie-break -/

/-- No longest one starts with a greater character than `w`. -/
def GreatestHead (s w : List χ) : Prop :=
  ∀ u, Longest s u → ∀ x ∈ u.head?, ∀ y ∈ w.head?, x ≤ y

theorem earliestStart_iff (hw : Longest s w) : EarliestStart s w ↔ GreatestHead s w := by
  cases w with
  | nil =>
    exact ⟨fun _ _ _ _ _ y hy => absurd hy (Option.not_mem_none y),
      fun _ => ⟨hw, fun _ _ => Nat.zero_le _⟩⟩
  | cons g t =>
    constructor
    · rintro ⟨-, hfirst⟩ u hu x hx y hy
      obtain ⟨h, v, rfl⟩ := hw.exists_cons hu
      obtain rfl := Option.mem_some.mp hx
      obtain rfl := Option.mem_some.mp hy
      exact (firstPos_le_iff hw hu).mp (hfirst _ hu)
    · intro hgreatest
      refine ⟨hw, fun u hu => ?_⟩
      obtain ⟨h, v, rfl⟩ := hw.exists_cons hu
      exact (firstPos_le_iff hw hu).mpr (hgreatest _ hu h rfl g rfl)

theorem search_earliest_iff (s : List χ) :
    EarliestStart s (search [] [] s) ↔
      (∀ t u, Longest s t → Longest s u → t.head? = u.head?) ∨
        ∃ w, FirstBlock s w ∧ GreatestHead s w := by
  have hlongest := search_longest s
  rw [earliestStart_iff hlongest]
  constructor
  · intro hgreatest
    by_cases hblock : ∃ pre w post, s = pre ++ w ++ post ∧ Longest s w
    · obtain ⟨pre, w, post, hs, hw⟩ := hblock
      obtain ⟨w', hfirst⟩ := exists_firstBlock hs hw
      exact Or.inr ⟨w', hfirst, search_eq_firstBlock hfirst ▸ hgreatest⟩
    · -- the result has the least and the greatest first character
      have hno : ∀ pre w post, s = pre ++ w ++ post → ¬Longest s w := fun pre w post hs hw =>
        hblock ⟨pre, w, post, hs, hw⟩
      have hsame : ∀ t, Longest s t → t.head? = (search [] [] s).head? := by
        intro t ht
        cases t with
        | nil =>
          have hlen := ht.length_eq hlongest
          rw [List.length_eq_zero_iff.mp hlen.symm]
        | cons g t =>
          obtain ⟨x, v, hresult, hle⟩ := search_head_le hno ht
          have hge := hgreatest _ ht g rfl x (by rw [hresult]; rfl)
          rw [hresult, le_antisymm hge hle]
          rfl
      exact Or.inl fun t u ht hu => (hsame t ht).trans (hsame u hu).symm
  · rintro (hsame | ⟨w, hfirst, hgreatest⟩)
    · intro u hu x hx y hy
      rw [hsame u _ hu hlongest] at hx
      exact le_of_eq (Option.mem_unique hx hy)
    · rw [search_eq_firstBlock hfirst]
      exact hgreatest

/-- From empty buffers, the result is one that starts first exactly if all longest increasing
    subsequences start with the same character, or the first contiguous one is among them and none
    starts with a greater character than that. -/
theorem maximum_subset_earliest_iff [Zero χ] {junk str curr best s : List χ}
    (h : FromEmpty junk str curr best s) :
    (∃ m t, maximumSubset junk str 0 ⟨curr, best, []⟩ = some m ∧ Holds m.best t ∧
      EarliestStart s t) ↔
    (∀ t u, Longest s t → Longest s u → t.head? = u.head?) ∨
      ∃ w, FirstBlock s w ∧ GreatestHead s w := by
  obtain ⟨m, hm, hfinal, -⟩ := maximumSubset_fromEmpty h
  rw [← search_earliest_iff]
  constructor
  · rintro ⟨m', t, hm', ht, hearliest⟩
    obtain rfl := Option.some.inj (hm.symm.trans hm')
    rwa [hfinal.best.unique ht]
  · exact fun hearliest => ⟨m, _, hm, hfinal.best, hearliest⟩

/-- "ab" is its only longest increasing subsequence. -/
theorem maximum_subset_earliest_ab :
    FromEmpty (List.replicate 64 7) [97, 98, 0] (List.replicate 64 0) (List.replicate 64 0)
        ([97, 98] : List Nat) ∧
      ∃ m t, maximumSubset (List.replicate 64 7) [97, 98, 0] 0
          ⟨List.replicate 64 0, List.replicate 64 0, []⟩ = some m ∧ Holds m.best t ∧
        EarliestStart ([97, 98] : List Nat) t := by
  have hstart : FromEmpty (List.replicate 64 7) [97, 98, 0] (List.replicate 64 0)
      (List.replicate 64 0) ([97, 98] : List Nat) :=
    fromEmpty_replicate [97, 98] (by decide) (by decide) 7
  have hself : IncreasingIn [97, 98] ([97, 98] : List Nat) := ⟨List.Sublist.refl _, by decide⟩
  have hwhole : ∀ t, Longest ([97, 98] : List Nat) t → t = [97, 98] := fun t ht =>
    ht.1.1.eq_of_length_le (ht.2 _ hself)
  refine ⟨hstart, (maximum_subset_earliest_iff hstart).mpr (Or.inl fun t u ht hu => ?_)⟩
  rw [hwhole t ht, hwhole u hu]

/-- "cbe": "be" is found, and "ce" starts earlier. -/
theorem maximum_subset_cbe :
    FromEmpty (List.replicate 64 7) [99, 98, 101, 0] (List.replicate 64 0) (List.replicate 64 0)
        ([99, 98, 101] : List Nat) ∧
      ¬∃ m t, maximumSubset (List.replicate 64 7) [99, 98, 101, 0] 0
          ⟨List.replicate 64 0, List.replicate 64 0, []⟩ = some m ∧ Holds m.best t ∧
        EarliestStart ([99, 98, 101] : List Nat) t := by
  have hstart : FromEmpty (List.replicate 64 7) [99, 98, 101, 0] (List.replicate 64 0)
      (List.replicate 64 0) ([99, 98, 101] : List Nat) :=
    fromEmpty_replicate [99, 98, 101] (by decide) (by decide) 7
  refine ⟨hstart, ?_⟩
  rintro ⟨m, t, hm, ht, hearliest⟩
  obtain ⟨m', hm', hfinal, -⟩ := maximumSubset_fromEmpty hstart
  obtain rfl := Option.some.inj (hm.symm.trans hm')
  have hfound : search [] [] ([99, 98, 101] : List Nat) = [98, 101] := by decide
  rw [hfound] at hfinal
  obtain rfl := ht.unique hfinal.best
  have hce : Longest ([99, 98, 101] : List Nat) [99, 101] := by
    have hinc : IncreasingIn ([99, 98, 101] : List Nat) [99, 101] := ⟨by decide, by decide⟩
    exact hearliest.1.of_length hinc rfl
  exact absurd (hearliest.2 _ hce) (by decide)

end DemosOsLinux.IncreasingSubsequence
