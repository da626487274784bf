/-
  The longest increasing subsequence of a string
  (exercises/c/longest_increasing_subsequence/solution.c).

  `maximum_subset` works on two buffers of `MAX_STR_LEN` characters that all calls share, `curr` and
  `best`, and saves `curr` in a buffer of its own. An access outside of a buffer fails. The characters
  are of any linear order, so `char` may be signed or not. The calls are recorded.
  * `useCharacter_spec`: one call before its recursive calls is a step of the search.
  * `maximumSubset_spec`: the recursion is the search, and it fails exactly if a current subsequence
    does not fit in its buffer.
  * `maximum_subset_finds_longest`: from empty buffers, the result is a longest increasing subsequence.
  * `check_finds_longest_iff`: `check` starts with the string itself in both buffers.
-/
import DemosOsLinux.IncreasingSubsequence.Search
import DemosOsLinux.Lib.CString

namespace DemosOsLinux.IncreasingSubsequence

open Lib

def maxStrLen : Nat := 64

/-- The shared buffers, and each call with its index and the contents of `curr`. -/
structure Buffers (χ : Type) where
  curr : List χ
  best : List χ
  calls : List (Nat × List χ)

section Model

variable {χ : Type} [LinearOrder χ] [Zero χ]

/-- `length_of_curr>0 && ch>curr[length_of_curr-1]`. -/
def extends? (curr : List χ) (lengthOfCurr : Nat) (ch : χ) : Option Bool :=
  if lengthOfCurr > 0 then (curr[lengthOfCurr - 1]?).map (decide <| · < ch) else some false

/-- `if (length_of_curr>length_of_best) strcpy(best, curr)`. -/
def updateBest (best curr : List χ) (lengthOfCurr lengthOfBest : Nat) : Option (List χ) :=
  if lengthOfCurr > lengthOfBest then strcpy best curr else some best

/-- The use of a character: `tmp_curr`, and the buffers for the first recursive call. `junk` is what
    `tmp_curr` holds before. -/
def useCharacter (junk : List χ) (ch : χ) (m : Buffers χ) : Option (List χ × Buffers χ) := do
  let lengthOfCurr ← strlen m.curr
  let lengthOfBest ← strlen m.best
  let tmpCurr ← strcpy junk m.curr
  let larger ← extends? m.curr lengthOfCurr ch
  let length := if larger then lengthOfCurr else 0
  let curr ← putLast m.curr length ch
  let best ← updateBest m.best curr (length + 1) lengthOfBest
  some (tmpCurr, { m with curr := curr, best := best })

/-- `maximum_subset`. -/
def maximumSubset (junk str : List χ) (index : Nat) (m : Buffers χ) : Option (Buffers χ) :=
  if h : index < str.length then
    let m := { m with calls := m.calls ++ [(index, m.curr)] }
    if str[index] = 0 then some m
    else do
      let used ← useCharacter junk str[index] m
      let m ← maximumSubset junk str (index + 1) used.2
      let curr ← strcpy m.curr used.1
      -- skip the current character
      maximumSubset junk str (index + 1) { m with curr := curr }
  else none
termination_by str.length - index

/-- What `check` prints after the two strings. -/
inductive Verdict (χ : Type) where
  | ok
  | error (best : List χ)

/-- `strcmp(expected, best)!=0`. -/
def verdict (expected best : List χ) : Verdict χ :=
  if expected.takeWhile (· ≠ 0) = best.takeWhile (· ≠ 0) then .ok
  else .error (best.takeWhile (· ≠ 0))

/-- `check`; `junk` is what its buffers hold before. -/
def check (junk val expected : List χ) : Option (Buffers χ × Verdict χ) := do
  let str ← strcpy junk val
  let curr ← strcpy junk val
  let best ← strcpy junk val
  let m ← maximumSubset junk str 0 ⟨curr, best, []⟩
  some (m, verdict expected m.best)

end Model

/-! ## One call -/

section Refinement

variable {χ : Type} [LinearOrder χ] [Zero χ] {N : Nat} {c b s w pre rest junk : List χ}
  {m : Buffers χ}

/-- The buffers hold the current and the best subsequence. -/
structure Represents (N : Nat) (c b : List χ) (m : Buffers χ) : Prop where
  curr : Holds m.curr c
  best : Holds m.best b
  currLength : m.curr.length = N
  bestLength : m.best.length = N

omit [LinearOrder χ] in
theorem Represents.withCalls (h : Represents N c b m) (calls : List (Nat × List χ)) :
    Represents N c b { m with calls := calls } :=
  ⟨h.curr, h.best, h.currLength, h.bestLength⟩

/-- The comparison with the last character of `curr`. -/
theorem extends?_eq (h : Holds m.curr c) (ch : χ) :
    ∃ larger, extends? m.curr c.length ch = some larger ∧
      extend c ch = c.take (if larger then c.length else 0) ++ [ch] := by
  unfold extends?
  by_cases hpos : c.length > 0
  · have hlt : c.length - 1 < c.length := by omega
    rw [if_pos hpos, h.getElem_lt hlt, ← List.getLast?_eq_getElem?]
    obtain ⟨y, hy⟩ : ∃ y, c.getLast? = some y := by
      rw [List.getLast?_eq_getElem?]
      exact ⟨_, List.getElem?_eq_getElem hlt⟩
    refine ⟨decide (y < ch), by rw [hy]; rfl, ?_⟩
    rw [extend, hy]
    by_cases hlarger : y < ch
    · simp [hlarger]
    · simp [hlarger]
  · rw [if_neg hpos]
    obtain rfl := List.length_eq_zero_iff.mp (Nat.eq_zero_of_not_pos hpos)
    exact ⟨false, rfl, rfl⟩

theorem useCharacter_spec {ch : χ} (hjunk : junk.length = N) (hch : ch ≠ 0) (h : Represents N c b m) :
    ((extend c ch).length < N → ∃ tmp m', useCharacter junk ch m = some (tmp, m') ∧ Holds tmp c ∧
        Represents N (extend c ch) (better b (extend c ch)) m' ∧ m'.calls = m.calls) ∧
      (N ≤ (extend c ch).length → useCharacter junk ch m = none) := by
  have hlt := h.curr.length_lt
  have hroom : c.length < junk.length := by rw [hjunk, ← h.currLength]; exact hlt
  obtain ⟨tmp, htmp, htmpHolds, -⟩ := h.curr.strcpy hroom
  obtain ⟨larger, hlarger, hextend⟩ := extends?_eq h.curr ch
  generalize hk : (if larger = true then c.length else 0) = k at hextend
  have hle : k ≤ c.length := by
    rw [← hk]
    split <;> omega
  have hlength : (extend c ch).length = k + 1 := by
    rw [hextend, List.length_append, List.length_take, Nat.min_eq_left hle, List.length_singleton]
  have hstart : useCharacter junk ch m = (putLast m.curr k ch).bind fun curr =>
      (updateBest m.best curr (k + 1) b.length).bind fun best =>
        some (tmp, { m with curr := curr, best := best }) := by
    unfold useCharacter
    rw [h.curr.strlen, h.best.strlen]
    dsimp only [Option.bind_eq_bind, Option.bind_some]
    rw [htmp, Option.bind_some, hlarger, Option.bind_some, hk]
  rw [hstart, hlength]
  constructor
  · intro hfits
    have hend : k + 1 < m.curr.length := by rw [h.currLength]; exact hfits
    obtain ⟨curr, hput, hcurr, hcurrLength⟩ := h.curr.putLast hle hch hend
    rw [← hextend] at hcurr
    rw [hput, Option.bind_some]
    unfold better updateBest
    rw [hlength]
    by_cases hlonger : b.length < k + 1
    · have hbest : (extend c ch).length < m.best.length := by
        rw [hlength, h.bestLength]
        exact hfits
      obtain ⟨best, hcopy, hbest', hbestLength⟩ := hcurr.strcpy hbest
      rw [if_pos hlonger, if_pos hlonger, hcopy]
      exact ⟨tmp, _, rfl, htmpHolds, ⟨hcurr, hbest', hcurrLength.trans h.currLength,
        hbestLength.trans h.bestLength⟩, rfl⟩
    · rw [if_neg hlonger, if_neg hlonger]
      exact ⟨tmp, _, rfl, htmpHolds, ⟨hcurr, h.best, hcurrLength.trans h.currLength,
        h.bestLength⟩, rfl⟩
  · intro hfull
    rw [putLast_none (by rw [h.currLength]; exact hfull)]
    rfl

/-! ## The recursion -/

/-- The search with buffers for fewer than `N` characters. -/
def searchWithin (N : Nat) (c b : List χ) : List χ → Option (List χ)
  | [] => some b
  | x :: s =>
    if (extend c x).length < N then
      (searchWithin N (extend c x) (better b (extend c x)) s).bind fun b => searchWithin N c b s
    else none

/-- The calls of the search, each with the current subsequence. -/
def visits (i : Nat) (c : List χ) : List χ → List (Nat × List χ)
  | [] => [(i, c)]
  | x :: s => (i, c) :: (visits (i + 1) (extend c x) s ++ visits (i + 1) c s)

omit [Zero χ] in
theorem searchWithin_eq (h : searchWithin N c b s = some w) : w = search c b s := by
  induction s generalizing c b w with
  | nil => exact (Option.some.inj h).symm
  | cons x s ih =>
    unfold searchWithin at h
    split at h
    · obtain ⟨w', hw', hw⟩ := Option.bind_eq_some_iff.mp h
      rw [search, ← ih hw', ih hw]
    · exact absurd h.symm (Option.some_ne_none w)

omit [Zero χ] in
theorem searchWithin_of_fits (b : List χ) (hfits : ∀ t ∈ nodes c s, t.length < N) :
    searchWithin N c b s = some (search c b s) := by
  induction s generalizing c b with
  | nil => rfl
  | cons x s ih =>
    have htake : ∀ t ∈ nodes (extend c x) s, t.length < N := fun t ht =>
      hfits t (List.mem_cons_of_mem _ (List.mem_append_left _ ht))
    have hskip : ∀ t ∈ nodes c s, t.length < N := fun t ht =>
      hfits t (List.mem_cons_of_mem _ (List.mem_append_right _ ht))
    rw [searchWithin, if_pos (hfits _ List.mem_cons_self), ih _ htake, Option.bind_some,
      ih _ hskip, search]

omit [Zero χ] in
/-- At each call the current subsequence is one of the part that was scanned. -/
theorem visits_sound (h : IncreasingIn pre c) {j : Nat} {d : List χ}
    (hd : (j, d) ∈ visits pre.length c rest) : IncreasingIn ((pre ++ rest).take j) d := by
  induction rest generalizing pre c with
  | nil =>
    obtain ⟨rfl, rfl⟩ := Prod.mk.inj (List.mem_singleton.mp hd)
    rw [List.append_nil, List.take_length]
    exact h
  | cons x rest ih =>
    rcases List.mem_cons.mp hd with heq | hd
    · obtain ⟨rfl, rfl⟩ := Prod.mk.inj heq
      rw [List.take_left]
      exact h
    · have hlen : pre.length + 1 = (pre ++ [x]).length := by
        rw [List.length_append, List.length_singleton]
      rw [List.append_cons]
      rw [hlen] at hd
      rcases List.mem_append.mp hd with hd | hd
      · exact ih (extend_increasing h x) hd
      · exact ih ⟨h.1.trans (List.sublist_append_left pre [x]), h.2⟩ hd

/-- The new calls are calls of the search. -/
def CallsOf (m m' : Buffers χ) (vs : List (Nat × List χ)) : Prop :=
  ∀ call ∈ m'.calls, call ∈ m.calls ∨ ∃ d, (call.1, d) ∈ vs ∧ Holds call.2 d

omit [LinearOrder χ] in
/-- The calls of two parts, one after the other. -/
theorem CallsOf.trans {m₁ m₂ m₃ : Buffers χ} {vs ws : List (Nat × List χ)} (h : CallsOf m₁ m₂ vs)
    (h' : CallsOf m₂ m₃ ws) : CallsOf m₁ m₃ (vs ++ ws) := by
  intro call hcall
  rcases h' call hcall with hold | ⟨d, hd, hholds⟩
  · rcases h call hold with hold | ⟨d, hd, hholds⟩
    · exact Or.inl hold
    · exact Or.inr ⟨d, List.mem_append_left ws hd, hholds⟩
  · exact Or.inr ⟨d, List.mem_append_right vs hd, hholds⟩

/-- A call records itself. -/
def record (i : Nat) (m : Buffers χ) : Buffers χ := { m with calls := m.calls ++ [(i, m.curr)] }

omit [LinearOrder χ] in
theorem callsOf_record (h : Holds m.curr c) (i : Nat) : CallsOf m (record i m) [(i, c)] := by
  intro call hcall
  rcases List.mem_append.mp hcall with hold | hnew
  · exact Or.inl hold
  · rw [List.mem_singleton.mp hnew]
    exact Or.inr ⟨c, List.mem_singleton_self _, h⟩

/-- The saved subsequence is copied back. -/
theorem Represents.restore {d tmp : List χ} (h : Represents N d b m) (htmp : Holds tmp c)
    (hroom : c.length < N) :
    ∃ curr, strcpy m.curr tmp = some curr ∧ Represents N c b { m with curr := curr } := by
  obtain ⟨curr, hcopy, hcurr, hlength⟩ := htmp.strcpy (show c.length < m.curr.length by
    rw [h.currLength]; exact hroom)
  exact ⟨curr, hcopy, hcurr, h.best, hlength.trans h.currLength, h.bestLength⟩

/-- At the end of the string. -/
theorem maximumSubset_end (junk pre tail : List χ) (m : Buffers χ) :
    maximumSubset junk (pre ++ 0 :: tail) pre.length m = some (record pre.length m) := by
  have hlt : pre.length < (pre ++ 0 :: tail).length := by
    rw [List.length_append, List.length_cons]
    omega
  have hget : (pre ++ 0 :: tail)[pre.length] = 0 := by
    simp only [List.getElem_append_right (Nat.le_refl _), Nat.sub_self, List.getElem_cons_zero]
  rw [maximumSubset, dif_pos hlt, if_pos hget]
  rfl

/-- At a character: the search with it, the copy back, and the search without it. -/
theorem maximumSubset_character (junk pre tail : List χ) (m : Buffers χ) {x : χ} (hx : x ≠ 0) :
    maximumSubset junk (pre ++ x :: tail) pre.length m =
      (useCharacter junk x (record pre.length m)).bind fun used =>
        (maximumSubset junk (pre ++ x :: tail) (pre ++ [x]).length used.2).bind fun m =>
          (strcpy m.curr used.1).bind fun curr =>
            maximumSubset junk (pre ++ x :: tail) (pre ++ [x]).length { m with curr := curr } := by
  have hlt : pre.length < (pre ++ x :: tail).length := by
    rw [List.length_append, List.length_cons]
    omega
  have hget : (pre ++ x :: tail)[pre.length] = x := by
    simp only [List.getElem_append_right (Nat.le_refl _), Nat.sub_self, List.getElem_cons_zero]
  rw [maximumSubset, dif_pos hlt]
  dsimp only
  rw [hget, if_neg hx, List.length_append, List.length_singleton]
  rfl

theorem maximumSubset_spec (pre : List χ) {tail : List χ} (hjunk : junk.length = N)
    (hnul : 0 ∉ rest) (h : Represents N c b m) :
    (∀ w, searchWithin N c b rest = some w →
        ∃ m', maximumSubset junk (pre ++ (rest ++ 0 :: tail)) pre.length m = some m' ∧
          Represents N c w m' ∧ CallsOf m m' (visits pre.length c rest)) ∧
      (searchWithin N c b rest = none →
        maximumSubset junk (pre ++ (rest ++ 0 :: tail)) pre.length m = none) := by
  induction rest generalizing pre c b m with
  | nil =>
    refine ⟨fun w hw => ⟨record pre.length m, maximumSubset_end junk pre tail m, ?_,
      callsOf_record h.curr pre.length⟩, fun hnone => absurd hnone (Option.some_ne_none b)⟩
    obtain rfl := Option.some.inj hw
    exact h.withCalls _
  | cons x rest ih =>
    have hx : x ≠ 0 := fun hzero => hnul (hzero ▸ List.mem_cons_self)
    have hnul' : 0 ∉ rest := fun hmem => hnul (List.mem_cons_of_mem x hmem)
    have hroom : c.length < N := h.currLength ▸ h.curr.length_lt
    have hlen : (pre ++ [x]).length = pre.length + 1 := by
      rw [List.length_append, List.length_singleton]
    obtain ⟨hfits, hfull⟩ := useCharacter_spec hjunk hx (h.withCalls _)
    rw [List.cons_append, maximumSubset_character junk pre _ m hx]
    unfold searchWithin
    rcases Nat.lt_or_ge (extend c x).length N with hlonger | hnone
    · obtain ⟨tmp, m₁, huse, htmp, h₁, hcalls₁⟩ := hfits hlonger
      rw [if_pos hlonger, record, huse, Option.bind_some, List.append_cons pre x]
      obtain ⟨htake, htakeNone⟩ := ih (pre ++ [x]) hnul' h₁
      cases hsearch : searchWithin N (extend c x) (better b (extend c x)) rest with
      | none =>
        rw [htakeNone hsearch]
        exact ⟨fun w hw => absurd hw.symm (Option.some_ne_none w), fun _ => rfl⟩
      | some w₁ =>
        obtain ⟨m₂, hm₂, h₂, hcalls₂⟩ := htake w₁ hsearch
        obtain ⟨curr, hcopy, h₃⟩ := h₂.restore htmp hroom
        rw [hm₂]
        dsimp only [Option.bind_some]
        rw [hcopy]
        dsimp only [Option.bind_some]
        obtain ⟨hskip, hskipNone⟩ := ih (pre ++ [x]) hnul' h₃
        refine ⟨fun w hw => ?_, hskipNone⟩
        obtain ⟨m₄, hm₄, h₄, hcalls₄⟩ := hskip w hw
        rw [hlen] at hcalls₂ hcalls₄
        have hthis : CallsOf m m₁ [(pre.length, c)] := by
          unfold CallsOf
          rw [hcalls₁]
          exact callsOf_record h.curr pre.length
        exact ⟨m₄, hm₄, h₄, hthis.trans (hcalls₂.trans hcalls₄)⟩
    · rw [if_neg (Nat.not_lt_of_ge hnone), record, hfull hnone]
      exact ⟨fun w hw => absurd hw.symm (Option.some_ne_none w), fun _ => rfl⟩

/-- A call from the start of the string. -/
theorem maximumSubset_whole {str : List χ} (hjunk : junk.length = N) (hstr : Holds str s)
    (h : Represents N c b m) :
    (∀ w, searchWithin N c b s = some w → ∃ m', maximumSubset junk str 0 m = some m' ∧
        Represents N c w m' ∧ CallsOf m m' (visits 0 c s)) ∧
      (searchWithin N c b s = none → maximumSubset junk str 0 m = none) := by
  obtain ⟨hnul, tail, rfl⟩ := hstr
  exact maximumSubset_spec [] hjunk hnul h

/-! ## From empty buffers -/

/-- A call for a whole string, with empty buffers. -/
structure FromEmpty (junk str curr best s : List χ) : Prop where
  length : s.length < maxStrLen
  holdsStr : Holds str s
  emptyCurr : Holds curr []
  emptyBest : Holds best []
  junkLength : junk.length = maxStrLen
  currLength : curr.length = maxStrLen
  bestLength : best.length = maxStrLen

omit [LinearOrder χ] in
theorem fromEmpty_replicate (s : List χ) (hlen : s.length < maxStrLen) (hnul : 0 ∉ s) (x : χ) :
    FromEmpty (List.replicate maxStrLen x) (s ++ [0]) (List.replicate maxStrLen 0)
      (List.replicate maxStrLen 0) s := by
  have hempty : Holds (List.replicate maxStrLen 0) ([] : List χ) :=
    ⟨List.not_mem_nil, List.replicate 63 0, rfl⟩
  exact ⟨hlen, ⟨hnul, [], rfl⟩, hempty, hempty, List.length_replicate, List.length_replicate,
    List.length_replicate⟩

theorem maximumSubset_fromEmpty {str curr best : List χ} (h : FromEmpty junk str curr best s) :
    ∃ m, maximumSubset junk str 0 ⟨curr, best, []⟩ = some m ∧
      Represents maxStrLen [] (search [] [] s) m ∧
      CallsOf ⟨curr, best, []⟩ m (visits 0 [] s) := by
  have hfits : ∀ t ∈ nodes [] s, t.length < maxStrLen := fun t ht =>
    Nat.lt_of_le_of_lt (nodes_increasing ht).1.length_le h.length
  have hrep : Represents maxStrLen [] [] ⟨curr, best, []⟩ :=
    ⟨h.emptyCurr, h.emptyBest, h.currLength, h.bestLength⟩
  exact (maximumSubset_whole h.junkLength h.holdsStr hrep).1 _ (searchWithin_of_fits [] hfits)

/-- From empty buffers, `maximum_subset` returns with a longest increasing subsequence in `best` and
    `curr` empty; at each call `curr` is an increasing subsequence of what was scanned before. -/
theorem maximum_subset_finds_longest {junk str curr best s : List χ}
    (h : FromEmpty junk str curr best s) :
    ∃ m t, maximumSubset junk str 0 ⟨curr, best, []⟩ = some m ∧ Holds m.best t ∧ Longest s t ∧
      Holds m.curr [] ∧ m.curr.length = maxStrLen ∧
      ∀ call ∈ m.calls, ∃ c, Holds call.2 c ∧ IncreasingIn (s.take call.1) c ∧
        c.length < maxStrLen := by
  obtain ⟨m, hm, hfinal, hcalls⟩ := maximumSubset_fromEmpty h
  refine ⟨m, _, hm, hfinal.best, search_longest s, hfinal.curr, hfinal.currLength, ?_⟩
  intro call hcall
  rcases hcalls call hcall with hold | ⟨c, hc, hholds⟩
  · exact absurd hold List.not_mem_nil
  · have hinc : IncreasingIn (s.take call.1) c := visits_sound (increasingIn_nil []) hc
    have hle := hinc.1.length_le
    have hlen := h.length
    rw [List.length_take] at hle
    exact ⟨c, hholds, hinc, by omega⟩

/-- Empty buffers and the string "1 3 2". -/
theorem maximum_subset_finds_longest_three :
    FromEmpty (List.replicate 64 7) [1, 3, 2, 0] (List.replicate 64 0) (List.replicate 64 0)
        ([1, 3, 2] : List Nat) ∧
      ∃ m t, maximumSubset (List.replicate 64 7) [1, 3, 2, 0] 0
          ⟨List.replicate 64 0, List.replicate 64 0, []⟩ = some m ∧ Holds m.best t ∧
        Longest ([1, 3, 2] : List Nat) t := by
  have hstart : FromEmpty (List.replicate 64 7) [1, 3, 2, 0] (List.replicate 64 0)
      (List.replicate 64 0) ([1, 3, 2] : List Nat) :=
    fromEmpty_replicate [1, 3, 2] (by decide) (by decide) 7
  obtain ⟨m, t, hm, ht, hlongest, -⟩ := maximum_subset_finds_longest hstart
  exact ⟨hstart, m, t, hm, ht, hlongest⟩

/-! ## From the string itself -/

omit [Zero χ] in
theorem le_getLast (hinc : s.Pairwise (· < ·)) {x y : χ} (hx : x ∈ s) (hy : y ∈ s.getLast?) :
    x ≤ y := by
  rcases List.eq_nil_or_concat s with rfl | ⟨init, l, rfl⟩
  · exact absurd hx List.not_mem_nil
  · rw [List.concat_eq_append] at hinc hx hy
    rw [List.getLast?_concat] at hy
    obtain rfl := Option.mem_some.mp hy
    rcases List.mem_append.mp hx with hx | hx
    · exact le_of_lt ((List.pairwise_append.mp hinc).2.2 x hx l (List.mem_singleton_self l))
    · rw [List.mem_singleton.mp hx]

omit [Zero χ] in
/-- Behind an increasing string none of its characters is an extension. -/
theorem nodes_behind_self (hinc : w.Pairwise (· < ·)) (hmem : ∀ x ∈ s, x ∈ w) {t : List χ}
    (ht : t ∈ nodes w s) : t.Sublist s := by
  induction s with
  | nil => exact absurd ht List.not_mem_nil
  | cons x s ih =>
    have hrestart : extend w x = [x] := by
      rcases extend_cases w x with ⟨-, hlast⟩ | ⟨heq, -⟩
      · obtain ⟨y, hy⟩ : ∃ y, y ∈ w.getLast? := by
          have hne : w ≠ [] := List.ne_nil_of_mem (hmem x List.mem_cons_self)
          exact ⟨w.getLast hne, List.getLast?_eq_some_getLast hne⟩
        have hle := le_getLast hinc (hmem x List.mem_cons_self) hy
        exact absurd (hlast y hy) (not_lt.mpr hle)
      · exact heq
    rw [nodes, hrestart] at ht
    rcases List.mem_cons.mp ht with rfl | ht
    · exact List.singleton_sublist.mpr List.mem_cons_self
    · rcases List.mem_append.mp ht with ht | ht
      · have hstart : IncreasingIn [x] [x] := ⟨List.Sublist.refl _, List.pairwise_singleton _ _⟩
        exact (nodes_sound hstart ht).1
      · exact (ih (fun y hy => hmem y (List.mem_cons_of_mem x hy)) ht).cons x

/-- `check` runs `maximum_subset` with the string in all three buffers. -/
theorem check_eq {val : List χ} (hlen : s.length < maxStrLen) (hval : Holds val s)
    (hjunk : junk.length = maxStrLen) (expected : List χ) :
    ∃ buf, Holds buf s ∧ buf.length = maxStrLen ∧
      check junk val expected = (maximumSubset junk buf 0 ⟨buf, buf, []⟩).map fun m =>
        (m, verdict expected m.best) := by
  have hroom : s.length < junk.length := by rw [hjunk]; exact hlen
  obtain ⟨buf, hcopy, hbuf, hlength⟩ := hval.strcpy hroom
  refine ⟨buf, hbuf, hlength.trans hjunk, ?_⟩
  rw [check, hcopy]
  dsimp only [Option.bind_eq_bind, Option.bind_some]
  rw [Option.map_eq_bind]
  rfl

/-- What `check` finds is never shorter than the string. -/
theorem pairwise_of_check {val expected t : List χ} {v : Verdict χ} (hlen : s.length < maxStrLen)
    (hval : Holds val s) (hjunk : junk.length = maxStrLen)
    (hcheck : check junk val expected = some (m, v)) (ht : Holds m.best t)
    (hlongest : Longest s t) : s.Pairwise (· < ·) := by
  obtain ⟨buf, hbuf, hbufLength, heq⟩ := check_eq hlen hval hjunk expected
  rw [heq] at hcheck
  obtain ⟨m', hm', hpair⟩ := Option.map_eq_some_iff.mp hcheck
  obtain ⟨rfl, -⟩ := Prod.mk.inj hpair
  have hrep : Represents maxStrLen s s ⟨buf, buf, []⟩ := ⟨hbuf, hbuf, hbufLength, hbufLength⟩
  obtain ⟨hsome, hnone⟩ := maximumSubset_whole hjunk hbuf hrep
  cases hsearch : searchWithin maxStrLen s s s with
  | none =>
    have hfail := hm'.symm.trans (hnone hsearch)
    exact absurd hfail (Option.some_ne_none _)
  | some w =>
    obtain ⟨m'', hm'', hfinal, -⟩ := hsome w hsearch
    obtain rfl := Option.some.inj (hm'.symm.trans hm'')
    obtain rfl := ht.unique hfinal.best
    have hle : s.length ≤ t.length := by
      rw [searchWithin_eq hsearch, search_eq]
      exact length_le_foldl_better List.mem_cons_self
    rw [← hlongest.1.1.eq_of_length_le hle]
    exact hlongest.1.2

/-- `check` finds a longest increasing subsequence exactly of increasing strings. -/
theorem check_finds_longest_iff {junk val expected : List χ} (s : List χ)
    (hlen : s.length < maxStrLen) (hval : Holds val s) (hjunk : junk.length = maxStrLen) :
    (∃ m v t, check junk val expected = some (m, v) ∧ Holds m.best t ∧ Longest s t) ↔
      s.Pairwise (· < ·) := by
  constructor
  · rintro ⟨m, v, t, hcheck, ht, hlongest⟩
    exact pairwise_of_check hlen hval hjunk hcheck ht hlongest
  · intro hinc
    obtain ⟨buf, hbuf, hbufLength, heq⟩ := check_eq hlen hval hjunk expected
    have hrep : Represents maxStrLen s s ⟨buf, buf, []⟩ := ⟨hbuf, hbuf, hbufLength, hbufLength⟩
    have hshort : ∀ t ∈ nodes s s, t.length ≤ s.length := fun t ht =>
      (nodes_behind_self hinc (fun _ hx => hx) ht).length_le
    obtain ⟨m, hm, hfinal, -⟩ := (maximumSubset_whole hjunk hbuf hrep).1 _
      (searchWithin_of_fits s fun t ht => Nat.lt_of_le_of_lt (hshort t ht) hlen)
    rw [search_eq, foldl_better_eq hshort] at hfinal
    refine ⟨m, _, s, by rw [heq, hm]; rfl, hfinal.best, ⟨List.Sublist.refl s, hinc⟩, ?_⟩
    exact fun u hu => hu.1.length_le

/-- "ab" is increasing. -/
theorem check_finds_longest_ab :
    ([97, 98] : List Nat).length < maxStrLen ∧ Holds [97, 98, 0] ([97, 98] : List Nat) ∧
      (List.replicate 64 7 : List Nat).length = maxStrLen ∧
      ∃ m v t, check (List.replicate 64 7) [97, 98, 0] ([97, 98, 0] : List Nat) = some (m, v) ∧
        Holds m.best t ∧ Longest [97, 98] t := by
  have hval : Holds [97, 98, 0] ([97, 98] : List Nat) := ⟨by decide, [], rfl⟩
  have hjunk : (List.replicate 64 7 : List Nat).length = maxStrLen := List.length_replicate
  exact ⟨by decide, hval, hjunk,
    (check_finds_longest_iff [97, 98] (by decide) hval hjunk).mpr (by decide)⟩

/-- `best` begins as "azbcd" and ends as "azbcdz": it is only replaced by something longer. -/
theorem check_azbcd :
    ([97, 122, 98, 99, 100] : List Nat).length < maxStrLen ∧
      Holds [97, 122, 98, 99, 100, 0] ([97, 122, 98, 99, 100] : List Nat) ∧
      ¬∃ m v t, check (List.replicate 64 7) [97, 122, 98, 99, 100, 0]
          ([97, 98, 99, 100, 0] : List Nat) = some (m, v) ∧ Holds m.best t ∧
        Longest [97, 122, 98, 99, 100] t := by
  have hval : Holds [97, 122, 98, 99, 100, 0] ([97, 122, 98, 99, 100] : List Nat) :=
    ⟨by decide, [], rfl⟩
  refine ⟨by decide, hval, ?_⟩
  rintro ⟨m, v, t, hcheck, ht, hlongest⟩
  have hinc := pairwise_of_check (by decide) hval List.length_replicate hcheck ht hlongest
  exact absurd hinc (by decide)

end Refinement

end DemosOsLinux.IncreasingSubsequence
