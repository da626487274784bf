/-
  Grouping by gaps.

  Elements with integer keys are near if their keys differ by at most a window, and chained if there is
  a chain of near ones. `Clustered L gs`: the groups `gs` make up the list `L`, each is chained, and
  the keys of an earlier group end more than a window before those of a later one.
  * `Clustered.join`, `Clustered.split`: one more element, in the last group or in a new one.
  * `Clustered.eq_filter`: a group is what is chained to any of its members.
  * `Clustered.flatten_filter`: the groups without a marked element hold what is chained to no marked
    element.
-/
import Mathlib.Algebra.Ring.Int.Defs
import Mathlib.Data.List.Basic
import Mathlib.Logic.Relation

namespace DemosOsLinux.Lib

section Clusters

variable {α : Type} (key : α → Int) (window : Int)

def Near (vs : List α) (x y : α) : Prop :=
  x ∈ vs ∧ y ∈ vs ∧ key x - key y ≤ window ∧ key y - key x ≤ window

/-- A chain of near elements of the list. -/
def Chained (vs : List α) : α → α → Prop := Relation.ReflTransGen (Near key window vs)

structure Clustered (L : List α) (gs : List (List α)) : Prop where
  flatten : gs.flatten = L
  nonempty : [] ∉ gs
  chained : ∀ g ∈ gs, ∀ x ∈ g, ∀ y ∈ g, Chained key window L x y
  apart : gs.Pairwise fun g h => ∀ x ∈ g, ∀ y ∈ h, key x + window < key y

variable {key window} {L L' : List α} {gs : List (List α)} {g : List α} {x y : α}

theorem Near.symm (h : Near key window L x y) : Near key window L y x :=
  ⟨h.2.1, h.1, h.2.2.2, h.2.2.1⟩

theorem Chained.symm (h : Chained key window L x y) : Chained key window L y x := by
  induction h with
  | refl => exact Relation.ReflTransGen.refl
  | tail _ hnear ih => exact Relation.ReflTransGen.head hnear.symm ih

theorem Chained.mono (hsub : L ⊆ L') (h : Chained key window L x y) : Chained key window L' x y := by
  induction h with
  | refl => exact Relation.ReflTransGen.refl
  | tail _ hnear ih => exact ih.tail ⟨hsub hnear.1, hsub hnear.2.1, hnear.2.2⟩

/-- Only the members count, not their order. -/
theorem chained_perm (h : L.Perm L') : Chained key window L x y ↔ Chained key window L' x y :=
  ⟨Chained.mono h.subset, Chained.mono h.symm.subset⟩

theorem Clustered.mem_flatten (h : Clustered key window L gs) : x ∈ L ↔ ∃ g ∈ gs, x ∈ g := by
  rw [← h.flatten, List.mem_flatten]

theorem clustered_nil : Clustered key window [] [] :=
  ⟨rfl, List.not_mem_nil, fun _ hg => absurd hg List.not_mem_nil, List.Pairwise.nil⟩

/-- The next element is near the last one. -/
theorem Clustered.join (hwin : 0 ≤ window) (h : Clustered key window L (gs ++ [g])) (hx : x ∈ g)
    (hnear : key y - key x ≤ window) (hle : ∀ z ∈ L, key z ≤ key y) :
    Clustered key window (L ++ [y]) (gs ++ [g ++ [y]]) := by
  have hsub : L ⊆ L ++ [y] := List.subset_append_left L [y]
  have hxL : x ∈ L := h.mem_flatten.mpr ⟨g, by simp, hx⟩
  have hxy : Near key window (L ++ [y]) x y := by
    have hkey := hle x hxL
    exact ⟨hsub hxL, by simp, by omega, by omega⟩
  have hto : ∀ z ∈ g ++ [y], Chained key window (L ++ [y]) z x := by
    intro z hz
    rcases List.mem_append.mp hz with hzg | hzy
    · exact (h.chained g (by simp) z hzg x hx).mono hsub
    · obtain rfl := List.mem_singleton.mp hzy
      exact Relation.ReflTransGen.single hxy.symm
  refine ⟨?_, ?_, ?_, ?_⟩
  · rw [← h.flatten]
    simp
  · have hold := h.nonempty
    simp only [List.mem_append, List.mem_singleton, not_or] at hold ⊢
    exact ⟨hold.1, by simp⟩
  · intro g' hg' a ha b hb
    rcases List.mem_append.mp hg' with hold | hnew
    · exact (h.chained g' (by simp [hold]) a ha b hb).mono hsub
    · obtain rfl := List.mem_singleton.mp hnew
      exact (hto a ha).trans (hto b hb).symm
  · have hold := List.pairwise_append.mp h.apart
    refine List.pairwise_append.mpr ⟨hold.1, List.pairwise_singleton _ _, ?_⟩
    intro g' hg' k hk a ha b hb
    obtain rfl := List.mem_singleton.mp hk
    have hcross := hold.2.2 g' hg' g (List.mem_singleton_self g) a ha
    rcases List.mem_append.mp hb with hbg | hby
    · exact hcross b hbg
    · obtain rfl := List.mem_singleton.mp hby
      have hax := hcross x hx
      have hkey := hle x hxL
      omega

/-- The next element is far from all before it. -/
theorem Clustered.split (h : Clustered key window L gs) (hfar : ∀ z ∈ L, key z + window < key y) :
    Clustered key window (L ++ [y]) (gs ++ [[y]]) := by
  refine ⟨?_, ?_, ?_, ?_⟩
  · rw [← h.flatten]
    simp
  · have hold := h.nonempty
    simp only [List.mem_append, List.mem_singleton, not_or]
    exact ⟨hold, by simp⟩
  · intro g' hg' a ha b hb
    rcases List.mem_append.mp hg' with hold | hnew
    · exact (h.chained g' hold a ha b hb).mono (List.subset_append_left L [y])
    · obtain rfl := List.mem_singleton.mp hnew
      obtain rfl := List.mem_singleton.mp ha
      obtain rfl := List.mem_singleton.mp hb
      exact Relation.ReflTransGen.refl
  · refine List.pairwise_append.mpr ⟨h.apart, List.pairwise_singleton _ _, ?_⟩
    intro g' hg' k hk a ha b hb
    obtain rfl := List.mem_singleton.mp hk
    obtain rfl := List.mem_singleton.mp hb
    exact hfar a (h.mem_flatten.mpr ⟨g', hg', ha⟩)

/-! ## Groups are components -/

/-- A chain does not leave its group. -/
theorem Clustered.mem_of_chained {as bs : List (List α)}
    (h : Clustered key window L (as ++ g :: bs)) (hx : x ∈ g) (hxy : Chained key window L x y) :
    y ∈ g := by
  obtain ⟨-, hgb, hag⟩ := List.pairwise_append.mp h.apart
  have hbs := (List.pairwise_cons.mp hgb).1
  induction hxy with
  | refl => exact hx
  | @tail a b _ hab ih =>
    obtain ⟨-, hbL, hnear, hnear'⟩ := hab
    obtain ⟨g', hg', hbg'⟩ := h.mem_flatten.mp hbL
    rcases List.mem_append.mp hg' with hin | hin
    · have hfar := hag g' hin g List.mem_cons_self b hbg' a ih
      omega
    · rcases List.mem_cons.mp hin with rfl | hin
      · exact hbg'
      · have hfar := hbs g' hin a ih b hbg'
        omega

/-- Different groups are not chained. -/
theorem Clustered.not_chained (hwin : 0 ≤ window) (h : Clustered key window L gs) :
    gs.Pairwise fun g k => ∀ x ∈ g, ∀ y ∈ k, ¬Chained key window L x y := by
  refine List.Pairwise.imp_of_mem ?_ h.apart
  intro g k hg hk hapart x hx y hy hxy
  obtain ⟨as, bs, rfl⟩ := List.append_of_mem hg
  have hyg := h.mem_of_chained hx hxy
  have hself := hapart y hyg y hy
  omega

/-- A group holds all that is chained to one of its members, as often as the list does. -/
theorem Clustered.eq_filter (hwin : 0 ≤ window) (h : Clustered key window L gs) (hg : g ∈ gs)
    (hx : x ∈ g) (p : α → Bool) (hp : ∀ y ∈ L, p y = true ↔ Chained key window L x y) :
    g = L.filter p := by
  have hsep := h.not_chained hwin
  obtain ⟨as, bs, rfl⟩ := List.append_of_mem hg
  obtain ⟨-, hgb, hag⟩ := List.pairwise_append.mp hsep
  have hbs := (List.pairwise_cons.mp hgb).1
  have hbefore : as.flatten.filter p = [] := by
    rw [List.filter_eq_nil_iff]
    intro y hy hpy
    obtain ⟨k, hk, hyk⟩ := List.mem_flatten.mp hy
    have hxy := (hp y (h.mem_flatten.mpr ⟨k, by simp [hk], hyk⟩)).mp hpy
    exact hag k hk g List.mem_cons_self y hyk x hx hxy.symm
  have hbehind : bs.flatten.filter p = [] := by
    rw [List.filter_eq_nil_iff]
    intro y hy hpy
    obtain ⟨k, hk, hyk⟩ := List.mem_flatten.mp hy
    have hxy := (hp y (h.mem_flatten.mpr ⟨k, by simp [hk], hyk⟩)).mp hpy
    exact hbs k hk x hx y hyk hxy
  have hself : g.filter p = g := by
    rw [List.filter_eq_self]
    intro y hy
    exact (hp y (h.mem_flatten.mpr ⟨g, hg, hy⟩)).mpr (h.chained g hg x hx y hy)
  rw [← h.flatten, List.flatten_append, List.flatten_cons, List.filter_append, List.filter_append,
    hbefore, hbehind, hself, List.nil_append, List.append_nil]

/-- Filtering the groups is filtering the list, if a condition holds of all of a group or of none. -/
theorem flatten_filter_eq {q : List α → Bool} {p : α → Bool}
    (h : ∀ g ∈ gs, ∀ x ∈ g, p x = q g) : (gs.filter q).flatten = gs.flatten.filter p := by
  induction gs with
  | nil => rfl
  | cons g gs ih =>
    have hrest := ih fun g' hg' => h g' (List.mem_cons_of_mem g hg')
    rw [List.flatten_cons, List.filter_append, ← hrest]
    have hg := h g List.mem_cons_self
    cases hq : q g with
    | true =>
      rw [List.filter_cons_of_pos hq, List.flatten_cons,
        List.filter_eq_self.mpr fun x hx => (hg x hx).trans hq]
    | false =>
      have hnone : g.filter p = [] := List.filter_eq_nil_iff.mpr fun x hx =>
        Bool.eq_false_iff.mp ((hg x hx).trans hq)
      rw [List.filter_cons_of_neg (Bool.eq_false_iff.mp hq), hnone, List.nil_append]

/-- The groups without a marked element. -/
theorem Clustered.flatten_filter (h : Clustered key window L gs) (marked p : α → Bool)
    (hp : ∀ x ∈ L, p x = true ↔ ∀ y ∈ L, Chained key window L x y → marked y = false) :
    (gs.filter fun g => !g.any marked).flatten = L.filter p := by
  have hgroup : ∀ g ∈ gs, ∀ x ∈ g, p x = !g.any marked := by
    intro g hg x hx
    rw [Bool.eq_iff_iff, hp x (h.mem_flatten.mpr ⟨g, hg, hx⟩), Bool.not_eq_true', List.any_eq_false]
    constructor
    · intro hall y hy
      have hno := hall y (h.mem_flatten.mpr ⟨g, hg, hy⟩) (h.chained g hg x hx y hy)
      exact Bool.eq_false_iff.mp hno
    · intro hnone y _ hxy
      obtain ⟨as, bs, rfl⟩ := List.append_of_mem hg
      exact Bool.eq_false_iff.mpr (hnone y (h.mem_of_chained hx hxy))
  rw [flatten_filter_eq hgroup, h.flatten]

end Clusters

end DemosOsLinux.Lib
