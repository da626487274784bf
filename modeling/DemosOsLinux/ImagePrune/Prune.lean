/-
  Deleting orphaned pushes of the CI image (scripts/ci_image_prune.py).

  A push leaves several version rows within a minute. `cluster` sorts the rows by their creation
  times and starts a new group where one is more than `CLUSTER_WINDOW_SECONDS` after the one before
  it; `main` deletes the groups without a tagged row. Creation times are integers, in seconds.
  * `cluster_clustered`: the scan never fails, and its groups are clusters in the sense of
    `Lib.Clustered`.
  * `prune_orphans_only`: the groups are the components of "at most 60 seconds apart", in whatever
    order the rows come, and `main` deletes the rows of components without a tagged row.
-/
import DemosOsLinux.Lib.Clusters
import Mathlib.Data.List.Sort

namespace DemosOsLinux.ImagePrune

open Lib

/-- A version row, with the fields that are read. -/
structure Version where
  id : Int
  name : String
  createdAt : Int
  tags : List String

def clusterWindowSeconds : Int := 60

/-- The body of the loop in `cluster`; `none` is an IndexError for `groups[-1][-1]`. -/
def place (groups : List (List Version)) (v : Version) : Option (List (List Version)) :=
  match groups.getLast? with
  | none => some (groups ++ [[v]])
  | some group => do
    let last ← group.getLast?
    if v.createdAt - last.createdAt ≤ clusterWindowSeconds then
      some (groups.dropLast ++ [group ++ [v]])
    else some (groups ++ [[v]])

/-- `sorted(versions, key=created_at)`, which is stable. -/
def byCreation (versions : List Version) : List Version :=
  versions.insertionSort fun v w => v.createdAt ≤ w.createdAt

def cluster (versions : List Version) : Option (List (List Version)) :=
  (byCreation versions).foldlM place []

/-- `orphaned_clusters`. -/
def orphanedClusters (clusters : List (List Version)) : List (List Version) :=
  clusters.filter fun c => !c.any fun v => !v.tags.isEmpty

/-- What `main` prints, the ids it asks to delete, and the message it exits with. -/
structure Report where
  printed : List String
  deleted : List Int
  exit : Option String

/-- The age of a row, in days or hours. -/
def age (now ts : Int) : String :=
  let seconds := now - ts
  if seconds ≥ 86400 then toString (seconds.fdiv 86400) ++ "d"
  else toString (seconds.fdiv 3600) ++ "h"

/-- The first 12 characters behind the colon, or of a name without one. -/
def digest (name : String) : String :=
  if ':' ∈ name.toList then String.ofList ((name.toList.dropWhile (· ≠ ':')).tail.take 12)
  else String.ofList (name.toList.take 12)

/-- `f"{age:>4}"`. -/
def padLeft (s : String) : String := String.ofList (List.replicate (4 - s.length) ' ') ++ s

/-- The line for one row; `date` formats a time. -/
def describe (date : Int → String) (now : Int) (v : Version) : String :=
  "  " ++ date v.createdAt ++ "  " ++ padLeft (age now v.createdAt) ++ " ago  " ++ digest v.name

/-- `main` after `fetch_versions`; `succeeds i` is the answer to the `i`-th deletion. -/
def main (yes : Bool) (date : Int → String) (now : Int) (succeeds : Nat → Bool)
    (versions : List Version) : Option Report :=
  if versions.isEmpty then
    some ⟨["No published versions of ghcr.io/veltzer/demos-os-linux-ci."], [], none⟩
  else do
    let clusters ← cluster versions
    let orphaned := orphanedClusters clusters
    if orphaned.isEmpty then
      some ⟨["Nothing to prune. All pushes have at least one tagged row."], [], none⟩
    else
      let targets := orphaned.flatten
      let verb := if yes then "Deleting" else "Would delete"
      let header := verb ++ " " ++ toString targets.length ++ " version row(s) across " ++
        toString orphaned.length ++ " orphaned push(es):"
      let lines := header :: targets.map (describe date now)
      if yes then
        let failures := (List.range targets.length).countP (!succeeds ·)
        if failures ≠ 0 then
          some ⟨lines ++ [""], targets.map Version.id,
            some (toString failures ++ " deletion(s) failed.")⟩
        else
          some ⟨lines ++ ["", "Deleted " ++ toString targets.length ++ " version row(s)."],
            targets.map Version.id, none⟩
      else
        some ⟨lines ++ ["", "Dry run. Re-run with --yes to actually delete."], [], none⟩

/-! ## The scan -/

/-- Rows that are clustered by their creation times. -/
abbrev ClusteredRows (rows : List Version) (groups : List (List Version)) : Prop :=
  Clustered Version.createdAt clusterWindowSeconds rows groups

theorem clusterWindow_nonneg : 0 ≤ clusterWindowSeconds := by decide

variable {groups : List (List Version)}

/-- One more row, not created before any of the others. -/
theorem place_clustered {rows : List Version} {v : Version} (h : ClusteredRows rows groups)
    (hsorted : (rows ++ [v]).Pairwise fun x y => x.createdAt ≤ y.createdAt) :
    ∃ groups', place groups v = some groups' ∧ ClusteredRows (rows ++ [v]) groups' := by
  obtain ⟨hrows, -, hle⟩ := List.pairwise_append.mp hsorted
  have hle' : ∀ z ∈ rows, z.createdAt ≤ v.createdAt := fun z hz => hle z hz v (by simp)
  unfold place
  rcases List.eq_nil_or_concat groups with rfl | ⟨before, group, rfl⟩
  · have hnone : rows = [] := h.flatten.symm
    subst hnone
    exact ⟨_, rfl, h.split fun z hz => absurd hz List.not_mem_nil⟩
  · rw [List.concat_eq_append] at h ⊢
    rw [List.getLast?_concat]
    rcases List.eq_nil_or_concat group with rfl | ⟨init, last, rfl⟩
    · exact absurd (List.mem_append_right before (List.mem_singleton_self [])) h.nonempty
    · rw [List.concat_eq_append] at h ⊢
      dsimp only
      rw [List.getLast?_concat, List.dropLast_concat]
      dsimp only [Option.bind_eq_bind, Option.bind_some]
      by_cases hnear : v.createdAt - last.createdAt ≤ clusterWindowSeconds
      · rw [if_pos hnear]
        exact ⟨_, rfl, h.join clusterWindow_nonneg (by simp) hnear hle'⟩
      · rw [if_neg hnear]
        refine ⟨_, rfl, h.split fun z hz => ?_⟩
        -- the last row is the newest one so far
        have hlast : z.createdAt ≤ last.createdAt := by
          rw [← h.flatten, List.flatten_append, List.flatten_singleton, ← List.append_assoc] at hz hrows
          rcases List.mem_append.mp hz with hbefore | hlast
          · exact (List.pairwise_append.mp hrows).2.2 z hbefore last (by simp)
          · rw [List.mem_singleton.mp hlast]
        omega

theorem foldlM_place_clustered {rows rest : List Version} (h : ClusteredRows rows groups)
    (hsorted : (rows ++ rest).Pairwise fun x y => x.createdAt ≤ y.createdAt) :
    ∃ groups', rest.foldlM place groups = some groups' ∧
      ClusteredRows (rows ++ rest) groups' := by
  induction rest generalizing rows groups with
  | nil =>
    rw [List.append_nil]
    exact ⟨groups, rfl, h⟩
  | cons v rest ih =>
    rw [List.append_cons] at hsorted ⊢
    obtain ⟨groups₁, hplace, h₁⟩ := place_clustered h (List.pairwise_append.mp hsorted).1
    rw [List.foldlM_cons, hplace]
    exact ih h₁ hsorted

theorem cluster_clustered (versions : List Version) :
    ∃ groups, cluster versions = some groups ∧ ClusteredRows (byCreation versions) groups := by
  have hsorted : (byCreation versions).Pairwise fun x y => x.createdAt ≤ y.createdAt :=
    List.pairwise_insertionSort _ versions
  exact foldlM_place_clustered clustered_nil hsorted

theorem byCreation_perm (versions : List Version) : (byCreation versions).Perm versions :=
  List.perm_insertionSort _ versions

/-! ## Components -/

section Components

open scoped Classical

/-- A chain of rows, each at most 60 seconds from the next. -/
def ChainConnected (versions : List Version) (v w : Version) : Prop :=
  Chained Version.createdAt clusterWindowSeconds versions v w

/-- The rows of the component of `v`. -/
noncomputable def component (versions : List Version) (v : Version) : List Version :=
  versions.filter fun w => ChainConnected versions v w

/-- No row that is connected to `v` is tagged. -/
def Orphaned (versions : List Version) (v : Version) : Prop :=
  ∀ w ∈ versions, ChainConnected versions v w → w.tags = []

noncomputable def orphanedRows (versions : List Version) : List Version :=
  versions.filter fun v => Orphaned versions v

variable {versions versions' : List Version} {groups : List (List Version)}

theorem chainConnected_byCreation {v w : Version} :
    Chained Version.createdAt clusterWindowSeconds (byCreation versions) v w ↔
      ChainConnected versions v w := chained_perm (byCreation_perm versions)

theorem perm_component (h : ClusteredRows (byCreation versions) groups) {g : List Version}
    {v : Version} (hg : g ∈ groups) (hv : v ∈ g) : g.Perm (component versions v) := by
  have hfilter := h.eq_filter clusterWindow_nonneg hg hv
    (fun w => ChainConnected versions v w)
    fun w _ => by rw [decide_eq_true_iff, chainConnected_byCreation]
  rw [hfilter]
  exact (byCreation_perm versions).filter _

theorem component_perm (hperm : versions'.Perm versions) (v : Version) :
    (component versions' v).Perm (component versions v) := by
  have hsame : component versions' v = versions'.filter fun w =>
      ChainConnected versions v w := by
    refine List.filter_congr fun w _ => decide_eq_decide.mpr ?_
    exact chained_perm hperm
  rw [hsame]
  exact hperm.filter _

/-- The groups for rows in another order. -/
theorem groups_perm {groups' : List (List Version)} (hperm : versions'.Perm versions)
    (h : ClusteredRows (byCreation versions) groups)
    (h' : ClusteredRows (byCreation versions') groups') :
    ∀ g ∈ groups, ∃ g' ∈ groups', g.Perm g' := by
  intro g hg
  obtain ⟨v, hv⟩ : ∃ v, v ∈ g := List.exists_mem_of_ne_nil g fun hnil => h.nonempty (hnil ▸ hg)
  have hmem : v ∈ byCreation versions' :=
    (byCreation_perm versions').mem_iff.mpr (hperm.mem_iff.mpr
      ((byCreation_perm versions).mem_iff.mp (h.mem_flatten.mpr ⟨g, hg, hv⟩)))
  obtain ⟨g', hg', hv'⟩ := h'.mem_flatten.mp hmem
  exact ⟨g', hg', (perm_component h hg hv).trans
    ((component_perm hperm v).symm.trans (perm_component h' hg' hv').symm)⟩

theorem perm_orphanedRows (h : ClusteredRows (byCreation versions) groups) :
    (orphanedClusters groups).flatten.Perm (orphanedRows versions) := by
  have hmem : ∀ w, w ∈ byCreation versions ↔ w ∈ versions :=
    fun w => (byCreation_perm versions).mem_iff
  have hfilter := h.flatten_filter (fun v => !v.tags.isEmpty)
    (fun v => Orphaned versions v) fun v _ => by
      rw [decide_eq_true_iff]
      simp only [Orphaned, chainConnected_byCreation, hmem, Bool.not_eq_false', List.isEmpty_iff]
  rw [orphanedClusters, hfilter]
  exact (byCreation_perm versions).filter _

/-! ## The deletions -/

theorem main_deleted (h : ClusteredRows (byCreation versions) groups)
    (hcluster : cluster versions = some groups) (yes : Bool) (date : Int → String) (now : Int)
    (succeeds : Nat → Bool) :
    ∃ report, main yes date now succeeds versions = some report ∧
      report.deleted.Perm (if yes then (orphanedRows versions).map Version.id else []) := by
  have htargets := (perm_orphanedRows h).map Version.id
  unfold main
  by_cases hempty : versions.isEmpty = true
  · rw [if_pos hempty]
    refine ⟨_, rfl, ?_⟩
    rw [orphanedRows, List.isEmpty_iff.mp hempty]
    cases yes <;> exact List.Perm.refl _
  rw [if_neg hempty, hcluster]
  dsimp only [Option.bind_eq_bind, Option.bind_some]
  by_cases hnone : (orphanedClusters groups).isEmpty = true
  · rw [if_pos hnone]
    refine ⟨_, rfl, ?_⟩
    rw [List.isEmpty_iff.mp hnone] at htargets
    cases yes with
    | false => exact List.Perm.refl _
    | true => exact htargets
  rw [if_neg hnone]
  cases yes with
  | false => exact ⟨_, rfl, List.Perm.refl _⟩
  | true =>
    rw [if_pos rfl]
    split
    · exact ⟨_, rfl, htargets⟩
    · exact ⟨_, rfl, htargets⟩

/-- `cluster` returns the components of the rows, in any order of the rows the same ones, and `main`
    asks to delete the rows of the components without a tagged row, or with a dry run nothing. -/
theorem prune_orphans_only (versions : List Version) :
    ∃ groups, cluster versions = some groups ∧ groups.flatten.Perm versions ∧ [] ∉ groups ∧
      (∀ g ∈ groups, ∀ v ∈ g, g.Perm (component versions v)) ∧
      (groups.Pairwise fun g k => ∀ v ∈ g, ∀ w ∈ k, ¬ChainConnected versions v w) ∧
      (∀ versions', versions'.Perm versions → ∃ groups', cluster versions' = some groups' ∧
        (∀ g ∈ groups, ∃ g' ∈ groups', g.Perm g') ∧ ∀ g' ∈ groups', ∃ g ∈ groups, g'.Perm g) ∧
      (orphanedClusters groups).flatten.Perm (orphanedRows versions) ∧
      ∀ yes date now succeeds, ∃ report, main yes date now succeeds versions = some report ∧
        report.deleted.Perm (if yes then (orphanedRows versions).map Version.id else []) := by
  obtain ⟨groups, hcluster, h⟩ := cluster_clustered versions
  refine ⟨groups, hcluster, ?_, h.nonempty, fun g hg v hv => perm_component h hg hv, ?_, ?_,
    perm_orphanedRows h, main_deleted h hcluster⟩
  · rw [h.flatten]
    exact byCreation_perm versions
  · refine (h.not_chained clusterWindow_nonneg).imp fun hsep v hv w hw hvw => ?_
    exact hsep v hv w hw (chainConnected_byCreation.mpr hvw)
  · intro versions' hperm
    obtain ⟨groups', hcluster', h'⟩ := cluster_clustered versions'
    exact ⟨groups', hcluster', groups_perm hperm h h', groups_perm hperm.symm h' h⟩

end Components

end DemosOsLinux.ImagePrune
