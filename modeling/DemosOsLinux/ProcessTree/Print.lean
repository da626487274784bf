/-
  A primitive pstree(1) (examples/multi_processing/pstree_simple.cc).

  `scan_proc` fills three maps, `print_tree` prints a process and then its children, and `main` prints
  the tree of every process whose parent was not scanned, in the order of the pids. `operator[]` adds
  keys to the maps while the trees are printed. The parsing of /proc/[pid]/stat is not modelled.
  * `printTree_spec`: below a rooted process, enough calls print `subtree`.
  * `subtree_spec`, `subtree_closed`, `subtree_nodup`: what is in a subtree.
  * `process_tree_printed`: `main` prints the rooted processes, each once and at its depth.
-/
import DemosOsLinux.Lib.OrderedMap
import DemosOsLinux.ProcessTree.Forest
import Mathlib.Logic.Function.Iterate

namespace DemosOsLinux.ProcessTree

open Lib

/-- A line of the output. -/
structure Line where
  depth : Nat
  name : String
  pid : Int

/-- `"%*s%s(%d)\n"` with a width of `depth*4`. -/
def Line.text (line : Line) : String :=
  String.ofList (List.replicate (4 * line.depth) ' ') ++ line.name ++ "(" ++ toString line.pid ++
    ")\n"

/-- The maps, and what was printed. -/
structure State where
  names : OrderedMap Int String
  parents : OrderedMap Int Int
  children : OrderedMap Int (List Int)
  output : List Line

/-- The assignments for one process in `scan_proc`. -/
def State.record (s : State) (r : Record) : State :=
  let kids := s.children.get r.ppid
  { s with
    names := s.names.insert r.pid r.name
    parents := s.parents.insert r.pid r.ppid
    children := kids.2.insert r.ppid (kids.1 ++ [r.pid]) }

def scanProc (records : List Record) : State :=
  records.foldl State.record ⟨OrderedMap.empty, OrderedMap.empty, OrderedMap.empty, []⟩

/-- `print_tree`, `none` if the depth of the calls does not suffice. -/
def printTree : Nat → Int → Nat → State → Option State
  | 0, _, _, _ => none
  | calls + 1, pid, depth, s =>
    let name := s.names.get pid
    let kids := s.children.get pid
    kids.1.foldlM (fun s kid => printTree calls kid (depth + 1) s)
      { s with
        names := name.2
        children := kids.2
        output := s.output ++ [⟨depth, name.1, pid⟩] }

/-- One turn of the loop in `main`. -/
def printRoot (calls : Nat) (s : State) (entry : Int × Int) : Option State :=
  if s.names.at? entry.2 = none then printTree calls entry.1 0 s else some s

def main (calls : Nat) (records : List Record) : Option (List Line) := do
  let s := scanProc records
  let s ← s.parents.entries.foldlM (printRoot calls) s
  some s.output

/-! ## The maps -/

variable {scan : Scan} {p : Int} {s : State} {d calls : Nat} {line : Line}

def Scan.kids (scan : Scan) (p : Int) : List Int :=
  (scan.records.filter (·.ppid = p)).map Record.pid

/-- The maps hold what was scanned. -/
structure Agrees (scan : Scan) (s : State) : Prop where
  names : ∀ p name, s.names.at? p = some name ↔ ∃ r ∈ scan.records, r.pid = p ∧ r.name = name
  children : ∀ p, (s.children.at? p).getD [] = scan.kids p

theorem foldl_record_names (records : List Record) (s : State) :
    (records.foldl State.record s).names =
      records.foldl (fun m r => m.insert r.pid r.name) s.names :=
  (List.foldl_hom State.names fun _ _ => rfl).symm

theorem foldl_record_parents (records : List Record) (s : State) :
    (records.foldl State.record s).parents =
      records.foldl (fun m r => m.insert r.pid r.ppid) s.parents :=
  (List.foldl_hom State.parents fun _ _ => rfl).symm

theorem foldl_record_output (records : List Record) (s : State) :
    (records.foldl State.record s).output = s.output := by
  have hsame : records.foldl (fun out _ => out) s.output =
      (records.foldl State.record s).output := List.foldl_hom State.output fun _ _ => rfl
  rw [← hsame, List.foldl_fixed]

theorem foldl_record_children (records : List Record) (s : State) (p : Int) :
    ((records.foldl State.record s).children.at? p).getD [] =
      (s.children.at? p).getD [] ++ (records.filter (·.ppid = p)).map Record.pid := by
  induction records generalizing s with
  | nil => simp
  | cons r records ih =>
    rw [List.foldl_cons, ih]
    have hget := s.children.getD_get r.ppid p
    simp only [State.record, OrderedMap.at?_insert]
    by_cases heq : p = r.ppid
    · subst heq
      rw [if_pos rfl, Option.getD_some, OrderedMap.get_fst, List.append_assoc,
        List.filter_cons_of_pos (by simp)]
      rfl
    · rw [if_neg heq, List.filter_cons_of_neg (by simpa using Ne.symm heq)]
      exact congrArg (· ++ _) hget

theorem scanProc_agrees (scan : Scan) : Agrees scan (scanProc scan.records) := by
  refine ⟨fun p name => ?_, fun p => ?_⟩
  · rw [scanProc, foldl_record_names]
    exact OrderedMap.at?_foldl_insert Record.pid Record.name scan.distinct p name
  · rw [scanProc, foldl_record_children]
    rfl

theorem mem_parents {q : Int} :
    (p, q) ∈ (scanProc scan.records).parents.entries ↔ scan.Parent p q := by
  rw [OrderedMap.mem_entries, scanProc, foldl_record_parents]
  exact OrderedMap.at?_foldl_insert Record.pid Record.ppid scan.distinct p q

theorem Agrees.none_iff (h : Agrees scan s) : s.names.at? p = none ↔ ¬scan.Scanned p := by
  constructor
  · rintro hnone ⟨r, hr, hpid⟩
    rw [(h.names p r.name).mpr ⟨r, hr, hpid, rfl⟩] at hnone
    exact absurd hnone (Option.some_ne_none _)
  · intro hnot
    refine Option.eq_none_iff_forall_not_mem.mpr fun name hname => ?_
    obtain ⟨r, hr, hpid, -⟩ := (h.names p name).mp hname
    exact hnot ⟨r, hr, hpid⟩

theorem mem_kids {q : Int} : q ∈ scan.kids p ↔ scan.Parent q p := by
  unfold Scan.kids Scan.Parent
  rw [List.mem_map]
  constructor
  · rintro ⟨r, hr, rfl⟩
    obtain ⟨hmem, hppid⟩ := List.mem_filter.mp hr
    exact ⟨r, hmem, rfl, of_decide_eq_true hppid⟩
  · rintro ⟨r, hr, rfl, hppid⟩
    exact ⟨r, List.mem_filter.mpr ⟨hr, decide_eq_true hppid⟩, rfl⟩

theorem kids_nodup (p : Int) : (scan.kids p).Nodup :=
  scan.distinct.sublist (List.filter_sublist.map Record.pid)

theorem Rooted.kid {q : Int} (h : Rooted scan p d) (hq : q ∈ scan.kids p) :
    Rooted scan q (d + 1) := by
  obtain ⟨r, hr, rfl, rfl⟩ := mem_kids.mp hq
  exact Rooted.child hr h

/-! ## What is printed below a process -/

def Scan.name (scan : Scan) (p : Int) : String :=
  ((scan.records.find? (·.pid = p)).map Record.name).getD ""

def Scan.parent (scan : Scan) (p : Int) : Int :=
  ((scan.records.find? (·.pid = p)).map Record.ppid).getD 0

theorem find?_pid {r : Record} (hr : r ∈ scan.records) :
    scan.records.find? (·.pid = r.pid) = some r := by
  cases hfind : scan.records.find? (·.pid = r.pid) with
  | none => exact absurd (decide_eq_true rfl) (List.find?_eq_none.mp hfind r hr)
  | some r' =>
    have hpid : r'.pid = r.pid := by simpa using List.find?_some hfind
    rw [scan.eq_of_pid (List.mem_of_find?_eq_some hfind) hr hpid]

theorem name_eq {r : Record} (hr : r ∈ scan.records) : scan.name r.pid = r.name := by
  rw [Scan.name, find?_pid hr]
  rfl

theorem parent_eq {q : Int} (h : scan.Parent p q) : scan.parent p = q := by
  obtain ⟨r, hr, rfl, rfl⟩ := h
  rw [Scan.parent, find?_pid hr]
  rfl

/-- The lines for a process at depth `d` and those below it, for so many levels. -/
def subtree (scan : Scan) : Nat → Int → Nat → List Line
  | 0, _, _ => []
  | calls + 1, p, d =>
    ⟨d, scan.name p, p⟩ :: (scan.kids p).flatMap fun kid => subtree scan calls kid (d + 1)

/-- A loop whose turns print `lines`. -/
theorem foldlM_output {γ : Type} {step : State → γ → Option State} {lines : γ → List Line}
    {xs : List γ} (hstep : ∀ x ∈ xs, ∀ s, Agrees scan s →
      ∃ s', step s x = some s' ∧ Agrees scan s' ∧ s'.output = s.output ++ lines x)
    (hs : Agrees scan s) :
    ∃ s', xs.foldlM step s = some s' ∧ Agrees scan s' ∧
      s'.output = s.output ++ xs.flatMap lines := by
  induction xs generalizing s with
  | nil => exact ⟨s, rfl, hs, by simp⟩
  | cons x xs ih =>
    obtain ⟨s₁, hs₁, hagrees, hout⟩ := hstep x List.mem_cons_self s hs
    obtain ⟨s₂, hs₂, hagrees', hout'⟩ := ih (fun y hy => hstep y (List.mem_cons_of_mem x hy)) hagrees
    refine ⟨s₂, by rw [List.foldlM_cons, hs₁]; exact hs₂, hagrees', ?_⟩
    rw [hout', hout, List.flatMap_cons, List.append_assoc]

theorem printTree_spec (hs : Agrees scan s) (hp : Rooted scan p d)
    (hcalls : scan.records.length ≤ d + calls) :
    ∃ s', printTree calls p d s = some s' ∧ Agrees scan s' ∧
      s'.output = s.output ++ subtree scan calls p d := by
  induction calls generalizing d p s with
  | zero => exact absurd hp.lt_length (by omega)
  | succ calls ih =>
    obtain ⟨r, hr, rfl⟩ := hp.scanned
    have hname := s.names.get_of_some ((hs.names r.pid r.name).mpr ⟨r, hr, rfl, rfl⟩)
    have hkids : (s.children.get r.pid).1 = scan.kids r.pid :=
      (s.children.get_fst r.pid).trans (hs.children r.pid)
    unfold printTree
    dsimp only
    rw [hname, hkids]
    have hagrees : Agrees scan { s with
        children := (s.children.get r.pid).2
        output := s.output ++ [⟨d, r.name, r.pid⟩] } :=
      ⟨hs.names, fun q => (s.children.getD_get r.pid q).trans (hs.children q)⟩
    have hkid : ∀ kid ∈ scan.kids r.pid, ∀ s, Agrees scan s →
        ∃ s', printTree calls kid (d + 1) s = some s' ∧ Agrees scan s' ∧
          s'.output = s.output ++ subtree scan calls kid (d + 1) :=
      fun kid hkid s hs => ih hs (hp.kid hkid) (by omega)
    obtain ⟨s', hs', hagrees', hout⟩ := foldlM_output hkid hagrees
    refine ⟨s', hs', hagrees', ?_⟩
    rw [hout, subtree, name_eq hr, List.append_assoc, List.singleton_append]

/-- A line of a subtree is about a rooted process at its depth, with the subtree's process above
    it. -/
theorem subtree_spec (hp : Rooted scan p d) (hline : line ∈ subtree scan calls p d) :
    Rooted scan line.pid line.depth ∧ line.name = scan.name line.pid ∧ d ≤ line.depth ∧
      scan.parent^[line.depth - d] line.pid = p := by
  induction calls generalizing d p with
  | zero => exact absurd hline List.not_mem_nil
  | succ calls ih =>
    rcases List.mem_cons.mp hline with rfl | hbelow
    · refine ⟨hp, rfl, Nat.le_refl d, ?_⟩
      dsimp only
      rw [Nat.sub_self]
      rfl
    · obtain ⟨kid, hkid, hin⟩ := List.mem_flatMap.mp hbelow
      obtain ⟨hrooted, hname, hle, hup⟩ := ih (hp.kid hkid) hin
      refine ⟨hrooted, hname, by omega, ?_⟩
      rw [show line.depth - d = line.depth - (d + 1) + 1 by omega, Function.iterate_succ_apply',
        hup, parent_eq (mem_kids.mp hkid)]

theorem mem_subtree_self (hp : Rooted scan p d) (hcalls : scan.records.length ≤ d + calls) :
    ⟨d, scan.name p, p⟩ ∈ subtree scan calls p d := by
  cases calls with
  | zero => exact absurd hp.lt_length (by omega)
  | succ calls => exact List.mem_cons_self

/-- With a process a subtree has its children. -/
theorem subtree_closed {q : Int} (hp : Rooted scan p d) (hcalls : scan.records.length ≤ d + calls)
    (hline : line ∈ subtree scan calls p d) (hq : q ∈ scan.kids line.pid) :
    ⟨line.depth + 1, scan.name q, q⟩ ∈ subtree scan calls p d := by
  induction calls generalizing d p with
  | zero => exact absurd hline List.not_mem_nil
  | succ calls ih =>
    rcases List.mem_cons.mp hline with rfl | hbelow
    · have hkid := mem_subtree_self (hp.kid hq) (show scan.records.length ≤ d + 1 + calls by omega)
      exact List.mem_cons_of_mem _ (List.mem_flatMap.mpr ⟨q, hq, hkid⟩)
    · obtain ⟨kid, hkid, hin⟩ := List.mem_flatMap.mp hbelow
      exact List.mem_cons_of_mem _ (List.mem_flatMap.mpr
        ⟨kid, hkid, ih (hp.kid hkid) (by omega) hin⟩)

/-- The subtrees of different processes at one depth have no process in common. -/
theorem flatMap_subtree_nodup {ps : List Int} (hps : ps.Nodup) (hrooted : ∀ p ∈ ps, Rooted scan p d)
    (heach : ∀ p ∈ ps, ((subtree scan calls p d).map Line.pid).Nodup) :
    ((ps.flatMap fun p => subtree scan calls p d).map Line.pid).Nodup := by
  rw [List.map_flatMap, List.nodup_flatMap]
  refine ⟨heach, hps.imp_of_mem fun {p q} hp hq hne => ?_⟩
  intro pid hpid hpid'
  obtain ⟨line, hline, rfl⟩ := List.mem_map.mp hpid
  obtain ⟨line', hline', hsame⟩ := List.mem_map.mp hpid'
  obtain ⟨hr, -, -, hup⟩ := subtree_spec (hrooted p hp) hline
  obtain ⟨hr', -, -, hup'⟩ := subtree_spec (hrooted q hq) hline'
  rw [hsame] at hr' hup'
  rw [hr.unique hr'] at hup
  exact hne (hup.symm.trans hup')

theorem subtree_nodup (hp : Rooted scan p d) : ((subtree scan calls p d).map Line.pid).Nodup := by
  induction calls generalizing d p with
  | zero => exact List.nodup_nil
  | succ calls ih =>
    rw [subtree, List.map_cons, List.nodup_cons]
    refine ⟨fun hmem => ?_, flatMap_subtree_nodup (kids_nodup p) (fun kid hkid => hp.kid hkid)
      fun kid hkid => ih (hp.kid hkid)⟩
    obtain ⟨line, hline, hpid⟩ := List.mem_map.mp hmem
    obtain ⟨kid, hkid, hin⟩ := List.mem_flatMap.mp hline
    obtain ⟨hrooted, -, hle, -⟩ := subtree_spec (hp.kid hkid) hin
    rw [hpid] at hrooted
    have heq := hp.unique hrooted
    omega

/-! ## The whole output -/

/-- The processes that `main` prints at depth 0, in its order. -/
def Scan.roots (scan : Scan) : List Int :=
  ((scanProc scan.records).parents.entries.filter
    fun entry => (scanProc scan.records).names.at? entry.2 = none).map Prod.fst

theorem mem_roots : p ∈ scan.roots ↔ Rooted scan p 0 := by
  unfold Scan.roots
  rw [List.mem_map]
  constructor
  · rintro ⟨⟨p, q⟩, hentry, rfl⟩
    obtain ⟨hmem, hnone⟩ := List.mem_filter.mp hentry
    obtain ⟨r, hr, rfl, rfl⟩ := mem_parents.mp hmem
    exact Rooted.root hr ((scanProc_agrees scan).none_iff.mp (of_decide_eq_true hnone))
  · intro hp
    cases hp with
    | @root r hr hroot =>
      refine ⟨(r.pid, r.ppid), List.mem_filter.mpr ⟨mem_parents.mpr ⟨r, hr, rfl, rfl⟩, ?_⟩, rfl⟩
      exact decide_eq_true ((scanProc_agrees scan).none_iff.mpr hroot)

theorem roots_nodup : scan.roots.Nodup :=
  (scanProc scan.records).parents.keys_nodup.sublist (List.filter_sublist.map Prod.fst)

/-- The whole output. -/
def forest (scan : Scan) (calls : Nat) : List Line :=
  scan.roots.flatMap fun p => subtree scan calls p 0

/-- What `main` prints for an entry of `parents`. -/
def rootLines (scan : Scan) (calls : Nat) (entry : Int × Int) : List Line :=
  if (scanProc scan.records).names.at? entry.2 = none then subtree scan calls entry.1 0 else []

theorem printRoot_spec (hcalls : scan.records.length ≤ calls) {entry : Int × Int}
    (hentry : entry ∈ (scanProc scan.records).parents.entries) {s : State} (hs : Agrees scan s) :
    ∃ s', printRoot calls s entry = some s' ∧ Agrees scan s' ∧
      s'.output = s.output ++ rootLines scan calls entry := by
  obtain ⟨p, q⟩ := entry
  have hagrees := scanProc_agrees scan
  unfold printRoot rootLines
  by_cases hparent : scan.Scanned q
  · have hsome : ∀ s, Agrees scan s → ¬s.names.at? q = none := fun s hs hnone =>
      hs.none_iff.mp hnone hparent
    rw [if_neg (hsome s hs), if_neg (hsome _ hagrees)]
    exact ⟨s, rfl, hs, (List.append_nil _).symm⟩
  · rw [if_pos (hs.none_iff.mpr hparent), if_pos (hagrees.none_iff.mpr hparent)]
    obtain ⟨r, hr, rfl, rfl⟩ := mem_parents.mp hentry
    exact printTree_spec hs (Rooted.root hr hparent) (by omega)

theorem flatMap_rootLines (calls : Nat) :
    (scanProc scan.records).parents.entries.flatMap (rootLines scan calls) = forest scan calls := by
  unfold forest Scan.roots
  rw [List.flatMap_map]
  induction (scanProc scan.records).parents.entries with
  | nil => rfl
  | cons entry entries ih =>
    rw [List.flatMap_cons, ih, List.filter_cons, rootLines]
    by_cases hnone : (scanProc scan.records).names.at? entry.2 = none
    · rw [if_pos hnone, if_pos (decide_eq_true hnone), List.flatMap_cons]
    · rw [if_neg hnone, if_neg (by simpa using hnone), List.nil_append]

theorem main_eq (hcalls : scan.records.length ≤ calls) :
    main calls scan.records = some (forest scan calls) := by
  obtain ⟨s, hs, -, hout⟩ := foldlM_output (fun _ hentry _ hs => printRoot_spec hcalls hentry hs)
    (scanProc_agrees scan)
  have hstart : (scanProc scan.records).output = [] := foldl_record_output _ _
  rw [hstart, List.nil_append, flatMap_rootLines] at hout
  unfold main
  dsimp only
  rw [hs, ← hout]
  rfl

theorem forest_nodup (calls : Nat) : ((forest scan calls).map Line.pid).Nodup :=
  flatMap_subtree_nodup roots_nodup (fun _ hp => mem_roots.mp hp)
    fun _ hp => subtree_nodup (mem_roots.mp hp)

theorem forest_sound (hline : line ∈ forest scan calls) :
    Rooted scan line.pid line.depth ∧ line.name = scan.name line.pid := by
  obtain ⟨p, hp, hin⟩ := List.mem_flatMap.mp hline
  obtain ⟨hrooted, hname, -⟩ := subtree_spec (mem_roots.mp hp) hin
  exact ⟨hrooted, hname⟩

theorem forest_complete (hcalls : scan.records.length ≤ calls) (hp : Rooted scan p d) :
    ⟨d, scan.name p, p⟩ ∈ forest scan calls := by
  induction hp with
  | @root r hr hroot =>
    have hrooted := Rooted.root hr hroot
    exact List.mem_flatMap.mpr ⟨r.pid, mem_roots.mpr hrooted, mem_subtree_self hrooted (by omega)⟩
  | @child r d hr _ ih =>
    obtain ⟨root, hroot, hin⟩ := List.mem_flatMap.mp ih
    have hkid : r.pid ∈ scan.kids r.ppid := mem_kids.mpr ⟨r, hr, rfl, rfl⟩
    exact List.mem_flatMap.mpr
      ⟨root, hroot, subtree_closed (mem_roots.mp hroot) (by omega) hin hkid⟩

/-- `main` returns; it prints no pid twice, and prints the processes whose parents lead to one that
    was not scanned, each with its name and at the depth given by its scanned ancestors. All are
    printed if and only if the parents have no cycle. -/
theorem process_tree_printed (scan : Scan) (calls : Nat) (hcalls : scan.records.length ≤ calls) :
    ∃ lines, main calls scan.records = some lines ∧ (lines.map Line.pid).Nodup ∧
      (∀ p d, (∃ line ∈ lines, line.pid = p ∧ line.depth = d) ↔ Rooted scan p d) ∧
      (∀ line ∈ lines, ∃ r ∈ scan.records, r.pid = line.pid ∧ r.name = line.name) ∧
      ((∀ r ∈ scan.records, (lines.map Line.pid).count r.pid = 1) ↔
        ∀ p, ¬Relation.TransGen scan.Parent p p) := by
  have hnodup : ((forest scan calls).map Line.pid).Nodup := forest_nodup calls
  have hmem : ∀ p d, (∃ line ∈ forest scan calls, line.pid = p ∧ line.depth = d) ↔
      Rooted scan p d := by
    intro p d
    constructor
    · rintro ⟨line, hline, rfl, rfl⟩
      exact (forest_sound hline).1
    · exact fun hp => ⟨_, forest_complete hcalls hp, rfl, rfl⟩
  refine ⟨forest scan calls, main_eq hcalls, hnodup, hmem, ?_, ?_⟩
  · intro line hline
    obtain ⟨hrooted, hname⟩ := forest_sound hline
    obtain ⟨r, hr, hpid⟩ := hrooted.scanned
    exact ⟨r, hr, hpid, by rw [hname, ← hpid, name_eq hr]⟩
  · rw [← forall_rooted_iff]
    refine forall₂_congr fun r _ => ?_
    constructor
    · intro hcount
      have hin : r.pid ∈ (forest scan calls).map Line.pid := List.count_pos_iff.mp (by omega)
      obtain ⟨line, hline, hpid⟩ := List.mem_map.mp hin
      exact ⟨line.depth, (hmem _ _).mp ⟨line, hline, hpid, rfl⟩⟩
    · rintro ⟨d, hd⟩
      have hin := forest_complete hcalls hd
      exact List.count_eq_one_of_mem hnodup (List.mem_map.mpr ⟨_, hin, rfl⟩)

/-- A process below init, and two that are recorded as each other's parents. -/
theorem process_tree_printed_four :
    [(⟨1, 0, "init"⟩ : Record), ⟨7, 8, "a"⟩, ⟨5, 1, "sh"⟩, ⟨8, 7, "b"⟩].length ≤ 4 ∧
      ∃ lines, main 4 [⟨1, 0, "init"⟩, ⟨7, 8, "a"⟩, ⟨5, 1, "sh"⟩, ⟨8, 7, "b"⟩] = some lines ∧
        (lines.map Line.pid).Nodup := by
  refine ⟨by decide, ?_⟩
  obtain ⟨lines, hlines, hnodup, -⟩ := process_tree_printed
    ⟨[⟨1, 0, "init"⟩, ⟨7, 8, "a"⟩, ⟨5, 1, "sh"⟩, ⟨8, 7, "b"⟩], by decide⟩ 4 (by decide)
  exact ⟨lines, hlines, hnodup⟩

end DemosOsLinux.ProcessTree
