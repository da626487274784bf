/-
  The children of one process.

  The table lists all children ever forked; the pid of a child is its position, counted from 1, so
  pids are not used again. A child is live, then terminated and not waited for (a zombie), then
  reaped.
  * `fork`, `die`, `present` (what kill(2) asks), `wait3`, `waitpid` with `WNOHANG`.
  * `reapLoop`: call `wait3` until it returns no child.
  * `wait3_child`, `proc_fork`, `proc_die`: what a call or a child's end does to the other children.
  * `Settled`: all children are reaped. `die_last`, `wait3_last`, `waitpid_last`: a settled table
    and one more child.
-/
import Mathlib.Data.List.Basic

namespace DemosOsLinux.Lib

/-- How a child terminated. -/
inductive Cause where
  | exited
  | signaled
  deriving DecidableEq

inductive Proc where
  | live
  | zombie (c : Cause)
  | reaped (c : Cause)
  deriving DecidableEq

namespace Proc

def isLive : Proc → Bool
  | .live => true
  | _ => false

def isZombie : Proc → Bool
  | .zombie _ => true
  | _ => false

def reap : Proc → Proc
  | .zombie c => .reaped c
  | p => p

end Proc

/-- The child with this pid. -/
def proc (t : List Proc) (pid : Int) : Option Proc := if 0 < pid then t[(pid - 1).toNat]? else none

/-- fork(2): the new table and the child's pid. -/
def fork (t : List Proc) : List Proc × Int := (t ++ [.live], t.length + 1)

/-- The pid names a child that has not been reaped; otherwise kill(2) fails with `ESRCH`. -/
def present (t : List Proc) (pid : Int) : Bool :=
  match proc t pid with
  | some .live | some (.zombie _) => true
  | _ => false

/-- A live child terminates. -/
def die (t : List Proc) (pid : Int) (c : Cause) : Option (List Proc) :=
  if proc t pid = some .live then some (t.set (pid - 1).toNat (.zombie c)) else none

/-- What a wait with `WNOHANG` returns: a terminated child, 0, or -1 with `ECHILD`. -/
inductive Wait where
  | child (pid : Int) (c : Cause) (t : List Proc)
  | none
  | echild

/-- Reap the first zombie: its position, how it terminated, the table after it. -/
def takeZombie : List Proc → Option (Nat × Cause × List Proc)
  | [] => none
  | .zombie c :: t => some (0, c, .reaped c :: t)
  | p :: t => (takeZombie t).map fun r => (r.1 + 1, r.2.1, p :: r.2.2)

/-- Wait for any child. -/
def wait3 (t : List Proc) : Wait :=
  match takeZombie t with
  | some (i, c, t') => .child (i + 1) c t'
  | none => if t.any Proc.isLive then .none else .echild

/-- Wait for the child `pid`; 0 and -1 stand for any child. -/
def waitpid (t : List Proc) (pid : Int) : Wait :=
  if pid = 0 ∨ pid = -1 then wait3 t
  else
    match proc t pid with
    | some (.zombie c) => .child pid c (t.set (pid - 1).toNat (.reaped c))
    | some .live => .none
    | _ => .echild

/-- Call `wait3` until it returns no child; `none` if it fails. -/
def reapLoop : Nat → List Proc → Option (List Proc)
  | 0, _ => none
  | fuel + 1, t =>
      match wait3 t with
      | .child _ _ t' => reapLoop fuel t'
      | .none => some t
      | .echild => none

/-! ## Reaping -/

variable {t t' : List Proc} {c : Cause} {pid : Int}

/-- Only a zombie changes. -/
theorem takeZombie_eq_some {i : Nat} (h : takeZombie t = some (i, c, t')) :
    t'.map Proc.reap = t.map Proc.reap ∧ t'.any Proc.isLive = t.any Proc.isLive := by
  induction t generalizing i t' with
  | nil => cases h
  | cons p t ih =>
    cases p with
    | zombie c' =>
      cases h
      exact ⟨rfl, rfl⟩
    | _ =>
      obtain ⟨⟨j, c', t''⟩, hr, he⟩ := Option.map_eq_some_iff.mp h
      cases he
      obtain ⟨hmap, hlive⟩ := ih hr
      exact ⟨by rw [List.map_cons, List.map_cons, hmap], by rw [List.any_cons, List.any_cons, hlive]⟩

theorem wait3_child (h : wait3 t = .child pid c t') :
    t'.map Proc.reap = t.map Proc.reap ∧ t'.any Proc.isLive = t.any Proc.isLive := by
  unfold wait3 at h
  split at h
  · next hz =>
    cases h
    exact takeZombie_eq_some hz
  · split at h <;> cases h

theorem wait3_echild (h : wait3 t = .echild) : t.any Proc.isLive = false := by
  unfold wait3 at h
  split at h
  · cases h
  · split at h
    · cases h
    · next hlive => exact Bool.eq_false_iff.mpr hlive

/-! ## Forking -/

theorem pred_toNat (n : Nat) : ((n : Int) + 1 - 1).toNat = n := by omega

theorem proc_last (t : List Proc) (p : Proc) : proc (t ++ [p]) (t.length + 1) = some p := by
  have hpos : (0 : Int) < t.length + 1 := by omega
  rw [proc, if_pos hpos, pred_toNat]
  exact List.getElem?_concat_length

theorem proc_fork_new (t : List Proc) : proc (fork t).1 (fork t).2 = some .live :=
  proc_last t .live

/-- A child that is there stays as it is when another one is forked. -/
theorem proc_fork {p : Proc} (h : proc t pid = some p) : proc (fork t).1 pid = some p := by
  unfold proc at h ⊢
  split at h
  · rw [if_pos (by assumption), fork]
    exact List.getElem?_append_left (List.getElem?_eq_some_iff.mp h).1 ▸ h
  · cases h

theorem proc_map_reap (t : List Proc) (pid : Int) :
    proc (t.map Proc.reap) pid = (proc t pid).map Proc.reap := by
  unfold proc
  split
  · exact List.getElem?_map
  · rfl

/-- Reaping zombies leaves a live child as it is. -/
theorem proc_live_of_map_reap (h : t'.map Proc.reap = t.map Proc.reap)
    (hp : proc t pid = some .live) : proc t' pid = some .live := by
  have hreap := proc_map_reap t' pid
  rw [h, proc_map_reap, hp] at hreap
  obtain ⟨p, hp', he⟩ := Option.map_eq_some_iff.mp hreap.symm
  cases p with
  | live => exact hp'
  | _ => cases he

theorem present_of_proc_live (h : proc t pid = some .live) : present t pid = true := by
  rw [present, h]

theorem proc_of_present (h : present t pid = true) : ∃ p, proc t pid = some p := by
  unfold present at h
  cases hp : proc t pid with
  | none =>
    rw [hp] at h
    cases h
  | some p => exact ⟨p, rfl⟩

theorem present_fork (h : present t pid = true) : present (fork t).1 pid = true := by
  obtain ⟨p, hp⟩ := proc_of_present h
  rw [present, proc_fork hp, ← hp]
  exact h

theorem present_fork_new (t : List Proc) : present (fork t).1 (fork t).2 = true :=
  present_of_proc_live (proc_fork_new t)

theorem pos_of_present (h : present t pid = true) : 0 < pid := by
  obtain ⟨p, hp⟩ := proc_of_present h
  unfold proc at hp
  split at hp
  · assumption
  · cases hp

theorem any_isLive_fork (t : List Proc) : (fork t).1.any Proc.isLive = true := by
  simp [fork, Proc.isLive]

section Die

variable {t t' : List Proc} {pid p : Int} {c : Cause}

/-- A child's end is seen at its pid only. -/
theorem proc_die (h : die t pid c = some t') :
    proc t' p = if p = pid then some (.zombie c) else proc t p := by
  unfold die at h
  split at h
  · next hlive =>
    obtain rfl := Option.some.inj h
    unfold proc at hlive ⊢
    split at hlive
    · next hpos =>
      obtain ⟨hlt, -⟩ := List.getElem?_eq_some_iff.mp hlive
      by_cases hp : p = pid
      · rw [hp, if_pos hpos, if_pos rfl, List.getElem?_set_self hlt]
      · rw [if_neg hp]
        split
        · exact List.getElem?_set_ne (by omega)
        · rfl
    · cases hlive
  · cases h

theorem present_die (h : die t pid c = some t') (hp : present t p = true) : present t' p = true := by
  unfold present at hp ⊢
  rw [proc_die h]
  by_cases hpid : p = pid
  · rw [if_pos hpid]
  · rw [if_neg hpid]
    exact hp

/-- A child terminates, and another one is live. -/
theorem any_isLive_die (h : die t pid c = some t') (htwo : 1 < t.countP Proc.isLive) :
    t'.any Proc.isLive = true := by
  unfold die at h
  split at h
  · next hlive =>
    obtain rfl := Option.some.inj h
    unfold proc at hlive
    split at hlive
    · obtain ⟨hlt, hget⟩ := List.getElem?_eq_some_iff.mp hlive
      have hpos : 0 < (t.set (pid - 1).toNat (.zombie c)).countP Proc.isLive := by
        rw [List.countP_set hlt, hget, if_pos (show Proc.live.isLive = true from rfl)]
        omega
      exact List.any_eq_true.mpr (List.countP_pos_iff.mp hpos)
    · cases hlive
  · cases h

end Die

/-! ## One child at a time -/

/-- All children are reaped. -/
def Settled (t : List Proc) : Prop := ∀ p ∈ t, ∃ c, p = .reaped c

theorem settled_append (ht : Settled t) (c : Cause) : Settled (t ++ [.reaped c]) := by
  exact List.forall_mem_append.mpr ⟨ht, List.forall_mem_singleton.mpr ⟨c, rfl⟩⟩

theorem any_isLive_settled (ht : Settled t) : t.any Proc.isLive = false := by
  rw [List.any_eq_false]
  intro p hp
  obtain ⟨c, rfl⟩ := ht p hp
  exact Bool.false_ne_true

theorem die_settled (ht : Settled t) (pid : Int) (c : Cause) : die t pid c = none := by
  unfold die
  split
  · rename_i hp
    unfold proc at hp
    split at hp
    · obtain ⟨c', h⟩ := ht _ (List.mem_of_getElem? hp)
      cases h
    · cases hp
  · rfl

theorem set_last (t : List Proc) (p q : Proc) : (t ++ [p]).set t.length q = t ++ [q] := by
  rw [List.set_append_right t.length q (Nat.le_refl _), Nat.sub_self]
  rfl

/-- Only the last child can terminate. -/
theorem die_last {p : Proc} (ht : Settled t) (h : die (t ++ [p]) pid c = some t') :
    p = .live ∧ t' = t ++ [.zombie c] := by
  unfold die at h
  split at h
  · rename_i hp
    obtain rfl := Option.some.inj h
    unfold proc at hp
    split at hp
    · by_cases hlt : (pid - 1).toNat < t.length
      · rw [List.getElem?_append_left hlt] at hp
        obtain ⟨c', hc⟩ := ht _ (List.mem_of_getElem? hp)
        cases hc
      · have hlen := (List.getElem?_eq_some_iff.mp hp).1
        rw [List.length_append, List.length_singleton] at hlen
        have hidx : (pid - 1).toNat = t.length := by omega
        rw [hidx, List.getElem?_concat_length] at hp
        rw [hidx, set_last]
        exact ⟨Option.some.inj hp, rfl⟩
    · cases hp
  · cases h

theorem takeZombie_last (ht : Settled t) (c : Cause) :
    takeZombie (t ++ [.zombie c]) = some (t.length, c, t ++ [.reaped c]) := by
  induction t with
  | nil => rfl
  | cons p t ih =>
    obtain ⟨c', rfl⟩ := ht p List.mem_cons_self
    have hrest := ih fun q hq => ht q (List.mem_cons_of_mem _ hq)
    change (takeZombie (t ++ [.zombie c])).map _ = _
    rw [hrest]
    rfl

theorem wait3_last (ht : Settled t) (c : Cause) :
    wait3 (t ++ [.zombie c]) = .child (t.length + 1) c (t ++ [.reaped c]) := by
  rw [wait3, takeZombie_last ht]

theorem waitpid_last (t : List Proc) (c : Cause) :
    waitpid (t ++ [.zombie c]) (t.length + 1) =
      .child (t.length + 1) c (t ++ [.reaped c]) := by
  rw [waitpid, if_neg (by omega), proc_last, pred_toNat]
  simp only [set_last]

end DemosOsLinux.Lib
