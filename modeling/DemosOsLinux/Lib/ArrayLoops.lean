/-
  Counted loops over arrays.

  An array is a list; `store` fails outside of it, and so does a load (`xs[i]?`). The body of a loop
  fails if one of its accesses does. `forLoop lo hi step` is `for (x = lo; x < hi; x += step)`.
  * `forLoop_of_lt`, `forLoop_of_le`: one turn, and the end.
  * `forLoop_spec`: the rule for loops. The invariant at `x` speaks of what is done before `x`; the
    last turn may reach beyond `hi`.
  * `forLoop_spec_dvd`: the same, for bodies that need an aligned loop variable.
  * `forLoop_fill`: the loop that stores one value everywhere.
-/
import Mathlib.Algebra.Ring.Nat
import Mathlib.Data.List.Basic

namespace DemosOsLinux.Lib

variable {α σ : Type}

def store (xs : List α) (i : Nat) (v : α) : Option (List α) :=
  if i < xs.length then some (xs.set i v) else none

theorem store_of_lt {xs : List α} {i : Nat} (h : i < xs.length) (v : α) :
    store xs i v = some (xs.set i v) := if_pos h

/-- `n` turns, the first one at `x`. -/
def forTurns (step : Nat) (body : Nat → σ → Option σ) : Nat → Nat → σ → Option σ
  | 0, _, s => some s
  | n + 1, x, s => (body x s).bind (forTurns step body n (x + step))

def forLoop (lo hi step : Nat) (body : Nat → σ → Option σ) (s : σ) : Option σ :=
  forTurns step body ((hi - lo + (step - 1)) / step) lo s

section Loop

variable {lo hi step : Nat} {body : Nat → σ → Option σ} {s : σ}

theorem forLoop_of_lt (hstep : 0 < step) (h : lo < hi) :
    forLoop lo hi step body s = (body lo s).bind (forLoop (lo + step) hi step body) := by
  have hturns : (hi - lo + (step - 1)) / step = (hi - (lo + step) + (step - 1)) / step + 1 := by
    rcases Nat.le_total (lo + step) hi with hle | hle
    · rw [← Nat.add_div_right _ hstep]
      congr 1
      omega
    · rw [Nat.sub_eq_zero_of_le hle, Nat.zero_add, Nat.div_eq_of_lt (by omega : step - 1 < step)]
      rw [Nat.div_eq_of_lt_le (k := 1)] <;> omega
  rw [forLoop, hturns]
  rfl

theorem forLoop_of_le (hstep : 0 < step) (h : hi ≤ lo) : forLoop lo hi step body s = some s := by
  have hturns : (hi - lo + (step - 1)) / step = 0 := Nat.div_eq_of_lt (by omega)
  rw [forLoop, hturns]
  rfl

theorem forLoop_spec (hstep : 0 < step) (I : Nat → σ → Prop) (hlo : lo ≤ hi) (hstart : I lo s)
    (hbody : ∀ x s, lo ≤ x → x < hi → I x s →
      ∃ s', body x s = some s' ∧ I (min (x + step) hi) s') :
    ∃ s', forLoop lo hi step body s = some s' ∧ I hi s' := by
  -- induction on what is left of the range
  induction hn : hi - lo using Nat.strongRecOn generalizing lo s with
  | ind n ih =>
    rcases Nat.lt_or_ge lo hi with hlt | hge
    · obtain ⟨s₁, hs₁, hI⟩ := hbody lo s (Nat.le_refl lo) hlt hstart
      rw [forLoop_of_lt hstep hlt, hs₁, Option.bind_some]
      rcases Nat.le_total (lo + step) hi with hle | hle
      · rw [Nat.min_eq_left hle] at hI
        exact ih (hi - (lo + step)) (by omega) hle hI
          (fun x s hx => hbody x s (by omega)) rfl
      · rw [Nat.min_eq_right hle] at hI
        exact ⟨s₁, forLoop_of_le hstep hle, hI⟩
    · obtain rfl := Nat.le_antisymm hlo hge
      exact ⟨s, forLoop_of_le hstep (Nat.le_refl _), hstart⟩

/-- The same, with the loop variable known to be a whole number of steps from the start. -/
theorem forLoop_spec_dvd (hstep : 0 < step) (I : Nat → σ → Prop) (hlo : lo ≤ hi) (hstart : I lo s)
    (hbody : ∀ x s, lo ≤ x → x < hi → step ∣ x - lo → I x s →
      ∃ s', body x s = some s' ∧ I (min (x + step) hi) s') :
    ∃ s', forLoop lo hi step body s = some s' ∧ I hi s' := by
  have hfirst : lo < hi → step ∣ lo - lo := fun _ => by rw [Nat.sub_self]; exact Nat.dvd_zero step
  obtain ⟨s', hs', -, hI⟩ := forLoop_spec hstep (fun x s => (x < hi → step ∣ x - lo) ∧ I x s) hlo
    ⟨hfirst, hstart⟩ fun x s hx hlt ⟨hdvd, hI⟩ => by
      obtain ⟨s', hs', hI'⟩ := hbody x s hx hlt (hdvd hlt) hI
      refine ⟨s', hs', fun hnext => ?_, hI'⟩
      rw [show min (x + step) hi - lo = x - lo + step by omega]
      exact Nat.dvd_add (hdvd hlt) (Nat.dvd_refl step)
  exact ⟨s', hs', hI⟩

end Loop

/-- `for (i = 0; i < n; i++) xs[i] = v` over the whole array. -/
theorem forLoop_fill (xs : List α) (v : α) :
    forLoop 0 xs.length 1 (fun i xs => store xs i v) xs = some (List.replicate xs.length v) := by
  let filled (i : Nat) (ys : List α) : Prop := ys.length = xs.length ∧ ∀ j < i, ys[j]? = some v
  have hstart : filled 0 xs := ⟨rfl, fun j hj => absurd hj (Nat.not_lt_zero j)⟩
  have hturn : ∀ i ys, 0 ≤ i → i < xs.length → filled i ys →
      ∃ ys', store ys i v = some ys' ∧ filled (min (i + 1) xs.length) ys' := by
    intro i ys _ hi ⟨hlength, hfilled⟩
    have hin : i < ys.length := hlength.symm ▸ hi
    refine ⟨ys.set i v, store_of_lt hin v, by rw [List.length_set, hlength], ?_⟩
    intro j hj
    by_cases hij : i = j
    · subst hij
      exact List.getElem?_set_self hin
    · rw [List.getElem?_set_ne hij]
      exact hfilled j (by omega)
  obtain ⟨ys, hloop, hlength, hfilled⟩ :=
    forLoop_spec Nat.one_pos filled (Nat.zero_le xs.length) hstart hturn
  rw [hloop]
  refine congrArg some (List.ext_getElem? fun j => ?_)
  rw [List.getElem?_replicate]
  split
  · next hj => exact hfilled j hj
  · next hj => exact List.getElem?_eq_none (by omega)

end DemosOsLinux.Lib
