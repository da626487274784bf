/-
  The page references and the arrays of the get_user_pages module.

  * `Books`: what is held is in the five variables.
  * `books_of_steps`, `lost_of_steps`: careful calls keep the books, and what a careless call has
    lost does not come back.
  * `pages_conserved_iff`: so the references are conserved if and only if all calls are careful.
-/
import Mathlib.Data.List.Count
import DemosOsLinux.GetUserPages.Calls

namespace DemosOsLinux.GetUserPages

open Lib

/-- A fault, or a `MAP` that returned an error and left a variable changed. -/
def Event.bad : Event → Bool
  | .freedAgain _ => true
  | .touchedFreed _ => true
  | .touchedNull => true
  | .putUnset _ => true
  | .mapReturned res before after => res ≠ 0 ∧ before ≠ after
  | _ => false

/-- The references and the arrays are given back exactly once, and nothing bad has happened. -/
structure Good (tr : List Event) : Prop where
  refs : ∀ p, tr.count (.got p) = tr.count (.put p)
  arrays : ∀ id, .allocated id ∈ tr → tr.count (.freed id) = 1
  faults : ∀ e ∈ tr, e.bad = false

/-- How often array `id` was freed. -/
def timesFreed (arrays : List PageArray) (id : Nat) : Nat :=
  match arrays[id]? with
  | some ⟨_, false⟩ => 1
  | _ => 0

/-- The pages whose references the module holds. -/
def heldPages (s : State) : List Page :=
  match s.globals.pages with
  | none => []
  | some id => (s.arrays[id]?.map PageArray.entries).getD []

structure Books (s : State) (tr : List Event) : Prop where
  empty : s.globals.pages = none → s.globals.nrPages = 0
  held : ∀ id, s.globals.pages = some id →
    ∃ entries, s.arrays[id]? = some ⟨entries, true⟩ ∧ entries.length = s.globals.nrPages
  live : ∀ id entries, s.arrays[id]? = some ⟨entries, true⟩ → s.globals.pages = some id
  allocated : ∀ id, .allocated id ∈ tr ↔ id < s.arrays.length
  freed : ∀ id, tr.count (.freed id) = timesFreed s.arrays id
  refs : ∀ p, tr.count (.got p) = tr.count (.put p) + (heldPages s).count p
  faults : ∀ e ∈ tr, e.bad = false

/-- A `MAP` that fails at once, or finds no array and succeeds; without memory it may find no array
    if it asks for no pages. -/
def careful (s : State) : Act → Bool
  | .map c =>
      c.notCopied ≠ 0 ||
        (s.globals.pages = none &&
          if c.kmalloc then c.gotAll && c.vmap.isSome else c.nrPages = 0)
  | _ => true

section Books

variable {s s' : State} {a : Act} {es tr : List Event} {f : Page → Event} {entries : List Page}
  {id : Nat} {arrays : List PageArray}

theorem timesFreed_append (arrays : List PageArray) (x : PageArray) (id : Nat) :
    timesFreed (arrays ++ [x]) id =
      timesFreed arrays id + if id = arrays.length ∧ x.live = false then 1 else 0 := by
  obtain ⟨entries, live⟩ := x
  rcases Nat.lt_trichotomy id arrays.length with hlt | rfl | hgt
  · rw [timesFreed, List.getElem?_append_left hlt, if_neg (by omega)]
    rfl
  · rw [timesFreed, timesFreed, List.getElem?_concat_length,
      List.getElem?_eq_none (Nat.le_refl _)]
    cases live <;> simp
  · rw [timesFreed, timesFreed, List.getElem?_eq_none (by simp; omega),
      List.getElem?_eq_none (by omega), if_neg (by omega)]

/-- An event that takes nothing and gives nothing back. -/
theorem Books.quiet (hb : Books s tr) {e : Event} (hbad : e.bad = false)
    (he : ∀ id, e ≠ .allocated id ∧ e ≠ .freed id ∧ e ≠ .got id ∧ e ≠ .put id) :
    Books s (tr ++ [e]) := by
  refine ⟨hb.empty, hb.held, hb.live, fun id => ?_, fun id => ?_, fun p => ?_, fun e' he' => ?_⟩
  · rw [List.mem_append, List.mem_singleton, hb.allocated, or_iff_left (he id).1.symm]
  · rw [List.count_append, hb.freed, List.count_singleton, if_neg (by simpa using (he id).2.1)]
    rfl
  · rw [List.count_append, List.count_append, hb.refs, List.count_singleton, List.count_singleton,
      if_neg (by simpa using (he p).2.2.1), if_neg (by simpa using (he p).2.2.2)]
    omega
  · rcases List.mem_append.mp he' with he' | he'
    · exact hb.faults e' he'
    · rw [List.mem_singleton.mp he', hbad]

/-! Both an array that is new and one that is given back come with one event for each page. -/

theorem count_pages (hf : Function.Injective f) (entries : List Page) (p : Page) :
    (entries.map f).count (f p) = entries.count p :=
  List.count_map_of_injective _ _ hf p

theorem count_pages_other {e : Event} (hf : ∀ p, f p ≠ e) (entries : List Page) :
    (entries.map f).count e = 0 := by
  refine List.count_eq_zero.mpr fun hmem => ?_
  obtain ⟨p, -, hp⟩ := List.mem_map.mp hmem
  exact hf p hp

theorem Books.faults_pages (hb : Books s tr) {first last : Event} (hfirst : first.bad = false)
    (hf : ∀ p, (f p).bad = false) (hlast : last.bad = false) :
    ∀ e ∈ tr ++ (first :: entries.map f ++ [last]), e.bad = false := by
  intro e he
  simp only [List.cons_append, List.mem_append, List.mem_cons, List.mem_map, List.not_mem_nil,
    or_false] at he
  rcases he with he | rfl | ⟨p, -, rfl⟩ | rfl
  · exact hb.faults e he
  · exact hfirst
  · exact hf p
  · exact hlast

theorem got_injective : Function.Injective Event.got := fun _ _ h => by cases h; rfl

theorem put_injective : Function.Injective Event.put := fun _ _ h => by cases h; rfl

/-- A new array in the variables. -/
theorem Books.mapped (hb : Books s tr) (hnone : s.globals.pages = none) {g' : Globals}
    (hg : g'.pages = some s.arrays.length) (hn : g'.nrPages = entries.length) :
    Books ⟨g', s.arrays ++ [⟨entries, true⟩]⟩
      (tr ++ (Event.allocated s.arrays.length :: entries.map Event.got ++
        [Event.mapReturned 0 s.globals g'])) := by
  refine ⟨fun h => ?_, fun id hid => ?_, fun id es' hid => ?_, fun id => ?_, fun id => ?_,
    fun p => ?_, hb.faults_pages rfl (fun _ => rfl) (by simp [Event.bad])⟩
  · rw [hg] at h
    cases h
  · rw [hg] at hid
    cases hid
    exact ⟨entries, List.getElem?_concat_length, hn.symm⟩
  · rw [hg]
    rcases Nat.lt_or_ge id s.arrays.length with hlt | hge
    · rw [List.getElem?_append_left hlt] at hid
      rw [hb.live id es' hid] at hnone
      cases hnone
    · have hlt := (List.getElem?_eq_some_iff.mp hid).1
      rw [List.length_append, List.length_singleton] at hlt
      rw [show id = s.arrays.length by omega]
  · simp [hb.allocated]
    omega
  · have hnone := count_pages_other (f := .got) (e := .freed id) (fun _ h => by cases h) entries
    rw [timesFreed_append, if_neg (by simp), ← hb.freed]
    simp [List.count_append, hnone]
  · have hold : heldPages s = [] := by rw [heldPages, hnone]
    have hnew : heldPages ⟨g', s.arrays ++ [⟨entries, true⟩]⟩ = entries := by
      simp [heldPages, hg]
    have hrefs := hb.refs p
    rw [hold, List.count_nil] at hrefs
    have hput := count_pages_other (f := .got) (e := .put p) (fun _ h => by cases h) entries
    rw [hnew]
    simp [List.count_append, hrefs, count_pages got_injective, hput]

theorem map_putPage (h : arrays[id]? = some ⟨entries, true⟩) :
    (List.range entries.length).map (putPage arrays (some id)) = entries.map .put := by
  refine List.ext_getElem (by simp) fun i hi hi' => ?_
  rw [List.length_map] at hi'
  simp [putPage, h, List.getElem?_eq_getElem hi']

theorem timesFreed_set (h : arrays[id]? = some ⟨entries, true⟩) (i : Nat) :
    timesFreed (arrays.set id ⟨entries, false⟩) i =
      timesFreed arrays i + if i = id then 1 else 0 := by
  by_cases e : i = id
  · subst e
    have hlt := (List.getElem?_eq_some_iff.mp h).1
    rw [timesFreed, timesFreed, List.getElem?_set_self hlt, h, if_pos rfl]
  · rw [timesFreed, List.getElem?_set_ne (Ne.symm e), if_neg e]
    rfl

theorem doUnmap_of_none (hp : s.globals.pages = none) (hn : s.globals.nrPages = 0) :
    doUnmap s = (⟨⟨0, none, none, none, 0⟩, s.arrays⟩, [.vunmapped s.globals.vptr]) := by
  simp [doUnmap, hp, hn, kfree]

theorem doUnmap_of_held (hp : s.globals.pages = some id)
    (hget : s.arrays[id]? = some ⟨entries, true⟩) (hlen : entries.length = s.globals.nrPages) :
    doUnmap s = (⟨⟨0, none, none, none, 0⟩, s.arrays.set id ⟨entries, false⟩⟩,
      Event.vunmapped s.globals.vptr :: entries.map Event.put ++ [Event.freed id]) := by
  have hkfree : kfree s.arrays (some id) =
      (s.arrays.set id ⟨entries, false⟩, [.freed id]) := by
    simp [kfree, hget]
  simp only [doUnmap, hp, hkfree, ← hlen, map_putPage hget]

/-- The array of the variables is given back. -/
theorem Books.unmapped (hb : Books s tr) (hp : s.globals.pages = some id)
    (hget : s.arrays[id]? = some ⟨entries, true⟩) :
    Books ⟨⟨0, none, none, none, 0⟩, s.arrays.set id ⟨entries, false⟩⟩
      (tr ++ (Event.vunmapped s.globals.vptr :: entries.map Event.put ++ [Event.freed id])) := by
  refine ⟨fun _ => rfl, fun id h => (by cases h), fun i entries' h => ?_, fun i => ?_,
    fun i => ?_, fun p => ?_, hb.faults_pages rfl (fun _ => rfl) rfl⟩
  · by_cases e : i = id
    · subst e
      have hlt := (List.getElem?_eq_some_iff.mp hget).1
      simp [hlt] at h
    · rw [List.getElem?_set_ne (Ne.symm e)] at h
      have hlive := hb.live i entries' h
      rw [hp] at hlive
      exact absurd (Option.some.inj hlive).symm e
  · simp [hb.allocated]
  · rw [timesFreed_set hget, ← hb.freed]
    have hmap := count_pages_other (f := .put) (e := .freed i) (fun _ h => by cases h) entries
    by_cases e : i = id
    · subst e
      simp [List.count_append, hmap]
    · simp [List.count_append, hmap, e, Ne.symm e]
  · have hheld : heldPages s = entries := by
      simp [heldPages, hp, hget]
    have hrefs := hb.refs p
    have hgot := count_pages_other (f := .put) (e := .got p) (fun _ h => by cases h) entries
    rw [hheld] at hrefs
    simp [heldPages, List.count_append, hrefs, count_pages put_injective, hgot]

/-- An `UNMAP` gives back what is held. -/
theorem Books.unmap (hb : Books s tr) : Books (doUnmap s).1 (tr ++ (doUnmap s).2) := by
  cases hp : s.globals.pages with
  | none =>
    have hheld : heldPages s = [] := by rw [heldPages, hp]
    have hq := hb.quiet (e := .vunmapped s.globals.vptr) rfl (by simp)
    rw [doUnmap_of_none hp (hb.empty hp)]
    refine ⟨fun _ => rfl, fun id h => (by cases h), fun id entries h => ?_, hq.allocated, hq.freed,
      fun p => ?_, hq.faults⟩
    · have hlive := hb.live id entries h
      rw [hp] at hlive
      cases hlive
    · rw [hq.refs, hheld]
      rfl
  | some id =>
    obtain ⟨entries, hget, hlen⟩ := hb.held id hp
    rw [doUnmap_of_held hp hget hlen]
    exact hb.unmapped hp hget

theorem books_of_steps (hb : Books s tr) (hc : careful s a = true) (h : Steps s a s' es) :
    Books s' (tr ++ es) := by
  cases h with
  | notCopied c h => exact hb.quiet (by simp [Event.bad]) (by simp)
  | noMemory c g' h hk hg =>
    obtain ⟨hp, hn⟩ : s.globals.pages = none ∧ c.nrPages = 0 := by
      simpa [careful, h, hk] using hc
    have hsame : g' = s.globals := by
      rw [hg, hn, ← hb.empty hp, ← hp]
    rw [hsame]
    exact hb.quiet (by simp [Event.bad]) (by simp)
  | failed c g' h hk hf hg =>
    obtain ⟨hp, hall, hv⟩ : s.globals.pages = none ∧ c.gotAll = true ∧ c.vmap.isSome = true := by
      simpa [careful, h, hk] using hc
    rcases hf with hf | hf
    · rw [hf] at hall
      cases hall
    · rw [hf] at hv
      cases hv
  | mapped c g' h hk hall hv hg hn =>
    have hp : s.globals.pages = none := by
      simpa [careful, h, hk, hall, hv] using hc
    exact hb.mapped hp hg hn
  | unmap => exact hb.unmap
  | read => exact hb.quiet rfl (by simp)
  | write => exact hb.quiet rfl (by simp)

/-! ## What is lost -/

/-- Something bad has happened, or there is an array that no variable points to. -/
def Lost (s : State) (tr : List Event) : Prop :=
  (∃ e ∈ tr, e.bad = true) ∨
    ∃ id entries, s.arrays[id]? = some ⟨entries, true⟩ ∧ s.globals.pages ≠ some id ∧
      .allocated id ∈ tr ∧ tr.count (.freed id) = 0

theorem Books.arrays_ne (hb : Books s tr) : s.globals.pages ≠ some s.arrays.length := by
  intro hp
  obtain ⟨entries, hget, _⟩ := hb.held _ hp
  rw [List.getElem?_eq_none (Nat.le_refl _)] at hget
  cases hget

theorem lost_of_careless (hb : Books s tr) (hc : ¬careful s a = true) (h : Steps s a s' es) :
    Lost s' (tr ++ es) := by
  cases h with
  | notCopied c h => exact absurd (by simp [careful, h]) hc
  | noMemory c g' h hk hg =>
    refine Or.inl ⟨_, List.mem_append_right _ (List.mem_singleton_self _), ?_⟩
    have hne : s.globals ≠ g' := by
      intro he
      have hp : s.globals.pages = none := by rw [he, hg]
      have hn : s.globals.nrPages = c.nrPages := by
        rw [he, hg]
      rw [hb.empty hp] at hn
      exact hc (by simp [careful, hp, hk, hn.symm])
    simp [Event.bad, hne]
  | failed c g' h hk hf hg =>
    refine Or.inl ⟨.mapReturned (-14) s.globals g', by simp, ?_⟩
    have hne : s.globals ≠ g' := by
      rintro he
      exact hb.arrays_ne (he ▸ hg)
    simp [Event.bad, hne]
  | mapped c g' h hk hall hv hg hn =>
    right
    cases hp : s.globals.pages with
    | none => exact absurd (by simp [careful, hp, hk, hall, hv]) hc
    | some id =>
      obtain ⟨entries, hget, _⟩ := hb.held id hp
      have hlt := (List.getElem?_eq_some_iff.mp hget).1
      refine ⟨id, entries, ?_, ?_, ?_, ?_⟩
      · rw [List.getElem?_append_left hlt, hget]
      · rw [hg]
        intro he
        have := Option.some.inj he
        omega
      · exact List.mem_append_left _ ((hb.allocated id).mpr hlt)
      · rw [List.count_append, hb.freed, timesFreed, hget]
        simp [List.count_eq_zero]
  | unmap => exact absurd rfl hc
  | read => exact absurd rfl hc
  | write => exact absurd rfl hc

theorem putPage_ne_freed (arrays : List PageArray) (p : Option Nat) (i id : Nat) :
    putPage arrays p i ≠ .freed id := by
  unfold putPage
  repeat' split
  all_goals simp

theorem kfree_other (arrays : List PageArray) {p : Option Nat} (h : p ≠ some id) :
    (kfree arrays p).1[id]? = arrays[id]? ∧ (kfree arrays p).2.count (.freed id) = 0 := by
  cases p with
  | none => exact ⟨rfl, rfl⟩
  | some i =>
    have hne : i ≠ id := fun e => h (by rw [e])
    simp only [kfree]
    split
    · exact ⟨List.getElem?_set_ne hne, by simp [hne]⟩
    · exact ⟨rfl, by simp⟩

theorem lost_of_steps (hl : Lost s tr) (h : Steps s a s' es) : Lost s' (tr ++ es) := by
  rcases hl with ⟨e, he, hbad⟩ | ⟨id, entries, hget, hp, halloc, hfreed⟩
  · exact Or.inl ⟨e, List.mem_append_left _ he, hbad⟩
  · have hlt := (List.getElem?_eq_some_iff.mp hget).1
    -- the array stays where it is as long as it is not freed
    have stays (hget' : s'.arrays[id]? = s.arrays[id]?) (hp' : s'.globals.pages ≠ some id)
        (hes : es.count (.freed id) = 0) : Lost s' (tr ++ es) := by
      refine Or.inr ⟨id, entries, hget'.trans hget, hp', List.mem_append_left _ halloc, ?_⟩
      rw [List.count_append, hfreed, hes]
    have hnew : (some s.arrays.length : Option Nat) ≠ some id := by
      intro he
      have := Option.some.inj he
      omega
    cases h with
    | notCopied c h => exact stays rfl hp (by simp)
    | noMemory c g' h hk hg => exact stays rfl (by simp [hg]) (by simp)
    | failed c g' h hk hf hg =>
      refine stays (List.getElem?_append_left hlt) (hg ▸ hnew) ?_
      have hne : s.arrays.length ≠ id := by omega
      simp [List.count_append, List.count_eq_zero, hne]
    | mapped c g' h hk hall hv hg hn =>
      refine stays (List.getElem?_append_left hlt) (hg ▸ hnew) ?_
      simp [List.count_append, List.count_eq_zero]
    | unmap =>
      obtain ⟨harr, hev⟩ := kfree_other s.arrays hp
      refine stays harr (by simp [doUnmap]) ?_
      have hputs : ((List.range s.globals.nrPages).map
          (putPage s.arrays s.globals.pages)).count (.freed id) = 0 := by
        rw [List.count_eq_zero, List.mem_map]
        rintro ⟨i, _, hi⟩
        exact putPage_ne_freed _ _ i id hi
      simp [doUnmap, List.count_append, hputs, hev]
    | read => exact stays rfl hp (by simp)
    | write => exact stays rfl hp (by simp)

theorem not_good_of_lost (hl : Lost s tr) : ¬Good tr := by
  rintro ⟨_, harrays, hfaults⟩
  rcases hl with ⟨e, he, hbad⟩ | ⟨id, entries, _, _, halloc, hfreed⟩
  · rw [hfaults e he] at hbad
    cases hbad
  · rw [harrays id halloc] at hfreed
    cases hfreed

/-- Books without an array. -/
theorem Books.good (hb : Books s tr) (hp : s.globals.pages = none) : Good tr := by
  refine ⟨fun p => ?_, fun id hid => ?_, hb.faults⟩
  · rw [hb.refs, heldPages, hp]
    rfl
  · have hlt := (hb.allocated id).mp hid
    rw [hb.freed, timesFreed]
    cases hget : s.arrays[id]? with
    | none => exact absurd hlt (Nat.not_lt.mpr (List.getElem?_eq_none_iff.mp hget))
    | some x =>
      obtain ⟨entries, live⟩ := x
      cases live with
      | false => rfl
      | true =>
        rw [hb.live id entries hget] at hp
        cases hp

end Books

/-! ## All runs -/

theorem books_init : Books init [] :=
  ⟨fun _ => rfl, fun _ h => (by cases h), fun _ _ h => (by cases h), fun id => (by simp [init]),
    fun id => rfl, fun p => rfl, fun e h => (by cases h)⟩

/-- **Conservation of the page references.** For every sequence of calls, and an `UNMAP` after it:
    every reference is released and every array freed exactly once, no call has touched or freed
    an array after its end, and every `MAP` that returned an error left the five variables as they
    were, if and only if every `MAP` fails in copy_from_user(9), or finds no array in `pages` and
    all of its calls succeed (or its allocation fails and it asks for no pages). -/
theorem pages_conserved_iff (acts : List Act) (s : State) (tr : List Event)
    (hr : driver.run init (acts ++ [.unmap]) = some (s, tr)) :
    Good tr ↔ driver.Along (fun s a => careful s a = true) init acts := by
  obtain ⟨s₁, tr₁, es, hr₁, hr₂, rfl⟩ := (driver.run_append_eq_some _ _ _ _ _).mp hr
  obtain ⟨s₂, es₁, es₂, hs, hnil, rfl⟩ := (driver.run_cons_eq_some _ _ _ _ _).mp hr₂
  obtain ⟨rfl, rfl⟩ := result_inj hnil
  have hu := steps_of_step hs
  rw [List.append_nil]
  refine driver.run_along_iff (fun s a => careful s a = true) Books Lost
    (fun s tr a s' es hc hb hs => books_of_steps hb hc (steps_of_step hs))
    (fun s tr a s' es hc hb hs => lost_of_careless hb hc (steps_of_step hs))
    (fun s tr a s' es hl hs => lost_of_steps hl (steps_of_step hs)) books_init hr₁ ?_ ?_
  · intro hb
    have hb' := books_of_steps hb rfl hu
    refine hb'.good ?_
    cases hu
    rfl
  · intro hl
    exact not_good_of_lost (lost_of_steps hl hu)

/-- A buffer of 5000 bytes, at address 8192. -/
def twoPages : MapCall := ⟨0, 8192, 5000, true, 2, fun i => 70 + i, some 65536⟩

theorem pages_conserved_iff_twoPages :
    ∃ s tr, driver.run init ([.map twoPages, .read, .write] ++ [.unmap]) = some (s, tr) ∧
      tr.count (.got 71) = 1 ∧ Good tr := by
  obtain ⟨s, tr, hr, hgot⟩ := driver.exists_of_check init
    ([.map twoPages, .read, .write] ++ [.unmap]) (fun _ tr => tr.count (.got 71) = 1)
    (by decide +kernel)
  refine ⟨s, tr, hr, hgot, (pages_conserved_iff _ s tr hr).mpr ?_⟩
  exact driver.along_of_check careful [.map twoPages, .read, .write] init (by decide +kernel)

/-- The second page is not there. -/
def onePage : MapCall := { twoPages with res := 1 }

/-- A `MAP` that gets one of two pages keeps its reference and leaves `pages` and `nr_pages` behind;
    the `UNMAP` then reads the array and frees it again. After two `MAP`s in a row, the first array
    is never freed. -/
theorem map_loses_pages :
    (∃ s tr, driver.run init ([.map onePage] ++ [.unmap]) = some (s, tr) ∧
      tr.count (.got 70) = 1 ∧ tr.count (.put 70) = 0 ∧
      .mapReturned (-14) ⟨0, none, none, none, 0⟩ ⟨0, none, none, some 0, 2⟩ ∈ tr ∧
      .touchedFreed 0 ∈ tr ∧ .freedAgain 0 ∈ tr) ∧
    ∃ s tr, driver.run init ([.map twoPages, .map twoPages] ++ [.unmap]) = some (s, tr) ∧
      .allocated 0 ∈ tr ∧ tr.count (.freed 0) = 0 ∧ tr.count (.got 70) = 2 ∧
      tr.count (.put 70) = 1 :=
  ⟨driver.exists_of_check init ([.map onePage] ++ [.unmap])
      (fun _ tr => tr.count (.got 70) = 1 ∧ tr.count (.put 70) = 0 ∧
        .mapReturned (-14) ⟨0, none, none, none, 0⟩ ⟨0, none, none, some 0, 2⟩ ∈ tr ∧
        .touchedFreed 0 ∈ tr ∧ .freedAgain 0 ∈ tr) (by decide +kernel),
    driver.exists_of_check init ([.map twoPages, .map twoPages] ++ [.unmap])
      (fun _ tr => .allocated 0 ∈ tr ∧ tr.count (.freed 0) = 0 ∧ tr.count (.got 70) = 2 ∧
        tr.count (.put 70) = 1) (by decide +kernel)⟩

end DemosOsLinux.GetUserPages
