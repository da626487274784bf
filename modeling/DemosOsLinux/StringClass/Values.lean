/-
  A string class with copying and assignment (exercises/cpp/copying_and_assignment/solution.cc).

  An object is a pointer `m_data`, null for a default-constructed string. Memory is blocks of
  characters that are counted when they are released; `new` returns what it finds there. The string
  functions read and write it character by character, and a read through null, of a released block or
  beyond the end of one is undefined. Objects are numbered; an operation needs its objects alive, and
  the one that it constructs dead.
  * `value`: the objects as values, in which null is the empty string.
  * `duplicate_spec`, `concat_spec`: what the operations leave in memory, as blocks of `Lib.Owned`.
  * `step_inv`: a step whose operation is defined does to the objects what it does to the values.
  * `string_value_iff`: the class is a value type in a run iff no null string is assigned from or
    concatenated, the two operations that call strlen(3) without a test.
-/
import DemosOsLinux.Lib.CString
import DemosOsLinux.Lib.Machine
import DemosOsLinux.Lib.OwnedBlocks
import Mathlib.Data.UInt

namespace DemosOsLinux.StringClass

open Lib Function

variable {χ : Type} [Zero χ] [DecidableEq χ]

abbrev Memory (χ : Type) := Blocks (List χ)

/-- A C string. -/
structure CStr (χ : Type) [Zero χ] where
  chars : List χ
  noNul : 0 ∉ chars

omit [DecidableEq χ] in
/-- The memory that it is in. -/
def CStr.bytes (str : CStr χ) : List χ := str.chars ++ [0]

omit [Zero χ] [DecidableEq χ] in
/-- Reading through a pointer. -/
def deref (hp : Memory χ) (p : Option Nat) : Option (List χ) := p.bind (Blocks.load hp)

section Code

variable (junk : Nat → Nat → χ)

omit [Zero χ] [DecidableEq χ] in
/-- `new char[n]`. -/
def newChars (hp : Memory χ) (n : Nat) : Memory χ × Nat :=
  Blocks.alloc hp ((List.range n).map (junk hp.length))

/-- `len = strlen(src); m_data = new char[len + 1]; strncpy(m_data, src, len + 1)`. -/
def duplicate (hp : Memory χ) (src : List χ) : Option (Memory χ × Option Nat) := do
  let len ← strlen src
  let new := newChars junk hp (len + 1)
  let dst ← Blocks.load new.1 new.2
  let dst ← strncpy dst src (len + 1)
  return (Blocks.fill new.1 new.2 dst, some new.2)

/-- `string(const char* str)`; `str` is what the argument points to. -/
def ofChars (hp : Memory χ) : Option (List χ) → Option (Memory χ × Option Nat)
  | none => some (hp, none)
  | some str => duplicate junk hp str

/-- `string(const string& other)`. -/
def ofString (hp : Memory χ) (other : Option Nat) : Option (Memory χ × Option Nat) :=
  match other with
  | none => some (hp, none)
  | some p => (Blocks.load hp p).bind (duplicate junk hp)

/-- `operator=(const string& other)` for another object. -/
def assignString (hp : Memory χ) (mine other : Option Nat) : Option (Memory χ × Option Nat) :=
  let hp := Blocks.release hp mine
  (deref hp other).bind (duplicate junk hp)

/-- `operator=(const char* other)`. -/
def assignChars (hp : Memory χ) (mine : Option Nat) (other : Option (List χ)) :
    Option (Memory χ × Option Nat) :=
  ofChars junk (Blocks.release hp mine) other

/-- `operator+`. -/
def concat (hp : Memory χ) (mine other : Option Nat) : Option (Memory χ × Option Nat) := do
  let a ← deref hp mine
  let thisLen ← strlen a
  let b ← deref hp other
  let otherLen ← strlen b
  let new := newChars junk hp (thisLen + otherLen + 1)
  let dst ← Blocks.load new.1 new.2
  let dst ← strncpy dst a (thisLen + 1)
  let dst ← strncat dst b (thisLen + otherLen + 1)
  let hp := Blocks.fill new.1 new.2 dst
  let newData ← Blocks.load hp new.2
  let result ← ofChars junk hp (some newData)
  return (Blocks.release result.1 (some new.2), result.2)

end Code

/-! ## Objects -/

inductive Slot where
  | dead
  | live (mData : Option Nat)
deriving DecidableEq

structure State (χ : Type) where
  heap : Memory χ
  obj : Nat → Slot

def initState : State χ := ⟨[], fun _ => .dead⟩

inductive Act (χ : Type) [Zero χ] where
  | default (d : Nat)
  | ofChars (d : Nat) (str : Option (CStr χ))
  | ofString (d other : Nat)
  | assignString (d other : Nat)
  | assignChars (d : Nat) (str : Option (CStr χ))
  | concat (d this other : Nat)
  | destroy (d : Nat)

inductive Event where
  | undefined
deriving DecidableEq

omit [Zero χ] [DecidableEq χ] in
/-- Object `d` gets its pointer, if the operation was defined. -/
def State.become (s : State χ) (d : Nat) : Option (Memory χ × Option Nat) → State χ × List Event
  | none => (s, [.undefined])
  | some (hp, p) => (⟨hp, update s.obj d (.live p)⟩, [])

def step (junk : Nat → Nat → χ) (s : State χ) : Act χ → Option (State χ × List Event)
  | .default d =>
    match s.obj d with
    | .dead => some (s.become d (some (s.heap, none)))
    | _ => none
  | .ofChars d str =>
    match s.obj d with
    | .dead => some (s.become d (ofChars junk s.heap (str.map CStr.bytes)))
    | _ => none
  | .ofString d other =>
    match s.obj d, s.obj other with
    | .dead, .live p => some (s.become d (ofString junk s.heap p))
    | _, _ => none
  | .assignString d other =>
    match s.obj d, s.obj other with
    | .live p, .live q =>
      if d = other then some (s, []) else some (s.become d (assignString junk s.heap p q))
    | _, _ => none
  | .assignChars d str =>
    match s.obj d with
    | .live p => some (s.become d (assignChars junk s.heap p (str.map CStr.bytes)))
    | _ => none
  | .concat d this other =>
    match s.obj d, s.obj this, s.obj other with
    | .dead, .live p, .live q => some (s.become d (concat junk s.heap p q))
    | _, _, _ => none
  | .destroy d =>
    match s.obj d with
    | .live p => some (⟨Blocks.release s.heap p, update s.obj d .dead⟩, [])
    | _ => none

def objects (junk : Nat → Nat → χ) : Machine (State χ) (Act χ) Event := ⟨step junk⟩

/-! ## Values -/

abbrev Values (χ : Type) := Nat → Option (List χ)

omit [DecidableEq χ] in
/-- The value of an argument. -/
def strValue : Option (CStr χ) → List χ
  | none => []
  | some str => str.chars

omit [DecidableEq χ] in
def value (v : Values χ) : Act χ → Values χ
  | .default d => update v d (some [])
  | .ofChars d str => update v d (some (strValue str))
  | .ofString d other => update v d (v other)
  | .assignString d other => update v d (v other)
  | .assignChars d str => update v d (some (strValue str))
  | .concat d this other => update v d (some ((v this).getD [] ++ (v other).getD []))
  | .destroy d => update v d none

/-- The text of an object. -/
def text (hp : Memory χ) : Slot → Option (List χ)
  | .dead => none
  | .live none => some []
  | .live (some p) => (Blocks.load hp p).map fun bytes => bytes.takeWhile (· ≠ 0)

/-- The objects have been values all along. -/
structure ValueType (acts : List (Act χ)) (s : State χ) (tr : List Event) : Prop where
  defined : Event.undefined ∉ tr
  text : ∀ d, text s.heap (s.obj d) = acts.foldl value (fun _ => none) d
  apart : ∀ d e p, s.obj d = .live (some p) → s.obj e = .live (some p) → d = e
  held : ∀ d p, s.obj d = .live (some p) → ∃ bytes, s.heap[p]? = some ⟨bytes, 0⟩
  once : ∀ p block, s.heap[p]? = some block → (∀ d, s.obj d ≠ .live (some p)) → block.released = 1

/-- The operation does not read through a null pointer. -/
def Defined (s : State χ) : Act χ → Prop
  | .assignString d other => d = other ∨ s.obj other ≠ .live none
  | .concat _ this other => s.obj this ≠ .live none ∧ s.obj other ≠ .live none
  | _ => True

/-! ## The operations -/

variable {junk : Nat → Nat → χ} {hp : Memory χ} {src t u bytes : List χ} {s s' : State χ}
  {v : Values χ} {d : Nat} {x : Option (List χ)} {r : Option (Memory χ × Option Nat)}
  {es : List Event} {acts : List (Act χ)}

omit [DecidableEq χ] in
theorem CStr.holds (str : CStr χ) : Holds str.bytes str.chars := ⟨str.noNul, [], rfl⟩

/-- A new block that holds the text. -/
theorem duplicate_spec (junk : Nat → Nat → χ) (hp : Memory χ) (h : Holds src t) :
    ∃ bytes, duplicate junk hp src =
      some ((Blocks.alloc hp bytes).1, some (Blocks.alloc hp bytes).2) ∧ Holds bytes t := by
  have hnew : ((List.range (t.length + 1)).map (junk hp.length)).length = t.length + 1 := by
    rw [List.length_map, List.length_range]
  obtain ⟨dst, hcopy, hdst, -⟩ := h.strncpy (Nat.lt_succ_self _) (Nat.le_of_eq hnew.symm)
  refine ⟨dst, ?_, hdst⟩
  unfold duplicate newChars
  simp only [h.strlen, Option.bind_eq_bind, Option.bind_some, Blocks.load_alloc_self, hcopy,
    Blocks.fill_alloc]
  rfl

/-- The block of `new_data`, a new block for the result, and the first one released. -/
theorem concat_spec (junk : Nat → Nat → χ) {p q : Nat} {a b : List χ}
    (hp₁ : Blocks.load hp p = some a) (hp₂ : Blocks.load hp q = some b) (ha : Holds a t)
    (hb : Holds b u) :
    ∃ tmp bytes, concat junk hp (some p) (some q) =
      some (Blocks.release (Blocks.alloc (Blocks.alloc hp tmp).1 bytes).1 (some (Blocks.alloc hp tmp).2),
        some (Blocks.alloc (Blocks.alloc hp tmp).1 bytes).2) ∧ Holds bytes (t ++ u) := by
  have hnew : ((List.range (t.length + u.length + 1)).map (junk hp.length)).length =
      t.length + u.length + 1 := by
    rw [List.length_map, List.length_range]
  obtain ⟨dst, hcopy, hdst, hlen⟩ := ha.strncpy (Nat.lt_succ_self _)
    (show t.length + 1 ≤ ((List.range (t.length + u.length + 1)).map (junk hp.length)).length by omega)
  obtain ⟨tmp, hcat, htmp, -⟩ := hdst.strncat hb
    (show u.length ≤ t.length + u.length + 1 by omega) (by omega)
  obtain ⟨bytes, hdup, hbytes⟩ := duplicate_spec junk (Blocks.alloc hp tmp).1 htmp
  refine ⟨tmp, bytes, ?_, hbytes⟩
  unfold concat newChars deref ofChars
  have hload : ∀ x, Blocks.load (Blocks.alloc hp tmp).1 (Blocks.alloc hp x).2 = some tmp :=
    fun _ => Blocks.load_alloc_self hp tmp
  simp only [Option.bind_eq_bind, Option.bind_some, hp₁, hp₂, ha.strlen, hb.strlen,
    Blocks.load_alloc_self, hcopy, hcat, Blocks.fill_alloc, hload, hdup]
  rfl

/-! ## The invariant -/

/-- The slot shows the value. -/
def Shows (hp : Memory χ) : Slot → Option (List χ) → Prop
  | .dead, v => v = none
  | .live none, v => v = some []
  | .live (some p), v => ∃ bytes t, Blocks.load hp p = some bytes ∧ Holds bytes t ∧ v = some t

omit [Zero χ] [DecidableEq χ] in
def Slot.pointer : Slot → Option Nat
  | .dead => none
  | .live p => p

theorem Slot.pointer_eq_some {slot : Slot} {p : Nat} :
    slot.pointer = some p ↔ slot = .live (some p) := by
  cases slot with
  | dead => exact ⟨nofun, nofun⟩
  | live q => exact ⟨congrArg Slot.live, Slot.live.inj⟩

/-- The owners are the objects, and the local pointer of `operator+`. -/
def owns (obj : Nat → Slot) : Option Nat → Option Nat
  | none => none
  | some d => (obj d).pointer

structure Inv (s : State χ) (v : Values χ) : Prop where
  owned : Owned s.heap (owns s.obj)
  shows : ∀ d, Shows s.heap (s.obj d) (v d)

theorem owns_update (obj : Nat → Slot) (d : Nat) (slot : Slot) :
    owns (update obj d slot) = update (owns obj) (some d) slot.pointer := by
  funext i
  cases i with
  | none => rfl
  | some e =>
    by_cases he : e = d
    · rw [he, update_self]
      show (update obj d slot d).pointer = _
      rw [update_self]
    · rw [update_of_ne fun h => he (Option.some.inj h)]
      show (update obj d slot e).pointer = _
      rw [update_of_ne he]
      rfl

omit [DecidableEq χ] in
/-- Only object `d` changes, and the blocks of the others can still be read. -/
theorem Inv.set (h : Inv s v) {slot : Slot}
    (howned : Owned hp (update (owns s.obj) (some d) slot.pointer))
    (hframe : ∀ e p y, e ≠ d → s.obj e = .live (some p) → Blocks.load s.heap p = some y →
      Blocks.load hp p = some y) (hshows : Shows hp slot x) :
    Inv ⟨hp, update s.obj d slot⟩ (update v d x) where
  owned := by
    rw [owns_update]
    exact howned
  shows := by
    intro e
    show Shows hp (update s.obj d slot e) _
    by_cases he : e = d
    · rw [he, update_self, update_self]
      exact hshows
    · rw [update_of_ne he, update_of_ne he]
      have hold := h.shows e
      cases hslot : s.obj e with
      | dead => rwa [hslot] at hold
      | live p =>
        cases p with
        | none => rwa [hslot] at hold
        | some p =>
          rw [hslot] at hold
          obtain ⟨bytes, t, hload, hrest⟩ := hold
          exact ⟨bytes, t, hframe e p bytes he hslot hload, hrest⟩

omit [DecidableEq χ] in
/-- An object without a block becomes a null string. -/
theorem Inv.placeNull (h : Inv s v) (hd : (s.obj d).pointer = none) :
    Inv ⟨s.heap, update s.obj d (.live none)⟩ (update v d (some [])) := by
  refine h.set ?_ (fun _ _ _ _ _ hload => hload) rfl
  show Owned s.heap (update (owns s.obj) (some d) none)
  rw [← hd]
  exact (update_eq_self (some d) (owns s.obj)).symm ▸ h.owned

omit [DecidableEq χ] in
/-- It gets a new block. -/
theorem Inv.placeNew (h : Inv s v) (hd : (s.obj d).pointer = none) (hb : Holds bytes t) :
    Inv ⟨(Blocks.alloc s.heap bytes).1,
        update s.obj d (.live (some (Blocks.alloc s.heap bytes).2))⟩
      (update v d (some t)) :=
  h.set (h.owned.alloc (i := some d) hd bytes)
    (fun _ _ _ _ _ hload => Blocks.load_alloc hload bytes)
    ⟨bytes, t, Blocks.load_alloc_self s.heap bytes, hb, rfl⟩

omit [DecidableEq χ] in
/-- It gives its block back. -/
theorem Inv.drop (h : Inv s v) (d : Nat) :
    Inv ⟨Blocks.release s.heap (s.obj d).pointer, update s.obj d .dead⟩
      (update v d none) := by
  refine h.set (h.owned.release (some d)) (fun e p y he hslot hload => ?_) rfl
  have howns : owns s.obj (some e) = some p := Slot.pointer_eq_some.mpr hslot
  have hother : some e ≠ some d := fun heq => he (Option.some.inj heq)
  rw [← hload]
  exact h.owned.load_release howns hother

omit [DecidableEq χ] in
/-- It gets the second of two new blocks, and the first one is released. -/
theorem Inv.placeConcat (h : Inv s v) (hd : (s.obj d).pointer = none) (tmp : List χ)
    (hb : Holds bytes t) :
    Inv ⟨Blocks.release (Blocks.alloc (Blocks.alloc s.heap tmp).1 bytes).1
          (some (Blocks.alloc s.heap tmp).2),
        update s.obj d (.live (some (Blocks.alloc (Blocks.alloc s.heap tmp).1 bytes).2))⟩
      (update v d (some t)) := by
  have hlocal := h.owned.alloc (i := none) rfl tmp
  have hboth := hlocal.alloc (i := some d) (by rw [update_of_ne (by simp)]; exact hd) bytes
  have hreleased := hboth.release none
  rw [update_of_ne (Option.some_ne_none d).symm, update_self,
    update_comm (Option.some_ne_none d), update_idem,
    show update (owns s.obj) none none = owns s.obj from
      update_eq_self none (owns s.obj)] at hreleased
  refine h.set hreleased (fun e p y _ _ hload => ?_) ⟨bytes, t, ?_, hb, rfl⟩
  · rw [Blocks.load_release_ne (Blocks.ne_alloc hload tmp)]
    exact Blocks.load_alloc (Blocks.load_alloc hload tmp) bytes
  · rw [Blocks.load_release_ne (Blocks.ne_alloc (Blocks.load_alloc_self s.heap tmp) bytes).symm]
    exact Blocks.load_alloc_self _ bytes

/-! ## Steps -/

/-- The operation is defined and leaves object `d` with the value `t`. -/
def Makes (s : State χ) (v : Values χ) (d : Nat) (r : Option (Memory χ × Option Nat))
    (t : Option (List χ)) : Prop :=
  ∃ hp p, r = some (hp, p) ∧
    Inv ⟨hp, update s.obj d (.live p)⟩ (update v d t)

omit [DecidableEq χ] in
theorem Inv.live (h : Inv s v) {p : Nat} (hslot : s.obj d = .live (some p)) :
    ∃ bytes t, Blocks.load s.heap p = some bytes ∧ Holds bytes t ∧ v d = some t := by
  have hshows := h.shows d
  rwa [hslot] at hshows

omit [DecidableEq χ] in
theorem Inv.null (h : Inv s v) (hslot : s.obj d = .live none) : v d = some [] := by
  have hshows := h.shows d
  rwa [hslot] at hshows

theorem Inv.duplicate (h : Inv s v) (junk : Nat → Nat → χ) (hd : (s.obj d).pointer = none)
    (hsrc : Holds src t) : Makes s v d (duplicate junk s.heap src) (some t) := by
  obtain ⟨bytes, hdup, hbytes⟩ := duplicate_spec junk s.heap hsrc
  exact ⟨_, _, hdup, h.placeNew hd hbytes⟩

theorem Inv.ofChars (h : Inv s v) (junk : Nat → Nat → χ) (hd : (s.obj d).pointer = none)
    (str : Option (CStr χ)) :
    Makes s v d (ofChars junk s.heap (str.map CStr.bytes)) (some (strValue str)) := by
  cases str with
  | none => exact ⟨_, _, rfl, h.placeNull hd⟩
  | some str => exact h.duplicate junk hd str.holds

theorem Inv.ofString (h : Inv s v) (junk : Nat → Nat → χ) (hd : (s.obj d).pointer = none)
    {other : Nat} {p : Option Nat} (hother : s.obj other = .live p) :
    Makes s v d (ofString junk s.heap p) (v other) := by
  cases p with
  | none =>
    rw [h.null hother]
    exact ⟨_, _, rfl, h.placeNull hd⟩
  | some p =>
    obtain ⟨bytes, t, hload, hbytes, hv⟩ := h.live hother
    rw [StringClass.ofString, hload, hv]
    exact h.duplicate junk hd hbytes

omit [DecidableEq χ] in
/-- An assignment releases the object's block first. -/
theorem Makes.of_drop {p : Option Nat}
    (h : Makes ⟨Blocks.release s.heap p, update s.obj d .dead⟩ (update v d none) d
      r x) : Makes s v d r x := by
  obtain ⟨hp, q, hr, hinv⟩ := h
  rw [update_idem, update_idem] at hinv
  exact ⟨hp, q, hr, hinv⟩

theorem pointer_dead (obj : Nat → Slot) (d : Nat) : (update obj d .dead d).pointer = none := by
  rw [update_self]
  rfl

theorem Inv.assignString (h : Inv s v) (junk : Nat → Nat → χ) {other q : Nat} (hne : d ≠ other)
    (hother : s.obj other = .live (some q)) :
    Makes s v d (assignString junk s.heap (s.obj d).pointer (some q)) (v other) := by
  have hdrop := h.drop d
  obtain ⟨bytes, t, hload, hbytes, hv⟩ := hdrop.live (d := other)
    ((update_of_ne hne.symm _ _).trans hother)
  rw [update_of_ne hne.symm] at hv
  rw [StringClass.assignString, deref, Option.bind_some, hload, hv]
  exact (hdrop.duplicate junk (pointer_dead s.obj d) hbytes).of_drop

theorem Inv.assignChars (h : Inv s v) (junk : Nat → Nat → χ) (str : Option (CStr χ)) :
    Makes s v d (assignChars junk s.heap (s.obj d).pointer (str.map CStr.bytes))
      (some (strValue str)) :=
  ((h.drop d).ofChars junk (pointer_dead s.obj d) str).of_drop

theorem Inv.concat (h : Inv s v) (junk : Nat → Nat → χ) (hd : (s.obj d).pointer = none)
    {this other p q : Nat} (hthis : s.obj this = .live (some p))
    (hother : s.obj other = .live (some q)) :
    Makes s v d (concat junk s.heap (some p) (some q))
      (some ((v this).getD [] ++ (v other).getD [])) := by
  obtain ⟨a, t, hloadp, ha, hv⟩ := h.live hthis
  obtain ⟨b, u, hloadq, hb, hv'⟩ := h.live hother
  obtain ⟨tmp, bytes, hconcat, hbytes⟩ := concat_spec junk hloadp hloadq ha hb
  rw [hv, hv']
  exact ⟨_, _, hconcat, h.placeConcat hd tmp hbytes⟩

omit [DecidableEq χ] in
theorem Makes.step (h : Makes s v d r x) (hs : some (s.become d r) = some (s', es)) :
    es = [] ∧ Inv s' (update v d x) := by
  obtain ⟨hp, p, rfl, hinv⟩ := h
  obtain ⟨rfl, rfl⟩ := result_inj hs
  exact ⟨rfl, hinv⟩

theorem step_inv (h : Inv s v) {a : Act χ} (hdef : Defined s a)
    (hs : step junk s a = some (s', es)) : es = [] ∧ Inv s' (value v a) := by
  cases a with
  | default d =>
    simp only [step] at hs
    split at hs
    · next hd => exact Makes.step ⟨_, _, rfl, h.placeNull (by rw [hd]; rfl)⟩ hs
    · cases hs
  | ofChars d str =>
    simp only [step] at hs
    split at hs
    · next hd => exact (h.ofChars junk (by rw [hd]; rfl) str).step hs
    · cases hs
  | ofString d other =>
    simp only [step] at hs
    split at hs
    · next hd hother => exact (h.ofString junk (by rw [hd]; rfl) hother).step hs
    · cases hs
  | assignString d other =>
    simp only [step] at hs
    split at hs
    · next p q hd hother =>
      split at hs
      · next heq =>
        obtain ⟨rfl, rfl⟩ := result_inj hs
        refine ⟨rfl, ?_⟩
        rw [value, heq, update_eq_self]
        exact h
      · next hne =>
        have hnull := hdef.resolve_left hne
        obtain ⟨q, rfl⟩ : ∃ q', q = some q' :=
          Option.ne_none_iff_exists'.mp fun hq => hnull (by rw [hother, hq])
        have hmakes := h.assignString junk hne hother
        rw [hd] at hmakes
        exact hmakes.step hs
    · cases hs
  | assignChars d str =>
    simp only [step] at hs
    split at hs
    · next p hd =>
      have hmakes := h.assignChars (d := d) junk str
      rw [hd] at hmakes
      exact hmakes.step hs
    · cases hs
  | concat d this other =>
    simp only [step] at hs
    split at hs
    · next p q hd hthis hother =>
      obtain ⟨p, rfl⟩ : ∃ p', p = some p' :=
        Option.ne_none_iff_exists'.mp fun hp => hdef.1 (by rw [hthis, hp])
      obtain ⟨q, rfl⟩ : ∃ q', q = some q' :=
        Option.ne_none_iff_exists'.mp fun hq => hdef.2 (by rw [hother, hq])
      exact (h.concat junk (by rw [hd]; rfl) hthis hother).step hs
    · cases hs
  | destroy d =>
    simp only [step] at hs
    split at hs
    · next p hd =>
      obtain ⟨rfl, rfl⟩ := result_inj hs
      have hdrop := h.drop d
      rw [hd] at hdrop
      exact ⟨rfl, hdrop⟩
    · cases hs

/-- strlen(3) of a null pointer. -/
theorem step_undefined {a : Act χ} (hdef : ¬ Defined s a) (hs : step junk s a = some (s', es)) :
    Event.undefined ∈ es := by
  have hnone : ∀ {d : Nat}, some (s.become d none) = some (s', es) → Event.undefined ∈ es := by
    intro d hs
    obtain ⟨-, rfl⟩ := result_inj hs
    exact List.mem_cons_self
  cases a with
  | assignString d other =>
    obtain ⟨hne, hnull⟩ := not_or.mp hdef
    simp only [step] at hs
    split at hs
    · next p q hd hother =>
      rw [if_neg hne] at hs
      obtain rfl : q = none := Slot.live.inj (hother.symm.trans (not_not.mp hnull))
      exact hnone hs
    · cases hs
  | concat d this other =>
    simp only [step] at hs
    split at hs
    · next p q hd hthis hother =>
      have hconcat : concat junk s.heap p q = none := by
        cases p with
        | none => rfl
        | some p =>
          obtain rfl : q = none := by
            have hnull : s.obj other = .live none := not_not.mp fun hq => hdef ⟨by simp [hthis], hq⟩
            exact Slot.live.inj (hother.symm.trans hnull)
          unfold concat deref
          simp
      rw [hconcat] at hs
      exact hnone hs
    · cases hs
  | default d => exact absurd trivial hdef
  | ofChars d str => exact absurd trivial hdef
  | ofString d other => exact absurd trivial hdef
  | assignChars d str => exact absurd trivial hdef
  | destroy d => exact absurd trivial hdef

/-! ## Runs -/

theorem text_eq (h : Inv s v) (d : Nat) : text s.heap (s.obj d) = v d := by
  have hshows := h.shows d
  cases hslot : s.obj d with
  | dead =>
    rw [hslot] at hshows
    exact Eq.symm hshows
  | live p =>
    rw [hslot] at hshows
    cases p with
    | none => exact Eq.symm hshows
    | some p =>
      obtain ⟨bytes, t, hload, hbytes, hv⟩ := hshows
      rw [text, hload, hv, Option.map_some, hbytes.takeWhile]

omit [DecidableEq χ] in
theorem init_inv : Inv (initState : State χ) (fun _ => none) where
  owned := by
    refine ⟨fun i b hb => ?_, fun i j b hb => ?_, fun b block hb => by cases hb⟩
    · cases i <;> cases hb
    · cases i <;> cases hb
  shows := fun _ => rfl

theorem Inv.valueType (h : Inv s v) (hv : v = acts.foldl value fun _ => none) :
    ValueType acts s [] := by
  have howns : ∀ {d p}, s.obj d = .live (some p) → owns s.obj (some d) = some p :=
    Slot.pointer_eq_some.mpr
  refine ⟨List.not_mem_nil, fun d => hv ▸ text_eq h d, ?_, ?_, ?_⟩
  · intro d e p hd he
    exact Option.some.inj (h.owned.apart _ _ p (howns hd) (howns he))
  · intro d p hd
    obtain ⟨bytes, hload⟩ := h.owned.good _ p (howns hd)
    exact ⟨bytes, Blocks.load_eq_some.mp hload⟩
  · intro p block hp hnone
    refine h.owned.once p block hp fun i hi => ?_
    cases i with
    | none => cases hi
    | some d => exact hnone d (Slot.pointer_eq_some.mp hi)

theorem run_inv {tr : List Event} (h : Inv s v) (hr : (objects junk).run s acts = some (s', tr)) :
    (objects junk).Along Defined s acts ∧ tr = [] ∧ Inv s' (acts.foldl value v) ∨
      ¬ (objects junk).Along Defined s acts ∧ Event.undefined ∈ tr := by
  induction acts generalizing s v tr with
  | nil =>
    obtain ⟨rfl, rfl⟩ := result_inj hr
    exact Or.inl ⟨trivial, rfl, h⟩
  | cons a acts ih =>
    obtain ⟨s₁, es, es', hs, hrest, rfl⟩ := ((objects junk).run_cons_eq_some s a acts s' tr).mp hr
    rw [(objects junk).along_cons_iff hs]
    by_cases hdef : Defined s a
    · obtain ⟨rfl, hinv⟩ := step_inv h hdef hs
      rw [and_iff_right hdef, List.nil_append]
      exact ih hinv hrest
    · exact Or.inr ⟨fun halong => hdef halong.1,
        List.mem_append_left es' (step_undefined hdef hs)⟩

/-- The two operations with a null string. -/
theorem string_value_iff (junk : Nat → Nat → χ) (acts : List (Act χ)) (s : State χ)
    (tr : List Event) (hr : (objects junk).run initState acts = some (s, tr)) :
    ValueType acts s tr ↔ (objects junk).Along Defined initState acts := by
  rcases run_inv init_inv hr with ⟨halong, rfl, hinv⟩ | ⟨hnot, hundefined⟩
  · exact iff_of_true (hinv.valueType rfl) halong
  · exact iff_of_false (fun hvalue => hvalue.defined hundefined) hnot

instance (s : State χ) : DecidablePred (Defined s)
  | .assignString d other => inferInstanceAs (Decidable (d = other ∨ s.obj other ≠ .live none))
  | .concat _ this other =>
    inferInstanceAs (Decidable (s.obj this ≠ .live none ∧ s.obj other ≠ .live none))
  | .default _ | .ofChars _ _ | .ofString _ _ | .assignChars _ _ | .destroy _ => .isTrue trivial

/-- Characters, with some in memory already. -/
def someJunk (block i : Nat) : Fin 256 := if i = 0 then 7 else if block = i then 0 else 9

def hello : CStr (Fin 256) := ⟨[72, 105], by decide⟩

/-- Strings are constructed, assigned (also from themselves, and a null one), concatenated and
destroyed. -/
def greeting : List (Act (Fin 256)) :=
  [.ofChars 0 (some hello), .default 1, .ofString 2 1, .assignString 2 2, .assignString 1 0,
    .concat 3 0 1, .assignChars 0 none, .assignString 1 3, .destroy 0, .destroy 3]

theorem string_value_greeting : ∃ s tr,
    (objects someJunk).run initState greeting = some (s, tr) ∧ ValueType greeting s tr ∧
      text s.heap (s.obj 1) = some [72, 105, 72, 105] := by
  obtain ⟨s, tr, hr, htext⟩ := (objects someJunk).exists_of_check initState greeting
    (fun s _ => text s.heap (s.obj 1) = some [72, 105, 72, 105]) (by decide)
  have halong := (objects someJunk).along_of_check (fun s a => decide (Defined s a)) greeting
    initState (by decide)
  simp only [decide_eq_true_eq] at halong
  exact ⟨s, tr, hr, (string_value_iff someJunk greeting s tr hr).mpr halong, htext⟩

/-- Copy assignment and concatenation of default-constructed strings. -/
theorem null_string_undefined :
    (∃ s tr, (objects someJunk).run initState [.default 0, .default 1, .assignString 0 1] =
      some (s, tr) ∧ Event.undefined ∈ tr ∧
        ¬ ValueType [.default 0, .default 1, .assignString 0 1] s tr) ∧
    ∃ s tr, (objects someJunk).run initState [.default 0, .default 1, .concat 2 0 1] =
      some (s, tr) ∧ Event.undefined ∈ tr ∧
        ¬ ValueType [.default 0, .default 1, .concat 2 0 1] s tr := by
  constructor
  · obtain ⟨s, tr, hr, hmem⟩ := (objects someJunk).exists_of_check initState
      [.default 0, .default 1, .assignString 0 1] (fun _ tr => Event.undefined ∈ tr) (by decide)
    exact ⟨s, tr, hr, hmem, fun hvalue => hvalue.defined hmem⟩
  · obtain ⟨s, tr, hr, hmem⟩ := (objects someJunk).exists_of_check initState
      [.default 0, .default 1, .concat 2 0 1] (fun _ tr => Event.undefined ∈ tr) (by decide)
    exact ⟨s, tr, hr, hmem, fun hvalue => hvalue.defined hmem⟩

end DemosOsLinux.StringClass
