/-
  The get_user_pages module (kernel/mod_get_user_pages.c).

  The ioctls `MAP`, `UNMAP`, `READ` and `WRITE` work on five variables of the module. What the
  kernel's functions do in a `MAP` (how much of the argument is copied, whether kmalloc_array(9)
  and vmap(9) succeed, how many pages get_user_pages(9) takes a reference on, and which) is part
  of the call. The trace has every reference and every array that is taken or given back, and the
  faults; an array without entries is an array like any other.
-/
import Mathlib.Algebra.Ring.Int.Defs
import Mathlib.Algebra.Ring.Nat
import Mathlib.Data.List.Basic
import DemosOsLinux.Lib.Machine

namespace DemosOsLinux.GetUserPages

open Lib

abbrev Page := Nat

def pageSize : Nat := 4096

/-- The variables of the module; a NULL pointer is `none`. An array of pages is named by its
    number. -/
structure Globals where
  size : Nat
  ptr : Option Nat
  vptr : Option Nat
  pages : Option Nat
  nrPages : Nat
  deriving DecidableEq

/-- An array from kmalloc_array(9), as far as it was filled. -/
structure PageArray where
  entries : List Page
  live : Bool

structure State where
  globals : Globals
  arrays : List PageArray

/-- All variables are 0 when the module is loaded. -/
def init : State := ⟨⟨0, none, none, none, 0⟩, []⟩

inductive Event where
  | allocated (id : Nat)
  | freed (id : Nat)
  /-- kfree(9) of an array that was freed before. -/
  | freedAgain (id : Nat)
  | got (p : Page)
  /-- put_page(9). -/
  | put (p : Page)
  /-- `pages[i]` of an array that was freed before. -/
  | touchedFreed (id : Nat)
  /-- `pages[i]` of no array. -/
  | touchedNull
  /-- put_page(9) of an entry that was never set. -/
  | putUnset (id : Nat)
  /-- vunmap(9). -/
  | vunmapped (vptr : Option Nat)
  /-- What a `MAP` returned, with the variables before and after. -/
  | mapReturned (res : Int) (before after : Globals)
  /-- `READ` and `WRITE` at `ptr`. -/
  | accessed (ptr : Option Nat) (n : Nat)
  deriving DecidableEq

/-- A `MAP`, with what the kernel's functions do in it. -/
structure MapCall where
  /-- The result of copy_from_user(9): the number of bytes that were not copied. -/
  notCopied : Nat
  /-- `b.pointer` and `b.size`. -/
  pointer : Nat
  size : Nat
  /-- kmalloc_array(9) succeeds. -/
  kmalloc : Bool
  /-- The result of get_user_pages(9), and page `i` of the range. -/
  res : Int
  frame : Nat → Page
  /-- The result of vmap(9). -/
  vmap : Option Nat

inductive Act where
  | map (c : MapCall)
  | unmap
  | read
  | write

/-- `bpointer % PAGE_SIZE`. -/
def MapCall.offset (c : MapCall) : Nat := c.pointer % pageSize

/-- `(newsize - 1) / PAGE_SIZE + 1`, as an unsigned int. -/
def MapCall.nrPages (c : MapCall) : Nat :=
  let newsize := (c.size + c.offset) % 2 ^ 64
  (((newsize + (2 ^ 64 - 1)) % 2 ^ 64) / pageSize + 1) % 2 ^ 32

/-- The pages that get_user_pages(9) took a reference on. -/
def MapCall.entries (c : MapCall) : List Page := (List.range c.res.toNat).map c.frame

/-- `res != nr_pages` compares as unsigned int. -/
def MapCall.gotAll (c : MapCall) : Bool := (c.res % 2 ^ 32).toNat = c.nrPages

/-- get_user_pages(9) takes at most the requested pages, or returns a negative int. -/
def MapCall.possible (c : MapCall) : Bool :=
  c.pointer < 2 ^ 64 && c.size < 2 ^ 32 && -2 ^ 31 ≤ c.res && c.res ≤ c.nrPages

def kfree (arrays : List PageArray) : Option Nat → List PageArray × List Event
  | none => (arrays, [])
  | some id =>
      match arrays[id]? with
      | some ⟨entries, true⟩ => (arrays.set id ⟨entries, false⟩, [.freed id])
      | _ => (arrays, [.freedAgain id])

/-- `put_page(pages[i])`. -/
def putPage (arrays : List PageArray) (pages : Option Nat) (i : Nat) : Event :=
  match pages with
  | none => .touchedNull
  | some id =>
      match arrays[id]? with
      | some ⟨entries, true⟩ =>
          match entries[i]? with
          | some p => .put p
          | none => .putUnset id
      | _ => .touchedFreed id

/-- `IOCTL_DEMO_MAP`. -/
def doMap (s : State) (c : MapCall) : State × List Event :=
  let g := s.globals
  if c.notCopied ≠ 0 then (s, [.mapReturned c.notCopied g g])
  else if c.kmalloc = false then
    let g' := { g with nrPages := c.nrPages, pages := none }
    -- -ENOMEM
    (⟨g', s.arrays⟩, [.mapReturned (-12) g g'])
  else
    let id := s.arrays.length
    let g₁ := { g with nrPages := c.nrPages, pages := some id }
    let taken := .allocated id :: c.entries.map .got
    if c.gotAll = false then
      -- -EFAULT
      (⟨g₁, s.arrays ++ [⟨c.entries, false⟩]⟩, taken ++ [.freed id, .mapReturned (-14) g g₁])
    else
      match c.vmap with
      | none =>
          let g₂ := { g₁ with vptr := none }
          (⟨g₂, s.arrays ++ [⟨c.entries, false⟩]⟩, taken ++ [.freed id, .mapReturned (-14) g g₂])
      | some v =>
          let g₃ :=
            { g₁ with vptr := some v, ptr := some ((v + c.offset) % 2 ^ 64), size := c.size }
          (⟨g₃, s.arrays ++ [⟨c.entries, true⟩]⟩, taken ++ [.mapReturned 0 g g₃])

/-- `IOCTL_DEMO_UNMAP`. -/
def doUnmap (s : State) : State × List Event :=
  let g := s.globals
  let u := kfree s.arrays g.pages
  (⟨⟨0, none, none, none, 0⟩, u.1⟩,
    .vunmapped g.vptr :: (List.range g.nrPages).map (putPage s.arrays g.pages) ++ u.2)

def step (s : State) : Act → Option (State × List Event)
  | .map c => if c.possible then some (doMap s c) else none
  | .unmap => some (doUnmap s)
  | .read => some (s, [.accessed s.globals.ptr (min s.globals.size 10)])
  | .write => some (s, [.accessed s.globals.ptr s.globals.size])

def driver : Machine State Act Event := ⟨step⟩

/-! ## What one call can do -/

theorem nrPages_lt {c : MapCall} (h : c.possible = true) : c.nrPages < 2 ^ 31 := by
  simp only [MapCall.possible, Bool.and_eq_true, decide_eq_true_eq] at h
  have hoff : c.offset < 4096 := Nat.mod_lt _ (by decide)
  simp only [MapCall.nrPages, pageSize]
  omega

/-- A `MAP` that got all its pages has filled the array. -/
theorem length_entries {c : MapCall} (h : c.possible = true) (hg : c.gotAll = true) :
    c.entries.length = c.nrPages := by
  have hlt := nrPages_lt h
  simp only [MapCall.possible, Bool.and_eq_true, decide_eq_true_eq] at h
  simp only [MapCall.gotAll, decide_eq_true_eq] at hg
  rw [MapCall.entries, List.length_map, List.length_range]
  omega

inductive Steps (s : State) : Act → State → List Event → Prop
  | notCopied (c : MapCall) (h : c.notCopied ≠ 0) :
      Steps s (.map c) s [.mapReturned c.notCopied s.globals s.globals]
  | noMemory (c : MapCall) (g' : Globals) (h : c.notCopied = 0) (hk : c.kmalloc = false)
      (hg : g' = { s.globals with nrPages := c.nrPages, pages := none }) :
      Steps s (.map c) ⟨g', s.arrays⟩ [.mapReturned (-12) s.globals g']
  | failed (c : MapCall) (g' : Globals) (h : c.notCopied = 0) (hk : c.kmalloc = true)
      (hf : c.gotAll = false ∨ c.vmap = none) (hg : g'.pages = some s.arrays.length) :
      Steps s (.map c) ⟨g', s.arrays ++ [⟨c.entries, false⟩]⟩
        (.allocated s.arrays.length :: c.entries.map .got ++
          [.freed s.arrays.length, .mapReturned (-14) s.globals g'])
  | mapped (c : MapCall) (g' : Globals) (h : c.notCopied = 0) (hk : c.kmalloc = true)
      (hall : c.gotAll = true) (hv : c.vmap.isSome = true)
      (hg : g'.pages = some s.arrays.length) (hn : g'.nrPages = c.entries.length) :
      Steps s (.map c) ⟨g', s.arrays ++ [⟨c.entries, true⟩]⟩
        (.allocated s.arrays.length :: c.entries.map .got ++ [.mapReturned 0 s.globals g'])
  | unmap : Steps s .unmap (doUnmap s).1 (doUnmap s).2
  | read : Steps s .read s [.accessed s.globals.ptr (min s.globals.size 10)]
  | write : Steps s .write s [.accessed s.globals.ptr s.globals.size]

theorem steps_of_step {s s' : State} {a : Act} {es : List Event}
    (h : driver.step s a = some (s', es)) : Steps s a s' es := by
  cases a with
  | map c =>
    simp only [driver, step] at h
    split at h
    case isFalse => cases h
    case isTrue hpos =>
      simp only [doMap, Option.some.injEq] at h
      split at h
      case isTrue hc =>
        cases h
        exact .notCopied c hc
      case isFalse hc =>
        have hc := not_not.mp hc
        split at h
        case isTrue hk =>
          cases h
          exact .noMemory c _ hc hk rfl
        case isFalse hk =>
          have hk := eq_true_of_ne_false hk
          split at h
          case isTrue hg =>
            cases h
            exact .failed c _ hc hk (Or.inl hg) rfl
          case isFalse hg =>
            have hg := eq_true_of_ne_false hg
            split at h
            case h_1 hv =>
              cases h
              exact .failed c _ hc hk (Or.inr hv) rfl
            case h_2 v hv =>
              cases h
              exact .mapped c _ hc hk hg (by rw [hv]; rfl) rfl (length_entries hpos hg).symm
  | unmap =>
    cases h
    exact .unmap
  | read =>
    cases h
    exact .read
  | write =>
    cases h
    exact .write

end DemosOsLinux.GetUserPages
