/-
  The phonebook (exercises/c/phonebook/phonebook_solution_full.c).

  A cell has two text fields of 20 bytes and a flag. A deleted cell keeps its texts, and the texts of
  a cell that was never used are what malloc(3) returned. The search by name does not look at the
  flag. A word is what scanf(3) reads with "%19s": at most 19 characters, no NUL.

  `used` is the only mark of an entry: `live` is the list of the entries in use, as texts.
  * `strcmp_iff`: a field compares equal to a word exactly when it holds it as a C string.
  * `findCellByName_split`: the first cell with a name, whether in use or not.
  * `right_find_iff`, `right_delete_iff`: when a command does what it must.
  * `phonebook_knows_live`: which runs report and delete live entries only.
-/
import DemosOsLinux.Lib.Machine

namespace DemosOsLinux.Phonebook

open Lib

structure Word where
  text : List UInt8
  noNul : ∀ b ∈ text, b ≠ 0
  length_le : text.length ≤ 19

/-- `phone_entry`. -/
structure Cell where
  name : List UInt8
  phone : List UInt8
  used : Bool
  name_length : name.length = 20
  phone_length : phone.length = 20
  deriving DecidableEq

/-! ## Strings -/

/-- The C string in a field; behind a field without NUL comes a NUL byte of `used`, as long as the
    cell is not in use. -/
def cstr (field : List UInt8) : List UInt8 := field.takeWhile (· ≠ 0)

/-- `strcmp(word, field) == 0`. -/
def strcmpEq : List UInt8 → List UInt8 → Bool
  | [], field => field.head? = some 0
  | _ :: _, [] => false
  | x :: xs, y :: ys => x = y && strcmpEq xs ys

/-- `scanf("%19s", field)` that reads `word`. -/
def scanfInto (field word : List UInt8) : List UInt8 := word ++ 0 :: field.drop (word.length + 1)

variable {word : List UInt8}

theorem strcmp_iff {field : List UInt8} (hnul : ∀ b ∈ word, b ≠ 0)
    (hlen : word.length < field.length) : strcmpEq word field = true ↔ cstr field = word := by
  induction word generalizing field with
  | nil =>
    cases field with
    | nil => cases hlen
    | cons y ys =>
      by_cases hy : y = 0
      · simp [strcmpEq, cstr, hy]
      · simp [strcmpEq, cstr, hy]
  | cons x xs ih =>
    cases field with
    | nil => cases hlen
    | cons y ys =>
      have hx : x ≠ 0 := hnul x List.mem_cons_self
      have hxs : strcmpEq xs ys = true ↔ cstr ys = xs :=
        ih (fun b hb => hnul b (List.mem_cons_of_mem x hb)) (Nat.lt_of_succ_lt_succ hlen)
      by_cases hy : y = 0
      · subst hy
        simp [strcmpEq, cstr, hx]
      · have hstr : cstr (y :: ys) = y :: cstr ys := by simp [cstr, hy]
        rw [hstr, List.cons.injEq, strcmpEq, Bool.and_eq_true, decide_eq_true_eq, hxs]
        exact and_congr_left' eq_comm

theorem cstr_scanfInto (field : List UInt8) (hnul : ∀ b ∈ word, b ≠ 0) :
    cstr (scanfInto field word) = word := by
  have hword : ∀ x ∈ word, decide (x ≠ 0) = true := fun x hx =>
    decide_eq_true (hnul x hx)
  rw [cstr, scanfInto, List.takeWhile_append_of_pos hword]
  simp

theorem length_scanfInto {field : List UInt8} (hlen : word.length < field.length) :
    (scanfInto field word).length = field.length := by
  simp only [scanfInto, List.length_append, List.length_cons, List.length_drop]
  omega

/-! ## The commands -/

inductive Event where
  | phone (name phone : List UInt8)
  | entry (name phone : List UInt8)
  | error (msg : String)
  deriving DecidableEq

/-- `find_empty_cell`; `none` when the program gives up. -/
def findEmptyCell (book : List Cell) : Option Nat := book.findIdx? fun c => !c.used

/-- `find_cell_by_name`; `none` is -1. -/
def findCellByName (book : List Cell) (name : Word) : Option Nat :=
  book.findIdx? fun c => strcmpEq name.text c.name

def Cell.fill (c : Cell) (name phone : Word) : Cell where
  name := scanfInto c.name name.text
  phone := scanfInto c.phone phone.text
  used := true
  name_length := by
    rw [length_scanfInto, c.name_length]
    exact c.name_length ▸ Nat.lt_of_le_of_lt name.length_le (by decide)
  phone_length := by
    rw [length_scanfInto, c.phone_length]
    exact c.phone_length ▸ Nat.lt_of_le_of_lt phone.length_le (by decide)

/-- `add_entry`. -/
def addEntry (book : List Cell) (name phone : Word) : Option (List Cell) :=
  (findEmptyCell book).map fun i => book.modify i fun c => c.fill name phone

/-- `delete_entry`. -/
def deleteEntry (book : List Cell) (name : Word) : List Cell × List Event :=
  match findCellByName book name with
  | none => (book, [.error "you moron! give me a name in the book\n"])
  | some i => (book.modify i fun c => { c with used := false }, [])

/-- `find_entry`. -/
def findEntry (book : List Cell) (name : Word) : List Event :=
  match findCellByName book name with
  | none => [.error "you moron! there is no one by that name\n"]
  | some i => (book[i]?.map fun c => Event.phone name.text (cstr c.phone)).toList

/-- `print_phonebook`. -/
def printPhonebook (book : List Cell) : List Event :=
  (book.filter (·.used)).map fun c => .entry (cstr c.name) (cstr c.phone)

inductive Cmd where
  | add (name phone : Word)
  | delete (name : Word)
  | find (name : Word)
  | print

def step (book : List Cell) : Cmd → Option (List Cell × List Event)
  | .add name phone => (addEntry book name phone).map fun book' => (book', [])
  | .delete name => some (deleteEntry book name)
  | .find name => some (book, findEntry book name)
  | .print => some (book, printPhonebook book)

def phonebook : Machine (List Cell) Cmd Event := ⟨step⟩

/-! ## Entries -/

def Cell.entry (c : Cell) : List UInt8 × List UInt8 := (cstr c.name, cstr c.phone)

/-- The entries in use. -/
def live (book : List Cell) : List (List UInt8 × List UInt8) :=
  (book.filter (·.used)).map Cell.entry

/-- Some entry in use has this name. -/
def Known (book : List Cell) (name : Word) : Prop := name.text ∈ (live book).map Prod.fst

/-- The first cell that holds a name, in use or not. -/
def firstNamed (book : List Cell) (name : Word) : Option Cell :=
  book.find? fun c => decide (cstr c.name = name.text)

/-- What a command must do. An entry is added; of the entries with a name one is removed, if there
    are any; the phone of such an entry is reported, if there are any. -/
def Right (book : List Cell) (cmd : Cmd) : Prop :=
  ∀ book' es, phonebook.step book cmd = some (book', es) →
    match cmd with
    | .add name phone =>
        ∃ l r, live book = l ++ r ∧ live book' = l ++ (name.text, phone.text) :: r
    | .delete name =>
        (Known book name → ∃ l phone r, live book = l ++ (name.text, phone) :: r ∧
          live book' = l ++ r) ∧ (¬Known book name → live book' = live book)
    | .find name =>
        live book' = live book ∧ ((∃ phone, .phone name.text phone ∈ es) ↔ Known book name) ∧
          ∀ phone, .phone name.text phone ∈ es → (name.text, phone) ∈ live book
    | .print => live book' = live book

/-- The first cell that holds the name is in use, or no cell holds it; a `delete` of a name that is
    not in use may meet any cell. -/
def Clean (book : List Cell) : Cmd → Prop
  | .delete name => Known book name → ∀ c ∈ firstNamed book name, c.used = true
  | .find name => ∀ c ∈ firstNamed book name, c.used = true
  | _ => True

/-- No cell that is not in use repeats an entry, name and phone. -/
def Distinct (book : List Cell) : Prop := ∀ c ∈ book, c.used = false → c.entry ∉ live book

section Search

variable {book : List Cell} {name : Word}

theorem strcmpEq_eq (c : Cell) (name : Word) :
    strcmpEq name.text c.name = decide (cstr c.name = name.text) := by
  have hlen : name.text.length < c.name.length := by
    rw [c.name_length]
    exact Nat.lt_of_le_of_lt name.length_le (by decide)
  rw [Bool.eq_iff_iff, decide_eq_true_eq]
  exact strcmp_iff name.noNul hlen

/-- A search that succeeds cuts the book at the first cell that it looks for. -/
theorem findIdx_split {p : Cell → Bool} {i : Nat} (h : book.findIdx? p = some i) :
    ∃ l c r, book = l ++ c :: r ∧ i = l.length ∧ p c = true ∧ ∀ d ∈ l, p d = false := by
  induction book generalizing i with
  | nil => cases h
  | cons x xs ih =>
    rw [List.findIdx?_cons] at h
    split at h
    · rename_i hx
      exact ⟨[], x, xs, rfl, (Option.some.inj h).symm, hx, nofun⟩
    · rename_i hx
      obtain ⟨j, hj, rfl⟩ := Option.map_eq_some_iff.mp h
      obtain ⟨l, c, r, rfl, rfl, hc, hl⟩ := ih hj
      refine ⟨x :: l, c, r, rfl, rfl, hc, fun d hd => ?_⟩
      rcases List.mem_cons.mp hd with rfl | hd
      · exact eq_false_of_ne_true hx
      · exact hl d hd

theorem modify_length (l : List Cell) (c : Cell) (r : List Cell) (f : Cell → Cell) :
    (l ++ c :: r).modify l.length f = l ++ f c :: r := by
  induction l with
  | nil => rfl
  | cons x l ih => rw [List.cons_append, List.length_cons, List.modify_succ_cons, ih, List.cons_append]

/-- The search by name finds the first cell with the name. -/
theorem findCellByName_split {i : Nat} (h : findCellByName book name = some i) :
    ∃ l c r, book = l ++ c :: r ∧ i = l.length ∧ cstr c.name = name.text ∧
      firstNamed book name = some c := by
  obtain ⟨l, c, r, rfl, rfl, hc, hl⟩ := findIdx_split h
  rw [strcmpEq_eq] at hc
  refine ⟨l, c, r, rfl, rfl, of_decide_eq_true hc, ?_⟩
  refine List.find?_eq_some_iff_append.mpr ⟨hc, l, r, rfl, fun d hd => ?_⟩
  rw [← strcmpEq_eq, hl d hd]
  rfl

theorem mem_live {e : List UInt8 × List UInt8} :
    e ∈ live book ↔ ∃ c ∈ book, c.used = true ∧ c.entry = e := by
  simp [live, and_assoc]

theorem known_iff : Known book name ↔ ∃ c ∈ book, c.used = true ∧ cstr c.name = name.text := by
  simp only [Known, List.mem_map, mem_live]
  constructor
  · rintro ⟨e, ⟨c, hc, hused, rfl⟩, hname⟩
    exact ⟨c, hc, hused, hname⟩
  · rintro ⟨c, hc, hused, hname⟩
    exact ⟨c.entry, ⟨c, hc, hused, rfl⟩, hname⟩

theorem findCellByName_none (h : findCellByName book name = none) :
    firstNamed book name = none ∧ ¬Known book name := by
  have hne : ∀ c ∈ book, cstr c.name ≠ name.text := fun c hc => by
    have hfalse := List.findIdx?_eq_none_iff.mp h c hc
    rw [strcmpEq_eq] at hfalse
    exact of_decide_eq_false hfalse
  constructor
  · exact List.find?_eq_none.mpr fun c hc => by simpa using hne c hc
  · rw [known_iff]
    rintro ⟨c, hc, _, hname⟩
    exact hne c hc hname

theorem live_used (l : List Cell) {c : Cell} (r : List Cell) (hused : c.used = true) :
    live (l ++ c :: r) = live l ++ c.entry :: live r := by
  simp [live, hused]

theorem live_unused (l : List Cell) {c : Cell} (r : List Cell) (hused : c.used = false) :
    live (l ++ c :: r) = live l ++ live r := by
  simp [live, hused]

end Search

/-! ## One command -/

section Step

variable (book : List Cell)

/-- The new entry goes to the first cell that is not in use. -/
theorem right_add (name phone : Word) : Right book (.add name phone) := by
  intro book' es h
  obtain ⟨book₁, hadd, heq⟩ := Option.map_eq_some_iff.mp h
  obtain ⟨rfl, _⟩ := Prod.mk.inj heq
  obtain ⟨i, hi, rfl⟩ := Option.map_eq_some_iff.mp hadd
  obtain ⟨l, c, r, rfl, rfl, hc, _⟩ := findIdx_split hi
  have hentry : (c.fill name phone).entry = (name.text, phone.text) :=
    Prod.ext (cstr_scanfInto c.name name.noNul) (cstr_scanfInto c.phone phone.noNul)
  refine ⟨live l, live r, live_unused l r (by simpa using hc), ?_⟩
  rw [modify_length, live_used l r rfl, hentry]

theorem right_delete_iff (name : Word) : Right book (.delete name) ↔ Clean book (.delete name) := by
  have hstep (book' : List Cell) (es : List Event) :
      phonebook.step book (.delete name) = some (book', es) ↔ deleteEntry book name = (book', es) :=
    Option.some_inj
  simp only [Right, hstep]
  cases hfind : findCellByName book name with
  | none =>
    obtain ⟨hfirst, hunknown⟩ := findCellByName_none hfind
    refine iff_of_true ?_ ?_
    · intro book' es h
      simp only [deleteEntry, hfind] at h
      obtain ⟨rfl, _⟩ := Prod.mk.inj h
      exact ⟨fun hknown => absurd hknown hunknown, fun _ => rfl⟩
    · exact fun hknown => absurd hknown hunknown
  | some i =>
    obtain ⟨l, c, r, rfl, rfl, hname, hfirst⟩ := findCellByName_split hfind
    have hdelete : deleteEntry (l ++ c :: r) name = (l ++ { c with used := false } :: r, []) := by
      simp only [deleteEntry, hfind, modify_length]
    have hlive : live (l ++ { c with used := false } :: r) = live l ++ live r :=
      live_unused l r rfl
    simp only [hdelete, Clean, hfirst]
    cases hused : c.used with
    | true =>
      have hknown : Known (l ++ c :: r) name := known_iff.mpr ⟨c, by simp, hused, hname⟩
      refine iff_of_true ?_ ?_
      · intro book' es h
        obtain ⟨rfl, _⟩ := Prod.mk.inj h
        refine ⟨fun _ => ⟨live l, cstr c.phone, live r, ?_, hlive⟩,
          fun hunknown => absurd hknown hunknown⟩
        rw [live_used l r hused, ← hname]
        rfl
      · intro _ d hd
        obtain rfl := Option.some.inj hd
        exact hused
    | false =>
      -- the cell was deleted before, or never used: nothing is removed
      have hsame : live (l ++ { c with used := false } :: r) = live (l ++ c :: r) := by
        rw [hlive, live_unused l r hused]
      constructor
      · intro hright hknown d hd
        obtain ⟨l', phone, r', hbefore, hafter⟩ := (hright _ _ rfl).1 hknown
        have hlen := congrArg List.length (hbefore.symm.trans (hsame.symm.trans hafter))
        simp at hlen
      · intro hclean book' es h
        obtain ⟨rfl, _⟩ := Prod.mk.inj h
        refine ⟨fun hknown => ?_, fun _ => hsame⟩
        have hyes := hclean hknown c rfl
        rw [hused] at hyes
        cases hyes

/-- A `find` reports the phone of the first cell with the name, so a live entry must have it. -/
theorem right_find_iff (name : Word) : Right book (.find name) ↔
    ∀ c ∈ firstNamed book name, (name.text, cstr c.phone) ∈ live book := by
  have hstep (book' : List Cell) (es : List Event) :
      phonebook.step book (.find name) = some (book', es) ↔ book = book' ∧ findEntry book name = es :=
    Option.some_inj.trans (iff_of_eq (Prod.mk.injEq _ _ _ _))
  simp only [Right, hstep]
  cases hfind : findCellByName book name with
  | none =>
    obtain ⟨hfirst, hunknown⟩ := findCellByName_none hfind
    have hreport : findEntry book name = [.error "you moron! there is no one by that name\n"] := by
      simp only [findEntry, hfind]
    refine iff_of_true ?_ ?_
    · rintro book' es ⟨rfl, rfl⟩
      rw [hreport]
      simp [hunknown]
    · intro c hc
      rw [hfirst] at hc
      cases hc
  | some i =>
    obtain ⟨l, c, r, rfl, rfl, hname, hfirst⟩ := findCellByName_split hfind
    have hreport : findEntry (l ++ c :: r) name = [.phone name.text (cstr c.phone)] := by
      simp [findEntry, hfind]
    constructor
    · intro hright d hd
      rw [hfirst] at hd
      obtain rfl := Option.some.inj hd
      obtain ⟨_, _, hbelongs⟩ := hright _ _ ⟨rfl, rfl⟩
      exact hbelongs (cstr c.phone) (by rw [hreport]; exact List.mem_singleton_self _)
    · rintro hclean book' es ⟨rfl, rfl⟩
      have hlive := hclean c hfirst
      have hknown : Known (l ++ c :: r) name := List.mem_map_of_mem hlive
      rw [hreport]
      refine ⟨rfl, iff_of_true ⟨_, List.mem_singleton_self _⟩ hknown, fun phone hphone => ?_⟩
      obtain ⟨_, rfl⟩ := Event.phone.inj (List.mem_singleton.mp hphone)
      exact hlive

theorem firstNamed_spec {book : List Cell} {name : Word} {c : Cell}
    (h : firstNamed book name = some c) : c ∈ book ∧ c.entry = (name.text, cstr c.phone) := by
  unfold firstNamed at h
  have hname := List.find?_some h
  exact ⟨List.mem_of_find?_eq_some h, Prod.ext (of_decide_eq_true hname) rfl⟩

theorem right_of_clean (cmd : Cmd) (h : Clean book cmd) : Right book cmd := by
  cases cmd with
  | add name phone => exact right_add book name phone
  | delete name => exact (right_delete_iff book name).mpr h
  | find name =>
    refine (right_find_iff book name).mpr fun c hc => ?_
    obtain ⟨hmem, hentry⟩ := firstNamed_spec hc
    exact mem_live.mpr ⟨c, hmem, h c hc, hentry⟩
  | print =>
    intro book' es h
    obtain ⟨rfl, _⟩ := result_inj h
    rfl

theorem clean_of_right (hdistinct : Distinct book) (cmd : Cmd) (h : Right book cmd) :
    Clean book cmd := by
  cases cmd with
  | add name phone => trivial
  | delete name => exact (right_delete_iff book name).mp h
  | find name =>
    intro c hc
    obtain ⟨hmem, hentry⟩ := firstNamed_spec hc
    refine eq_true_of_ne_false fun hused => hdistinct c hmem hused ?_
    rw [hentry]
    exact (right_find_iff book name).mp h c hc
  | print => trivial

end Step

/-! ## Whole runs -/

/-- **The phonebook knows live entries only.** Any texts in the cells at the start, any commands that
    do not overflow the book: if at each search the first cell with the name is in use, or none has
    it, every command of the run does what it must. Where no cell that is not in use repeats an
    entry, it does so only then; otherwise a `find` may report the right phone from a cell that is
    not in use. -/
theorem phonebook_knows_live (book₀ : List Cell) (cmds : List Cmd) :
    (phonebook.Along Clean book₀ cmds → phonebook.Along Right book₀ cmds) ∧
    (phonebook.Along (fun book _ => Distinct book) book₀ cmds → phonebook.Along Right book₀ cmds →
      phonebook.Along Clean book₀ cmds) := by
  constructor
  · exact phonebook.along_imp (fun _ => True) (fun _ _ _ _ _ _ _ => trivial)
      (fun book cmd _ => right_of_clean book cmd) trivial
  · intro hdistinct hright
    exact phonebook.along_imp (fun _ => True) (fun _ _ _ _ _ _ _ => trivial)
      (fun book cmd _ h => clean_of_right book h.1 cmd h.2) trivial
      (phonebook.along_and hdistinct hright)

instance (book : List Cell) (cmd : Cmd) : Decidable (Clean book cmd) :=
  match cmd with
  | .delete name => inferInstanceAs (Decidable (name.text ∈ (live book).map Prod.fst →
      ∀ c ∈ firstNamed book name, c.used = true))
  | .find name => inferInstanceAs (Decidable (∀ c ∈ firstNamed book name, c.used = true))
  | .add _ _ | .print => inferInstanceAs (Decidable True)

/-- The book of `main`, here with empty texts. -/
def emptyBook : List Cell :=
  List.replicate 100 ⟨List.replicate 20 0, List.replicate 20 0, false, rfl, rfl⟩

def bob : Word := ⟨[98, 111, 98], by simp, by decide⟩

def eve : Word := ⟨[101, 118, 101], by simp, by decide⟩

def one : Word := ⟨[49], by simp, by decide⟩

def two : Word := ⟨[50], by simp, by decide⟩

/-- Each name is deleted once and not looked for afterwards. -/
def cleanRun : List Cmd :=
  [.add bob one, .add eve two, .find bob, .delete bob, .find eve, .add eve one, .print]

theorem phonebook_knows_live_cleanRun :
    ∃ book tr, phonebook.run emptyBook cleanRun = some (book, tr) ∧
      live book = [(eve.text, one.text), (eve.text, two.text)] ∧
      phonebook.Along Right emptyBook cleanRun := by
  obtain ⟨book, tr, hr, hlive⟩ := phonebook.exists_of_check emptyBook cleanRun
    (fun book _ => live book = [(eve.text, one.text), (eve.text, two.text)]) (by decide +kernel)
  have hclean := phonebook.along_of_check (fun book cmd => decide (Clean book cmd)) cleanRun emptyBook
    (by decide +kernel)
  simp only [decide_eq_true_eq] at hclean
  exact ⟨book, tr, hr, hlive, (phonebook_knows_live emptyBook cleanRun).1 hclean⟩

/-- The phone of a deleted entry is still reported. Of two entries with one name the second cannot be
    deleted after the first. -/
theorem deleted_entry_found :
    (∃ book tr, phonebook.run emptyBook [.add bob one, .delete bob] = some (book, tr) ∧
      (live book = [] ∧ findEntry book bob = [.phone bob.text one.text]) ∧
      ¬Right book (.find bob)) ∧
    (∃ book tr, phonebook.run emptyBook [.add bob one, .add bob two, .delete bob] =
        some (book, tr) ∧
      (live book = [(bob.text, two.text)] ∧ (deleteEntry book bob).1 = book) ∧
      ¬Right book (.delete bob)) := by
  constructor
  · obtain ⟨book, tr, hr, hlive, hfind, hclean⟩ := phonebook.exists_of_check emptyBook
      [.add bob one, .delete bob] (fun book _ => live book = [] ∧
        findEntry book bob = [.phone bob.text one.text] ∧
        ¬∀ c ∈ firstNamed book bob, (bob.text, cstr c.phone) ∈ live book) (by decide +kernel)
    exact ⟨book, tr, hr, ⟨hlive, hfind⟩, fun h => hclean ((right_find_iff _ _).mp h)⟩
  · obtain ⟨book, tr, hr, hlive, hsame, hclean⟩ := phonebook.exists_of_check emptyBook
      [.add bob one, .add bob two, .delete bob] (fun book _ => live book = [(bob.text, two.text)] ∧
        (deleteEntry book bob).1 = book ∧ ¬Clean book (.delete bob)) (by decide +kernel)
    exact ⟨book, tr, hr, ⟨hlive, hsame⟩, fun h => hclean ((right_delete_iff _ _).mp h)⟩

end DemosOsLinux.Phonebook
