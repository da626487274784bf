/-
  The print spooler (exercises/c/client_server: the client mylpr.c and the server solution.c).

  The two programs share the index file: the header `currid`, then records of fixed size. Both
  lock the whole file, so a run of either is one step. A client run puts a job into the record at
  `currid`, which goes back to 0 behind record 128; a server run prints the first job of the file
  and marks its record free.
  A read(2) at the end of the file leaves the buffer as it is: that of the client then holds
  what was there before (`garbage`), that of the server's loop the record read last.
  * `scan_used`, `scan_free`: the loop of the server stops at the first record in use, and only
    there.
  * `IndexInv`: the shape of the file.
  * `server_terminates_iff`: when the server stops.
-/
import DemosOsLinux.Lib.Machine

namespace DemosOsLinux.Spooler

open Lib

/-- `MAXINDEXSIZE`. -/
def maxIndexSize : Nat := 128

/-- `struct index`; the path is the string up to its NUL, and with it fits `path[MAXPATHLEN]`: at most
    4095 bytes. -/
structure Record where
  id : Nat
  path : List UInt8
  deriving DecidableEq

def Record.used (r : Record) : Bool := 0 < r.id

/-- A file that is not empty. -/
structure Index where
  currid : Nat
  records : List Record

/-- The file; `none` when its size is 0. -/
abbrev File := Option Index

inductive Event where
  /-- "file %s spooled, JobID: %u", in record `k`. -/
  | spooled (k id : Nat) (path : List UInt8)
  /-- "Index table full. Retry print later". -/
  | full
  /-- "Now printing job: %u file: %s", from record `k`. -/
  | printing (k id : Nat) (path : List UInt8)
  /-- A failed lseek(2) in the server. -/
  | checkFailed

/-- write(2) of a record at position `k`; a gap before it reads as zeros. -/
def writeRecord (records : List Record) (k : Nat) (r : Record) : List Record :=
  (records ++ List.replicate (k + 1 - records.length) (⟨0, []⟩ : Record)).set k r

/-- The header as the client uses it. -/
def clientId : File → Nat
  | none => 0
  | some ix => if ix.currid > maxIndexSize then 0 else ix.currid

/-- read(2) of the record at position `k`; `none` at the end of the file. -/
def readRecord (f : File) (k : Nat) : Option Record := f.bind fun ix => ix.records[k]?

def records (f : File) : List Record := (f.map Index.records).getD []

/-- A run of mylpr.c for a path of at most 4095 bytes: strcpy(3) would write a longer one past the end
    of its record. -/
def client (path : List UInt8) (garbage : Record) (f : File) : File × List Event :=
  let currid := clientId f
  let buffer := (readRecord f currid).getD garbage
  if buffer.used then (f, [.full])
  else
    (some ⟨currid + 1, writeRecord (records f) currid ⟨currid + 1, path⟩⟩,
      [.spooled currid (currid + 1) path])

/-- `while(buffer.ID==0 && bufsize > 0)` for a positive `bufsize`: `rest` is the file from the
    current position on, `pos` the number of records before it. -/
def scan : Nat → Nat → List Record → Record → Option (Nat × Record)
  | 0, pos, _, buffer => if buffer.used then some (pos, buffer) else none
  | fuel + 1, pos, rest, buffer =>
      if buffer.used then some (pos, buffer)
      else
        match rest with
        | r :: rest => scan fuel (pos + 1) rest r
        -- nothing is read, and the buffer is tested again
        | [] => scan fuel pos [] buffer

/-- From "if (buffer.ID > 0)" on. -/
def finish (ix : Index) (pos : Nat) (buffer : Record) : File × List Event :=
  let printing := if buffer.used then [Event.printing (pos - 1) buffer.id buffer.path] else []
  if pos = 0 then (some ix, printing ++ [.checkFailed])
  else
    (some { ix with records := writeRecord ix.records (pos - 1) { buffer with id := 0 } },
      printing)

/-- A run of solution.c; `none` if `fuel` turns of its loop are not enough. -/
def server (fuel : Nat) (garbage : Record) : File → Option (File × List Event)
  | none =>
      -- the file is written first, so both reads are at its end
      some (finish ⟨0, [⟨0, []⟩]⟩ 1 ⟨0, []⟩)
  | some ix =>
      match ix.records with
      | [] => some (finish ix 0 garbage)
      | r :: rest => (scan fuel 1 rest r).map fun u => finish ix u.1 u.2

inductive Act where
  | client (path : List UInt8) (garbage : Record)
  | server (garbage : Record)

/-- The loop of a server run that ends makes less turns than there are records. -/
def step (f : File) : Act → Option (File × List Event)
  | .client path garbage => some (client path garbage f)
  | .server garbage => server (records f).length garbage f

def spooler : Machine File Act Event := ⟨step⟩

/-! ## Records -/

section Records

variable {rs : List Record} {k i : Nat} {r : Record}

theorem writeRecord_of_lt (h : k < rs.length) : writeRecord rs k r = rs.set k r := by
  rw [writeRecord, show k + 1 - rs.length = 0 by omega, List.replicate_zero, List.append_nil]

theorem writeRecord_length (rs : List Record) (r : Record) :
    writeRecord rs rs.length r = rs ++ [r] := by
  rw [writeRecord, show rs.length + 1 - rs.length = 1 by omega, List.replicate_one,
    List.set_append_right _ _ (Nat.le_refl _), Nat.sub_self]
  rfl

theorem writeRecord_self (h : k ≤ rs.length) : (writeRecord rs k r)[k]? = some r := by
  rcases Nat.lt_or_eq_of_le h with hlt | rfl
  · rw [writeRecord_of_lt hlt, List.getElem?_set_self hlt]
  · rw [writeRecord_length]
    exact List.getElem?_concat_length

theorem writeRecord_of_ne (h : k ≤ rs.length) (hne : i ≠ k) :
    (writeRecord rs k r)[i]? = rs[i]? := by
  rcases Nat.lt_or_eq_of_le h with hlt | rfl
  · rw [writeRecord_of_lt hlt, List.getElem?_set_ne hne.symm]
  · rw [writeRecord_length]
    rcases Nat.lt_or_ge i rs.length with hi | hi
    · exact List.getElem?_append_left hi
    · rw [List.getElem?_eq_none hi, List.getElem?_eq_none]
      rw [List.length_append, List.length_singleton]
      omega

theorem length_writeRecord (h : k ≤ rs.length) :
    (writeRecord rs k r).length = max rs.length (k + 1) := by
  rw [writeRecord, List.length_set, List.length_append, List.length_replicate]
  omega

end Records

/-! ## The loop of the server -/

variable {rest : List Record} {buffer r : Record} {fuel : Nat} {f : File} {u : File × List Event}

theorem scan_of_used {pos : Nat} (h : buffer.used = true) :
    scan fuel pos rest buffer = some (pos, buffer) := by
  cases fuel <;> simp [scan, h]

/-- The loop stops at the first record in use. -/
theorem scan_used {zs : List Record} (hz : ∀ z ∈ zs, z.used = false) (hr : r.used = true)
    {pos : Nat} (hb : buffer.used = false) (hfuel : zs.length < fuel) :
    scan fuel pos (zs ++ r :: rest) buffer = some (pos + zs.length + 1, r) := by
  induction zs generalizing fuel pos buffer with
  | nil =>
    obtain ⟨fuel, rfl⟩ := Nat.exists_eq_add_one_of_ne_zero (Nat.ne_zero_of_lt hfuel)
    rw [List.nil_append, scan, if_neg (by simp [hb]), scan_of_used hr]
    rfl
  | cons z zs ih =>
    obtain ⟨fuel, rfl⟩ := Nat.exists_eq_add_one_of_ne_zero (Nat.ne_zero_of_lt hfuel)
    rw [List.length_cons] at hfuel
    rw [List.cons_append, scan, if_neg (by simp [hb]),
      ih (fun z' hz' => hz z' (List.mem_cons_of_mem z hz')) (hz z List.mem_cons_self)
        (by omega), List.length_cons]
    congr 2
    omega

/-- Without one it does not stop. -/
theorem scan_free (hz : ∀ z ∈ rest, z.used = false) (hb : buffer.used = false) (fuel pos : Nat) :
    scan fuel pos rest buffer = none := by
  induction fuel generalizing pos rest buffer with
  | zero => rw [scan, if_neg (by simp [hb])]
  | succ fuel ih =>
    cases rest with
    | nil =>
      rw [scan, if_neg (by simp [hb])]
      exact ih hz hb pos
    | cons z rest =>
      rw [scan, if_neg (by simp [hb])]
      exact ih (fun z' hz' => hz z' (List.mem_cons_of_mem z hz')) (hz z List.mem_cons_self) _

/-! ## What one run can do -/

/-- The first record in use, if there is one. -/
theorem free_or_split (rs : List Record) :
    (∀ z ∈ rs, z.used = false) ∨
      ∃ zs r rest, rs = zs ++ r :: rest ∧ (∀ z ∈ zs, z.used = false) ∧ r.used = true := by
  cases h : rs.find? Record.used with
  | none => exact Or.inl fun z hz => by simpa using List.find?_eq_none.mp h z hz
  | some r =>
    obtain ⟨hr, zs, rest, rfl, hz⟩ := List.find?_eq_some_iff_append.mp h
    exact Or.inr ⟨zs, r, rest, rfl, fun z hz' => by simpa using hz z hz', hr⟩

theorem server_used {ix : Index} {zs : List Record} (hrs : ix.records = zs ++ r :: rest)
    (hz : ∀ z ∈ zs, z.used = false) (hr : r.used = true) (hfuel : zs.length ≤ fuel)
    (garbage : Record) : server fuel garbage (some ix) = some (finish ix (zs.length + 1) r) := by
  cases zs with
  | nil => simp only [server, hrs, List.nil_append, scan_of_used hr, Option.map_some,
      List.length_nil]
  | cons z zs =>
    rw [List.length_cons] at hfuel
    have hscan : scan fuel 1 (zs ++ r :: rest) z = some (1 + zs.length + 1, r) :=
      scan_used (fun z' hz' => hz z' (List.mem_cons_of_mem z hz')) hr (hz z List.mem_cons_self)
        hfuel
    simp only [server, hrs, List.cons_append, hscan, Option.map_some, List.length_cons]
    rw [Nat.add_comm 1]

theorem server_free {ix : Index} (hne : ix.records ≠ []) (hz : ∀ z ∈ ix.records, z.used = false)
    (fuel : Nat) (garbage : Record) : server fuel garbage (some ix) = none := by
  obtain ⟨r, rest, hrs⟩ := List.exists_cons_of_ne_nil hne
  rw [hrs] at hz
  have hscan := scan_free (fun z hz' => hz z (List.mem_cons_of_mem r hz'))
    (hz r List.mem_cons_self) fuel 1
  simp only [server, hrs, hscan, Option.map_none]

theorem scan_mono {pos : Nat} {u : Nat × Record} (h : scan fuel pos rest buffer = some u)
    (more : Nat) : scan (fuel + more) pos rest buffer = some u := by
  induction fuel generalizing pos rest buffer with
  | zero =>
    rw [scan] at h
    split at h
    · rename_i hb
      rw [scan_of_used hb, h]
    · cases h
  | succ fuel ih =>
    by_cases hb : buffer.used = true
    · rw [scan_of_used hb] at h ⊢
      exact h
    · rw [Nat.add_right_comm]
      cases rest with
      | nil =>
        rw [scan, if_neg hb] at h ⊢
        exact ih h
      | cons r rest =>
        rw [scan, if_neg hb] at h ⊢
        exact ih h

theorem server_mono {garbage : Record} (h : server fuel garbage f = some u) (more : Nat) :
    server (fuel + more) garbage f = some u := by
  cases f with
  | none => exact h
  | some ix =>
    unfold server at h ⊢
    cases hrs : ix.records with
    | nil =>
      simp only [hrs] at h ⊢
      exact h
    | cons r rest =>
      simp only [hrs] at h ⊢
      obtain ⟨v, hv, rfl⟩ := Option.map_eq_some_iff.mp h
      rw [scan_mono hv more]
      rfl

/-- The steps of the server are its runs that end. -/
theorem step_of_server {garbage : Record} (h : server fuel garbage f = some u) :
    spooler.step f (.server garbage) = some u := by
  change server (records f).length garbage f = some u
  have hmore := server_mono h (records f).length
  cases f with
  | none => exact hmore
  | some ix =>
    rcases free_or_split ix.records with hz | ⟨zs, r, rest, hrs, hz, hr⟩
    · by_cases hne : ix.records = []
      · simp only [server, hne] at h ⊢
        exact h
      · rw [server_free hne hz] at h
        cases h
    · have hlen : zs.length ≤ (records (some ix)).length := by
        change zs.length ≤ ix.records.length
        rw [hrs, List.length_append]
        exact Nat.le_add_right _ _
      rw [server_used hrs hz hr hlen]
      rw [server_used hrs hz hr (Nat.le_add_left_of_le hlen)] at hmore
      exact hmore

/-- What one run of the client or of the server can do. -/
inductive Steps (f : File) : Act → File → List Event → Prop
  | full (path : List UInt8) (garbage : Record)
      (h : ((readRecord f (clientId f)).getD garbage).used = true) :
      Steps f (.client path garbage) f [.full]
  | spooled (path : List UInt8) (garbage : Record)
      (h : ((readRecord f (clientId f)).getD garbage).used = false) :
      Steps f (.client path garbage)
        (some ⟨clientId f + 1,
          writeRecord (records f) (clientId f) ⟨clientId f + 1, path⟩⟩)
        [.spooled (clientId f) (clientId f + 1) path]
  | first (garbage : Record) (h : f = none) :
      Steps f (.server garbage) (some ⟨0, [⟨0, []⟩]⟩) []
  | print (garbage : Record) (ix : Index) (zs rest : List Record) (r : Record) (h : f = some ix)
      (hrs : ix.records = zs ++ r :: rest) (hz : ∀ z ∈ zs, z.used = false)
      (hr : r.used = true) :
      Steps f (.server garbage)
        (some { ix with records := writeRecord ix.records zs.length { r with id := 0 } })
        [.printing zs.length r.id r.path]
  | bare (garbage : Record) (ix : Index) (f' : File) (es : List Event) (h : f = some ix)
      (hrs : ix.records = []) : Steps f (.server garbage) f' es

theorem steps_of_step {f' : File} {a : Act} {es : List Event}
    (h : spooler.step f a = some (f', es)) : Steps f a f' es := by
  cases a with
  | client path garbage =>
    cases hb : ((readRecord f (clientId f)).getD garbage).used with
    | true =>
      simp only [spooler, step, client, hb, if_true] at h
      cases h
      exact .full path garbage hb
    | false =>
      simp only [spooler, step, client, hb] at h
      cases h
      exact .spooled path garbage hb
  | server garbage =>
    cases f with
    | none =>
      cases h
      exact .first garbage rfl
    | some ix =>
      by_cases hne : ix.records = []
      · exact .bare garbage ix f' es rfl hne
      · rcases free_or_split ix.records with hz | ⟨zs, r, rest, hrs, hz, hr⟩
        · have hs : server (records (some ix)).length garbage (some ix) = some (f', es) := h
          rw [server_free hne hz] at hs
          cases hs
        · have hs : server ix.records.length garbage (some ix) = some (f', es) := h
          have hlen : zs.length ≤ ix.records.length := by
            rw [hrs, List.length_append]
            omega
          rw [server_used hrs hz hr hlen] at hs
          simp only [finish, hr, if_true, Nat.add_one_ne_zero, if_false, Nat.add_sub_cancel] at hs
          cases hs
          exact .print garbage ix zs rest r rfl hrs hz hr

/-! ## The shape of the file -/

structure IndexInv (ix : Index) : Prop where
  ids : ∀ k r, ix.records[k]? = some r → r.id = 0 ∨ r.id = k + 1
  currid_le : ix.currid ≤ ix.records.length
  length_pos : 0 < ix.records.length
  length_le : ix.records.length ≤ maxIndexSize + 1

def FileInv (f : File) : Prop := ∀ ix, f = some ix → IndexInv ix

section Shape

variable {f f' : File} {a : Act} {es : List Event}

/-- The client writes a record that is there, or the one behind the last. -/
theorem clientId_le (inv : FileInv f) :
    clientId f ≤ (records f).length ∧ clientId f ≤ maxIndexSize := by
  cases f with
  | none => exact ⟨Nat.zero_le _, Nat.zero_le _⟩
  | some ix =>
    simp only [clientId, records, Option.map_some, Option.getD_some]
    split
    · exact ⟨Nat.zero_le _, Nat.zero_le _⟩
    · exact ⟨(inv ix rfl).currid_le, by omega⟩

theorem length_records_le (inv : FileInv f) : (records f).length ≤ maxIndexSize + 1 := by
  cases f with
  | none => exact Nat.zero_le _
  | some ix => exact (inv ix rfl).length_le

theorem ids_records (inv : FileInv f) {k : Nat} (h : (records f)[k]? = some r) :
    r.id = 0 ∨ r.id = k + 1 := by
  cases f with
  | none => cases h
  | some ix => exact (inv ix rfl).ids k r h

/-- A write of an `ID` that fits keeps all of them. -/
theorem ids_writeRecord {rs : List Record} {k : Nat} (hk : k ≤ rs.length)
    (hids : ∀ i q, rs[i]? = some q → q.id = 0 ∨ q.id = i + 1) (hr : r.id = 0 ∨ r.id = k + 1) :
    ∀ i q, (writeRecord rs k r)[i]? = some q → q.id = 0 ∨ q.id = i + 1 := by
  intro i q hq
  by_cases e : i = k
  · subst e
    rw [writeRecord_self hk] at hq
    cases hq
    exact hr
  · rw [writeRecord_of_ne hk e] at hq
    exact hids i q hq

theorem fileInv_of_steps (inv : FileInv f) (h : Steps f a f' es) : FileInv f' := by
  cases h with
  | full path garbage h => exact inv
  | first garbage h =>
    rintro _ ⟨⟩
    refine ⟨fun k r hr => ?_, Nat.zero_le _, Nat.one_pos, by decide⟩
    rw [List.mem_singleton.mp (List.mem_of_getElem? hr)]
    exact Or.inl rfl
  | spooled path garbage h =>
    obtain ⟨hle, hmax⟩ := clientId_le inv
    have hlen := length_records_le inv
    rintro _ ⟨⟩
    have hlen' := length_writeRecord (r := ⟨clientId f + 1, path⟩) hle
    refine ⟨?_, ?_, ?_, ?_⟩
    · exact ids_writeRecord hle (fun _ _ => ids_records inv) (Or.inr rfl)
    · rw [hlen']
      exact Nat.le_max_right _ _
    · rw [hlen']
      omega
    · rw [hlen']
      omega
  | print garbage ix zs rest r h hrs hz hr =>
    have hix := inv ix h
    have hlt : zs.length < ix.records.length := by
      rw [hrs, List.length_append, List.length_cons]
      omega
    rintro _ ⟨⟩
    have hlen : (writeRecord ix.records zs.length { r with id := 0 }).length =
        ix.records.length := by
      rw [writeRecord_of_lt hlt, List.length_set]
    refine ⟨?_, ?_, ?_, ?_⟩
    · exact ids_writeRecord (Nat.le_of_lt hlt) hix.ids (Or.inl rfl)
    · rw [hlen]
      exact hix.currid_le
    · rw [hlen]
      exact hix.length_pos
    · rw [hlen]
      exact hix.length_le
  | bare garbage ix f' es h hrs =>
    have hpos := (inv ix h).length_pos
    rw [hrs] at hpos
    cases hpos

end Shape

theorem fileInv_of_run {acts : List Act} {tr : List Event}
    (hr : spooler.run none acts = some (f, tr)) : FileInv f := by
  refine spooler.run_inv (fun _ => True) FileInv ?_ (fun _ _ => trivial) ?_ hr
  · intro f a f' es _ inv hs
    exact fileInv_of_steps inv (steps_of_step hs)
  · rintro _ ⟨⟩

/-! ## Termination -/

/-- **Termination of the server.** On every file that runs of the client and of the server leave
    behind, the server comes to its end if and only if the file is empty or has a job. -/
theorem server_terminates_iff (acts : List Act) (f : File) (tr : List Event)
    (hr : spooler.run none acts = some (f, tr)) (garbage : Record) :
    (∃ fuel, (server fuel garbage f).isSome = true) ↔
      f = none ∨ ∃ r ∈ records f, r.used = true := by
  have inv := fileInv_of_run hr
  cases f with
  | none => exact ⟨fun _ => Or.inl rfl, fun _ => ⟨0, rfl⟩⟩
  | some ix =>
    have hne : ix.records ≠ [] := List.ne_nil_of_length_pos (inv ix rfl).length_pos
    rcases free_or_split ix.records with hz | ⟨zs, r, rest, hrs, hz, hr⟩
    · constructor
      · rintro ⟨fuel, h⟩
        rw [server_free hne hz] at h
        cases h
      · rintro (h | ⟨r, hr, hused⟩)
        · cases h
        · rw [hz r hr] at hused
          cases hused
    · constructor
      · intro _
        refine Or.inr ⟨r, ?_, hr⟩
        change r ∈ ix.records
        rw [hrs]
        exact List.mem_append_right zs List.mem_cons_self
      · intro _
        refine ⟨zs.length, ?_⟩
        rw [server_used hrs hz hr (Nat.le_refl _)]
        rfl

/-- A client puts a job into a file that a server run has made. -/
def oneJobRun : List Act := [.server ⟨7, []⟩, .client [97] ⟨7, []⟩]

theorem server_terminates_oneJobRun :
    ∃ f tr, spooler.run none oneJobRun = some (f, tr) ∧ records f = [⟨1, [97]⟩] ∧
      ∃ fuel, (server fuel ⟨7, []⟩ f).isSome = true := by
  obtain ⟨f, tr, hr, hf⟩ := spooler.exists_of_check none oneJobRun
    (fun f _ => records f = [⟨1, [97]⟩]) (by decide +kernel)
  refine ⟨f, tr, hr, hf, (server_terminates_iff oneJobRun f tr hr ⟨7, []⟩).mpr (Or.inr ?_)⟩
  rw [hf]
  exact ⟨⟨1, [97]⟩, List.mem_singleton_self _, rfl⟩

/-- The second server run on an empty file reads its end for ever. -/
theorem server_spins :
    ∃ f tr, spooler.run none [.server ⟨7, []⟩] = some (f, tr) ∧
      ∀ fuel garbage, server fuel garbage f = none := by
  refine ⟨_, _, rfl, fun fuel garbage => server_free (by decide) ?_ fuel garbage⟩
  decide

end DemosOsLinux.Spooler
