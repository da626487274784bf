/-
  The standalone message queue (exercises_standalone/c_message_queue/mq.c).

  A monitor with one condition variable, on which producers and consumers both sleep; every
  `mq_put` and `mq_get` that goes through broadcasts it. `mq_put` stores at `messages[size]` and
  `mq_get` takes from `messages[size-1]`: what is stored is a stack, not a queue.
  * `Mq.At.put`, `Mq.At.get`: the two functions work at the same end of `Mq.stored`.
  * `messages_in_order`: no message is lost or returned twice; the messages come back in the order
    in which they were stored if every `mq_get` finds a single one, and, for messages that are all
    different, only then.
  * `get_returns_last`: with two messages stored, the second comes back first.
-/
import Mathlib.Data.List.Perm.Basic
import DemosOsLinux.Lib.Monitor
import DemosOsLinux.Lib.Fifo

namespace DemosOsLinux.StandaloneMq

open Lib Lib.Monitor

variable {α : Type} {n : Nat}

/-- `struct _mq` without its mutex and condition variable; `α` is the type of the messages. -/
structure Mq (α : Type) where
  messages : List α
  maxsize : Int
  size : Int

/-- The functions; also where a thread goes on after its wait. -/
inductive Code (α : Type) where
  | put (message : α)
  | get
  deriving DecidableEq

abbrev Sec (α : Type) := Section (Mq α) Unit (Code α) Unit (FifoEvent α)

/-- `mq_put`. -/
def put (message : α) (m : Mq α) : Sec α :=
  if m.size = m.maxsize then ⟨m, .none, .wait () (.put message), []⟩
  else
    ⟨{ m with messages := m.messages.set m.size.toNat message, size := m.size + 1 },
      .broadcast (), .leave (), [.put [message]]⟩

/-- `mq_get`. -/
def get [Inhabited α] (m : Mq α) : Sec α :=
  if m.size = 0 then ⟨m, .none, .wait () .get, []⟩
  else
    ⟨{ m with size := m.size - 1 }, .broadcast (), .leave (),
      [.got [m.messages.getD (m.size - 1).toNat default]]⟩

def program [Inhabited α] : Program (Mq α) Unit (Code α) Unit (Code α) (FifoEvent α) where
  call _ o := some o
  body
    | .put message => put message
    | .get => get

/-- `mq_init`; `messages` is what `malloc` gave. -/
def initState (maxsize : Int) (messages : List α) (n : Nat) : State (Mq α) Unit (Code α) Unit n :=
  ⟨⟨messages, maxsize, 0⟩, fun _ => .outside ()⟩

/-- The messages in the queue, the oldest first. -/
def Mq.stored (m : Mq α) : List α := m.messages.take m.size.toNat

/-! ## The stack -/

/-- `m` is an array of `k` cells of which `j` are in use. -/
structure Mq.At (m : Mq α) (k j : Nat) : Prop where
  hmax : m.maxsize = k
  hsize : m.size = j
  hlen : m.messages.length = k
  hj : j ≤ k

section Stack

variable {m : Mq α} {k j : Nat}

theorem Mq.At.stored_eq (h : m.At k j) : m.stored = m.messages.take j := by
  rw [Mq.stored, h.hsize, Int.toNat_natCast]

theorem Mq.At.length_stored (h : m.At k j) : m.stored.length = j := by
  rw [h.stored_eq, List.length_take, h.hlen, Nat.min_eq_left h.hj]

/-- `mq_put` to a queue with a free cell appends the message. -/
theorem Mq.At.put (h : m.At k j) (hne : m.size ≠ m.maxsize) (message : α) :
    Mq.At { m with messages := m.messages.set m.size.toNat message, size := m.size + 1 } k
      (j + 1) ∧
    Mq.stored { m with messages := m.messages.set m.size.toNat message, size := m.size + 1 } =
      m.stored ++ [message] := by
  have hlt : j < k := by
    have hj := h.hj
    rw [h.hsize, h.hmax] at hne
    omega
  have hat : Mq.At { m with messages := m.messages.set m.size.toNat message, size := m.size + 1 } k
      (j + 1) :=
    ⟨h.hmax, by simp [h.hsize], (List.length_set ..).trans h.hlen, hlt⟩
  refine ⟨hat, ?_⟩
  rw [hat.stored_eq, h.stored_eq, h.hsize, Int.toNat_natCast, List.take_add_one,
    List.take_set_of_le (Nat.le_refl j), List.getElem?_set_self (by rw [h.hlen]; exact hlt)]
  rfl

/-- `mq_get` from a queue that is not empty takes the last message. -/
theorem Mq.At.get [Inhabited α] (h : m.At k j) (hne : m.size ≠ 0) :
    Mq.At { m with size := m.size - 1 } k (j - 1) ∧
    m.stored = Mq.stored { m with size := m.size - 1 } ++
      [m.messages.getD (m.size - 1).toNat default] := by
  have hj := h.hj
  have hpos : 0 < j := by
    rw [h.hsize] at hne
    omega
  have hsize : m.size - 1 = (j - 1 : Nat) := by
    rw [h.hsize]
    omega
  have hat : Mq.At { m with size := m.size - 1 } k (j - 1) := ⟨h.hmax, hsize, h.hlen, by omega⟩
  have hcell : m.messages[j - 1]? = some (m.messages.getD (j - 1) default) := by
    rw [List.getD_eq_getElem?_getD, List.getElem?_eq_getElem (by rw [h.hlen]; omega)]
    rfl
  refine ⟨hat, ?_⟩
  rw [h.stored_eq, hat.stored_eq, hsize, Int.toNat_natCast]
  calc m.messages.take j = m.messages.take (j - 1 + 1) := by rw [Nat.sub_add_cancel hpos]
    _ = m.messages.take (j - 1) ++ [m.messages.getD (j - 1) default] := by
        rw [List.take_add_one, hcell]
        rfl

end Stack

/-! ## What is in the queue -/

/-- Every message that was put is in the queue or was returned, once. -/
structure StackInv (k : Nat) (m : Mq α) (tr : List (FifoEvent α)) : Prop where
  array : ∃ j, m.At k j
  once : (gotAll tr ++ m.stored).Perm (putAll tr)

variable {k : Nat}

theorem stackInv_init {messages : List α} (hlen : messages.length = k) :
    StackInv k ⟨messages, k, 0⟩ [] :=
  ⟨⟨0, ⟨rfl, rfl, hlen, Nat.zero_le k⟩⟩, List.Perm.refl _⟩

section

variable [Inhabited α]

theorem stackInv_of_section (p : Code α) (m : Mq α) (tr : List (FifoEvent α))
    (inv : StackInv k m tr) :
    StackInv k (program.body p m).shared (tr ++ (program.body p m).events) := by
  obtain ⟨j, hat⟩ := inv.array
  have hwait : StackInv k m (tr ++ []) := by
    rw [List.append_nil]
    exact inv
  cases p with
  | put message =>
    simp only [program, StandaloneMq.put]
    split
    · exact hwait
    · rename_i hne
      obtain ⟨hat', hstored⟩ := hat.put hne message
      refine ⟨⟨_, hat'⟩, ?_⟩
      rw [hstored, gotAll_append, putAll_append]
      simpa [gotAll, putAll] using inv.once.append_right [message]
  | get =>
    simp only [program, StandaloneMq.get]
    split
    · exact hwait
    · rename_i hne
      obtain ⟨hat', hstored⟩ := hat.get hne
      refine ⟨⟨_, hat'⟩, ?_⟩
      have honce := inv.once
      rw [hstored, ← List.append_assoc] at honce
      rw [gotAll_append, putAll_append, List.append_assoc]
      simp only [gotAll, putAll, List.append_nil]
      -- the message moves from the end of the stack to the end of what was returned
      exact ((List.perm_append_comm.append_left _).trans (by rw [List.append_assoc])).trans honce

end

/-! ## Order -/

/-- What was returned and what is stored, in this order, is what was put. -/
def InOrder (m : Mq α) (tr : List (FifoEvent α)) : Prop := gotAll tr ++ m.stored = putAll tr

/-- Where a message `y` was due, `x` was returned; different messages are not mixed up. -/
def OutOfOrder (tr : List (FifoEvent α)) : Prop :=
  ∃ done x y, (done ++ [x]) <+: gotAll tr ∧ (done ++ [y]) <+: putAll tr ∧
    ((putAll tr).Nodup → x ≠ y)

variable {tr : List (FifoEvent α)}

theorem outOfOrder_append (h : OutOfOrder tr) (es : List (FifoEvent α)) :
    OutOfOrder (tr ++ es) := by
  obtain ⟨done, x, y, hgot, hput, hne⟩ := h
  rw [OutOfOrder, gotAll_append, putAll_append]
  refine ⟨done, x, y, hgot.trans (List.prefix_append ..), hput.trans (List.prefix_append ..), ?_⟩
  intro hnodup
  exact hne (List.nodup_append.mp hnodup).1

/-- A message returned out of order shows: what was returned is no prefix of what was put. -/
theorem OutOfOrder.not_prefix (h : OutOfOrder tr) (hnodup : (putAll tr).Nodup) :
    ¬gotAll tr <+: putAll tr := by
  obtain ⟨done, x, y, hgot, hput, hne⟩ := h
  intro hpre
  have hlast := List.prefix_of_prefix_length_le (hgot.trans hpre) hput (by simp)
  have heq := hlast.eq_of_length (by simp)
  exact hne hnodup (by simpa using heq)

section

variable [Inhabited α]

/-- If this step runs `mq_get`, at most one message is stored. -/
def takesSingle (s : State (Mq α) Unit (Code α) Unit n) (a : Act (Code α) n) : Bool :=
  match sectionOf program s a with
  | some .get => s.shared.size ≤ 1
  | _ => true

theorem inOrder_of_section {p : Code α} {m : Mq α} (inv : StackInv k m tr)
    (hsingle : p = .get → m.size ≤ 1) (ho : InOrder m tr) :
    InOrder (program.body p m).shared (tr ++ (program.body p m).events) := by
  obtain ⟨j, hat⟩ := inv.array
  have hwait : InOrder m (tr ++ []) := by
    rw [List.append_nil]
    exact ho
  cases p with
  | put message =>
    simp only [program, StandaloneMq.put]
    split
    · exact hwait
    · rename_i hne
      obtain ⟨_, hstored⟩ := hat.put hne message
      rw [InOrder, hstored, gotAll_append, putAll_append, ← ho]
      simp [gotAll, putAll]
  | get =>
    simp only [program, StandaloneMq.get]
    split
    · exact hwait
    · rename_i hne
      obtain ⟨hat', hstored⟩ := hat.get hne
      -- one message is stored, so the last is the first
      have hempty : Mq.stored { m with size := m.size - 1 } = [] := by
        have hle := hsingle rfl
        rw [hat.hsize] at hle
        rw [← List.length_eq_zero_iff, hat'.length_stored]
        omega
      rw [hempty, List.nil_append] at hstored
      rw [InOrder, hempty, gotAll_append, putAll_append, ← ho, hstored]
      simp [gotAll, putAll]

theorem outOfOrder_of_get {m : Mq α} (inv : StackInv k m tr) (hmany : 1 < m.size)
    (ho : InOrder m tr) : OutOfOrder (tr ++ (get m).events) := by
  obtain ⟨j, hat⟩ := inv.array
  have hne : m.size ≠ 0 := by omega
  obtain ⟨hat', hstored⟩ := hat.get hne
  obtain ⟨y, rest, hrest⟩ : ∃ y rest, Mq.stored { m with size := m.size - 1 } = y :: rest := by
    apply List.exists_cons_of_length_pos
    rw [hat.hsize] at hmany
    rw [hat'.length_stored]
    omega
  have hput : putAll (tr ++ (get m).events) = gotAll tr ++ y :: rest ++
      [m.messages.getD (m.size - 1).toNat default] := by
    rw [get, if_neg hne, putAll_append, ← ho, hstored, hrest]
    simp [putAll]
  refine ⟨gotAll tr, m.messages.getD (m.size - 1).toNat default, y, ?_, ?_, ?_⟩
  · rw [get, if_neg hne, gotAll_append]
    simp [gotAll]
  · rw [hput]
    exact ⟨rest ++ [m.messages.getD (m.size - 1).toNat default], by simp⟩
  · rw [hput, List.nodup_append]
    rintro ⟨_, _, hdisj⟩ rfl
    exact hdisj _ (List.mem_append_right _ List.mem_cons_self) _ (List.mem_singleton_self _) rfl

theorem takesSingle_of_run {s : State (Mq α) Unit (Code α) Unit n} {a : Act (Code α) n} {p : Code α}
    (ha : sectionOf program s a = some p) :
    takesSingle s a = true ↔ (p = .get → s.shared.size ≤ 1) := by
  rw [takesSingle, ha]
  cases p <;> simp

theorem inOrder_of_step (s : State (Mq α) Unit (Code α) Unit n) (tr : List (FifoEvent α))
    (a : Act (Code α) n) (s' : State (Mq α) Unit (Code α) Unit n) (es : List (FifoEvent α))
    (hp : takesSingle s a = true) (h : StackInv k s.shared tr ∧ InOrder s.shared tr)
    (hs : (threads program n).step s a = some (s', es)) :
    StackInv k s'.shared (tr ++ es) ∧ InOrder s'.shared (tr ++ es) := by
  obtain ⟨inv, ho⟩ := h
  cases trans_of_step hs with
  | run _ t p st ha ht hw =>
    exact ⟨stackInv_of_section p s.shared tr inv,
      inOrder_of_section inv ((takesSingle_of_run ha).mp hp) ho⟩
  | spurious t c p ht =>
    rw [List.append_nil]
    exact ⟨inv, ho⟩

theorem outOfOrder_of_step (s : State (Mq α) Unit (Code α) Unit n) (tr : List (FifoEvent α))
    (a : Act (Code α) n) (s' : State (Mq α) Unit (Code α) Unit n) (es : List (FifoEvent α))
    (hp : ¬takesSingle s a = true) (h : StackInv k s.shared tr ∧ InOrder s.shared tr)
    (hs : (threads program n).step s a = some (s', es)) : OutOfOrder (tr ++ es) := by
  obtain ⟨inv, ho⟩ := h
  cases trans_of_step hs with
  | run _ t p st ha ht hw =>
    rw [takesSingle_of_run ha, Classical.not_imp] at hp
    obtain ⟨rfl, hmany⟩ := hp
    exact outOfOrder_of_get inv (by omega) ho
  | spurious t c p ht => exact absurd rfl hp

/-- **Order of the messages.** Any size from 1 on, any number of threads that put and get, any
    interleaving: each message that was put was returned once or is still stored. If every
    `mq_get` finds at most one message, the messages are returned in the order in which they were
    stored; and if the messages are all different and were returned in order, every `mq_get` found
    at most one. -/
theorem messages_in_order (maxsize : Int) (hmax : 1 ≤ maxsize) (messages : List α)
    (hlen : messages.length = maxsize) (n : Nat) (acts : List (Act (Code α) n))
    (s : State (Mq α) Unit (Code α) Unit n) (tr : List (FifoEvent α))
    (hr : (threads program n).run (initState maxsize messages n) acts = some (s, tr)) :
    (gotAll tr ++ s.shared.stored).Perm (putAll tr) ∧
    ((threads program n).Along (fun s a => takesSingle s a = true)
        (initState maxsize messages n) acts →
      (gotAll tr <+: putAll tr ∧ gotAll tr ++ s.shared.stored = putAll tr)) ∧
    ((putAll tr).Nodup → gotAll tr <+: putAll tr →
      (threads program n).Along (fun s a => takesSingle s a = true)
        (initState maxsize messages n) acts) := by
  obtain ⟨k, rfl⟩ := Int.eq_ofNat_of_zero_le (Int.le_trans (by decide) hmax)
  have hk : messages.length = k := Int.ofNat_inj.mp hlen
  have inv : StackInv k s.shared tr := run_shared program (StackInv k) stackInv_of_section
    (stackInv_init hk) hr
  refine ⟨inv.once, ?_, ?_⟩
  · intro hal
    have ho := (threads program n).run_induct_along (fun s a => takesSingle s a = true)
      (fun s tr => StackInv k s.shared tr ∧ InOrder s.shared tr) inOrder_of_step acts
      (initState k messages n) [] s tr hal ⟨stackInv_init hk, rfl⟩ hr
    exact ⟨⟨_, ho.2⟩, ho.2⟩
  · intro hnodup hpre
    have h := (threads program n).run_along_or (fun s a => takesSingle s a = true)
      (fun s tr => StackInv k s.shared tr ∧ InOrder s.shared tr) (fun _ tr => OutOfOrder tr)
      inOrder_of_step outOfOrder_of_step (fun _ _ _ _ es hout _ => outOfOrder_append hout es)
      acts (initState k messages n) [] s tr ⟨stackInv_init hk, rfl⟩ hr
    rcases h with ⟨hal, _⟩ | hout
    · exact hal
    · exact absurd hpre (hout.not_prefix hnodup)

end

/-- A consumer that sleeps, a put that wakes it, and a put and a get of one message. -/
def singleRun (a b : Fin n) : List (Act (Code Nat) n) :=
  [.call b .get none, .call a (.put 1) none, .resume b none, .call a (.put 2) none,
    .call b .get none, .call a (.put 3) none]

theorem messages_in_order_singleRun :
    ∃ s tr, (threads program 2).run (initState 2 [0, 0] 2) (singleRun 0 1) = some (s, tr) ∧
      (gotAll tr = [1, 2] ∧ putAll tr = [1, 2, 3]) ∧ gotAll tr <+: putAll tr := by
  obtain ⟨s, tr, hr, hu⟩ := (threads program 2).exists_of_check (initState 2 [0, 0] 2)
    (singleRun 0 1) (fun _ tr => gotAll tr = [1, 2] ∧ putAll tr = [1, 2, 3]) (by decide +kernel)
  have hal := (threads program 2).along_of_check takesSingle (singleRun 0 1)
    (initState 2 [0, 0] 2) (by decide +kernel)
  exact ⟨s, tr, hr, hu,
    ((messages_in_order 2 (by decide) [0, 0] rfl 2 (singleRun 0 1) s tr hr).2.1 hal).1⟩

/-- Two messages are put before the first get. -/
def twoRun (a b : Fin n) : List (Act (Code Nat) n) :=
  [.call a (.put 1) none, .call a (.put 2) none, .call b .get none]

/-- The second message comes back first. -/
theorem get_returns_last :
    ∃ s tr, (threads program 2).run (initState 2 [0, 0] 2) (twoRun 0 1) = some (s, tr) ∧
      gotAll tr = [2] ∧ putAll tr = [1, 2] ∧ ¬gotAll tr <+: putAll tr := by
  obtain ⟨s, tr, hr, hgot, hput⟩ := (threads program 2).exists_of_check (initState 2 [0, 0] 2)
    (twoRun 0 1) (fun _ tr => gotAll tr = [2] ∧ putAll tr = [1, 2]) (by decide +kernel)
  refine ⟨s, tr, hr, hgot, hput, ?_⟩
  rw [hgot, hput]
  decide

end DemosOsLinux.StandaloneMq
