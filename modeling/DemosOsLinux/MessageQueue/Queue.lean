/-
  The bounded message queue (exercises/c/message_queue/solution.c): code and FIFO order.

  The queue is a monitor: `m` is its mutex, `cond_empty` and `cond_full` are its condition
  variables, `pthread_mq_get` and `pthread_mq_put` are its sections; after `pthread_cond_wait`
  both start again with their loop condition. `size`, `min` and `max` are integers with C's `%`
  as in the source; `At` says which ring of the library they are.
  * `Mq.At.get`, `Mq.At.put`: what the two functions do to the ring.
  * `queue_is_fifo`: what was got, followed by the ring from `min` to `max`, is what was put.
-/
import DemosOsLinux.Lib.Monitor
import DemosOsLinux.Lib.RingBuffer

namespace DemosOsLinux.MessageQueue

open Lib Lib.Monitor

/-- `pthread_mq_t` without its mutex and condition variables. -/
structure Mq where
  size : Int
  data : List Int32
  min : Int
  max : Int

inductive Cond where
  | empty
  | full
  deriving DecidableEq

/-- The functions; also where a thread goes on after its wait. -/
inductive Code where
  | get
  | put (value : Int32)
  deriving DecidableEq

inductive Event where
  | got (value : Int32)
  | put (value : Int32)

abbrev Sec := Section Mq Cond Code Unit Event

/-- The position after `i`: `i++; i%=size`. -/
def Mq.next (mq : Mq) (i : Int) : Int := (i + 1).tmod mq.size

/-- `mq->max==mq->min`. -/
def Mq.isEmpty (mq : Mq) : Bool := mq.max = mq.min

/-- `(mq->max+1)%mq->size==mq->min`. -/
def Mq.isFull (mq : Mq) : Bool := (mq.max + 1).tmod mq.size = mq.min

/-- `pthread_mq_get`. -/
def get (mq : Mq) : Sec :=
  if mq.isEmpty then ⟨mq, .none, .wait .empty .get, []⟩
  else
    ⟨{ mq with min := mq.next mq.min }, if mq.isFull then .broadcast .empty else .none,
      .leave (), [.got (mq.data.getD mq.min.toNat 0)]⟩

/-- `pthread_mq_put`. -/
def put (value : Int32) (mq : Mq) : Sec :=
  if mq.isFull then ⟨mq, .none, .wait .full (.put value), []⟩
  else
    ⟨{ mq with data := mq.data.set mq.max.toNat value, max := mq.next mq.max },
      if mq.isEmpty then .broadcast .empty else .none, .leave (), [.put value]⟩

def program : Program Mq Cond Code Unit Code Event where
  call _ o := some o
  body
    | .get => get
    | .put value => put value

abbrev St := Status Cond Code Unit

/-- `pthread_mq_init`; `data` is what `malloc` gave. -/
def initState (size : Int) (data : List Int32) (n : Nat) : State Mq Cond Code Unit n :=
  ⟨⟨size, data, 0, 0⟩, fun _ => .outside ()⟩

/-- The values in the ring from `min` to `max`. -/
def Mq.stored (mq : Mq) : List Int32 :=
  contents mq.data mq.min.toNat (fill mq.size.toNat mq.min.toNat mq.max.toNat)

/-! ## The ring -/

/-- `mq` is a ring of `size` cells with the positions `r` and `w`. -/
structure Mq.At (mq : Mq) (size r w : Nat) : Prop where
  hsize : mq.size = size
  hmin : mq.min = r
  hmax : mq.max = w
  hlen : mq.data.length = size
  hr : r < size
  hw : w < size

section Ring

variable {mq : Mq} {size r w : Nat}

section Ring

variable (h : mq.At size r w)
include h

theorem Mq.At.next {i : Nat} (hi : i < size) : mq.next i = (ringIdx size i 1 : Nat) := by
  have hmod : ((i : Int) + 1).tmod size = ((i + 1) % size : Nat) := by
    rw [Int.tmod_eq_emod_of_nonneg (by omega)]
    rfl
  have hring : (i + 1) % size = ringIdx size i 1 := by
    unfold ringIdx
    split
    · rename_i hlt
      exact Nat.mod_eq_of_lt hlt
    · obtain rfl : i + 1 = size := by omega
      rw [Nat.mod_self, Nat.sub_self]
  rw [Mq.next, h.hsize, hmod, hring]

theorem Mq.At.isEmpty_iff : mq.isEmpty = true ↔ fill size r w = 0 := by
  rw [fill_eq_zero h.hr, Mq.isEmpty, decide_eq_true_eq, h.hmax, h.hmin]
  exact Int.ofNat_inj

theorem Mq.At.isFull_iff : mq.isFull = true ↔ fill size r w + 1 = size := by
  have hnext := h.next h.hw
  rw [← ringIdx_one_eq h.hr h.hw, Mq.isFull, decide_eq_true_eq, h.hmin, h.hmax]
  rw [Mq.next] at hnext
  rw [hnext]
  exact Int.ofNat_inj

theorem Mq.At.stored_eq :
    mq.stored = contents mq.data r (fill size r w) := by
  rw [Mq.stored, h.hsize, h.hmin, h.hmax]
  rfl

theorem Mq.At.length_stored : mq.stored.length = fill size r w := by
  rw [h.stored_eq, length_contents]
  have := fill_lt h.hr h.hw
  have := h.hlen
  omega

/-- `pthread_mq_get` from a queue that is not empty takes the first value. -/
theorem Mq.At.get (hne : mq.isEmpty = false) :
    Mq.At { mq with min := mq.next mq.min } size (ringIdx size r 1) w ∧
    mq.stored = mq.data.getD mq.min.toNat 0 :: Mq.stored { mq with min := mq.next mq.min } := by
  have hnext : mq.next mq.min = (ringIdx size r 1 : Nat) := by
    rw [h.hmin]
    exact h.next h.hr
  have hat : Mq.At { mq with min := mq.next mq.min } size (ringIdx size r 1) w :=
    ⟨h.hsize, hnext, h.hmax, h.hlen, ringIdx_lt h.hr (Nat.lt_of_le_of_lt (Nat.zero_le r) h.hr),
      h.hw⟩
  refine ⟨hat, ?_⟩
  have hwr : w ≠ r := by
    intro e
    rw [h.isEmpty_iff.mpr ((fill_eq_zero h.hr).mpr e)] at hne
    cases hne
  have hcell : mq.data[r]? = some (mq.data.getD mq.min.toNat 0) := by
    rw [h.hmin, Int.toNat_natCast, List.getD_eq_getElem?_getD,
      List.getElem?_eq_getElem (by rw [h.hlen]; exact h.hr)]
    rfl
  rw [h.stored_eq, hat.stored_eq]
  exact contents_pop h.hlen h.hr h.hw hwr hcell

/-- `pthread_mq_put` to a queue that is not full appends the value. -/
theorem Mq.At.put (hne : mq.isFull = false) (value : Int32) :
    Mq.At { mq with data := mq.data.set mq.max.toNat value, max := mq.next mq.max } size r
      (ringIdx size w 1) ∧
    Mq.stored { mq with data := mq.data.set mq.max.toNat value, max := mq.next mq.max } =
      mq.stored ++ [value] := by
  have hnext : mq.next mq.max = (ringIdx size w 1 : Nat) := by
    rw [h.hmax]
    exact h.next h.hw
  have hat : Mq.At { mq with data := mq.data.set mq.max.toNat value, max := mq.next mq.max } size r
      (ringIdx size w 1) :=
    ⟨h.hsize, h.hmin, hnext, (List.length_set ..).trans h.hlen, h.hr,
      ringIdx_lt h.hw (Nat.lt_of_le_of_lt (Nat.zero_le w) h.hw)⟩
  refine ⟨hat, ?_⟩
  have hroom : fill size r w + 1 < size := by
    have hlt := fill_lt h.hr h.hw
    have hnot : fill size r w + 1 ≠ size := by
      intro e
      rw [h.isFull_iff.mpr e] at hne
      cases hne
    omega
  rw [h.stored_eq, hat.stored_eq]
  simp only [h.hmax, Int.toNat_natCast]
  exact contents_push h.hlen h.hr h.hw hroom value

end Ring

end Ring

/-! ## FIFO order -/

/-- The values returned by `pthread_mq_get`, in the order in which the calls had the mutex. -/
def gots (tr : List Event) : List Int32 :=
  tr.filterMap fun
    | .got v => some v
    | .put _ => none

def puts (tr : List Event) : List Int32 :=
  tr.filterMap fun
    | .put v => some v
    | .got _ => none

structure FifoInv (size : Nat) (mq : Mq) (tr : List Event) : Prop where
  ring : ∃ r w, mq.At size r w
  fifo : gots tr ++ mq.stored = puts tr

theorem fifoInv_of_section {size : Nat} {mq : Mq} {tr : List Event} (inv : FifoInv size mq tr)
    (p : Code) : FifoInv size (program.body p mq).shared (tr ++ (program.body p mq).events) := by
  obtain ⟨r, w, hat⟩ := inv.ring
  have hwait : FifoInv size mq (tr ++ []) := by
    rw [List.append_nil]
    exact inv
  cases p with
  | get =>
    simp only [program, MessageQueue.get]
    split
    · exact hwait
    · rename_i hne
      obtain ⟨hat', hstored⟩ := hat.get (Bool.eq_false_iff.mpr hne)
      refine ⟨⟨_, _, hat'⟩, ?_⟩
      have hfifo := inv.fifo
      rw [hstored] at hfifo
      simp only [gots, puts, List.filterMap_append, List.append_assoc] at hfifo ⊢
      simpa using hfifo
  | put value =>
    simp only [program, MessageQueue.put]
    split
    · exact hwait
    · rename_i hne
      obtain ⟨hat', hstored⟩ := hat.put (Bool.eq_false_iff.mpr hne) value
      refine ⟨⟨_, _, hat'⟩, ?_⟩
      have hfifo := inv.fifo
      rw [hstored]
      simp only [gots, puts, List.filterMap_append] at hfifo ⊢
      rw [← hfifo]
      simp

theorem fifoInv_of_trans {size n : Nat} {s s' : State Mq Cond Code Unit n} {a : Act Code n}
    {es tr : List Event} (h : Trans program s a es s') (inv : FifoInv size s.shared tr) :
    FifoInv size s'.shared (tr ++ es) := by
  cases h with
  | run _ t p st ha ht hw => exact fifoInv_of_section inv p
  | spurious t c p ht =>
    rw [List.append_nil]
    exact inv

theorem fifoInv_init {size : Nat} (hsize : 2 ≤ size) {data : List Int32}
    (hdata : data.length = size) : FifoInv size ⟨size, data, 0, 0⟩ [] := by
  have hat : Mq.At ⟨size, data, 0, 0⟩ size 0 0 := ⟨rfl, rfl, rfl, hdata, by omega, by omega⟩
  refine ⟨⟨0, 0, hat⟩, ?_⟩
  rw [hat.stored_eq, fill_self]
  rfl

/-- **FIFO.** Any size from 2 on, any number of threads that get and put, any interleaving: the
    values got, in the order of the mutex, are a prefix of the values put, and the rest is the
    ring from `min` to `max`; the positions stay in the buffer and one cell stays free. -/
theorem queue_is_fifo (size : Int) (hsize : 2 ≤ size) (data : List Int32)
    (hdata : data.length = size) (n : Nat) (acts : List (Act Code n))
    (s : State Mq Cond Code Unit n) (tr : List Event)
    (hr : (threads program n).run (initState size data n) acts = some (s, tr)) :
    gots tr ++ s.shared.stored = puts tr ∧
    (0 ≤ s.shared.min ∧ s.shared.min < size) ∧ (0 ≤ s.shared.max ∧ s.shared.max < size) ∧
    s.shared.stored.length ≤ size - 1 := by
  obtain ⟨k, rfl⟩ := Int.eq_ofNat_of_zero_le (Int.le_trans (by decide) hsize)
  have inv : FifoInv k s.shared tr := run_shared program (FifoInv k)
    (fun p _ _ inv => fifoInv_of_section inv p)
    (fifoInv_init (by omega) (Int.ofNat_inj.mp hdata)) hr
  obtain ⟨r, w, hat⟩ := inv.ring
  have hlt := fill_lt hat.hr hat.hw
  have hmin := hat.hmin
  have hmax := hat.hmax
  have := hat.hr
  have := hat.hw
  refine ⟨inv.fifo, by omega, by omega, ?_⟩
  rw [hat.length_stored]
  omega

/-- A ring of three cells that wraps, with a producer that finds it full. -/
def wrapRun {n : Nat} (a b : Fin n) : List (Act Code n) :=
  [.call a (.put 1) none, .call a (.put 2) none, .call b .get none, .call a (.put 3) none,
    .call b .get none, .call a (.put 4) none, .call a (.put 5) none]

theorem queue_is_fifo_wrapRun :
    ∃ s tr, (threads program 2).run (initState 3 [0, 0, 0] 2) (wrapRun 0 1) = some (s, tr) ∧
      (gots tr = [1, 2] ∧ puts tr = [1, 2, 3, 4]) ∧ gots tr ++ s.shared.stored = puts tr := by
  obtain ⟨s, tr, hr, hu⟩ := (threads program 2).exists_of_check (initState 3 [0, 0, 0] 2)
    (wrapRun 0 1) (fun _ tr => gots tr = [1, 2] ∧ puts tr = [1, 2, 3, 4]) (by decide +kernel)
  exact ⟨s, tr, hr, hu,
    (queue_is_fifo 3 (by decide) [0, 0, 0] rfl 2 (wrapRun 0 1) s tr hr).1⟩

end DemosOsLinux.MessageQueue
