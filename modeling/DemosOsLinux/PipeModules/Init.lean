/-
  Loading the two pipe modules (kernel_standalone/pipe/main.c and kernel_standalone/simple_pipe/main.c).

  `Env` is what the kernel returns to each call of `pipe_init`. A piece of `pipe_init` is a `Run`:
  what it acquired and released, and how it was left. `kmalloc` and `kmalloc_array` return NULL on
  failure, which `IS_ERR` does not see; a store through NULL is an oops, after which nothing else is
  run. `unwind` is the ladder at the end of `pipe_init`: each label falls through to the next.
  From `alloc_chrdev_region` on the two modules are the same (`addDevices`); they differ in
  `pipe_ctor`, which reports a failed `kmalloc` in simple_pipe only.
  * `adds_addDevices`: what the calls from `alloc_chrdev_region` on have acquired when they end.
  * `load_iff`: `pipe_init` returns an error and has given everything back if and only if a call
    fails whose failure the ladder covers.
-/
import DemosOsLinux.Lib.Ledger
import Mathlib.Data.List.Flatten
import Mathlib.Data.Nat.Find

namespace DemosOsLinux.PipeModules

open Lib

/-- An error number, as `PTR_ERR` gives it. -/
structure Errno where
  val : Int
  neg : -4095 ≤ val ∧ val < 0

inductive Ptr where
  | null
  | err (e : Errno)
  | mem

/-- `IS_ERR`. -/
def Ptr.isErr : Ptr → Bool
  | .err _ => true
  | _ => false

/-- `PTR_ERR`. -/
def Ptr.ptrErr : Ptr → Int
  | .null => 0
  | .err e => e.val
  | .mem => 0

/-- `-EFAULT`. -/
def efault : Int := -14

inductive Resource where
  | array
  | buffer (i : Nat)
  | region
  | cdev
  | myClass
  | device (i : Nat)
  deriving DecidableEq

abbrev Log := List (LedgerEvent Resource)

/-- What the calls of `pipe_init` return. -/
structure Env where
  /-- Does `kmalloc_array` return memory? -/
  array : Bool
  /-- Does the `kmalloc` of buffer `i` return memory? -/
  buffer : Nat → Bool
  /-- `alloc_chrdev_region`. -/
  region : Int
  /-- `cdev_add`. -/
  cdev : Int
  /-- `class_create`; `none` if it returns a class. -/
  myClass : Option Errno
  /-- `device_create` of device `i`. -/
  device : Nat → Option Errno

def kmallocPtr (ok : Bool) : Ptr := if ok then .mem else .null

def createPtr : Option Errno → Ptr
  | none => .mem
  | some e => .err e

/-- The labels of the ladder; `errFinal` is called `err_pipes_ctor` in simple_pipe, and `errPipes`
    stands in the middle of `err_final` in pipe. -/
inductive Label where
  | errClass
  | errCdevDel
  | errDealloc
  | errFinal
  | errPipes
  | errReturn

inductive Exit where
  | done
  | goto (l : Label) (ret : Int)
  | oops

structure Run where
  log : Log
  exit : Exit

def Run.andThen (r next : Run) : Run :=
  match r.exit with
  | .done => ⟨r.log ++ next.log, next.exit⟩
  | _ => r

@[simp] theorem Run.done_andThen (log : Log) (next : Run) :
    Run.andThen ⟨log, .done⟩ next = ⟨log ++ next.log, next.exit⟩ := rfl

@[simp] theorem Run.oops_andThen (log : Log) (next : Run) :
    Run.andThen ⟨log, .oops⟩ next = ⟨log, .oops⟩ := rfl

@[simp] theorem Run.goto_andThen (log : Log) (l : Label) (ret : Int) (next : Run) :
    Run.andThen ⟨log, .goto l ret⟩ next = ⟨log, .goto l ret⟩ := rfl

/-- A call that returns 0 and acquires `r`, or an error. -/
def tryCall (r : Resource) (ret : Int) (l : Label) : Run :=
  if ret ≠ 0 then ⟨[], .goto l ret⟩ else ⟨[.acquired r], .done⟩

/-- A call that returns a pointer. -/
def tryCreate (r : Resource) (p : Ptr) (l : Label) : Run :=
  if p.isErr then ⟨[], .goto l p.ptrErr⟩ else ⟨[.acquired r], .done⟩

/-- `kmalloc` of buffer `i`. -/
def kmallocBuffer (env : Env) (i : Nat) : Log :=
  if env.buffer i then [.acquired (.buffer i)] else []

/-- `pipe_dtor`: `kfree` of NULL does nothing. -/
def pipeDtor (env : Env) (i : Nat) : Log := if env.buffer i then [.released (.buffer i)] else []

/-- `pipe_dtor` for `i = 0 .. count - 1`. -/
def pipeDtors (env : Env) (count : Nat) : Log := (List.range count).flatMap (pipeDtor env)

/-- The `device_create` loop. -/
def deviceLoop (env : Env) : List Nat → Run
  | [] => ⟨[], .done⟩
  | i :: is =>
      (tryCreate (.device i) (createPtr (env.device i)) .errClass).andThen (deviceLoop env is)

/-- From `alloc_chrdev_region` to the end of the `device_create` loop. -/
def addDevices (pipesCount : Nat) (env : Env) : Run :=
  (tryCall .region env.region .errFinal).andThen <|
    (tryCall .cdev env.cdev .errDealloc).andThen <|
      (tryCreate .myClass (createPtr env.myClass) .errCdevDel).andThen <|
        deviceLoop env (List.range pipesCount)

/-- `kmalloc_array` and the check of its result. -/
def allocArray (env : Env) : Run :=
  let pipes := kmallocPtr env.array
  if pipes.isErr then ⟨[], .goto .errReturn pipes.ptrErr⟩
  else ⟨if env.array then [.acquired .array] else [], .done⟩

section Ladder

variable (pipesCount : Nat) (env : Env)

def errPipes : Log := if env.array then [.released .array] else []
def errFinal : Log := pipeDtors env pipesCount ++ errPipes env
def errDealloc : Log := .released .region :: errFinal pipesCount env
def errCdevDel : Log := .released .cdev :: errDealloc pipesCount env
def errClass : Log := .released .myClass :: errCdevDel pipesCount env

/-- From a label to the end of `pipe_init`. -/
def unwind : Label → Log
  | .errClass => errClass pipesCount env
  | .errCdevDel => errCdevDel pipesCount env
  | .errDealloc => errDealloc pipesCount env
  | .errFinal => errFinal pipesCount env
  | .errPipes => errPipes env
  | .errReturn => []

end Ladder

/-- What `pipe_init` has acquired and released, and what it returns; `none` after an oops. -/
structure Result where
  log : Log
  ret : Option Int

def finish (pipesCount : Nat) (env : Env) (r : Run) : Result :=
  match r.exit with
  | .done => ⟨r.log, some 0⟩
  | .goto l ret => ⟨r.log ++ unwind pipesCount env l, some ret⟩
  | .oops => ⟨r.log, none⟩

namespace Pipe

/-- `pipe_ctor` of pipe/main.c: the result of `kmalloc` is not looked at. -/
def pipeCtor (env : Env) (i : Nat) : Run :=
  ⟨kmallocBuffer env i, if env.array then .done else .oops⟩

def ctorLoop (env : Env) : List Nat → Run
  | [] => ⟨[], .done⟩
  | i :: is => (pipeCtor env i).andThen (ctorLoop env is)

def pipeInit (pipesCount : Nat) (env : Env) : Result :=
  finish pipesCount env <|
    (allocArray env).andThen <|
      (ctorLoop env (List.range pipesCount)).andThen <| addDevices pipesCount env

end Pipe

namespace SimplePipe

/-- `pipe_ctor` of simple_pipe/main.c, with what it returns; `none` after an oops. -/
def pipeCtor (env : Env) (i : Nat) : Log × Option Int :=
  (kmallocBuffer env i,
    if env.array then some (if env.buffer i then 0 else efault) else none)

def ctorLoop (env : Env) : List Nat → Run
  | [] => ⟨[], .done⟩
  | i :: is =>
      match pipeCtor env i with
      | (log, none) => ⟨log, .oops⟩
      | (log, some ret) =>
          if ret ≠ 0 then ⟨log ++ pipeDtors env i, .goto .errPipes ret⟩
          else Run.andThen ⟨log, .done⟩ (ctorLoop env is)

def pipeInit (pipesCount : Nat) (env : Env) : Result :=
  finish pipesCount env <|
    (allocArray env).andThen <|
      (ctorLoop env (List.range pipesCount)).andThen <| addDevices pipesCount env

end SimplePipe

/-! ## From `alloc_chrdev_region` on -/

/-- How `addDevices` can end. -/
inductive Adds (pipesCount : Nat) (env : Env) : Run → Prop
  | region (h : env.region ≠ 0) : Adds pipesCount env ⟨[], .goto .errFinal env.region⟩
  | cdev (h : env.region = 0) (hc : env.cdev ≠ 0) :
      Adds pipesCount env ⟨[.acquired .region], .goto .errDealloc env.cdev⟩
  | myClass (e : Errno) (h : env.region = 0) (hc : env.cdev = 0) (hm : env.myClass = some e) :
      Adds pipesCount env ⟨[.acquired .region, .acquired .cdev], .goto .errCdevDel e.val⟩
  | firstDevice (e : Errno) (h : env.region = 0) (hc : env.cdev = 0) (hm : env.myClass = none)
      (hpos : 0 < pipesCount) (hd : env.device 0 = some e) :
      Adds pipesCount env
        ⟨[.acquired .region, .acquired .cdev, .acquired .myClass], .goto .errClass e.val⟩
  | laterDevice (log : Log) (ret : Int) (h : env.region = 0) (hc : env.cdev = 0)
      (hm : env.myClass = none) (hd : env.device 0 = none) (hlog : .acquired (.device 0) ∈ log)
      (hnone : .released (.device 0) ∉ log) : Adds pipesCount env ⟨log, .goto .errClass ret⟩
  | all (log : Log) (h : env.region = 0) (hc : env.cdev = 0) (hm : env.myClass = none)
      (hd : 0 < pipesCount → env.device 0 = none) : Adds pipesCount env ⟨log, .done⟩

variable {ret : Int}

section Devices

variable {pipesCount : Nat} {env : Env}

theorem tryCreate_none (r : Resource) (l : Label) :
    tryCreate r (createPtr none) l = ⟨[.acquired r], .done⟩ := rfl

theorem tryCall_error (r : Resource) (h : ret ≠ 0) (l : Label) :
    tryCall r ret l = ⟨[], .goto l ret⟩ := if_pos h

theorem tryCall_zero (r : Resource) (h : ret = 0) (l : Label) :
    tryCall r ret l = ⟨[.acquired r], .done⟩ := if_neg (not_not_intro h)

/-- The loop only creates devices, and it is left at the end or for `err_class`. -/
theorem deviceLoop_spec (env : Env) (is : List Nat) :
    (∀ r, .released r ∉ (deviceLoop env is).log) ∧
      ((deviceLoop env is).exit = .done ∨ ∃ ret, (deviceLoop env is).exit = .goto .errClass ret) := by
  induction is with
  | nil => exact ⟨fun r => List.not_mem_nil, Or.inl rfl⟩
  | cons i is ih =>
    rw [deviceLoop]
    cases hd : env.device i with
    | some e => exact ⟨fun r => List.not_mem_nil, Or.inr ⟨e.val, rfl⟩⟩
    | none =>
      rw [tryCreate_none]
      refine ⟨fun r hr => ?_, ih.2⟩
      simp only [Run.andThen, List.singleton_append, List.mem_cons, reduceCtorEq, false_or] at hr
      exact ih.1 r hr

theorem adds_addDevices (pipesCount : Nat) (env : Env) :
    Adds pipesCount env (addDevices pipesCount env) := by
  unfold addDevices
  by_cases hr : env.region = 0
  · rw [tryCall_zero _ hr]
    by_cases hc : env.cdev = 0
    · rw [tryCall_zero _ hc]
      cases hm : env.myClass with
      | some e => exact .myClass e hr hc hm
      | none =>
        rw [tryCreate_none]
        cases pipesCount with
        | zero => exact .all _ hr hc hm fun h => absurd h (Nat.lt_irrefl 0)
        | succ n =>
          rw [List.range_succ_eq_map, deviceLoop]
          cases hd : env.device 0 with
          | some e => exact .firstDevice e hr hc hm (Nat.succ_pos n) hd
          | none =>
            rw [tryCreate_none]
            obtain ⟨hrel, hexit⟩ := deviceLoop_spec env ((List.range n).map Nat.succ)
            generalize deviceLoop env ((List.range n).map Nat.succ) = loop at hrel hexit
            obtain ⟨log, exit⟩ := loop
            rcases hexit with hexit | ⟨ret, hexit⟩
            · simp only at hexit
              subst hexit
              exact .all _ hr hc hm fun _ => hd
            · simp only at hexit hrel
              subst hexit
              refine .laterDevice _ ret hr hc hm hd ?_ ?_
              · simp
              · simp [hrel]
    · rw [tryCall_error _ hc]
      exact .cdev hr hc
  · rw [tryCall_error _ hr]
    exact .region hr

end Devices

/-! ## The ladder -/

/-- A nonzero error is returned, and everything acquired has been released exactly once. -/
def AllOrNothing (r : Result) : Prop := (∃ ret, r.ret = some ret ∧ ret ≠ 0) ∧ Balanced r.log

/-- A call from `alloc_chrdev_region` on fails before a device is created. -/
def Covered (pipesCount : Nat) (env : Env) : Prop :=
  env.region ≠ 0 ∨ env.cdev ≠ 0 ∨ env.myClass ≠ none ∨ (0 < pipesCount ∧ env.device 0 ≠ none)

section Ladder

variable {pipesCount : Nat} {env : Env}

theorem Errno.ne_zero (e : Errno) : e.val ≠ 0 := by
  have := e.neg
  omega

theorem allOrNothing_nested {gs : List (List Resource)} (hnodup : gs.flatten.Nodup) (hret : ret ≠ 0)
    {log : Log} (hlog : log = nested gs) : AllOrNothing ⟨log, some ret⟩ :=
  ⟨⟨ret, rfl, hret⟩, hlog ▸ balanced_nested hnodup⟩

/-- `pipe_init` from `alloc_chrdev_region` on, when the array `as` and the buffers `bs` have been
    acquired and `err_final` gives them back. -/
theorem allOrNothing_finish {as bs : List Resource} (hnodup : (as ++ bs).Nodup)
    (hkinds : ∀ r ∈ as ++ bs, r = .array ∨ ∃ i, r = .buffer i)
    (hfinal : errFinal pipesCount env = bs.map .released ++ as.map .released) :
    AllOrNothing (finish pipesCount env
      (Run.andThen ⟨as.map .acquired ++ bs.map .acquired, .done⟩ (addDevices pipesCount env))) ↔
      Covered pipesCount env := by
  have hladder (k : Nat) : (([as, bs, [.region], [.cdev], [.myClass]].take k).flatten :
      List Resource).Nodup := by
    have hall : (as ++ bs ++ [Resource.region, .cdev, .myClass]).Nodup := by
      refine hnodup.append (by decide) ?_
      intro r hr hr'
      rcases hkinds r hr with rfl | ⟨i, rfl⟩
      · simp at hr'
      · simp at hr'
    refine List.Nodup.sublist (List.take_sublist k _ |>.flatten) ?_
    simpa using hall
  have hadds := adds_addDevices pipesCount env
  generalize addDevices pipesCount env = run at hadds
  rw [Run.done_andThen]
  cases hadds with
  | region h =>
    refine iff_of_true (allOrNothing_nested (hladder 2) h ?_) (Or.inl h)
    simp [unwind, hfinal, nested]
  | cdev h hc =>
    refine iff_of_true (allOrNothing_nested (hladder 3) hc ?_) (Or.inr (Or.inl hc))
    simp [unwind, errDealloc, hfinal, nested]
  | myClass e h hc hm =>
    refine iff_of_true (allOrNothing_nested (hladder 4) e.ne_zero ?_) (Or.inr (Or.inr (Or.inl ?_)))
    · simp [unwind, errCdevDel, errDealloc, hfinal, nested]
    · simp [hm]
  | firstDevice e h hc hm hpos hd =>
    refine iff_of_true (allOrNothing_nested (hladder 5) e.ne_zero ?_)
      (Or.inr (Or.inr (Or.inr ⟨hpos, ?_⟩)))
    · simp [unwind, errClass, errCdevDel, errDealloc, hfinal, nested]
    · simp [hd]
  | laterDevice log ret h hc hm hd hlog hnone =>
    refine iff_of_false ?_ ?_
    · -- device 0 was created and is never destroyed
      rintro ⟨_, hbalanced⟩
      obtain ⟨heq, _⟩ := hbalanced (.device 0)
      have hno : .device 0 ∉ as ++ bs := by
        intro hmem
        rcases hkinds _ hmem with h | ⟨i, h⟩ <;> cases h
      rw [List.mem_append, not_or] at hno
      have hrel : List.count (.released (.device 0)) (as.map .acquired ++ bs.map .acquired ++ log ++
          unwind pipesCount env .errClass) = 0 := by
        rw [List.count_eq_zero]
        simp [unwind, errClass, errCdevDel, errDealloc, hfinal, hnone, hno.1, hno.2]
      have hacq : 0 < List.count (.acquired (.device 0)) (as.map .acquired ++ bs.map .acquired ++
          log ++ unwind pipesCount env .errClass) := by
        rw [List.count_pos_iff]
        simp [hlog]
      simp only [finish] at heq
      omega
    · simp [Covered, h, hc, hm, hd]
  | all log h hc hm hd =>
    refine iff_of_false ?_ ?_
    · rintro ⟨⟨ret, hret, hne⟩, _⟩
      exact hne (Option.some.inj hret).symm
    · simp only [Covered, h, hc, hm, ne_eq, not_true_eq_false, false_or, not_and]
      intro hpos hne
      exact hne (hd hpos)

end Ladder

/-! ## The two modules -/

section Modules

variable {pipesCount : Nat} {env : Env} {is : List Nat}

/-- The buffers that were allocated. -/
def buffers (env : Env) (is : List Nat) : List Resource := (is.filter env.buffer).map .buffer

theorem buffers_nodup (h : is.Nodup) : (buffers env is).Nodup :=
  (h.filter env.buffer).map fun _ _ h => Resource.buffer.inj h

theorem mem_buffers {r : Resource} (h : r ∈ buffers env is) : ∃ i, r = .buffer i := by
  obtain ⟨i, _, rfl⟩ := List.mem_map.mp h
  exact ⟨i, rfl⟩

theorem kmallocBuffer_eq (i : Nat) : kmallocBuffer env i = (buffers env [i]).map .acquired := by
  unfold kmallocBuffer buffers
  cases h : env.buffer i <;> simp [h]

theorem buffers_cons (i : Nat) (is : List Nat) :
    buffers env (i :: is) = buffers env [i] ++ buffers env is := by
  rw [buffers, buffers, buffers, ← List.map_append, ← List.filter_append, List.singleton_append]

theorem pipeDtors_eq (count : Nat) :
    pipeDtors env count = (buffers env (List.range count)).map .released := by
  have hdtors (is : List Nat) : is.flatMap (pipeDtor env) = (buffers env is).map .released := by
    induction is with
    | nil => rfl
    | cons i is ih =>
      rw [List.flatMap_cons, ih, buffers_cons, List.map_append]
      congr 1
      unfold pipeDtor buffers
      cases h : env.buffer i <;> simp [h]
  exact hdtors _

/-- The array, if it was allocated. -/
def arrays (env : Env) : List Resource := if env.array then [.array] else []

theorem allocArray_eq : allocArray env = ⟨(arrays env).map .acquired, .done⟩ := by
  unfold allocArray arrays kmallocPtr
  cases env.array <;> rfl

theorem errPipes_eq : errPipes env = (arrays env).map .released := by
  unfold errPipes arrays
  cases env.array <;> rfl

theorem errFinal_eq : errFinal pipesCount env =
    (buffers env (List.range pipesCount)).map .released ++ (arrays env).map .released := by
  rw [errFinal, pipeDtors_eq, errPipes_eq]

theorem kinds {r : Resource} (h : r ∈ arrays env ++ buffers env is) :
    r = .array ∨ ∃ i, r = .buffer i := by
  rcases List.mem_append.mp h with h | h
  · unfold arrays at h
    split at h
    · exact Or.inl (List.mem_singleton.mp h)
    · cases h
  · exact Or.inr (mem_buffers h)

theorem nodup_arrays_buffers (h : is.Nodup) : (arrays env ++ buffers env is).Nodup := by
  refine List.Nodup.append ?_ (buffers_nodup h) ?_
  · unfold arrays
    split <;> simp
  · intro r hr hr'
    obtain ⟨i, rfl⟩ := mem_buffers hr'
    unfold arrays at hr
    split at hr <;> simp at hr

/-- When the array and the buffers are there, or are taken to be. -/
theorem allOrNothing_addDevices :
    AllOrNothing (finish pipesCount env (Run.andThen
      ⟨(arrays env).map .acquired ++ (buffers env (List.range pipesCount)).map .acquired, .done⟩
      (addDevices pipesCount env))) ↔ Covered pipesCount env :=
  allOrNothing_finish (nodup_arrays_buffers List.nodup_range) (fun _ h => kinds h) errFinal_eq

/-- With an array, or without pipes, `pipe_ctor` never fails. -/
theorem Pipe.ctorLoop_eq (h : env.array = true) (is : List Nat) :
    ctorLoop env is = ⟨(buffers env is).map .acquired, .done⟩ := by
  induction is with
  | nil => rfl
  | cons i is ih =>
    rw [ctorLoop, pipeCtor, h, if_pos rfl, Run.done_andThen, ih, kmallocBuffer_eq, buffers_cons i is,
      List.map_append]

theorem Pipe.ctorLoop_oops (h : env.array = false) (i : Nat) (is : List Nat) :
    ctorLoop env (i :: is) = ⟨kmallocBuffer env i, .oops⟩ := by
  rw [ctorLoop, pipeCtor, h, if_neg (by decide), Run.oops_andThen]

theorem SimplePipe.ctorLoop_oops (h : env.array = false) (i : Nat) (is : List Nat) :
    ctorLoop env (i :: is) = ⟨kmallocBuffer env i, .oops⟩ := by
  rw [ctorLoop, pipeCtor, h]
  rfl

/-- The pipes whose buffer is allocated are constructed, and the loop goes on. -/
theorem SimplePipe.ctorLoop_append (h : env.array = true) (hall : ∀ i ∈ is, env.buffer i = true)
    (js : List Nat) :
    ctorLoop env (is ++ js) = Run.andThen ⟨(buffers env is).map .acquired, .done⟩ (ctorLoop env js) := by
  induction is with
  | nil => rfl
  | cons i is ih =>
    have hi := hall i List.mem_cons_self
    have htail := ih fun j hj => hall j (List.mem_cons_of_mem i hj)
    rw [List.cons_append, ctorLoop, pipeCtor, h, hi]
    simp only [if_true, ne_eq, not_true_eq_false, if_false]
    rw [htail, kmallocBuffer_eq, buffers_cons i is]
    simp only [Run.done_andThen, List.map_append, List.append_assoc]

/-- The first buffer that cannot be allocated ends the loop, which takes down the pipes before it. -/
theorem SimplePipe.ctorLoop_failed (h : env.array = true) {m : Nat} (hm : env.buffer m = false)
    (hmin : ∀ i < m, env.buffer i = true) (rest : List Nat) :
    ctorLoop env (List.range m ++ m :: rest) =
      ⟨(buffers env (List.range m)).map .acquired ++ (buffers env (List.range m)).map .released,
        .goto .errPipes efault⟩ := by
  rw [ctorLoop_append h fun i hi => hmin i (List.mem_range.mp hi), ctorLoop, pipeCtor, h, hm,
    kmallocBuffer_eq, pipeDtors_eq]
  simp [buffers, hm, efault]

theorem range_eq_append_cons {m n : Nat} (h : m < n) :
    ∃ rest, List.range n = List.range m ++ m :: rest := by
  obtain ⟨k, rfl⟩ := Nat.exists_eq_add_of_lt h
  refine ⟨(List.range k).map fun i => m + (i + 1), ?_⟩
  rw [Nat.add_assoc, List.range_add, List.range_succ_eq_map, List.map_cons, List.map_map]
  rfl

theorem not_allOrNothing_oops (log : Log) : ¬AllOrNothing (finish pipesCount env ⟨log, .oops⟩) := by
  rintro ⟨⟨ret, hret, _⟩, _⟩
  cases hret

theorem Pipe.allOrNothing_iff : AllOrNothing (Pipe.pipeInit pipesCount env) ↔
    (env.array = true ∨ pipesCount = 0) ∧ Covered pipesCount env := by
  unfold Pipe.pipeInit
  rw [allocArray_eq, Run.done_andThen]
  by_cases harray : env.array = true
  · rw [Pipe.ctorLoop_eq harray]
    simpa [harray] using allOrNothing_addDevices
  · cases pipesCount with
    | zero => simpa [Pipe.ctorLoop, buffers] using @allOrNothing_addDevices 0 env
    | succ n =>
      have hnull := eq_false_of_ne_true harray
      rw [List.range_succ_eq_map, Pipe.ctorLoop_oops hnull, Run.oops_andThen]
      exact iff_of_false (not_allOrNothing_oops _) (by simp [harray])

theorem SimplePipe.allOrNothing_iff : AllOrNothing (SimplePipe.pipeInit pipesCount env) ↔
    (env.array = true ∨ pipesCount = 0) ∧
      ((∃ i < pipesCount, env.buffer i = false) ∨ Covered pipesCount env) := by
  unfold SimplePipe.pipeInit
  rw [allocArray_eq, Run.done_andThen]
  by_cases harray : env.array = true
  · by_cases hbuffer : ∃ i < pipesCount, env.buffer i = false
    · -- the first buffer that fails
      have hm := Nat.find_spec hbuffer
      have hmin : ∀ i < Nat.find hbuffer, env.buffer i = true := by
        intro i hi
        have hno := Nat.find_min hbuffer hi
        have hlt : i < pipesCount := Nat.lt_trans hi hm.1
        exact eq_true_of_ne_false fun h => hno ⟨hlt, h⟩
      generalize Nat.find hbuffer = m at hm hmin
      obtain ⟨rest, hrest⟩ := range_eq_append_cons hm.1
      rw [hrest, SimplePipe.ctorLoop_failed harray hm.2 hmin, Run.goto_andThen]
      refine iff_of_true ?_ ⟨Or.inl harray, Or.inl hbuffer⟩
      have hnodup : [arrays env, buffers env (List.range m)].flatten.Nodup := by
        simpa using nodup_arrays_buffers List.nodup_range
      refine allOrNothing_nested hnodup (by decide : efault ≠ 0) ?_
      simp [unwind, errPipes_eq, nested]
    · have hall : ∀ i ∈ List.range pipesCount, env.buffer i = true := by
        intro i hi
        exact eq_true_of_ne_false fun h => hbuffer ⟨i, List.mem_range.mp hi, h⟩
      have hloop := SimplePipe.ctorLoop_append harray hall []
      rw [List.append_nil] at hloop
      rw [hloop]
      simpa [harray, hbuffer, SimplePipe.ctorLoop] using allOrNothing_addDevices
  · cases pipesCount with
    | zero => simpa [SimplePipe.ctorLoop, buffers] using @allOrNothing_addDevices 0 env
    | succ n =>
      have hnull := eq_false_of_ne_true harray
      rw [List.range_succ_eq_map, SimplePipe.ctorLoop_oops hnull, Run.oops_andThen]
      exact iff_of_false (not_allOrNothing_oops _) (by simp [harray])

/-- `pipe_init` returns an error and has given everything back exactly when, the array having been
    allocated, a call fails that the ladder covers: `alloc_chrdev_region`, `cdev_add`,
    `class_create`, the first `device_create` and, in simple_pipe only, any buffer. -/
theorem load_iff (pipesCount : Nat) (env : Env) :
    (AllOrNothing (Pipe.pipeInit pipesCount env) ↔
      (env.array = true ∨ pipesCount = 0) ∧ Covered pipesCount env) ∧
    (AllOrNothing (SimplePipe.pipeInit pipesCount env) ↔
      (env.array = true ∨ pipesCount = 0) ∧
        ((∃ i < pipesCount, env.buffer i = false) ∨ Covered pipesCount env)) :=
  ⟨Pipe.allOrNothing_iff, SimplePipe.allOrNothing_iff⟩

/-- Every call succeeds. -/
def allSucceed : Env where
  array := true
  buffer _ := true
  region := 0
  cdev := 0
  myClass := none
  device _ := none

def enomem : Errno := ⟨-12, by decide⟩

/-- With an array of 1 pipe that cannot be allocated both modules oops; pipe loads without its
    only buffer; and when the second of 2 devices fails the first one is left behind by both. -/
theorem load_failures :
    let noArray : Env := { allSucceed with array := false }
    let noBuffer : Env := { allSucceed with buffer := fun _ => false }
    let noSecond : Env := { allSucceed with device := fun i => if i = 1 then some enomem else none }
    (Pipe.pipeInit 1 noArray).ret = none ∧ (SimplePipe.pipeInit 1 noArray).ret = none ∧
    (Pipe.pipeInit 1 noBuffer).ret = some 0 ∧
    (Pipe.pipeInit 2 noSecond).ret = some (-12) ∧
    (SimplePipe.pipeInit 2 noSecond).ret = some (-12) ∧
    .acquired (.device 0) ∈ (Pipe.pipeInit 2 noSecond).log ∧
    .released (.device 0) ∉ (Pipe.pipeInit 2 noSecond).log ∧
    .acquired (.device 0) ∈ (SimplePipe.pipeInit 2 noSecond).log ∧
    .released (.device 0) ∉ (SimplePipe.pipeInit 2 noSecond).log := by
  decide

end Modules

end DemosOsLinux.PipeModules
