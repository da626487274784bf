/-
  What a branch of the pointer model can do, in closed form.

  `MemWorks` has one constructor for each way a branch of `Memory.lean` ends normally;
  `mem_branch_works` is the inversion lemma: a branch that runs does nothing else. `bind_eq_ok` takes
  code that ran to its end apart call by call; `Only P x` says that `x` ends early only with errors
  that `P` allows.
-/
import DemosOsLinux.EchoServer.Memory

namespace DemosOsLinux.EchoServer

open Lib Function

/-! ## Code that can end early -/

section Outcome

variable {ε α β : Type} {f : α → Except ε β} {P : ε → Prop}

theorem bind_eq_ok {x : Except ε α} {b : β} (h : x >>= f = .ok b) :
    ∃ a, x = .ok a ∧ f a = .ok b := by
  cases x with
  | error e => cases h
  | ok a => exact ⟨a, rfl, h⟩

/-- Every error with which `x` can end satisfies `P`. -/
def Only (P : ε → Prop) (x : Except ε α) : Prop := ∀ e, x = .error e → P e

theorem Only.ok (a : α) : Only P (.ok a : Except ε α) := by
  intro e h
  cases h

theorem Only.error {e : ε} (h : P e) : Only P (.error e : Except ε α) := by
  intro e' he
  cases he
  exact h

theorem Only.bind {x : Except ε α} (hx : Only P x) (hf : ∀ a, x = .ok a → Only P (f a)) :
    Only P (x >>= f) := by
  intro e h
  cases x with
  | error e' =>
    cases h
    exact hx _ rfl
  | ok a => exact hf a rfl e h

end Outcome

/-! ## Branches -/

/-- The memory with a new connection at `realfd` and its timer at `timerfd`. -/
def Memory.opened (m : Memory) (cp : CircularPipe) (realfd timerfd : Fd) : Memory where
  sockfd := m.sockfd
  fds := update (update m.fds realfd (some (.sock m.nextConn))) timerfd
    (some (.timer m.nextConn))
  interest := update (update m.interest realfd (some (wanted cp))) timerfd
    (some inputOnly)
  fdbuffermap := update m.fdbuffermap realfd (some m.nextPtr)
  fdmap := update m.fdmap realfd (some timerfd)
  timermap := update m.timermap timerfd (some realfd)
  heap := update m.heap m.nextPtr (some cp)
  nextConn := m.nextConn + 1
  nextPtr := m.nextPtr + 1

/-- The memory with another pipe behind `p`, the pointer of `fd`. -/
def Memory.withPipe (m : Memory) (fd : Fd) (p : Ptr) (cp : CircularPipe) : Memory :=
  { m with
    interest := update m.interest fd (some (wanted cp))
    heap := update m.heap p (some cp) }

/-- The memory without the connection at `realfd`, its timer and its pipe `p`. -/
def Memory.dropped (m : Memory) (realfd timerfd : Fd) (p : Ptr) : Memory :=
  { m with
    fds := update (update m.fds realfd none) timerfd none
    interest := update (update m.interest realfd none) timerfd none
    fdbuffermap := update m.fdbuffermap realfd none
    fdmap := update m.fdmap realfd none
    timermap := update m.timermap timerfd none
    heap := update m.heap p none }

/-- What closing the connection at `realfd` gives back: its socket, its timer, its pipe. -/
def Memory.givenBack (m : Memory) (realfd timerfd : Fd) (p : Ptr) : List LedgerEvent :=
  m.closedAt realfd ++
    (update m.fds realfd none timerfd).toList.map .closed ++ [.deleted p]

inductive MemWorks (cfg : Config) (m : Memory) (e : Entry) (k : Choice) :
    Branch → List LedgerEvent → Memory → Prop
  | accept (hfd : e.fd = m.sockfd) (hreal : m.fds k.realfd = none)
      (htimer : m.fds k.timerfd = none) (hne : k.timerfd ≠ k.realfd) :
      MemWorks cfg m e k .connect [.accepted m.nextConn m.nextPtr]
        (m.opened (CircularPipe.ctor cfg.bufsize.toNat k.mem) k.realfd k.timerfd)
  | read (c : ConnId) (p : Ptr) (cp : CircularPipe) (hev : e.events.epollIn = true)
      (hp : m.fdbuffermap e.fd = some p) (hcp : m.heap p = some cp)
      (hc : m.fds e.fd = some (.sock c)) (hlen : k.bytes.length ≤ cp.pushCount) :
      MemWorks cfg m e k .canRead [] (m.withPipe e.fd p (cp.push k.bytes).1)
  | write (c : ConnId) (p : Ptr) (cp : CircularPipe) (hev : e.events.epollOut = true)
      (hp : m.fdbuffermap e.fd = some p) (hcp : m.heap p = some cp)
      (hc : m.fds e.fd = some (.sock c)) (hlen : k.len ≤ cp.pullCount) :
      MemWorks cfg m e k .canWrite [] (m.withPipe e.fd p (cp.pull k.len).1)
  | hangup (timerfd : Fd) (p : Ptr) (cp : CircularPipe) (hev : e.events.epollRdHup = true)
      (htimer : m.fdmap e.fd = some timerfd) (hp : m.fdbuffermap e.fd = some p)
      (hcp : m.heap p = some cp) :
      MemWorks cfg m e k .disconnect (m.givenBack e.fd timerfd p) (m.dropped e.fd timerfd p)
  | expire (realfd : Fd) (p : Ptr) (cp : CircularPipe) (hreal : m.timermap e.fd = some realfd)
      (hp : m.fdbuffermap realfd = some p) (hcp : m.heap p = some cp) :
      MemWorks cfg m e k .timeout (m.givenBack realfd e.fd p) (m.dropped realfd e.fd p)

/-! ## Inversion -/

theorem orStop_eq_ok {α : Type} {r : Option α} {a : α} (h : orStop r = .ok a) : r = some a := by
  cases r with
  | none => cases h
  | some b =>
    cases h
    rfl

theorem findSecond_eq_ok {α : Type} {r : Option α} {a : α} (h : findSecond r = .ok a) :
    r = some a := by
  cases r with
  | none => cases h
  | some b =>
    cases h
    rfl

variable {m m' : Memory} {fd : Fd}

theorem object_eq_ok {p : Ptr} {cp : CircularPipe} (h : m.object p = .ok cp) :
    m.heap p = some cp := by
  unfold Memory.object at h
  split at h
  · cases h
  · rename_i cp' hcp
    cases h
    exact hcp

theorem checked_eq_ok {r : Option Tables} (h : m.checked r = .ok m') :
    ∃ t, r = some t ∧ m' = { m with fds := t.fds, interest := t.interest } := by
  cases r with
  | none => cases h
  | some t =>
    cases h
    exact ⟨t, rfl, rfl⟩

theorem checked_epollCtl {op : CtlOp} {mask : Mask}
    (h : m.checked (epollCtl m.view op fd mask) = .ok m') :
    m' = { m with interest := update m.interest fd (op.result mask) } := by
  obtain ⟨t, ht, rfl⟩ := checked_eq_ok h
  rw [epollCtl_eq_some ht]
  rfl

theorem checked_close (h : m.checked (close m.view fd) = .ok m') :
    m' = { m with
      fds := update m.fds fd none
      interest := update m.interest fd none } := by
  obtain ⟨t, ht, rfl⟩ := checked_eq_ok h
  rw [close_eq_some ht]
  rfl

theorem checked_setupTimer (h : m.checked (setupTimer m.view fd) = .ok m') : m' = m := by
  obtain ⟨t, ht, rfl⟩ := checked_eq_ok h
  rw [setupTimer_eq_some ht]
  rfl

theorem memory_accept4_eq_ok (h : m.accept4 fd = .ok m') :
    m.fds fd = none ∧ m' = { m with
      fds := update m.fds fd (some (.sock m.nextConn))
      nextConn := m.nextConn + 1 } := by
  unfold Memory.accept4 at h
  split at h
  · rename_i hfd
    cases h
    exact ⟨hfd, rfl⟩
  · cases h

theorem memory_timerfdCreate_eq_ok {c : ConnId} (h : m.timerfdCreate fd c = .ok m') :
    m.fds fd = none ∧ m' = { m with fds := update m.fds fd (some (.timer c)) } := by
  unfold Memory.timerfdCreate at h
  split at h
  · rename_i hfd
    cases h
    exact ⟨hfd, rfl⟩
  · cases h

section Inversion

variable {cfg : Config} {m m' : Memory} {e : Entry} {k : Choice} {es : List LedgerEvent}

theorem mem_connect_works (hfd : e.fd = m.sockfd) (h : Mem.connect cfg m k = .ok (m', es)) :
    MemWorks cfg m e k .connect es m' := by
  obtain ⟨m₁, h₁, h⟩ := bind_eq_ok h
  obtain ⟨m₃, h₃, h⟩ := bind_eq_ok h
  obtain ⟨m₄, h₄, h⟩ := bind_eq_ok h
  obtain ⟨m₅, h₅, h⟩ := bind_eq_ok h
  obtain ⟨m₆, h₆, h⟩ := bind_eq_ok h
  cases h
  obtain ⟨hreal, rfl⟩ := memory_accept4_eq_ok h₁
  obtain rfl := checked_epollCtl h₃
  obtain ⟨htimer, rfl⟩ := memory_timerfdCreate_eq_ok h₄
  obtain rfl := checked_epollCtl h₅
  obtain rfl := checked_setupTimer h₆
  -- the second descriptor is chosen while the first is open
  have hfree : update m.fds k.realfd (some (.sock m.nextConn)) k.timerfd = none := htimer
  have hne : k.timerfd ≠ k.realfd := by
    intro he
    rw [he, update_self] at hfree
    cases hfree
  rw [update_of_ne hne] at hfree
  exact MemWorks.accept hfd hreal hfree hne

theorem mem_canRead_works (hev : e.events.epollIn = true)
    (h : Mem.canRead m e.fd k = .ok (m', es)) : MemWorks cfg m e k .canRead es m' := by
  obtain ⟨timerfd, _, h⟩ := bind_eq_ok h
  obtain ⟨p, hp, h⟩ := bind_eq_ok h
  obtain ⟨cp, hcp, h⟩ := bind_eq_ok h
  obtain ⟨c, hc, h⟩ := bind_eq_ok h
  obtain ⟨cp', hr, h⟩ := bind_eq_ok h
  obtain ⟨m₂, h₂, h⟩ := bind_eq_ok h
  obtain ⟨m₃, h₃, h⟩ := bind_eq_ok h
  cases h
  obtain rfl := checked_epollCtl h₂
  obtain rfl := checked_setupTimer h₃
  have hr := orStop_eq_ok hr
  unfold readInto at hr
  obtain ⟨hlen, rfl⟩ := guard_inj hr
  exact MemWorks.read c p cp hev (findSecond_eq_ok hp) (object_eq_ok hcp)
    (connAt_eq_some (orStop_eq_ok hc)) hlen

theorem mem_canWrite_works (hev : e.events.epollOut = true)
    (h : Mem.canWrite m e.fd k = .ok (m', es)) : MemWorks cfg m e k .canWrite es m' := by
  obtain ⟨p, hp, h⟩ := bind_eq_ok h
  obtain ⟨cp, hcp, h⟩ := bind_eq_ok h
  obtain ⟨c, hc, h⟩ := bind_eq_ok h
  obtain ⟨r, hr, h⟩ := bind_eq_ok h
  obtain ⟨m₂, h₂, h⟩ := bind_eq_ok h
  cases h
  obtain rfl := checked_epollCtl h₂
  have hr := orStop_eq_ok hr
  unfold writeFrom at hr
  obtain ⟨hlen, rfl⟩ := guard_inj hr
  exact MemWorks.write c p cp hev (findSecond_eq_ok hp) (object_eq_ok hcp)
    (connAt_eq_some (orStop_eq_ok hc)) hlen

theorem mem_closeConnection_eq_ok {realfd timerfd : Fd}
    (h : Mem.closeConnection m realfd timerfd = .ok (m', es)) :
    ∃ p cp, m.fdbuffermap realfd = some p ∧ m.heap p = some cp ∧
      es = m.givenBack realfd timerfd p ∧ m' = m.dropped realfd timerfd p := by
  obtain ⟨m₁, h₁, h⟩ := bind_eq_ok h
  obtain ⟨m₂, h₂, h⟩ := bind_eq_ok h
  obtain ⟨m₃, h₃, h⟩ := bind_eq_ok h
  obtain ⟨m₄, h₄, h⟩ := bind_eq_ok h
  obtain ⟨p, hp, h⟩ := bind_eq_ok h
  obtain ⟨cp, hcp, h⟩ := bind_eq_ok h
  cases h
  obtain rfl := checked_epollCtl h₁
  obtain rfl := checked_epollCtl h₂
  obtain rfl := checked_close h₃
  obtain rfl := checked_close h₄
  refine ⟨p, cp, findSecond_eq_ok hp, object_eq_ok hcp, rfl, ?_⟩
  simp only [Memory.dropped]
  congr 1
  funext fd
  simp only [CtlOp.result, update_apply]
  split
  · rfl
  · split
    · rfl
    · rfl

theorem mem_branch_works {b : Branch} (h : Mem.branch cfg m e b k = .ok (m', es)) :
    (m' = m ∧ es = []) ∨ MemWorks cfg m e k b es m' := by
  have skipped (h : (.ok (m, []) : Except Fault (Memory × List LedgerEvent)) = .ok (m', es)) :
      m' = m ∧ es = [] := by
    cases h
    exact ⟨rfl, rfl⟩
  cases b with
  | connect =>
    simp only [Mem.branch] at h
    split at h
    · rename_i hfd
      exact Or.inr (mem_connect_works hfd h)
    · exact Or.inl (skipped h)
  | canRead =>
    simp only [Mem.branch] at h
    split at h
    · rename_i hev
      exact Or.inr (mem_canRead_works hev.2 h)
    · exact Or.inl (skipped h)
  | canWrite =>
    simp only [Mem.branch] at h
    split at h
    · rename_i hev
      exact Or.inr (mem_canWrite_works hev.2 h)
    · exact Or.inl (skipped h)
  | disconnect =>
    simp only [Mem.branch] at h
    split at h
    · rename_i hev
      obtain ⟨timerfd, htimer, h⟩ := bind_eq_ok h
      obtain ⟨p, cp, hp, hcp, rfl, rfl⟩ := mem_closeConnection_eq_ok h
      exact Or.inr (MemWorks.hangup timerfd p cp hev.2 (findSecond_eq_ok htimer) hp hcp)
    · exact Or.inl (skipped h)
  | timeout =>
    simp only [Mem.branch] at h
    split at h
    · obtain ⟨realfd, hreal, h⟩ := bind_eq_ok h
      obtain ⟨p, cp, hp, hcp, rfl, rfl⟩ := mem_closeConnection_eq_ok h
      exact Or.inr (MemWorks.expire realfd p cp (findSecond_eq_ok hreal) hp hcp)
    · exact Or.inl (skipped h)

end Inversion

end DemosOsLinux.EchoServer
