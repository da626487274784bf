/-
  What one step of the echo server can do.

  `Trans` lists the steps with the tables they lead to in closed form: a new connection
  (`opened`), a pipe with its registration (`withPipe`), a connection taken out of all tables
  (`dropped`). `trans_of_step` is the only place where the branches are unfolded.
-/
import DemosOsLinux.EchoServer.Server

namespace DemosOsLinux.EchoServer

open Lib Function
open Option (bind_eq_some_iff)

/-- The tables with a new connection at `realfd` and its timer at `timerfd`. -/
def Tables.opened (t : Tables) (cp : CircularPipe) (realfd timerfd : Fd) : Tables where
  sockfd := t.sockfd
  fds := update (update t.fds realfd (some (.sock t.nextConn))) timerfd
    (some (.timer t.nextConn))
  interest := update (update t.interest realfd (some (wanted cp))) timerfd
    (some inputOnly)
  fdbuffermap := update t.fdbuffermap realfd (some cp)
  fdmap := update t.fdmap realfd (some timerfd)
  timermap := update t.timermap timerfd (some realfd)
  nextConn := t.nextConn + 1

/-- The tables with another pipe at `fd`, registered for what it wants. -/
def Tables.withPipe (t : Tables) (fd : Fd) (cp : CircularPipe) : Tables :=
  { t with
    interest := update t.interest fd (some (wanted cp))
    fdbuffermap := update t.fdbuffermap fd (some cp) }

/-- The tables without the connection at `realfd` and its timer at `timerfd`. -/
def Tables.dropped (t : Tables) (realfd timerfd : Fd) : Tables :=
  { t with
    fds := update (update t.fds realfd none) timerfd none
    interest := update (update t.interest realfd none) timerfd none
    fdbuffermap := update t.fdbuffermap realfd none
    fdmap := update t.fdmap realfd none
    timermap := update t.timermap timerfd none }

/-- The steps of a branch that does something, on the tables. -/
inductive Works (cfg : Config) (t : Tables) (e : Entry) (k : Choice) :
    Branch → List Event → Tables → Prop
  | accept (hfd : e.fd = t.sockfd) (hreal : t.fds k.realfd = none)
      (htimer : t.fds k.timerfd = none) (hne : k.timerfd ≠ k.realfd) :
      Works cfg t e k .connect [.applied e.source .listener, .accepted t.nextConn]
        (t.opened (CircularPipe.ctor cfg.bufsize.toNat k.mem) k.realfd k.timerfd)
  | read (c : ConnId) (cp : CircularPipe) (hev : e.events.epollIn = true)
      (hcp : t.fdbuffermap e.fd = some cp) (hc : t.fds e.fd = some (.sock c))
      (hlen : k.bytes.length ≤ cp.pushCount) :
      Works cfg t e k .canRead [.applied e.source (.sock c), .read c k.bytes]
        (t.withPipe e.fd (cp.push k.bytes).1)
  | write (c : ConnId) (cp : CircularPipe) (hev : e.events.epollOut = true)
      (hcp : t.fdbuffermap e.fd = some cp) (hc : t.fds e.fd = some (.sock c))
      (hlen : k.len ≤ cp.pullCount) :
      Works cfg t e k .canWrite [.applied e.source (.sock c), .wrote c (cp.pull k.len).2]
        (t.withPipe e.fd (cp.pull k.len).1)
  | hangup (c : ConnId) (timerfd : Fd) (hev : e.events.epollRdHup = true)
      (hc : t.fds e.fd = some (.sock c)) (htimer : t.fdmap e.fd = some timerfd) :
      Works cfg t e k .disconnect [.applied e.source (.sock c), .closed c]
        (t.dropped e.fd timerfd)
  | expire (c : ConnId) (realfd : Fd) (hreal : t.timermap e.fd = some realfd)
      (hc : t.fds realfd = some (.sock c)) :
      Works cfg t e k .timeout [.applied e.source (.timer c), .closed c] (t.dropped realfd e.fd)

inductive Trans (cfg : Config) (s : Server) : Act → List Event → Server → Prop
  | wait (batch : List (Fd × Mask)) (hp : s.phase = .waiting)
      (hb : batchOk cfg s.tables batch) :
      Trans cfg s (.wait batch) [] { s with phase := startEntry (entries s.tables batch) }
  | skip (e : Entry) (b : Branch) (rest : List Entry) (k : Choice)
      (hp : s.phase = .handling e b rest) :
      Trans cfg s (.handle k) [] { s with phase := nextPhase e b rest }
  | work (e : Entry) (b : Branch) (rest : List Entry) (k : Choice) (es : List Event)
      (t : Tables) (hp : s.phase = .handling e b rest) (hw : Works cfg s.tables e k b es t) :
      Trans cfg s (.handle k) es ⟨t, nextPhase e b rest⟩

/-! ## Inversion -/

variable {t t' : Tables} {fd : Fd} {es : List Event} {cfg : Config} {k : Choice} {e : Entry}

theorem connAt_eq_some {c : ConnId} (h : t.connAt fd = some c) : t.fds fd = some (.sock c) := by
  unfold Tables.connAt at h
  split at h
  · rename_i c' hc
    obtain rfl := Option.some.inj h
    exact hc
  · cases h

/-- What `epoll_ctl` leaves on the interest list. -/
def CtlOp.result (op : CtlOp) (m : Mask) : Option Mask :=
  match op with
  | .add | .mod => some m
  | .del => none

theorem epollCtl_eq_some {op : CtlOp} {m : Mask} (h : epollCtl t op fd m = some t') :
    t' = { t with interest := update t.interest fd (op.result m) } := by
  cases op with
  | add =>
    simp only [epollCtl] at h
    split at h
    · exact (Option.some.inj h).symm
    · cases h
  | mod =>
    simp only [epollCtl] at h
    split at h
    · exact (Option.some.inj h).symm
    · cases h
  | del =>
    simp only [epollCtl] at h
    split at h
    · exact (Option.some.inj h).symm
    · cases h

theorem close_eq_some (h : close t fd = some t') :
    t' = { t with
      fds := update t.fds fd none
      interest := update t.interest fd none } := by
  unfold close at h
  split at h
  · exact (Option.some.inj h).symm
  · cases h

theorem setupTimer_eq_some (h : setupTimer t fd = some t') : t' = t := by
  unfold setupTimer at h
  split at h
  · exact (Option.some.inj h).symm
  · cases h

theorem connect_works (hfd : e.fd = t.sockfd) (h : connect cfg t e k = some (t', es)) :
    Works cfg t e k .connect es t' := by
  obtain ⟨t₁, h₁, h⟩ := bind_eq_some_iff.mp h
  obtain ⟨t₃, h₃, h⟩ := bind_eq_some_iff.mp h
  obtain ⟨t₄, h₄, h⟩ := bind_eq_some_iff.mp h
  obtain ⟨t₅, h₅, h⟩ := bind_eq_some_iff.mp h
  obtain ⟨t₆, h₆, h⟩ := bind_eq_some_iff.mp h
  obtain ⟨rfl, rfl⟩ := result_inj h
  obtain rfl := setupTimer_eq_some h₆
  obtain rfl := epollCtl_eq_some h₅
  unfold accept4 at h₁
  split at h₁
  · rename_i hreal
    obtain rfl := Option.some.inj h₁
    obtain rfl := epollCtl_eq_some h₃
    unfold timerfdCreate at h₄
    obtain ⟨htimer, rfl⟩ := guard_inj h₄
    -- the second descriptor is chosen while the first is open
    have hfree : update t.fds k.realfd (some (.sock t.nextConn)) k.timerfd = none :=
      htimer.1
    have hne : k.timerfd ≠ k.realfd := by
      intro he
      rw [he, update_self] at hfree
      cases hfree
    rw [update_of_ne hne] at hfree
    exact Works.accept hfd hreal.1 hfree hne
  · cases h₁

theorem canRead_works {cp : CircularPipe} (hev : e.events.epollIn = true)
    (hcp : t.fdbuffermap e.fd = some cp) (h : canRead t e cp k = some (t', es)) :
    Works cfg t e k .canRead es t' := by
  obtain ⟨timerfd, _, h⟩ := bind_eq_some_iff.mp h
  obtain ⟨c, hc, h⟩ := bind_eq_some_iff.mp h
  obtain ⟨cp', hr, h⟩ := bind_eq_some_iff.mp h
  obtain ⟨t₂, h₂, h⟩ := bind_eq_some_iff.mp h
  obtain ⟨t₃, h₃, h⟩ := bind_eq_some_iff.mp h
  obtain ⟨rfl, rfl⟩ := result_inj h
  obtain rfl := setupTimer_eq_some h₃
  obtain rfl := epollCtl_eq_some h₂
  unfold readInto at hr
  obtain ⟨hlen, rfl⟩ := guard_inj hr
  exact Works.read c cp hev hcp (connAt_eq_some hc) hlen

theorem canWrite_works {cp : CircularPipe} (hev : e.events.epollOut = true)
    (hcp : t.fdbuffermap e.fd = some cp) (h : canWrite t e cp k = some (t', es)) :
    Works cfg t e k .canWrite es t' := by
  obtain ⟨c, hc, h⟩ := bind_eq_some_iff.mp h
  obtain ⟨r, hr, h⟩ := bind_eq_some_iff.mp h
  obtain ⟨t₂, h₂, h⟩ := bind_eq_some_iff.mp h
  obtain ⟨rfl, rfl⟩ := result_inj h
  obtain rfl := epollCtl_eq_some h₂
  unfold writeFrom at hr
  obtain ⟨hlen, rfl⟩ := guard_inj hr
  exact Works.write c cp hev hcp (connAt_eq_some hc) hlen

theorem closeConnection_eq_some {realfd timerfd : Fd}
    (h : closeConnection t realfd timerfd = some t') : t' = t.dropped realfd timerfd := by
  obtain ⟨t₁, h₁, h⟩ := bind_eq_some_iff.mp h
  obtain ⟨t₂, h₂, h⟩ := bind_eq_some_iff.mp h
  obtain ⟨t₃, h₃, h⟩ := bind_eq_some_iff.mp h
  obtain ⟨t₄, h₄, h⟩ := bind_eq_some_iff.mp h
  obtain rfl := Option.some.inj h
  obtain rfl := close_eq_some h₄
  obtain rfl := close_eq_some h₃
  obtain rfl := epollCtl_eq_some h₂
  obtain rfl := epollCtl_eq_some h₁
  simp only [Tables.dropped]
  congr 1
  funext fd
  simp only [update_apply]
  split
  · rfl
  · rename_i ht
    split
    · rfl
    · rfl

theorem branch_works {b : Branch} (h : branch cfg t e b k = some (t', es)) :
    (t' = t ∧ es = []) ∨ Works cfg t e k b es t' := by
  have skipped (h : some (t, []) = some (t', es)) : t' = t ∧ es = [] := by
    obtain ⟨h1, h2⟩ := result_inj h
    exact ⟨h1.symm, h2.symm⟩
  cases b with
  | connect =>
    simp only [branch] at h
    split at h
    · rename_i hfd
      exact Or.inr (connect_works hfd h)
    · exact Or.inl (skipped h)
  | canRead =>
    simp only [branch] at h
    split at h
    · rename_i cp hcp hev
      exact Or.inr (canRead_works hev hcp h)
    · exact Or.inl (skipped h)
  | canWrite =>
    simp only [branch] at h
    split at h
    · rename_i cp hcp hev
      exact Or.inr (canWrite_works hev hcp h)
    · exact Or.inl (skipped h)
  | disconnect =>
    simp only [branch] at h
    split at h
    · rename_i hcp hev
      obtain ⟨timerfd, htimer, h⟩ := bind_eq_some_iff.mp h
      obtain ⟨c, hc, h⟩ := bind_eq_some_iff.mp h
      obtain ⟨t₁, h₁, h⟩ := bind_eq_some_iff.mp h
      obtain ⟨rfl, rfl⟩ := result_inj h
      obtain rfl := closeConnection_eq_some h₁
      exact Or.inr (Works.hangup c timerfd hev (connAt_eq_some hc) htimer)
    · exact Or.inl (skipped h)
  | timeout =>
    simp only [branch] at h
    split at h
    · rename_i realfd hreal
      obtain ⟨c, hc, h⟩ := bind_eq_some_iff.mp h
      obtain ⟨t₁, h₁, h⟩ := bind_eq_some_iff.mp h
      obtain ⟨rfl, rfl⟩ := result_inj h
      obtain rfl := closeConnection_eq_some h₁
      exact Or.inr (Works.expire c realfd hreal (connAt_eq_some hc))
    · exact Or.inl (skipped h)

theorem trans_of_step {s s' : Server} {a : Act} (h : step cfg s a = some (s', es)) :
    Trans cfg s a es s' := by
  cases a with
  | wait batch =>
    simp only [step] at h
    obtain ⟨hg, rfl, rfl⟩ := guard_result_inj h
    exact Trans.wait batch hg.1 hg.2
  | handle k =>
    simp only [step] at h
    split at h
    · cases h
    · rename_i e b rest hp
      obtain ⟨⟨t', es'⟩, hb, he⟩ := Option.map_eq_some_iff.mp h
      obtain ⟨rfl, rfl⟩ := Prod.mk.inj he
      rcases branch_works hb with ⟨rfl, rfl⟩ | hw
      · exact Trans.skip e b rest k hp
      · exact Trans.work e b rest k es' t' hp hw

end DemosOsLinux.EchoServer
