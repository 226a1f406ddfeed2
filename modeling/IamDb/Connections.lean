import IamDb.Refusals

/-! The connections of the pool and what becomes of them. A request's store work
takes one, runs its program on it and lets go of it when it completes or when it
is dropped at some await; then the connection is closed or goes back. `depth` and
`rollback` are the client's end of a connection, `pending` and `transaction` the
server's; what a program answers and does to the store is the other modules'. -/
namespace IamDb.Connections
open Txn

/-! ### A connection -/

/-- A connection as its two ends know it. -/
structure Connection where
  /-- How many transactions the client knows of. -/
  depth : Nat
  /-- A ROLLBACK the client has queued and not sent. -/
  rollback : Bool
  /-- An isolation level set for the next transaction. -/
  pending : Bool
  /-- A transaction open at the server. -/
  transaction : Bool
  /-- A reply on the wire, not read to its end. -/
  unread : Bool
  deriving DecidableEq, Repr

namespace Connection

def fresh : Connection := ⟨0, false, false, false, false⟩

/-- A statement leaves, behind the ROLLBACK queued before it. -/
def send (c : Connection) : Connection :=
  { c with rollback := false, transaction := c.transaction && !c.rollback, unread := true }

/-- The reply is read to its end. -/
def read (c : Connection) : Connection := { c with unread := false }

/-- The OK of `SET TRANSACTION`. -/
def levelled (c : Connection) : Connection := { c.read with pending := true }

/-- The OK of `BEGIN`: only now does the client count the transaction. -/
def began (c : Connection) : Connection :=
  { c.read with depth := c.depth + 1, pending := false, transaction := true }

/-- The OK of `COMMIT`. -/
def committed (c : Connection) : Connection :=
  { c.read with depth := c.depth - 1, transaction := false }

/-- An error for a statement; with some the server ends the transaction too. -/
def refused (c : Connection) (stays : Bool) : Connection :=
  { c.read with transaction := c.transaction && stays }

/-- A transaction dropped before its commit queues a ROLLBACK, if the client
knows of it. -/
def dropTransaction (c : Connection) : Connection :=
  if 0 < c.depth then { c with depth := c.depth - 1, rollback := true } else c

/-- What the pool does with a connection it takes back: it sends what is queued
and reads the reply to that. A reply nobody read before stays on the wire. -/
def ping (c : Connection) : Connection := { c.send with unread := c.unread }

end Connection

/-- A connection taken through `acquire`. -/
structure Conn where
  conn : Connection
  armed : Bool
  deriving DecidableEq, Repr

/-- Whether a dropped connection is closed. `cancelled` is the flag of its
request as it stands then; there is none outside `storeWork`. -/
def Conn.closes (c : Conn) (cancelled : Option Bool) : Bool := c.armed || cancelled.getD true

/-- A connection no request answers for is always closed. -/
theorem closes_outside (c : Conn) : c.closes none = true := by simp [Conn.closes]

/-! ### Store work -/

/-- What the work of a request waits for: nothing, a connection, one of the
three replies of the sequence that starts a transaction, the reply of a
statement or that of `COMMIT`. -/
inductive Await where
  | working
  | acquiring
  | setting
  | between
  | beginning
  | replying
  | committing
  deriving DecidableEq, Repr

/-- Whether a sequence that starts a transaction is under way. -/
def Await.starting : Await → Bool
  | setting | between | beginning => true
  | _ => false

section
variable {Store Write Res ε α : Type} [Locking Write Res]

/-- One request's store work: the rest of its program, the await it is at, the
connection it holds, and the two flags. -/
structure StoreWork (Store Write Res : Type) [Locking Write Res] (ε α : Type) : Type 1 where
  program : Prog Store Write Res ε α
  await : Await
  conn : Option Conn
  cancelled : Bool
  done : Bool

namespace StoreWork

def storeWork (program : Prog Store Write Res ε α) : StoreWork Store Write Res ε α :=
  ⟨program, .working, none, false, false⟩

/-- The work can go on: it has neither completed nor been dropped. -/
def running (w : StoreWork Store Write Res ε α) : Prop := w.done = false ∧ w.cancelled = false

/-- The work with a connection in hand, at an await. -/
def holding (w : StoreWork Store Write Res ε α) (program : Prog Store Write Res ε α) (await : Await)
    (conn : Connection) (armed : Bool) : StoreWork Store Write Res ε α :=
  { w with program := program, await := await, conn := some ⟨conn, armed⟩ }

/-- One step of the work on its connection, up to its next await. -/
inductive Polls (w : StoreWork Store Write Res ε α) : StoreWork Store Write Res ε α → Prop where
  | acquires (conn : w.conn = none) (await : w.await = .working) :
    Polls w { w with await := .acquiring }
  | sets (program : w.program = .begin .readCommitted p) (await : w.await = .working)
      (conn : w.conn = some c) (alone : c.conn.depth = 0) :
    Polls w (w.holding w.program .setting c.conn.send true)
  | levelled (await : w.await = .setting) (conn : w.conn = some c) :
    Polls w (w.holding w.program .between c.conn.levelled c.armed)
  | skips (program : w.program = .begin .repeatableRead p) (await : w.await = .working)
      (conn : w.conn = some c) (alone : c.conn.depth = 0) :
    Polls w (w.holding w.program .between c.conn true)
  | begins (await : w.await = .between) (conn : w.conn = some c) :
    Polls w (w.holding w.program .beginning c.conn.send c.armed)
  | began (program : w.program = .begin iso p) (await : w.await = .beginning)
      (conn : w.conn = some c) : Polls w (w.holding p .working c.conn.began false)
  | asks {ρ : Type} {s : Statement Store Write Res ρ} {k : ρ → Prog Store Write Res ε α}
      (program : w.program = .stmt s k) (await : w.await = .working) (conn : w.conn = some c)
      (inside : 0 < c.conn.depth) : Polls w (w.holding w.program .replying c.conn.send c.armed)
  | asksAlone {ρ : Type} {s : Statement Store Write Res ρ} {k : ρ → Prog Store Write Res ε α}
      (program : w.program = .auto iso s k) (await : w.await = .working) (conn : w.conn = some c)
      (alone : c.conn.depth = 0) : Polls w (w.holding w.program .replying c.conn.send c.armed)
  | answered {ρ : Type} {s : Statement Store Write Res ρ} {k : ρ → Prog Store Write Res ε α}
      (program : w.program = .stmt s k) (await : w.await = .replying) (conn : w.conn = some c)
      (a : ρ) : Polls w (w.holding (k a) .working c.conn.read c.armed)
  | answeredAlone {ρ : Type} {s : Statement Store Write Res ρ} {k : ρ → Prog Store Write Res ε α}
      (program : w.program = .auto iso s k) (await : w.await = .replying)
      (conn : w.conn = some c) (a : ρ) : Polls w (w.holding (k a) .working c.conn.read c.armed)
  | commits (program : w.program = .commit p) (await : w.await = .working)
      (conn : w.conn = some c) (inside : 0 < c.conn.depth) :
    Polls w (w.holding w.program .committing c.conn.send c.armed)
  | committed (program : w.program = .commit p) (await : w.await = .committing)
      (conn : w.conn = some c) : Polls w (w.holding p .working c.conn.committed c.armed)

/-- The work runs to its end, Ok or Err, and leaves its connection like this. A
sequence that fails, or that the work gives up on, may leave it in any state. -/
inductive Completes (w : StoreWork Store Write Res ε α) : Option Conn → Prop where
  | returns (program : w.program = .ret a) (await : w.await = .working) : Completes w w.conn
  | refuses (program : w.program = .fail e) (await : w.await = .working) : Completes w w.conn
  | unacquired (await : w.await = .acquiring) : Completes w w.conn
  | unfinished (await : w.await.starting = true) (conn : w.conn = some c) (left : Connection) :
    Completes w (some ⟨left, c.armed⟩)
  | failed (await : w.await = .replying ∨ w.await = .committing) (conn : w.conn = some c)
      (stays : Bool) : Completes w (some ⟨c.conn.refused stays, c.armed⟩)

/-- What `Drop` does first: work that is not done is marked cancelled. -/
def drop (w : StoreWork Store Write Res ε α) : StoreWork Store Write Res ε α :=
  if w.done then w else { w with cancelled := true }

end StoreWork

/-! ### The pool -/

structure Pool (Store Write Res : Type) [Locking Write Res] (ε α : Type) : Type 1 where
  idle : List Connection
  closed : Nat
  requests : List (StoreWork Store Write Res ε α)

namespace Pool

def start : Pool Store Write Res ε α := ⟨[], 0, []⟩

/-- The drop of a connection, after that of the transaction begun on it. -/
def release (P : Pool Store Write Res ε α) (cancelled : Option Bool) :
    Option Conn → Pool Store Write Res ε α
  | none => P
  | some c =>
    if c.closes cancelled then { P with closed := P.closed + 1 }
    else { P with idle := c.conn.dropTransaction.ping :: P.idle }

/-- The work lets go of what it holds and is over. -/
def leave (P : Pool Store Write Res ε α) (i : Nat) (w : StoreWork Store Write Res ε α)
    (conn : Option Conn) (done : Bool) : Pool Store Write Res ε α :=
  { P.release (some w.cancelled) conn with
    requests := P.requests.set i { w with conn := none, done := done } }

end Pool

/-- What happens next to a request: it arrives, its work goes on, gets its
connection, runs to its end or is dropped. -/
inductive Event where
  | call
  | poll (i : Nat)
  | acquired (i : Nat)
  | complete (i : Nat)
  | cancel (i : Nat)
  deriving DecidableEq, Repr

namespace Pool

/-- One step of the pool. A connection that is acquired was idle, or is opened;
dropped work marks its request before it lets go of what it holds. -/
inductive Steps (P : Pool Store Write Res ε α) : Event → Pool Store Write Res ε α → Prop where
  | call (program : Prog Store Write Res ε α) :
    Steps P .call { P with requests := P.requests ++ [.storeWork program] }
  | poll (here : P.requests[i]? = some w) (running : w.running) (polls : w.Polls w') :
    Steps P (.poll i) { P with requests := P.requests.set i w' }
  | reuse (here : P.requests[i]? = some w) (running : w.running) (await : w.await = .acquiring)
      (idle : c ∈ P.idle) :
    Steps P (.acquired i)
      { P with
        idle := P.idle.erase c
        requests := P.requests.set i (w.holding w.program .working c false) }
  | opened (here : P.requests[i]? = some w) (running : w.running)
      (await : w.await = .acquiring) :
    Steps P (.acquired i)
      { P with requests := P.requests.set i (w.holding w.program .working .fresh false) }
  | complete (here : P.requests[i]? = some w) (running : w.running)
      (completes : w.Completes left) : Steps P (.complete i) (P.leave i w left true)
  | cancel (here : P.requests[i]? = some w) :
    Steps P (.cancel i) (P.leave i w.drop w.conn w.done)

/-- The states calls lead to from a pool no connection was opened in yet. -/
inductive Reachable : Pool Store Write Res ε α → Prop where
  | start : Reachable start
  | step (before : Reachable P) (step : Steps P a P') : Reachable P'

end Pool

/-! ### What a connection can be -/

/-- What work holds at an await. Nothing is left over from a transaction that
is through, and the connection is armed exactly while one is being started. -/
def Await.fits : Await → Conn → Prop
  | working, c => c = ⟨.fresh, false⟩ ∨ c = ⟨Connection.fresh.began, false⟩
  | acquiring, _ => False
  | setting, c => c = ⟨Connection.fresh.send, true⟩
  | between, c => c = ⟨.fresh, true⟩ ∨ c = ⟨Connection.fresh.levelled, true⟩
  | beginning, c => c = ⟨Connection.fresh.send, true⟩ ∨ c = ⟨Connection.fresh.levelled.send, true⟩
  | replying, c => c = ⟨Connection.fresh.send, false⟩ ∨ c = ⟨Connection.fresh.began.send, false⟩
  | committing, c => c = ⟨Connection.fresh.began.send, false⟩

/-- Work that holds a connection goes on, and the connection is what its await
makes of it. -/
def StoreWork.Fits (w : StoreWork Store Write Res ε α) : Prop :=
  ∀ c, w.conn = some c → w.running ∧ w.await.fits c

theorem Await.fits_armed {await : Await} (fits : await.fits c) : c.armed = await.starting := by
  cases await with
  | acquiring => contradiction
  | setting => cases fits; rfl
  | committing => cases fits; rfl
  | _ => rcases fits with rfl | rfl <;> rfl

namespace StoreWork
variable {w w' : StoreWork Store Write Res ε α}

theorem fits_holding {program : Prog Store Write Res ε α} {a : Await} (running : w.running)
    (fits : a.fits ⟨held, armed⟩) : (w.holding program a held armed).Fits := by
  rintro c same
  cases same
  exact ⟨running, fits⟩

/-- A step of the work leaves its connection fitting. -/
theorem fits_of_polls (running : w.running) (fits : w.Fits) (polls : w.Polls w') : w'.Fits := by
  have now {a c} (await : w.await = a) (held : w.conn = some c) : a.fits c :=
    await ▸ (fits c held).2
  cases polls with
  | acquires none =>
    intro c held
    cases none.symm.trans held
  | sets _ await held alone =>
    obtain rfl | rfl := now await held
    · exact fits_holding running rfl
    · cases alone
  | levelled await held =>
    obtain rfl := now await held
    exact fits_holding running (Or.inr rfl)
  | skips _ await held alone =>
    obtain rfl | rfl := now await held
    · exact fits_holding running (Or.inl rfl)
    · cases alone
  | begins await held =>
    obtain rfl | rfl := now await held
    · exact fits_holding running (Or.inl rfl)
    · exact fits_holding running (Or.inr rfl)
  | began _ await held =>
    obtain rfl | rfl := now await held
    · exact fits_holding running (Or.inr rfl)
    · exact fits_holding running (Or.inr rfl)
  | asks _ await held inside =>
    obtain rfl | rfl := now await held
    · cases inside
    · exact fits_holding running (Or.inr rfl)
  | asksAlone _ await held alone =>
    obtain rfl | rfl := now await held
    · exact fits_holding running (Or.inl rfl)
    · cases alone
  | answered _ await held =>
    obtain rfl | rfl := now await held
    · exact fits_holding running (Or.inl rfl)
    · exact fits_holding running (Or.inr rfl)
  | answeredAlone _ await held =>
    obtain rfl | rfl := now await held
    · exact fits_holding running (Or.inl rfl)
    · exact fits_holding running (Or.inr rfl)
  | commits _ await held inside =>
    obtain rfl | rfl := now await held
    · cases inside
    · exact fits_holding running rfl
  | committed _ await held =>
    obtain rfl := now await held
    exact fits_holding running (Or.inl rfl)

theorem left_isSome (completes : w.Completes left) : left.isSome = w.conn.isSome := by
  cases completes with
  | unfinished _ held => rw [held]; rfl
  | failed _ held => rw [held]; rfl
  | _ => rfl

/-- Work that completes leaves its connection armed in the middle of a sequence,
and else such that the pool's ping makes it as good as new. -/
theorem left_of_completes (fits : w.Fits) (completes : w.Completes (some c)) :
    c.armed = w.await.starting ∧
      (c.armed = false → c.conn.dropTransaction.ping = .fresh) := by
  have now {a c} (await : w.await = a) (held : w.conn = some c) : a.fits c :=
    await ▸ (fits c held).2
  have rest (await : w.await = .working) (held : w.conn = some c) :
      c.armed = w.await.starting ∧
        (c.armed = false → c.conn.dropTransaction.ping = .fresh) := by
    obtain rfl | rfl := now await held
    · exact ⟨by rw [await]; rfl, fun _ => rfl⟩
    · exact ⟨by rw [await]; rfl, fun _ => rfl⟩
  generalize whole : some c = left at completes
  cases completes with
  | returns _ await => exact rest await whole.symm
  | refuses _ await => exact rest await whole.symm
  | unacquired await => exact (now await whole.symm).elim
  | unfinished await held =>
    cases whole
    have armed := Await.fits_armed (fits _ held).2
    rw [await] at armed
    exact ⟨armed.trans await.symm, fun disarmed => by rw [armed] at disarmed; cases disarmed⟩
  | failed await held stays =>
    cases whole
    rcases await with await | await
    · obtain rfl | rfl := now await held
      · exact ⟨by rw [await]; rfl, fun _ => rfl⟩
      · exact ⟨by rw [await]; rfl, fun _ => by cases stays <;> rfl⟩
    · obtain rfl := now await held
      exact ⟨by rw [await]; rfl, fun _ => by cases stays <;> rfl⟩

end StoreWork

/-! ### What the pool keeps -/

namespace Pool
variable {P P' : Pool Store Write Res ε α}

/-- What a pool keeps: idle connections are as good as new, and every held one
is what its work makes of it. -/
structure Clean (P : Pool Store Write Res ε α) : Prop where
  idle : ∀ c ∈ P.idle, c = .fresh
  requests : ∀ w ∈ P.requests, w.Fits

/-- The connection goes back, as good as new. -/
def Returned (P P' : Pool Store Write Res ε α) : Prop :=
  P'.idle = .fresh :: P.idle ∧ P'.closed = P.closed

/-- The connection is closed. -/
def Closed (P P' : Pool Store Write Res ε α) : Prop :=
  P'.idle = P.idle ∧ P'.closed = P.closed + 1

theorem closed_of_closes (closes : c.closes cancelled = true) :
    P.Closed (P.release cancelled (some c)) := by
  rw [release, if_pos closes]
  exact ⟨rfl, rfl⟩

theorem returned_of_stays (stays : c.closes cancelled = false)
    (fresh : c.conn.dropTransaction.ping = .fresh) :
    P.Returned (P.release cancelled (some c)) := by
  rw [release, if_neg (by simp [stays]), fresh]
  exact ⟨rfl, rfl⟩

theorem fits_set {w' : StoreWork Store Write Res ε α} (clean : P.Clean) (fits : w'.Fits) :
    ∀ w ∈ P.requests.set i w', w.Fits := by
  intro w member
  rcases List.mem_or_eq_of_mem_set member with old | rfl
  · exact clean.requests w old
  · exact fits

theorem fits_none {w : StoreWork Store Write Res ε α} (none : w.conn = none) : w.Fits := by
  intro c held
  cases none.symm.trans held

/-- Work that completes returns its connection, unless it left a sequence in
the middle; then the connection is closed. -/
theorem completes_leaves (clean : P.Clean) (member : w ∈ P.requests) (running : w.running)
    (completes : w.Completes (some c)) :
    if w.await.starting then P.Closed (P.leave i w (some c) true)
    else P.Returned (P.leave i w (some c) true) := by
  obtain ⟨armed, settled⟩ := StoreWork.left_of_completes (clean.requests w member) completes
  rw [← armed]
  cases same : c.armed with
  | true => exact closed_of_closes (by simp [Conn.closes, same])
  | false => exact returned_of_stays (by simp [Conn.closes, same, running.2]) (settled same)

/-- Work that is dropped while it holds a connection closes it. -/
theorem cancel_leaves (clean : P.Clean) (member : w ∈ P.requests) (held : w.conn = some c) :
    P.Closed (P.leave i w.drop w.conn w.done) := by
  obtain ⟨⟨unfinished, _⟩, _⟩ := clean.requests w member c held
  rw [held, StoreWork.drop, if_neg (by simp [unfinished])]
  exact closed_of_closes (by simp [Conn.closes])

theorem clean_leave {w' : StoreWork Store Write Res ε α} (clean : P.Clean)
    (leaves : left = none ∨ P.Closed (P.leave i w' left done) ∨
      P.Returned (P.leave i w' left done)) : (P.leave i w' left done).Clean := by
  refine ⟨?_, fits_set clean (fits_none rfl)⟩
  rcases leaves with rfl | closed | returned
  · exact clean.idle
  · rw [closed.1]
    exact clean.idle
  · rw [returned.1]
    intro c member
    rcases List.mem_cons.mp member with rfl | old
    · rfl
    · exact clean.idle c old

/-- Every step keeps the pool clean. -/
theorem clean_of_step (clean : P.Clean) (step : P.Steps a P') : P'.Clean := by
  cases step with
  | call program =>
    refine ⟨clean.idle, fun w member => ?_⟩
    rcases List.mem_append.mp member with old | new
    · exact clean.requests w old
    · rw [List.mem_singleton.mp new]
      exact fits_none rfl
  | poll here running polls =>
    exact ⟨clean.idle, fits_set clean
      (StoreWork.fits_of_polls running (clean.requests _ (List.mem_of_getElem? here)) polls)⟩
  | reuse here running await idle =>
    refine ⟨fun c member => clean.idle c (List.mem_of_mem_erase member), ?_⟩
    rw [clean.idle _ idle]
    exact fits_set clean (StoreWork.fits_holding running (Or.inl rfl))
  | opened here running await =>
    exact ⟨clean.idle, fits_set clean (StoreWork.fits_holding running (Or.inl rfl))⟩
  | @complete i w left here running completes =>
    refine clean_leave clean ?_
    cases left with
    | none => exact Or.inl rfl
    | some c =>
      have leaves := completes_leaves (i := i) clean (List.mem_of_getElem? here) running completes
      split at leaves
      · exact Or.inr (Or.inl leaves)
      · exact Or.inr (Or.inr leaves)
  | @cancel _ w here =>
    refine clean_leave clean ?_
    cases held : w.conn with
    | none => exact Or.inl rfl
    | some c => exact held ▸ Or.inr (Or.inl (cancel_leaves clean (List.mem_of_getElem? here) held))

theorem Reachable.clean (reachable : Reachable P) : P.Clean := by
  induction reachable with
  | start => exact ⟨nofun, nofun⟩
  | step _ step ih => exact clean_of_step ih step

/-- The work at a place after a step that was not about it is what it was. -/
theorem request_set {w w' w₁ : StoreWork Store Write Res ε α} (here : P.requests[i]? = some w)
    (there : (P.requests.set j w₁)[i]? = some w') : j = i ∧ w' = w₁ ∨ w' = w := by
  rw [List.getElem?_set] at there
  by_cases same : j = i
  · rw [if_pos same, if_pos (same ▸ (List.getElem?_eq_some_iff.mp here).1)] at there
    exact Or.inl ⟨same, (Option.some.inj there).symm⟩
  · rw [if_neg same, here] at there
    exact Or.inr (Option.some.inj there).symm

/-- A step after which work no longer holds the connection it held. -/
theorem leaves_of_step (clean : P.Clean) (step : P.Steps a P') (here : P.requests[i]? = some w)
    (held : w.conn = some c) (there : P'.requests[i]? = some w') (gone : w'.conn = none) :
    a = .complete i ∧ (if w.await.starting then P.Closed P' else P.Returned P') ∨
      a = .cancel i ∧ P.Closed P' := by
  have same (still : w' = w) : False := by
    rw [still, held] at gone
    cases gone
  cases step with
  | call program =>
    rw [List.getElem?_append_left (List.getElem?_eq_some_iff.mp here).1, here] at there
    exact (same (Option.some.inj there).symm).elim
  | poll mine running polls =>
    rcases request_set here there with ⟨rfl, rfl⟩ | still
    · cases Option.some.inj (mine.symm.trans here)
      cases polls with
      | acquires none => cases none.symm.trans held
      | _ => cases gone
    · exact (same still).elim
  | reuse =>
    rcases request_set here there with ⟨_, rfl⟩ | still
    · cases gone
    · exact (same still).elim
  | opened =>
    rcases request_set here there with ⟨_, rfl⟩ | still
    · cases gone
    · exact (same still).elim
  | @complete _ _ left mine running completes =>
    rcases request_set here there with ⟨rfl, rfl⟩ | still
    · cases Option.some.inj (mine.symm.trans here)
      cases left with
      | none => cases (StoreWork.left_isSome completes).trans (by rw [held])
      | some c =>
        exact Or.inl ⟨rfl, completes_leaves clean (List.mem_of_getElem? here) running completes⟩
    · exact (same still).elim
  | cancel mine =>
    rcases request_set here there with ⟨rfl, rfl⟩ | still
    · cases Option.some.inj (mine.symm.trans here)
      exact Or.inr ⟨rfl, cancel_leaves clean (List.mem_of_getElem? here) held⟩
    · exact (same still).elim

/-- No connection goes back to the pool dirty. Every idle connection, and so the
one a request is handed, is as good as new; and a connection work lets go of
goes back if and only if the work completed with no sequence on it in the
middle, and is closed otherwise. -/
theorem no_dirty_connection (reachable : P.Reachable) (step : P.Steps a P') :
    (∀ c ∈ P.idle, c = .fresh) ∧
    (∀ i w, a = .acquired i → P'.requests[i]? = some w → w.conn = some ⟨.fresh, false⟩) ∧
    ∀ i w c w', P.requests[i]? = some w → w.conn = some c → P'.requests[i]? = some w' →
      w'.conn = none →
      (P.Returned P' ↔ a = .complete i ∧ w.await.starting = false) ∧
      (¬P.Returned P' → P.Closed P') := by
  have clean := reachable.clean
  refine ⟨clean.idle, ?_, ?_⟩
  · rintro i w rfl there
    cases step with
    | reuse here running await idle =>
      rw [List.getElem?_set_self (List.getElem?_eq_some_iff.mp here).1, clean.idle _ idle] at there
      cases there
      rfl
    | opened here running await =>
      rw [List.getElem?_set_self (List.getElem?_eq_some_iff.mp here).1] at there
      cases there
      rfl
  · intro i w c w' here held there gone
    have apart (closed : P.Closed P') : ¬P.Returned P' := by
      intro returned
      exact absurd (closed.2.symm.trans returned.2) (by omega)
    rcases leaves_of_step clean step here held there gone with ⟨rfl, leaves⟩ | ⟨rfl, closed⟩
    · cases middle : w.await.starting with
      | true =>
        rw [if_pos middle] at leaves
        exact ⟨⟨fun returned => absurd returned (apart leaves), nofun⟩, fun _ => leaves⟩
      | false =>
        rw [if_neg (by simp [middle])] at leaves
        exact ⟨⟨fun _ => ⟨rfl, rfl⟩, fun _ => leaves⟩, fun not => absurd leaves not⟩
    · exact ⟨⟨fun returned => absurd returned (apart closed), nofun⟩, fun _ => closed⟩

end Pool

end

/-! ### A request cut short -/

open Bytewise Messages Service Handlers Schema

/-- A request that writes a setting, at an await. -/
def aRequest (await : Await) (conn : Option Conn) : StoreWork Store Write Res Status Response :=
  ⟨service ⟨some iamCaller, Runs.firstUuid, .setInheritedSetting Refusals.settingRequest⟩,
    await, conn, false, false⟩

/-- A pool with that one request. -/
def oneRequest (await : Await) (conn : Option Conn) : Pool Store Write Res Status Response :=
  ⟨[], 0, [aRequest await conn]⟩

theorem oneRequest_polls (reachable : (oneRequest await before).Reachable)
    (polls : (aRequest await before).Polls (aRequest next held)) :
    (oneRequest next held).Reachable :=
  .step reachable (.poll (i := 0) rfl ⟨rfl, rfl⟩ polls)

theorem reachable_between :
    (oneRequest .between (some ⟨Connection.fresh.send.levelled, true⟩)).Reachable := by
  have arrives : (oneRequest .working none).Reachable := .step .start (.call _)
  have takes : (oneRequest .working (some ⟨.fresh, false⟩)).Reachable :=
    .step (oneRequest_polls arrives (.acquires rfl rfl))
      (.opened (i := 0) (w := aRequest .acquiring none) rfl ⟨rfl, rfl⟩ rfl)
  have sets := oneRequest_polls takes (.sets rfl rfl rfl rfl)
  exact oneRequest_polls sets
    (.levelled (w := aRequest .setting (some ⟨Connection.fresh.send, true⟩)) rfl rfl)

/-- Dropped between `SET TRANSACTION` and `BEGIN`, it closes its connection. -/
theorem no_dirty_connection_cut : ∃ P' : Pool Store Write Res Status Response,
    (oneRequest .between (some ⟨Connection.fresh.send.levelled, true⟩)).Steps (.cancel 0) P' ∧
      (oneRequest .between (some ⟨Connection.fresh.send.levelled, true⟩)).Closed P' := by
  have cut := Pool.Steps.cancel (i := 0)
    (P := oneRequest .between (some ⟨Connection.fresh.send.levelled, true⟩)) rfl
  obtain ⟨returned, closed⟩ :=
    (Pool.no_dirty_connection reachable_between cut).2.2 0 _ _ _ rfl rfl rfl rfl
  exact ⟨_, cut, closed fun back => nomatch (returned.mp back).1⟩

end IamDb.Connections
