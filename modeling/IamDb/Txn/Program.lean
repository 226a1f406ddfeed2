import Mathlib.Data.List.Basic

/-! Programs over a store with transactions and locks. A program issues one
statement at a time; a statement waits for the locks it claims, reads the
latest committed store under its own pending writes (or the snapshot its
transaction took), and leaves its writes pending until the commit. A program
that ends or fails before its commit leaves nothing behind. -/
namespace Txn

/-- How a transaction reads: each statement afresh, or one snapshot for every
plain read. -/
inductive Isolation where
  | readCommitted
  | repeatableRead
  deriving DecidableEq, Repr

/-- A shared lock admits other shared locks. An insert announces its intent on
a range: intents admit each other, and a shared lock on the range keeps them
out. -/
inductive Mode where
  | shared
  | exclusive
  | intent
  deriving DecidableEq, Repr

/-- Whether two sessions may not hold the modes on one resource together. -/
def Mode.conflicts : Mode → Mode → Bool
  | .shared, .shared => false
  | .intent, .intent => false
  | _, _ => true

theorem Mode.conflicts_comm (a b : Mode) : a.conflicts b = b.conflicts a := by
  cases a <;> cases b <;> rfl

structure Lock (Res : Type) where
  res : Res
  mode : Mode
  deriving DecidableEq, Repr

def Lock.conflicts [DecidableEq Res] (a b : Lock Res) : Bool :=
  a.res = b.res && a.mode.conflicts b.mode

theorem Lock.conflicts_comm [DecidableEq Res] (a b : Lock Res) :
    a.conflicts b = b.conflicts a := by
  simp only [Lock.conflicts, Mode.conflicts_comm a.mode, eq_comm (a := a.res)]

/-- A lock a statement waits for, and whether it is kept to the end of the
transaction or only while the statement looks at the row. -/
structure Claim (Res : Type) where
  lock : Lock Res
  kept : Bool
  deriving DecidableEq, Repr

/-- A lock a session was granted, and when. -/
structure Grant (Res : Type) where
  lock : Lock Res
  since : Int
  deriving DecidableEq, Repr

/-- The locks of the claims, as granted at one moment. -/
def granted (now : Int) (claims : List (Claim Res)) : List (Grant Res) :=
  claims.map fun c => ⟨c.lock, now⟩

theorem mem_granted {now : Int} {claims : List (Claim Res)} :
    g ∈ granted now claims ↔ ∃ c ∈ claims, c.lock = g.lock ∧ g.since = now := by
  simp only [granted, List.mem_map]
  constructor
  · rintro ⟨c, member, rfl⟩
    exact ⟨c, member, rfl, rfl⟩
  · rintro ⟨c, member, same, rfl⟩
    exact ⟨c, member, by cases g; simp_all⟩

/-- How one write changes a store. -/
class Writes (Store Write : Type) where
  apply : Write → Store → Store

/-- The row each write needs locked. -/
class Locking (Write Res : Type) where
  res : Write → Res

section
variable {Store Write Res ε : Type}

/-- Apply writes in order. -/
def applyAll [Writes Store Write] : List Write → Store → Store
  | [], σ => σ
  | w :: rest, σ => applyAll rest (Writes.apply w σ)

section
variable [Writes Store Write]

@[simp] theorem applyAll_nil (σ : Store) : applyAll ([] : List Write) σ = σ := rfl

@[simp] theorem applyAll_cons (w : Write) (rest : List Write) (σ : Store) :
    applyAll (w :: rest) σ = applyAll rest (Writes.apply w σ) := rfl

@[simp] theorem applyAll_append (ws ws' : List Write) (σ : Store) :
    applyAll (ws ++ ws') σ = applyAll ws' (applyAll ws σ) := by
  induction ws generalizing σ with
  | nil => rfl
  | cons w ws ih => exact ih _

end

section
variable [Writes Store Write]

/-- What no write of a list changes is what it was. -/
theorem applyAll_frame {f : Store → β} (frame : ∀ w ∈ ws, ∀ σ, f (Writes.apply w σ) = f σ)
    (σ : Store) : f (applyAll (ws : List Write) σ) = f σ := by
  induction ws generalizing σ with
  | nil => rfl
  | cons w ws ih =>
    rw [applyAll_cons, ih (fun w member => frame w (List.mem_cons_of_mem _ member)),
      frame w List.mem_cons_self]

end

/-- A committed store, and the moment a transaction took it. -/
structure Snapshot (Store : Type) where
  store : Store
  since : Int

/-- What a session keeps of its transaction. `seen` is history: every lock it
was ever granted, the released ones included. -/
structure Local (Store Write Res : Type) where
  iso : Isolation
  snapshot : Option (Snapshot Store)
  pending : List Write
  held : List (Grant Res)
  seen : List (Grant Res)

namespace Local

def fresh : Local Store Write Res := ⟨.repeatableRead, none, [], [], []⟩

/-- The transaction just opened. -/
def opened (ℓ : Local Store Write Res) (iso : Isolation) : Local Store Write Res :=
  { ℓ with iso := iso, snapshot := none, pending := [], held := [] }

/-- The transaction over: its writes and its locks are gone from it. -/
def closed (ℓ : Local Store Write Res) : Local Store Write Res :=
  { ℓ with pending := [], held := [] }

/-- Whether a statement reads the transaction's snapshot. -/
def frozen (ℓ : Local Store Write Res) (plain : Bool) : Bool :=
  plain && ℓ.iso = .repeatableRead

/-- The committed store a statement reads from. -/
def base (ℓ : Local Store Write Res) (plain : Bool) (σ : Store) : Store :=
  if ℓ.frozen plain then (ℓ.snapshot.map (·.store)).getD σ else σ

section
variable {ℓ : Local Store Write Res}

@[simp] theorem opened_iso : (ℓ.opened level).iso = level := rfl
@[simp] theorem opened_pending : (ℓ.opened level).pending = [] := rfl
@[simp] theorem opened_held : (ℓ.opened level).held = [] := rfl
@[simp] theorem opened_snapshot : (ℓ.opened level).snapshot = none := rfl
@[simp] theorem opened_seen : (ℓ.opened level).seen = ℓ.seen := rfl

end

end Local

/-- One statement: the locks it waits for, given what it sees, and what it
answers and writes. A plain read claims nothing and may read a snapshot; every
row a statement writes it claims exclusively, to the end of the transaction. -/
structure Statement (Store Write Res ρ : Type) [Locking Write Res] where
  plain : Bool := false
  claims : Int → Isolation → Store → List (Claim Res) := fun _ _ _ => []
  exec : Int → Store → ρ × List Write
  covered : ∀ now iso σ, ∀ w ∈ (exec now σ).2,
    ⟨⟨Locking.res w, .exclusive⟩, true⟩ ∈ claims now iso σ := by rintro _ _ _ _ ⟨⟩

variable [Locking Write Res]

/-- A program. `auto` is a statement outside any transaction, committed by the
engine as it ends; the others run inside the transaction `begin` opened. -/
inductive Prog (Store Write Res : Type) [Locking Write Res] (ε α : Type) : Type 1 where
  | ret (answer : α)
  | fail (error : ε)
  | begin (iso : Isolation) (next : Prog Store Write Res ε α)
  | stmt {ρ : Type} (s : Statement Store Write Res ρ) (next : ρ → Prog Store Write Res ε α)
  | auto {ρ : Type} (iso : Isolation) (s : Statement Store Write Res ρ)
      (next : ρ → Prog Store Write Res ε α)
  | commit (next : Prog Store Write Res ε α)

namespace Prog

/-- Run one program and go on with its answer. -/
def bind : Prog Store Write Res ε α → (α → Prog Store Write Res ε β) → Prog Store Write Res ε β
  | ret a, f => f a
  | fail e, _ => fail e
  | begin iso p, f => begin iso (p.bind f)
  | stmt s k, f => stmt s fun r => (k r).bind f
  | auto iso s k, f => auto iso s fun r => (k r).bind f
  | commit p, f => commit (p.bind f)

instance : Monad (Prog Store Write Res ε) where
  pure := ret
  bind := bind

/-- One statement inside the open transaction. -/
def query (s : Statement Store Write Res ρ) : Prog Store Write Res ε ρ := stmt s ret

/-- One statement outside any transaction. -/
def single (iso : Isolation) (s : Statement Store Write Res ρ) : Prog Store Write Res ε ρ :=
  auto iso s ret

/-- Open a transaction. -/
def start (iso : Isolation) : Prog Store Write Res ε Unit := begin iso (ret ())

/-- Commit the open transaction. -/
def finish : Prog Store Write Res ε Unit := commit (ret ())

/-- What a computation that touches no store decided. -/
def lift : Except ε α → Prog Store Write Res ε α
  | .ok a => ret a
  | .error e => fail e

instance : LawfulMonad (Prog Store Write Res ε) :=
  .mk' _
    (fun p => by
      induction p with
      | ret a => rfl
      | fail e => rfl
      | begin iso p ih => exact congrArg (begin iso) ih
      | stmt s k ih => exact congrArg (stmt s) (funext ih)
      | auto iso s k ih => exact congrArg (auto iso s) (funext ih)
      | commit p ih => exact congrArg commit ih)
    (fun _ _ => rfl)
    (fun p f g => by
      induction p with
      | ret a => rfl
      | fail e => rfl
      | begin iso p ih => exact congrArg (begin iso) ih
      | stmt s k ih => exact congrArg (stmt s) (funext ih)
      | auto iso s k ih => exact congrArg (auto iso s) (funext ih)
      | commit p ih => exact congrArg commit ih)

end Prog

/-- The instruction a program is about to run. -/
inductive Next (Store Write Res : Type) [Locking Write Res] : Type 1 where
  | done
  | start (iso : Isolation)
  | stmt {ρ : Type} (s : Statement Store Write Res ρ)
  | auto {ρ : Type} (s : Statement Store Write Res ρ)
  | commit

def Prog.upcoming : Prog Store Write Res ε α → Next Store Write Res
  | ret _ => .done
  | fail _ => .done
  | begin iso _ => .start iso
  | stmt s _ => .stmt s
  | auto _ s _ => .auto s
  | commit _ => .commit

namespace Local

variable [Writes Store Write]

/-- What a statement sees: the committed store under the transaction's own
pending writes. -/
def view (ℓ : Local Store Write Res) (s : Statement Store Write Res ρ) (σ : Store) : Store :=
  applyAll ℓ.pending (ℓ.base s.plain σ)

/-- The session after a statement of its transaction ran. -/
def after (ℓ : Local Store Write Res) (s : Statement Store Write Res ρ) (σ : Store) (now : Int) :
    Local Store Write Res where
  iso := ℓ.iso
  snapshot := if ℓ.frozen s.plain then some (ℓ.snapshot.getD ⟨σ, now⟩) else ℓ.snapshot
  pending := ℓ.pending ++ (s.exec now (ℓ.view s σ)).2
  held := ℓ.held ++ granted now ((s.claims now ℓ.iso (ℓ.view s σ)).filter (·.kept))
  seen := ℓ.seen ++ granted now (s.claims now ℓ.iso (ℓ.view s σ))

/-- The session after a statement outside a transaction ran. -/
def afterAuto (ℓ : Local Store Write Res) (iso : Isolation) (s : Statement Store Write Res ρ)
    (σ : Store) (now : Int) : Local Store Write Res :=
  { ℓ with seen := ℓ.seen ++ granted now (s.claims now iso σ) }

section
variable {ℓ : Local Store Write Res} {s : Statement Store Write Res ρ}

@[simp] theorem after_iso : (ℓ.after s σ now).iso = ℓ.iso := rfl

theorem after_pending : (ℓ.after s σ now).pending = ℓ.pending ++ (s.exec now (ℓ.view s σ)).2 := rfl

theorem after_held : (ℓ.after s σ now).held =
    ℓ.held ++ granted now ((s.claims now ℓ.iso (ℓ.view s σ)).filter (·.kept)) := rfl

theorem after_seen : (ℓ.after s σ now).seen =
    ℓ.seen ++ granted now (s.claims now ℓ.iso (ℓ.view s σ)) := rfl

theorem after_snapshot (current : s.plain = false) : (ℓ.after s σ now).snapshot = ℓ.snapshot := by
  simp [after, frozen, current]

/-- At READ COMMITTED every statement sees the latest committed store. -/
theorem view_committed (iso : ℓ.iso = .readCommitted) : ℓ.view s σ = applyAll ℓ.pending σ := by
  simp [view, base, frozen, iso]

/-- A statement that is no plain read sees the latest committed store. -/
theorem view_current (current : s.plain = false) : ℓ.view s σ = applyAll ℓ.pending σ := by
  simp [view, base, frozen, current]

/-- At READ COMMITTED a read that claims nothing leaves the session as it was. -/
theorem after_read (iso : ℓ.iso = .readCommitted) (reads : ∀ now σ, (s.exec now σ).2 = [])
    (claims : ∀ now level σ, s.claims now level σ = []) : ℓ.after s σ now = ℓ := by
  cases ℓ
  cases iso
  simp [after, frozen, reads, claims, granted]

end

/-- A session at an earlier point of itself: every lock it held or was granted
is still there. -/
structure Within (ℓ ℓ' : Local Store Write Res) : Prop where
  held : ∀ g ∈ ℓ.held, g ∈ ℓ'.held
  seen : ∀ g ∈ ℓ.seen, g ∈ ℓ'.seen

end Local

/-- What a program has come to, if it has ended. -/
def Prog.answer? : Prog Store Write Res ε α → Option (Except ε α)
  | ret a => some (.ok a)
  | fail e => some (.error e)
  | _ => none

/-- The answer of a program followed by another. -/
theorem Prog.answer?_bind (p : Prog Store Write Res ε α) (f : α → Prog Store Write Res ε β) :
    (p.bind f).answer? = p.answer?.bind fun r => match r with
      | .ok a => (f a).answer?
      | .error e => some (.error e) := by
  cases p <;> rfl

/-- One step of a program: the locks it had to be granted, the locks under
which it changed the committed store, what it wrote there, what is left of the
program, the session after it, and whether it was a commit. -/
structure Move (Store Write Res : Type) [Locking Write Res] (ε α : Type) where
  claims : List (Claim Res)
  under : List (Grant Res)
  writes : List Write
  next : Prog Store Write Res ε α
  loc : Local Store Write Res
  commits : Bool

/-- The step a program takes next; none when it has ended. -/
def Prog.move [Writes Store Write] (now : Int) (σ : Store) (ℓ : Local Store Write Res) :
    Prog Store Write Res ε α → Option (Move Store Write Res ε α)
  | ret _ => none
  | fail _ => none
  | begin iso p => some ⟨[], [], [], p, ℓ.opened iso, false⟩
  | stmt s k =>
    some ⟨s.claims now ℓ.iso (ℓ.view s σ), [], [], k (s.exec now (ℓ.view s σ)).1,
      ℓ.after s σ now, false⟩
  | auto iso s k =>
    some ⟨s.claims now iso σ, granted now (s.claims now iso σ), (s.exec now σ).2,
      k (s.exec now σ).1, ℓ.afterAuto iso s σ now, !(s.exec now σ).2.isEmpty⟩
  | commit p => some ⟨[], ℓ.held, ℓ.pending, p, ℓ.closed, true⟩

end

end Txn
