import IamDb.Txn.Program

/-! Any number of sessions over one store. Every call runs its program one
statement at a time, in any order the locks allow; a session can be dropped at
any point, which undoes what it has not committed. Two facts about the locks
hold in every state reached: no two sessions hold conflicting locks, and what
one session waited for is held by another only since later. -/
namespace Txn

section
variable {Store Write Res : Type} [DecidableEq Res]

/-- A session with these locals leaves room for locks held elsewhere: none is
in the way of a lock it holds, and one in the way of a lock it was ever
granted has been held only since then. -/
def Local.admits (ℓ : Local Store Write Res) (H : List (Grant Res)) : Prop :=
  (∀ g ∈ ℓ.held, ∀ h ∈ H, g.lock.conflicts h.lock = false) ∧
    ∀ g ∈ ℓ.seen, ∀ h ∈ H, g.lock.conflicts h.lock = true → g.since ≤ h.since

theorem Local.admits_closed {ℓ : Local Store Write Res} (admits : ℓ.admits H) :
    ℓ.closed.admits H :=
  ⟨by simp [Local.closed], admits.2⟩

end

section
variable {Call Store Write Res ε α : Type} [Locking Write Res]

/-- Where a session stands: still running, answered, or ended by the engine
or the caller before it could answer. -/
inductive Phase (Store Write Res : Type) [Locking Write Res] (ε α : Type) : Type 1 where
  | running (p : Prog Store Write Res ε α)
  | answered (r : Except ε α)
  | dropped

structure Session (Call Store Write Res : Type) [Locking Write Res] (ε α : Type) : Type 1 where
  call : Call
  loc : Local Store Write Res
  phase : Phase Store Write Res ε α

/-- A session that has come to the given point of its program. An answer ends
the session, and an end without a commit leaves nothing behind. -/
def Session.reached (c : Call) (ℓ : Local Store Write Res) :
    Prog Store Write Res ε α → Session Call Store Write Res ε α
  | .ret a => ⟨c, ℓ.closed, .answered (.ok a)⟩
  | .fail e => ⟨c, ℓ.closed, .answered (.error e)⟩
  | p => ⟨c, ℓ, .running p⟩

theorem Session.reached_running {c c' : Call} {ℓ ℓ' : Local Store Write Res}
    {p p' : Prog Store Write Res ε α} (same : Session.reached c ℓ p = ⟨c', ℓ', .running p'⟩) :
    c' = c ∧ ℓ' = ℓ ∧ p' = p ∧ p.upcoming ≠ .done := by
  cases p <;> cases same <;> simp [Prog.upcoming]

/-- A session ended before it could answer. -/
def Session.drop (s : Session Call Store Write Res ε α) : Session Call Store Write Res ε α :=
  ⟨s.call, s.loc.closed, .dropped⟩

/-- What the session answered, if it has. -/
def Session.answer (s : Session Call Store Write Res ε α) : Option (Except ε α) :=
  match s.phase with
  | .answered r => some r
  | _ => none

/-- The committed store, the clock, every session so far and the calls whose
writes were committed, oldest first. -/
structure System (Call Store Write Res : Type) [Locking Write Res] (ε α : Type) : Type 1 where
  store : Store
  clock : Int
  sessions : List (Session Call Store Write Res ε α)
  log : List Call

/-- What can happen next: a call arrives, a session takes a step, a session
takes a step whose answer nobody receives, a session is dropped, time passes. -/
inductive Action (Call : Type) where
  | call (c : Call)
  | run (i : Nat)
  | lose (i : Nat)
  | drop (i : Nat)
  | tick (seconds : Nat)
  deriving DecidableEq, Repr

namespace System

private theorem turn_set {S : System Call Store Write Res ε α} {s₀ : Session Call Store Write Res ε α}
    (there : (S.sessions.set i s₀)[j]? = some s) : j = i ∧ s = s₀ ∨ j ≠ i ∧ S.sessions[j]? = some s := by
  rw [List.getElem?_set] at there
  by_cases same : i = j
  · rw [if_pos same] at there
    split at there
    · cases there
      exact Or.inl ⟨same.symm, rfl⟩
    · cases there
  · rw [if_neg same] at there
    exact Or.inr ⟨Ne.symm same, there⟩

variable [DecidableEq Res]

/-- A store at rest, with no session yet. -/
def start (σ : Store) (now : Int) : System Call Store Write Res ε α := ⟨σ, now, [], []⟩

/-- Whether no session but `i` holds a lock in the way of the claims. -/
def free (S : System Call Store Write Res ε α) (i : Nat) (claims : List (Claim Res)) : Bool :=
  S.sessions.zipIdx.all fun (s, j) =>
    j = i || s.loc.held.all fun g => claims.all fun k => !k.lock.conflicts g.lock

theorem free_iff {S : System Call Store Write Res ε α} {claims : List (Claim Res)} :
    S.free i claims = true ↔ ∀ (j : Nat) (s : Session Call Store Write Res ε α),
      S.sessions[j]? = some s → j ≠ i →
        ∀ g ∈ s.loc.held, ∀ k ∈ claims, k.lock.conflicts g.lock = false := by
  simp only [free, List.all_eq_true, Prod.forall, List.mem_zipIdx_iff_getElem?,
    Bool.or_eq_true, decide_eq_true_eq, Bool.not_eq_true']
  constructor
  · intro all j s there other
    exact (all s j there).resolve_left other
  · intro all s j there
    by_cases same : j = i
    · exact Or.inl same
    · exact Or.inr (all j s there same)

variable [Writes Store Write]

/-- The state after session `i` took a step that left it as `s`. -/
def moved (S : System Call Store Write Res ε α) (i : Nat) (c : Call)
    (m : Move Store Write Res ε α) (s : Session Call Store Write Res ε α) :
    System Call Store Write Res ε α where
  store := applyAll m.writes S.store
  clock := S.clock
  sessions := S.sessions.set i s
  log := if m.commits then S.log ++ [c] else S.log

/-- One step of session `i`, if it is running and its claims are free; `ends`
says what becomes of the session. -/
def advance (S : System Call Store Write Res ε α) (i : Nat)
    (ends : Session Call Store Write Res ε α → Session Call Store Write Res ε α) :
    Option (System Call Store Write Res ε α) :=
  match S.sessions[i]? with
  | some ⟨c, ℓ, .running p⟩ =>
    match p.move S.clock S.store ℓ with
    | some m => if S.free i m.claims then some (S.moved i c m (ends (.reached c m.loc m.next)))
      else none
    | none => none
  | _ => none

def step (service : Call → Prog Store Write Res ε α) (S : System Call Store Write Res ε α) :
    Action Call → Option (System Call Store Write Res ε α)
  | .call c => some { S with sessions := S.sessions ++ [.reached c .fresh (service c)] }
  | .run i => S.advance i id
  | .lose i => S.advance i Session.drop
  | .drop i =>
    match S.sessions[i]? with
    | some ⟨c, ℓ, .running p⟩ =>
      some { S with sessions := S.sessions.set i (Session.drop ⟨c, ℓ, .running p⟩) }
    | _ => none
  | .tick seconds => some { S with clock := S.clock + seconds }

/-- Take several steps in order. -/
def run (service : Call → Prog Store Write Res ε α) (S : System Call Store Write Res ε α) :
    List (Action Call) → Option (System Call Store Write Res ε α)
  | [] => some S
  | a :: rest => (S.step service a).bind fun S' => S'.run service rest

/-- Take several steps in order, as long as each passes a check. -/
def runWhile (service : Call → Prog Store Write Res ε α)
    (check : System Call Store Write Res ε α → Action Call → System Call Store Write Res ε α → Bool)
    (S : System Call Store Write Res ε α) :
    List (Action Call) → Option (System Call Store Write Res ε α)
  | [] => some S
  | a :: rest =>
    (S.step service a).bind fun S' =>
      if check S a S' then S'.runWhile service check rest else none

theorem run_append {service : Call → Prog Store Write Res ε α}
    {S : System Call Store Write Res ε α} :
    S.run service (as ++ bs) = (S.run service as).bind fun S' => S'.run service bs := by
  induction as generalizing S with
  | nil => rfl
  | cons a as ih =>
    simp only [List.cons_append, run]
    cases S.step service a with
    | none => rfl
    | some S' => exact ih

/-- Session `i` can take the step `m`. -/
structure Advances (S : System Call Store Write Res ε α) (i : Nat) (c : Call)
    (ℓ : Local Store Write Res) (p : Prog Store Write Res ε α) (m : Move Store Write Res ε α) :
    Prop where
  here : S.sessions[i]? = some ⟨c, ℓ, .running p⟩
  moves : p.move S.clock S.store ℓ = some m
  free : ∀ (j : Nat) (s : Session Call Store Write Res ε α), S.sessions[j]? = some s → j ≠ i →
    ∀ g ∈ s.loc.held, ∀ k ∈ m.claims, k.lock.conflicts g.lock = false

/-- Everything a step can do to the system. -/
inductive Steps (service : Call → Prog Store Write Res ε α)
    (S : System Call Store Write Res ε α) :
    Action Call → System Call Store Write Res ε α → Prop where
  | call (c : Call) :
    Steps service S (.call c) { S with sessions := S.sessions ++ [.reached c .fresh (service c)] }
  | run (advances : S.Advances i c ℓ p m) :
    Steps service S (.run i) (S.moved i c m (.reached c m.loc m.next))
  | lose (advances : S.Advances i c ℓ p m) :
    Steps service S (.lose i) (S.moved i c m (Session.reached c m.loc m.next).drop)
  | drop (here : S.sessions[i]? = some ⟨c, ℓ, .running p⟩) :
    Steps service S (.drop i)
      { S with sessions := S.sessions.set i (Session.drop ⟨c, ℓ, .running p⟩) }
  | tick (seconds : Nat) :
    Steps service S (.tick seconds) { S with clock := S.clock + seconds }

private theorem advance_cases {S S' : System Call Store Write Res ε α}
    (step : S.advance i ends = some S') :
    ∃ c ℓ p m, S.Advances i c ℓ p m ∧ S' = S.moved i c m (ends (.reached c m.loc m.next)) := by
  unfold advance at step
  split at step
  · rename_i c ℓ p here
    split at step
    · rename_i m moves
      split at step
      · rename_i unblocked
        cases step
        exact ⟨c, ℓ, p, m, ⟨here, moves, free_iff.mp unblocked⟩, rfl⟩
      · cases step
    · cases step
  · cases step

theorem steps_of_step {service : Call → Prog Store Write Res ε α}
    {S S' : System Call Store Write Res ε α} (step : S.step service a = some S') :
    Steps service S a S' := by
  cases a with
  | call c =>
    cases step
    exact .call c
  | run i =>
    obtain ⟨c, ℓ, p, m, advances, rfl⟩ := advance_cases step
    exact .run advances
  | lose i =>
    obtain ⟨c, ℓ, p, m, advances, rfl⟩ := advance_cases step
    exact .lose advances
  | drop i =>
    simp only [System.step] at step
    split at step
    · rename_i here
      cases step
      exact .drop here
    · cases step
  | tick seconds =>
    cases step
    exact .tick seconds

/-- The session at a place after a step: it was there before, or it has just
arrived, or the step was its own. -/
inductive Turn (service : Call → Prog Store Write Res ε α)
    (S : System Call Store Write Res ε α) (a : Action Call)
    (S' : System Call Store Write Res ε α) (i : Nat) (s : Session Call Store Write Res ε α) :
    Prop where
  | kept (there : S.sessions[i]? = some s) (notRun : a ≠ .run i) (notLost : a ≠ .lose i)
  | arrived (absent : S.sessions[i]? = none) (call : a = .call c) (store : S'.store = S.store)
      (clock : S'.clock = S.clock) (new : s = .reached c .fresh (service c))
  | ran (advances : S.Advances i c ℓ p m) (run : a = .run i)
      (whole : S' = S.moved i c m (.reached c m.loc m.next)) (new : s = .reached c m.loc m.next)
  | ended (here : S.sessions[i]? = some ⟨c, ℓ, .running p⟩) (gone : s.phase = .dropped)
      (call : s.call = c) (ceased : a = .lose i ∨ a = .drop i)

theorem turn_of_step {service : Call → Prog Store Write Res ε α}
    {S S' : System Call Store Write Res ε α} (step : S.step service a = some S') (there : S'.sessions[i]? = some s) :
    Turn service S a S' i s := by
  cases steps_of_step step with
  | call c =>
    simp only [List.getElem?_append] at there
    split at there
    · exact .kept there nofun nofun
    · rename_i beyond
      rw [List.getElem?_singleton] at there
      split at there
      · cases there
        exact .arrived (List.getElem?_eq_none (by omega)) rfl rfl rfl rfl
      · cases there
  | @run j c ℓ p m advances =>
    obtain ⟨rfl, rfl⟩ | ⟨other, kept⟩ := turn_set there
    · exact .ran advances rfl rfl rfl
    · exact .kept kept (by simpa using Ne.symm other) nofun
  | @lose j c ℓ p m advances =>
    obtain ⟨rfl, rfl⟩ | ⟨other, kept⟩ := turn_set there
    · exact .ended advances.here rfl (by cases m.next <;> rfl) (Or.inl rfl)
    · exact .kept kept nofun (by simpa using Ne.symm other)
  | @drop j c ℓ p here =>
    obtain ⟨rfl, rfl⟩ | ⟨other, kept⟩ := turn_set there
    · exact .ended here rfl rfl (Or.inr rfl)
    · exact .kept kept nofun nofun
  | tick seconds => exact .kept there nofun nofun

/-- A step of one session leaves the others as they are. -/
theorem sessions_of_step {service : Call → Prog Store Write Res ε α}
    {S S' : System Call Store Write Res ε α} {i j : Nat} (step : S.step service a = some S')
    (acts : a = .run i ∨ a = .lose i) (other : j ≠ i) : S'.sessions[j]? = S.sessions[j]? := by
  rcases acts with rfl | rfl
  · cases steps_of_step step with
    | run => simp [moved, Ne.symm other]
  · cases steps_of_step step with
    | lose => simp [moved, Ne.symm other]

theorem clock_le_of_step {service : Call → Prog Store Write Res ε α}
    {S S' : System Call Store Write Res ε α} (step : S.step service a = some S') : S.clock ≤ S'.clock := by
  cases steps_of_step step with
  | tick seconds => exact Int.le_add_of_nonneg_right (Int.natCast_nonneg _)
  | _ => exact Int.le_refl _

/-- The states reached from one by steps that all meet a condition. -/
inductive Reaches (service : Call → Prog Store Write Res ε α)
    (cond : System Call Store Write Res ε α → Action Call →
      System Call Store Write Res ε α → Prop)
    (S₀ : System Call Store Write Res ε α) : System Call Store Write Res ε α → Prop where
  | refl : Reaches service cond S₀ S₀
  | step (before : Reaches service cond S₀ S) (step : S.step service a = some S')
      (holds : cond S a S') : Reaches service cond S₀ S'

namespace Reaches
variable {service : Call → Prog Store Write Res ε α}
  {cond : System Call Store Write Res ε α → Action Call → System Call Store Write Res ε α → Prop}

theorem trans (first : Reaches service cond S₀ S) (second : Reaches service cond S S') :
    Reaches service cond S₀ S' := by
  induction second with
  | refl => exact first
  | step _ step holds ih => exact ih.step step holds

theorem mono (reached : Reaches service cond S₀ S) (weaker : ∀ S a S', cond S a S' → cond' S a S') :
    Reaches service cond' S₀ S := by
  induction reached with
  | refl => exact .refl
  | step _ step holds ih => exact ih.step step (weaker _ _ _ holds)

/-- What holds at the start and is preserved by every step holds ever after. -/
theorem invariant {P : System Call Store Write Res ε α → Prop}
    (reached : Reaches service cond S₀ S) (start : P S₀)
    (preserved : ∀ S a S', Reaches service cond S₀ S → P S → S.step service a = some S' →
      cond S a S' → P S') : P S := by
  induction reached with
  | refl => exact start
  | step before step holds ih => exact preserved _ _ _ before ih step holds

theorem of_run (run : S₀.run service as = some S) : Reaches service (fun _ _ _ => True) S₀ S := by
  suffices ∀ T, Reaches service (fun _ _ _ => True) S₀ T → T.run service as = some S →
      Reaches service (fun _ _ _ => True) S₀ S from this S₀ .refl run
  clear run
  intro T before run
  induction as generalizing T with
  | nil =>
    cases run
    exact before
  | cons a as ih =>
    simp only [System.run, Option.bind_eq_some_iff] at run
    obtain ⟨T', step, rest⟩ := run
    exact ih T' (before.step step trivial) rest

theorem run_of_runWhile
    {check : System Call Store Write Res ε α → Action Call → System Call Store Write Res ε α → Bool}
    {S₀ : System Call Store Write Res ε α} (run : S₀.runWhile service check as = some S) :
    S₀.run service as = some S := by
  induction as generalizing S₀ with
  | nil => exact run
  | cons a as ih =>
    simp only [System.runWhile, Option.bind_eq_some_iff] at run
    obtain ⟨T, step, rest⟩ := run
    split at rest
    · rw [System.run, step, Option.bind_some]
      exact ih rest
    · cases rest

theorem of_runWhile
    {check : System Call Store Write Res ε α → Action Call → System Call Store Write Res ε α → Bool}
    (checks : ∀ S a S', check S a S' = true → cond S a S')
    (run : S₀.runWhile service check as = some S) : Reaches service cond S₀ S := by
  suffices ∀ T, Reaches service cond S₀ T → T.runWhile service check as = some S →
      Reaches service cond S₀ S from this S₀ .refl run
  clear run
  intro T before run
  induction as generalizing T with
  | nil =>
    cases run
    exact before
  | cons a as ih =>
    simp only [System.runWhile, Option.bind_eq_some_iff] at run
    obtain ⟨T', step, rest⟩ := run
    split at rest
    · rename_i passes
      exact ih T' (before.step step (checks T a T' passes)) rest
    · cases rest

end Reaches

end System

/-! ### What the locks guarantee -/

namespace System

/-- A lock a step leaves its session with, or commits under, was held before
it or is a claim granted by it. -/
theorem move_grants [Writes Store Write] {p : Prog Store Write Res ε α} (moves : p.move now σ ℓ = some m) :
    (∀ g, g ∈ m.loc.held ∨ g ∈ m.under →
      g ∈ ℓ.held ∨ g.since = now ∧ ∃ k ∈ m.claims, k.lock = g.lock) ∧
    ∀ g ∈ m.loc.seen, g ∈ ℓ.seen ∨ g.since = now ∧ ∃ k ∈ m.claims, k.lock = g.lock := by
  cases p with
  | ret a => cases moves
  | fail e => cases moves
  | begin iso p =>
    cases moves
    simp [Local.opened]
  | stmt s k =>
    cases moves
    simp only [Local.after, List.mem_append, mem_granted, List.mem_filter, List.not_mem_nil,
      or_false]
    constructor
    · rintro g (held | ⟨k, ⟨member, _⟩, same, since⟩)
      · exact Or.inl held
      · exact Or.inr ⟨since, k, member, same⟩
    · rintro g (seen | ⟨k, member, same, since⟩)
      · exact Or.inl seen
      · exact Or.inr ⟨since, k, member, same⟩
  | auto iso s k =>
    cases moves
    simp only [Local.afterAuto, List.mem_append, mem_granted]
    constructor
    · rintro g (held | ⟨k, member, same, since⟩)
      · exact Or.inl held
      · exact Or.inr ⟨since, k, member, same⟩
    · rintro g (seen | ⟨k, member, same, since⟩)
      · exact Or.inl seen
      · exact Or.inr ⟨since, k, member, same⟩
  | commit p =>
    cases moves
    simp [Local.closed]

private theorem reached_loc (c : Call) (ℓ : Local Store Write Res) (p : Prog Store Write Res ε α) :
    (∀ g ∈ (Session.reached c ℓ p).loc.held, g ∈ ℓ.held) ∧
      ∀ g ∈ (Session.reached c ℓ p).loc.seen, g ∈ ℓ.seen := by
  cases p <;> simp [Session.reached, Local.closed]

end System

section
variable [DecidableEq Res]

namespace System

/-- Sessions leave room for each other's locks, and no lock was granted in the
future. -/
structure Ordered (S : System Call Store Write Res ε α) : Prop where
  apart : ∀ (i j : Nat) (s s' : Session Call Store Write Res ε α), S.sessions[i]? = some s →
    S.sessions[j]? = some s' → i ≠ j → s.loc.admits s'.loc.held
  past : ∀ (i : Nat) (s : Session Call Store Write Res ε α), S.sessions[i]? = some s →
    ∀ g ∈ s.loc.seen, g.since ≤ S.clock

theorem ordered_start {σ : Store} : (start σ now : System Call Store Write Res ε α).Ordered :=
  ⟨by simp [start], by simp [start]⟩

/-- One session changes: the order is kept when it is kept with that session. -/
private theorem ordered_set {S S' : System Call Store Write Res ε α} (ordered : S.Ordered)
    (sessions : S'.sessions = S.sessions.set i s) (clock : S'.clock = S.clock)
    (mine : ∀ (j : Nat) (s' : Session Call Store Write Res ε α), S.sessions[j]? = some s' → j ≠ i →
      s'.loc.admits s.loc.held ∧ s.loc.admits s'.loc.held)
    (past : ∀ g ∈ s.loc.seen, g.since ≤ S.clock) : S'.Ordered := by
  have cases : ∀ (j : Nat) (s' : Session Call Store Write Res ε α), S'.sessions[j]? = some s' →
      j = i ∧ s' = s ∨ j ≠ i ∧ S.sessions[j]? = some s' := by
    intro j s' there
    rw [sessions, List.getElem?_set] at there
    by_cases same : i = j
    · rw [if_pos same] at there
      split at there
      · cases there
        exact Or.inl ⟨same.symm, rfl⟩
      · cases there
    · rw [if_neg same] at there
      exact Or.inr ⟨Ne.symm same, there⟩
  constructor
  · intro j k s₁ s₂ there there' other
    obtain ⟨rfl, rfl⟩ | ⟨off, first⟩ := cases j s₁ there <;>
      obtain ⟨rfl, rfl⟩ | ⟨off', second⟩ := cases k s₂ there'
    · exact absurd rfl other
    · exact (mine k s₂ second off').2
    · exact (mine j s₁ first off).1
    · exact ordered.apart j k s₁ s₂ first second other
  · intro j s' there g seen
    rw [clock]
    obtain ⟨rfl, rfl⟩ | ⟨off, here⟩ := cases j s' there
    · exact past g seen
    · exact ordered.past j s' here g seen

section
variable [Writes Store Write]

/-- Locks a stepping session held before or was granted by the step leave
room to every other session. -/
private theorem admits_of_advance {S : System Call Store Write Res ε α} (ordered : S.Ordered)
    (advances : S.Advances i c ℓ p m)
    (from_here : ∀ g ∈ H, g ∈ ℓ.held ∨ g.since = S.clock ∧ ∃ k ∈ m.claims, k.lock = g.lock)
    (there : S.sessions[j]? = some s) (other : j ≠ i) : s.loc.admits H := by
  have apart := ordered.apart j i s _ there advances.here other
  constructor
  · intro g mine h theirs
    rcases from_here h theirs with held | ⟨_, k, claim, same⟩
    · exact apart.1 g mine h held
    · rw [Lock.conflicts_comm, ← same]
      exact advances.free j s there other g mine k claim
  · intro g mine h theirs conflict
    rcases from_here h theirs with held | ⟨since, _⟩
    · exact apart.2 g mine h held conflict
    · rw [since]
      exact ordered.past j s there g mine

/-- What a step commits, it commits under locks that leave room to every other
session. -/
theorem under_admitted {S : System Call Store Write Res ε α} (ordered : S.Ordered)
    (advances : S.Advances i c ℓ p m) (there : S.sessions[j]? = some s) (other : j ≠ i) :
    s.loc.admits m.under :=
  admits_of_advance ordered advances
    (fun g under => (move_grants advances.moves).1 g (Or.inr under)) there other

private theorem ordered_advance {S : System Call Store Write Res ε α} (ordered : S.Ordered)
    (advances : S.Advances i c ℓ p m) (held : ∀ g ∈ s.loc.held, g ∈ m.loc.held)
    (seen : ∀ g ∈ s.loc.seen, g ∈ m.loc.seen) : (S.moved i c m s).Ordered := by
  have grants := move_grants advances.moves
  refine ordered_set ordered rfl rfl ?_ ?_
  · intro j s' there other
    have apart := ordered.apart i j _ s' advances.here there (Ne.symm other)
    refine ⟨admits_of_advance ordered advances
      (fun g mine => grants.1 g (Or.inl (held g mine))) there other, ?_, ?_⟩
    · intro g mine h theirs
      rcases grants.1 g (Or.inl (held g mine)) with old | ⟨_, k, claim, same⟩
      · exact apart.1 g old h theirs
      · rw [← same]
        exact advances.free j s' there other h theirs k claim
    · intro g mine h theirs conflict
      rcases grants.2 g (seen g mine) with old | ⟨_, k, claim, same⟩
      · exact apart.2 g old h theirs conflict
      · rw [← same, advances.free j s' there other h theirs k claim] at conflict
        cases conflict
  · intro g mine
    rcases grants.2 g (seen g mine) with old | ⟨since, _⟩
    · exact ordered.past i _ advances.here g old
    · exact Int.le_of_eq since

/-- Every step keeps the sessions in order. -/
theorem Ordered.step {service : Call → Prog Store Write Res ε α}
    {S S' : System Call Store Write Res ε α} (ordered : S.Ordered)
    (step : S.step service a = some S') : S'.Ordered := by
  cases steps_of_step step with
  | call c =>
    have new : (Session.reached c .fresh (service c)).loc.held = [] ∧
        (Session.reached c .fresh (service c)).loc.seen = [] := by
      cases service c <;> simp [Session.reached, Local.closed, Local.fresh]
    have cases : ∀ (j : Nat) (s : Session Call Store Write Res ε α),
        (S.sessions ++ [Session.reached c .fresh (service c)])[j]? = some s →
          S.sessions[j]? = some s ∨ s.loc.held = [] ∧ s.loc.seen = [] := by
      intro j s there
      rw [List.getElem?_append] at there
      split at there
      · exact Or.inl there
      · rw [List.getElem?_singleton] at there
        split at there
        · cases there
          exact Or.inr new
        · cases there
    constructor
    · intro j k s s' there there' other
      rcases cases j s there with first | ⟨held, seen⟩
      · rcases cases k s' there' with second | ⟨held', _⟩
        · exact ordered.apart j k s s' first second other
        · simp [Local.admits, held']
      · simp [Local.admits, held, seen]
    · intro j s there
      rcases cases j s there with first | ⟨_, seen⟩
      · exact ordered.past j s first
      · simp [seen]
  | run advances =>
    exact ordered_advance ordered advances (reached_loc _ _ _).1 (reached_loc _ _ _).2
  | lose advances =>
    exact ordered_advance ordered advances (by simp [Session.drop, Local.closed])
      (reached_loc _ _ _).2
  | @drop i c ℓ p here =>
    have past := ordered.past i _ here
    refine ordered_set ordered rfl rfl ?_ past
    intro j s' there other
    refine ⟨by simp [Session.drop, Local.closed, Local.admits], ?_⟩
    exact Local.admits_closed (ordered.apart i j _ s' here there (Ne.symm other))
  | tick seconds =>
    refine ⟨ordered.apart, fun j s there g seen => ?_⟩
    have past := ordered.past j s there g seen
    show g.since ≤ S.clock + seconds
    omega

end

end System

end

end

end Txn
