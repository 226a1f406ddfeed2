import IamDb.Txn.Alone

/-! A transaction by itself, as a function. Between its begin and its commit a
transaction works on the store under its own writes; by itself it commits what
it made of that store, or fails and leaves the store as it found it. Where no
session holds a lock, every call can be run by itself to its answer. -/
namespace Txn

section
variable {Call Store Write Res ε α β : Type} [Locking Write Res] [Writes Store Write]

/-- What a transaction answers and makes of the store it works on, at one
moment. -/
def Prog.working (now : Int) : Prog Store Write Res ε α → Store → Except ε (α × Store)
  | .ret a, W => .ok (a, W)
  | .fail e, _ => .error e
  | .begin _ p, W => p.working now W
  | .stmt s k, W => (k (s.exec now W).1).working now (applyAll (s.exec now W).2 W)
  | .auto _ s k, W => (k (s.exec now W).1).working now (applyAll (s.exec now W).2 W)
  | .commit p, W => p.working now W

namespace Prog
variable {p : Prog Store Write Res ε α} {f : α → Prog Store Write Res ε β}

@[simp] theorem working_pure :
    (pure a : Prog Store Write Res ε α).working now W = .ok (a, W) := rfl

@[simp] theorem working_fail :
    (fail e : Prog Store Write Res ε α).working now W = .error e := rfl

@[simp] theorem working_query {s : Statement Store Write Res ρ} {k : ρ → Prog Store Write Res ε α} :
    (query s >>= k).working now W =
      (k (s.exec now W).1).working now (applyAll (s.exec now W).2 W) := rfl

@[simp] theorem working_query_only {s : Statement Store Write Res ρ} :
    (query s : Prog Store Write Res ε ρ).working now W =
      .ok ((s.exec now W).1, applyAll (s.exec now W).2 W) := rfl

/-- One part, and what comes after it goes on with the store it made. -/
theorem working_bind (ran : p.working now W = .ok (a, W')) :
    (p >>= f).working now W = (f a).working now W' := by
  induction p generalizing W with
  | ret a =>
    cases ran
    rfl
  | fail e => cases ran
  | begin iso p ih => exact ih ran
  | stmt s k ih => exact ih _ ran
  | auto iso s k ih => exact ih _ ran
  | commit p ih => exact ih ran

theorem working_bind_error (ran : p.working now W = .error e) :
    (p >>= f).working now W = .error e := by
  induction p generalizing W with
  | ret a => cases ran
  | fail e =>
    cases ran
    rfl
  | begin iso p ih => exact ih ran
  | stmt s k ih => exact ih _ ran
  | auto iso s k ih => exact ih _ ran
  | commit p ih => exact ih ran

theorem working_bind_ok : (p >>= f).working now W = .ok r ↔
    ∃ a W', p.working now W = .ok (a, W') ∧ (f a).working now W' = .ok r := by
  constructor
  · intro ran
    cases first : p.working now W with
    | error e =>
      rw [working_bind_error first] at ran
      cases ran
    | ok out => exact ⟨out.1, out.2, rfl, (working_bind first).symm.trans ran⟩
  · rintro ⟨a, W', first, rest⟩
    rw [working_bind first, rest]

/-- The rest of a transaction by itself commits what it makes of the store under
its writes, or fails and leaves the store alone. -/
theorem Rest.alone {ℓ : Local Store Write Res} (rest : p.Rest) (steady : ℓ.Steady σ) :
    p.alone ℓ σ now = match p.working now (applyAll ℓ.pending σ) with
      | .ok (a, W) => (.ok a, W)
      | .error e => (.error e, σ) := by
  induction p generalizing ℓ with
  | ret a => cases rest
  | fail e => rfl
  | begin iso p => cases rest
  | stmt s k ih =>
    show (k (s.exec now (ℓ.view s σ)).1).alone (ℓ.after s σ now) σ now = _
    rw [ih _ (rest _) (steady.after s now), Local.after_pending, applyAll_append, steady.view]
    rfl
  | auto iso s k => cases rest
  | commit p =>
    obtain ⟨a, rfl⟩ := rest
    rfl

/-- A transaction by itself commits what it makes of the store, or fails and
leaves the store alone. -/
theorem Opens.alone {ℓ : Local Store Write Res} (opens : p.Opens) :
    p.alone ℓ σ now = match p.working now σ with
      | .ok (a, W) => (.ok a, W)
      | .error e => (.error e, σ) := by
  cases p with
  | begin iso p =>
    have steady : (ℓ.opened iso).Steady σ := fun _ taken => by cases taken
    show p.alone (ℓ.opened iso) σ now = _
    rw [Rest.alone opens steady, Local.opened_pending, applyAll_nil]
    rfl
  | fail e => rfl
  | ret a => cases opens
  | stmt s k => cases opens
  | auto iso s k => cases opens
  | commit p => cases opens

theorem Opens.alone_ok {ℓ : Local Store Write Res} (opens : p.Opens)
    (ran : p.working now σ = .ok (a, W)) : p.alone ℓ σ now = (.ok a, W) := by
  rw [opens.alone, ran]

/-- Where it is answered OK, it has worked. -/
theorem Opens.worked {ℓ : Local Store Write Res} (opens : p.Opens)
    (answered : p.alone ℓ σ now = (.ok a, W)) : p.working now σ = .ok (a, W) := by
  rw [opens.alone] at answered
  cases ran : p.working now σ with
  | error e =>
    rw [ran] at answered
    cases answered
  | ok out =>
    rw [ran] at answered
    cases answered
    rfl

end Prog

namespace System

variable [DecidableEq Res] {service : Call → Prog Store Write Res ε α}
  {S S' : System Call Store Write Res ε α}

/-- No session holds a lock. -/
def Unlocked (S : System Call Store Write Res ε α) : Prop := ∀ s ∈ S.sessions, s.loc.held = []

/-- A call, made from a state and run by itself from there, is answered and
leaves a state. -/
def Performs (service : Call → Prog Store Write Res ε α) (S : System Call Store Write Res ε α)
    (c : Call) (result : Except ε α) (S' : System Call Store Write Res ε α) : Prop :=
  ∃ n ℓ, S.run service (.call c :: .replicate n (.run S.sessions.length)) = some S' ∧
    S'.sessions[S.sessions.length]? = some ⟨c, ℓ, .answered result⟩

/-- The steps of one session come to what its program does by itself. -/
theorem alone_of_run {i : Nat} {p : Prog Store Write Res ε α}
    (here : S.sessions[i]? = some (.reached c ℓ p))
    (ran : S.run service (.replicate n (.run i)) = some S')
    (there : S'.sessions[i]? = some ⟨c', ℓ', .answered result⟩) :
    p.alone ℓ S.store S.clock = (result, S'.store) := by
  induction n generalizing S ℓ p with
  | zero =>
    cases ran
    rw [here] at there
    cases p <;> cases there <;> rfl
  | succ n ih =>
    rw [List.replicate_succ, run, Option.bind_eq_some_iff] at ran
    obtain ⟨T, step, rest⟩ := ran
    cases steps_of_step step with
    | run advances =>
      obtain ⟨rfl, rfl, rfl, _⟩ :=
        Session.reached_running (Option.some.inj (here.symm.trans advances.here))
      rw [alone_move advances.moves]
      refine ih (List.getElem?_set_self ?_) rest
      exact (List.getElem?_eq_some_iff.mp here).1

theorem Performs.alone (performs : S.Performs service c result S') :
    (service c).alone .fresh S.store S.clock = (result, S'.store) := by
  obtain ⟨n, ℓ, ran, there⟩ := performs
  exact alone_of_run (S := { S with sessions := S.sessions ++ [.reached c .fresh (service c)] })
    List.getElem?_concat_length ran there

/-- The last session comes to what its program does by itself, and the others
stay as they are. -/
def Completes (service : Call → Prog Store Write Res ε α) (S : System Call Store Write Res ε α)
    (old : List (Session Call Store Write Res ε α)) (c : Call) (ℓ : Local Store Write Res)
    (p : Prog Store Write Res ε α) : Prop :=
  ∃ (n : Nat) (ℓ' : Local Store Write Res) (S' : System Call Store Write Res ε α),
    S.run service (.replicate n (.run old.length)) = some S' ∧
      S'.sessions = old ++ [⟨c, ℓ'.closed, .answered (p.alone ℓ S.store S.clock).1⟩] ∧
      S'.store = (p.alone ℓ S.store S.clock).2

theorem completes_of_move {p : Prog Store Write Res ε α}
    (sessions : S.sessions = old ++ [.reached c ℓ p]) (idle : ∀ s ∈ old, s.loc.held = [])
    (moves : p.move S.clock S.store ℓ = some m)
    (rest : ∀ T : System Call Store Write Res ε α, T.sessions = old ++ [.reached c m.loc m.next] →
      Completes service T old c m.loc m.next) : Completes service S old c ℓ p := by
  obtain ⟨T, step, next, store, clock⟩ := step_alone service sessions moves
    fun s before g held => by rw [idle s before] at held; cases held
  obtain ⟨n, ℓ', S', ran, answered, left⟩ := rest T next
  refine ⟨n + 1, ℓ', S', ?_, ?_, ?_⟩
  · rw [List.replicate_succ, run, step]
    exact ran
  · rw [answered, store, clock, alone_move moves]
  · rw [left, store, clock, alone_move moves]

/-- Where nobody else holds a lock, the last session comes to its answer. -/
theorem run_idle (service : Call → Prog Store Write Res ε α) {p : Prog Store Write Res ε α}
    (sessions : S.sessions = old ++ [.reached c ℓ p]) (idle : ∀ s ∈ old, s.loc.held = []) :
    Completes service S old c ℓ p := by
  induction p generalizing S ℓ with
  | ret a => exact ⟨0, ℓ, S, rfl, sessions, rfl⟩
  | fail e => exact ⟨0, ℓ, S, rfl, sessions, rfl⟩
  | begin iso p ih => exact completes_of_move sessions idle rfl fun T next => ih next
  | stmt s k ih => exact completes_of_move sessions idle rfl fun T next => ih _ next
  | auto iso s k ih => exact completes_of_move sessions idle rfl fun T next => ih _ next
  | commit p ih => exact completes_of_move sessions idle rfl fun T next => ih next

/-- Where nobody holds a lock, every call performs what its program does by
itself, and nobody holds a lock after. -/
theorem performs_alone (idle : S.Unlocked) (c : Call) :
    ∃ S', S.Performs service c ((service c).alone .fresh S.store S.clock).1 S' ∧
      S'.store = ((service c).alone .fresh S.store S.clock).2 ∧ S'.Unlocked := by
  obtain ⟨n, ℓ, S', ran, sessions, store⟩ := run_idle service
    (S := { S with sessions := S.sessions ++ [.reached c .fresh (service c)] }) rfl idle
  refine ⟨S', ⟨n, ℓ.closed, ran, ?_⟩, store, ?_⟩
  · rw [sessions]
    exact List.getElem?_concat_length
  · intro s there
    rw [sessions] at there
    rcases List.mem_append.mp there with before | last
    · exact idle s before
    · rw [List.mem_singleton.mp last]
      rfl

end System

end

end Txn
