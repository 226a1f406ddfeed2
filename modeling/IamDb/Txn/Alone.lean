import IamDb.Txn.Sequential
import IamDb.Txn.Waiting

/-! A program run by itself. Where nobody else takes a step, a program's answer
and the store it leaves are a function of the store and the clock it starts at;
and statements that claim nothing wait for nobody, so a program of such
statements can be run by itself from every state, whatever else is under way. -/
namespace Txn

section
variable {Call Store Write Res ε α : Type} [Locking Write Res] [Writes Store Write]

/-- What a program answers by itself at one moment, and the store it leaves. -/
def Prog.alone : Prog Store Write Res ε α → Local Store Write Res → Store → Int →
    Except ε α × Store
  | .ret a, _, σ, _ => (.ok a, σ)
  | .fail e, _, σ, _ => (.error e, σ)
  | .begin iso p, ℓ, σ, now => p.alone (ℓ.opened iso) σ now
  | .stmt s k, ℓ, σ, now => (k (s.exec now (ℓ.view s σ)).1).alone (ℓ.after s σ now) σ now
  | .auto iso s k, ℓ, σ, now =>
    (k (s.exec now σ).1).alone (ℓ.afterAuto iso s σ now) (applyAll (s.exec now σ).2 σ) now
  | .commit p, ℓ, σ, now => p.alone ℓ.closed (applyAll ℓ.pending σ) now

/-- A session that has written nothing, and whose snapshot, if it took one, is
the store. -/
structure Local.Sees (ℓ : Local Store Write Res) (σ : Store) : Prop where
  pending : ℓ.pending = []
  snapshot : ∀ snap, ℓ.snapshot = some snap → snap.store = σ

/-- A statement that waits for nobody. -/
def Unclaiming (ρ : Type) (s : Statement Store Write Res ρ) : Prop :=
  ∀ now iso σ, s.claims now iso σ = []

section
variable {ℓ : Local Store Write Res} {s : Statement Store Write Res ρ}

omit [Locking Write Res] [Writes Store Write] in
theorem Local.sees_opened : (ℓ.opened level).Sees σ := ⟨rfl, nofun⟩

theorem Local.Sees.view (sees : ℓ.Sees σ) : ℓ.view s σ = σ := by
  rw [Local.Steady.view sees.snapshot, sees.pending, applyAll_nil]

/-- It still does after a read. -/
theorem Local.Sees.after (sees : ℓ.Sees σ) (s : Statement Store Write Res ρ) (now : Int)
    (reads : (s.exec now σ).2 = []) : (ℓ.after s σ now).Sees σ where
  pending := by
    rw [Local.after_pending, sees.view, reads, sees.pending]
    rfl
  snapshot := Local.Steady.after sees.snapshot s now

/-- A read of a program that is by itself. -/
theorem alone_read {k : ρ → Prog Store Write Res ε α} (sees : ℓ.Sees σ) :
    (Prog.query s >>= k).alone ℓ σ now = (k (s.exec now σ).1).alone (ℓ.after s σ now) σ now := by
  show (k (s.exec now (ℓ.view s σ)).1).alone _ σ now = _
  rw [sees.view]

end

/-- A program by itself does its next step first. -/
theorem alone_move {p : Prog Store Write Res ε α} (moves : p.move now σ ℓ = some m) :
    p.alone ℓ σ now = m.next.alone m.loc (applyAll m.writes σ) now := by
  cases p <;> cases moves <;> rfl

theorem claims_move {p : Prog Store Write Res ε α} (each : p.Each Unclaiming)
    (moves : p.move now σ ℓ = some m) : m.claims = [] := by
  cases p with
  | ret a => cases moves
  | fail e => cases moves
  | begin iso p => cases moves; rfl
  | stmt s k => cases moves; exact each.1 _ _ _
  | auto iso s k => cases moves; exact each.1 _ _ _
  | commit p => cases moves; rfl

namespace System

variable [DecidableEq Res] {service : Call → Prog Store Write Res ε α}
  {S S' : System Call Store Write Res ε α}

/-- A call, made from a state and run by itself from there, answers something. -/
def Answers (service : Call → Prog Store Write Res ε α) (S : System Call Store Write Res ε α)
    (c : Call) (result : Except ε α) : Prop :=
  ∃ n ℓ S', S.run service (.call c :: .replicate n (.run S.sessions.length)) = some S' ∧
    S'.sessions[S.sessions.length]? = some ⟨c, ℓ, .answered result⟩

/-- The last session's next step, where the others leave room for its claims. -/
theorem step_alone (service : Call → Prog Store Write Res ε α) {p : Prog Store Write Res ε α}
    (sessions : S.sessions = old ++ [.reached c ℓ p])
    (moves : p.move S.clock S.store ℓ = some m)
    (free : ∀ s ∈ old, ∀ g ∈ s.loc.held, ∀ k ∈ m.claims, k.lock.conflicts g.lock = false) :
    ∃ T, S.step service (.run old.length) = some T ∧
      T.sessions = old ++ [.reached c m.loc m.next] ∧ T.store = applyAll m.writes S.store ∧
      T.clock = S.clock := by
  have whole : Session.reached c ℓ p = ⟨c, ℓ, .running p⟩ := by
    cases p with
    | ret a => cases moves
    | fail e => cases moves
    | _ => rfl
  have here : S.sessions[old.length]? = some ⟨c, ℓ, .running p⟩ := by
    rw [sessions, whole]
    exact List.getElem?_concat_length
  have advances : S.Advances old.length c ℓ p m := by
    refine ⟨here, moves, fun j s there other => free s ?_⟩
    rw [sessions, List.getElem?_append] at there
    split at there
    · exact List.mem_of_getElem? there
    · rename_i beyond
      have last := (List.getElem?_eq_some_iff.mp there).1
      rw [List.length_singleton] at last
      omega
  refine ⟨_, step_of_free advances, ?_, rfl, rfl⟩
  rw [moved, sessions, List.set_append_right _ _ (Nat.le_refl _), Nat.sub_self]
  rfl

/-- A session, run by itself, comes to what its program answers by itself. -/
def Comes (service : Call → Prog Store Write Res ε α) (S : System Call Store Write Res ε α)
    (i : Nat) (c : Call) (ℓ : Local Store Write Res) (p : Prog Store Write Res ε α) : Prop :=
  ∃ n ℓ' S', S.run service (.replicate n (.run i)) = some S' ∧
    S'.sessions[i]? = some ⟨c, ℓ', .answered (p.alone ℓ S.store S.clock).1⟩

theorem comes_of_move {p : Prog Store Write Res ε α}
    (sessions : S.sessions = old ++ [.reached c ℓ p]) (each : p.Each Unclaiming)
    (moves : p.move S.clock S.store ℓ = some m)
    (rest : ∀ T : System Call Store Write Res ε α, T.sessions = old ++ [.reached c m.loc m.next] →
      Comes service T old.length c m.loc m.next) : Comes service S old.length c ℓ p := by
  obtain ⟨T, step, next, store, clock⟩ := step_alone service sessions moves
    fun _ _ _ _ k claim => by rw [claims_move each moves] at claim; cases claim
  obtain ⟨n, ℓ', S', ran, there⟩ := rest T next
  refine ⟨n + 1, ℓ', S', ?_, ?_⟩
  · rw [List.replicate_succ, run, step]
    exact ran
  · rw [there, store, clock, alone_move moves]

/-- A session whose statements wait for nobody comes to its answer. -/
theorem run_alone (service : Call → Prog Store Write Res ε α) {p : Prog Store Write Res ε α}
    (sessions : S.sessions = old ++ [.reached c ℓ p]) (each : p.Each Unclaiming) :
    Comes service S old.length c ℓ p := by
  induction p generalizing S ℓ with
  | ret a => exact ⟨0, _, S, rfl, by rw [sessions]; exact List.getElem?_concat_length⟩
  | fail e => exact ⟨0, _, S, rfl, by rw [sessions]; exact List.getElem?_concat_length⟩
  | begin iso p ih => exact comes_of_move sessions each rfl fun T next => ih next each
  | stmt s k ih => exact comes_of_move sessions each rfl fun T next => ih _ next (each.2 _)
  | auto iso s k ih => exact comes_of_move sessions each rfl fun T next => ih _ next (each.2 _)
  | commit p ih => exact comes_of_move sessions each rfl fun T next => ih next each

/-- A call whose statements wait for nobody answers from every state what its
program answers by itself. -/
theorem answers_alone (each : (service c).Each Unclaiming) :
    S.Answers service c ((service c).alone .fresh S.store S.clock).1 := by
  obtain ⟨n, ℓ, S', ran, there⟩ := run_alone service
    (S := { S with sessions := S.sessions ++ [.reached c .fresh (service c)] }) rfl each
  exact ⟨n, ℓ, S', ran, there⟩

/-- And nothing else. -/
theorem Answers.unique (first : S.Answers service c result) (second : S.Answers service c result') :
    result = result' := by
  have ordered {n n' ℓ ℓ' result result'} {T T' : System Call Store Write Res ε α} (less : n ≤ n')
      (ran : S.run service (.call c :: .replicate n (.run S.sessions.length)) = some T)
      (there : T.sessions[S.sessions.length]? = some ⟨c, ℓ, .answered result⟩)
      (ran' : S.run service (.call c :: .replicate n' (.run S.sessions.length)) = some T')
      (there' : T'.sessions[S.sessions.length]? = some ⟨c, ℓ', .answered result'⟩) :
      result = result' := by
    obtain ⟨more, rfl⟩ := Nat.exists_eq_add_of_le less
    rw [List.replicate_add, ← List.cons_append, run_append, ran] at ran'
    cases more with
    | zero =>
      cases ran'
      rw [there] at there'
      cases there'
      rfl
    | succ more =>
      -- A session that was answered takes no step.
      have stuck : T.step service (.run S.sessions.length) = none := by
        show T.advance _ _ = none
        rw [advance, there]
      rw [Option.bind_some, List.replicate_succ, run, stuck] at ran'
      cases ran'
  obtain ⟨n, ℓ, T, ran, there⟩ := first
  obtain ⟨n', ℓ', T', ran', there'⟩ := second
  rcases Nat.le_total n n' with less | less
  · exact ordered less ran there ran' there'
  · exact (ordered less ran' there' ran there).symm

end System

end

end Txn
