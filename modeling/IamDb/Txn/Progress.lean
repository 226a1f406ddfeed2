import Mathlib.Data.Fintype.EquivFin
import IamDb.Txn.Circles

/-! Runs that come to rest. A session is held up by locks of sessions that still
run; where none wait in a circle, whoever waits is behind one that can take its
step; and no program goes on for ever. So sessions that keep out of circles can
be run, one step at a time, until every one has ended. -/
namespace Txn

section
variable {Call Store Write Res ε α : Type} [Locking Write Res]

/-- A program of at most so many instructions. -/
def Prog.Within : Nat → Prog Store Write Res ε α → Prop
  | _, .ret _ => True
  | _, .fail _ => True
  | 0, _ => False
  | n + 1, .begin _ p => p.Within n
  | n + 1, .stmt _ k => ∀ r, (k r).Within n
  | n + 1, .auto _ _ k => ∀ r, (k r).Within n
  | n + 1, .commit p => p.Within n

theorem Prog.Within.move [Writes Store Write] {p : Prog Store Write Res ε α}
    (short : p.Within (n + 1)) (moves : p.move now σ ℓ = some m) : m.next.Within n := by
  cases p with
  | ret a => cases moves
  | fail e => cases moves
  | begin iso p => cases moves; exact short
  | stmt s k => cases moves; exact short _
  | auto iso s k => cases moves; exact short _
  | commit p => cases moves; exact short

theorem Prog.Within.succ {p : Prog Store Write Res ε α} (short : p.Within n) :
    p.Within (n + 1) := by
  induction n generalizing p with
  | zero => cases p <;> trivial
  | succ n ih =>
    cases p with
    | ret a => trivial
    | fail e => trivial
    | begin iso p => exact ih (p := p) short
    | stmt s k => exact fun r => ih (short r)
    | auto iso s k => exact fun r => ih (short r)
    | commit p => exact ih (p := p) short

theorem Prog.Within.map {p : Prog Store Write Res ε β} {g : β → α} (short : p.Within n) :
    (do pure (g (← p)) : Prog Store Write Res ε α).Within n := by
  induction p generalizing n with
  | ret b => cases n <;> trivial
  | fail e => cases n <;> trivial
  | begin iso p ih => cases n <;> first | cases short | exact ih short
  | stmt s k ih => cases n <;> first | cases short | exact fun r => ih r (short r)
  | auto iso s k ih => cases n <;> first | cases short | exact fun r => ih r (short r)
  | commit p ih => cases n <;> first | cases short | exact ih short

theorem Prog.Within.lift {d : Except ε β} {f : β → Prog Store Write Res ε α}
    (rest : ∀ b, (f b).Within n) : (Prog.lift d >>= f).Within n := by
  cases d with
  | error e => cases n <;> trivial
  | ok b => exact rest b

@[simp] theorem Prog.each_single {Q : ∀ ρ : Type, Statement Store Write Res ρ → Prop}
    {s : Statement Store Write Res ρ} {k : ρ → Prog Store Write Res ε α} :
    (single iso s >>= k).Each Q ↔ Q _ s ∧ ∀ r, (k r).Each Q := Iff.rfl

theorem Prog.Each.imp {Q Q' : ∀ ρ : Type, Statement Store Write Res ρ → Prop}
    {p : Prog Store Write Res ε α} (each : p.Each Q) (weaker : ∀ ρ s, Q ρ s → Q' ρ s) :
    p.Each Q' := by
  induction p with
  | ret a => trivial
  | fail e => trivial
  | begin iso p ih => exact ih each
  | stmt s k ih => exact ⟨weaker _ _ each.1, fun r => ih r (each.2 r)⟩
  | auto iso s k ih => exact ⟨weaker _ _ each.1, fun r => ih r (each.2 r)⟩
  | commit p ih => exact ih each

@[simp] theorem Session.reached_call (c : Call) (ℓ : Local Store Write Res)
    (p : Prog Store Write Res ε α) : (Session.reached c ℓ p).call = c := by cases p <;> rfl

/-- A session that has not ended. -/
def Session.Running (s : Session Call Store Write Res ε α) : Prop := ∃ p, s.phase = .running p

namespace System

/-- Every session has ended, answered or dropped. -/
def AtRest (S : System Call Store Write Res ε α) : Prop :=
  ∀ s ∈ S.sessions, ∀ p, s.phase ≠ .running p

/-- No session but one holds a lock. -/
def Sole (S : System Call Store Write Res ε α) (i : Nat) : Prop :=
  ∀ (j : Nat) s, S.sessions[j]? = some s → j ≠ i → s.loc.held = []

/-! ### No program goes on for ever -/

/-- One session a step further, or ended. -/
def Further (s' s : Session Call Store Write Res ε α) : Prop :=
  ∃ p, s.phase = .running p ∧ ∀ q, s'.phase = .running q → q.Sub p

/-- One of several sessions a step further. -/
inductive Onward : List (Session Call Store Write Res ε α) →
    List (Session Call Store Write Res ε α) → Prop where
  | here (further : Further s' s) : Onward (s' :: rest) (s :: rest)
  | there (onward : Onward rest' rest) : Onward (s :: rest') (s :: rest)

theorem acc_further (s : Session Call Store Write Res ε α) : Acc Further s := by
  obtain ⟨c, ℓ, phase⟩ := s
  cases phase with
  | running p =>
    induction Prog.acc_sub p generalizing c ℓ with
    | intro p _ ih =>
      refine ⟨_, ?_⟩
      rintro ⟨c', ℓ', phase⟩ ⟨_, running, sub⟩
      cases running
      cases phase with
      | running q => exact ih q (sub q rfl) c' ℓ'
      | answered r => exact ⟨_, fun _ ⟨_, running, _⟩ => by cases running⟩
      | dropped => exact ⟨_, fun _ ⟨_, running, _⟩ => by cases running⟩
  | answered r => exact ⟨_, fun _ ⟨_, running, _⟩ => by cases running⟩
  | dropped => exact ⟨_, fun _ ⟨_, running, _⟩ => by cases running⟩

theorem acc_onward (sessions : List (Session Call Store Write Res ε α)) : Acc Onward sessions := by
  induction sessions with
  | nil => exact ⟨_, nofun⟩
  | cons s rest ih =>
    induction acc_further s generalizing rest with
    | intro s _ first =>
      induction ih with
      | intro rest before second =>
        refine ⟨_, fun _ step => ?_⟩
        cases step with
        | here further => exact first _ further rest ⟨_, before⟩
        | there onward => exact second _ onward

theorem onward_set {sessions : List (Session Call Store Write Res ε α)} {i : Nat}
    (there : sessions[i]? = some s) (further : Further s' s) :
    Onward (sessions.set i s') sessions := by
  induction sessions generalizing i with
  | nil => cases there
  | cons s₀ rest ih =>
    cases i with
    | zero =>
      cases there
      exact .here further
    | succ i => exact .there (ih there)

variable [DecidableEq Res] [Writes Store Write] {service : Call → Prog Store Write Res ε α}
  {cond : System Call Store Write Res ε α → Action Call → System Call Store Write Res ε α → Prop}
  {S₀ S S' : System Call Store Write Res ε α}

theorem onward_of_step {i : Nat} (step : S.step service (.run i) = some S') :
    Onward S'.sessions S.sessions := by
  cases steps_of_step step with
  | @run i c ℓ p m advances =>
    refine onward_set advances.here ⟨p, rfl, fun q running => ?_⟩
    have sub := Prog.Sub.of_move advances.moves
    cases next : m.next <;> rw [next] at running sub <;> cases running
    all_goals exact sub

variable (service) in
/-- Where some session can always take a step to where this is so again, the
sessions come to rest. -/
theorem comes_to_rest {P : System Call Store Write Res ε α → Prop} (start : P S)
    (goes : ∀ T, P T → ∀ s ∈ T.sessions, s.Running →
      ∃ i T', T.step service (.run i) = some T' ∧ P T') :
    ∃ (turns : List Nat) (S' : System Call Store Write Res ε α), S.run service (turns.map .run) = some S' ∧ P S' ∧ S'.AtRest := by
  generalize same : S.sessions = sessions
  induction acc_onward sessions generalizing S with
  | intro sessions _ ih =>
    subst same
    by_cases rest : S.AtRest
    · exact ⟨[], S, rfl, start, rest⟩
    · simp only [AtRest, not_forall, ne_eq, not_not] at rest
      obtain ⟨s, member, p, running⟩ := rest
      obtain ⟨i, T, step, holds⟩ := goes S start s member ⟨p, running⟩
      obtain ⟨turns, S', ran, rest⟩ := ih _ (onward_of_step step) holds rfl
      refine ⟨i :: turns, S', ?_, rest⟩
      rw [List.map_cons, run, step]
      exact ran

/-! ### Who can take a step -/

/-- What is left of a session under way is something, and only such sessions
hold locks. -/
theorem Reaches.alive (reached : Reaches service cond S₀ S) (none : S₀.sessions = []) {i : Nat}
    (there : S.sessions[i]? = some s) :
    (∀ p, s.phase = .running p → p.upcoming ≠ .done) ∧ (s.loc.held ≠ [] → s.Running) := by
  have came (c : Call) (ℓ : Local Store Write Res) (p : Prog Store Write Res ε α) :
      (∀ q, (Session.reached c ℓ p).phase = .running q → q.upcoming ≠ .done) ∧
        ((Session.reached c ℓ p).loc.held ≠ [] → (Session.reached c ℓ p).Running) := by
    cases p with
    | ret a => exact ⟨nofun, fun held => absurd rfl held⟩
    | fail e => exact ⟨nofun, fun held => absurd rfl held⟩
    | _ => exact ⟨fun q same => by cases same; nofun, fun _ => ⟨_, rfl⟩⟩
  induction reached generalizing i s with
  | refl =>
    rw [none] at there
    cases there
  | @step T a T' before step _ ih =>
    cases turn_of_step step there with
    | kept here => exact ih here
    | arrived _ _ _ _ new => exact new ▸ came _ _ _
    | ran _ _ _ new => exact new ▸ came _ _ _
    | ended here gone _ ceased =>
      refine ⟨fun p running => ?_, fun held => ?_⟩
      · rw [gone] at running
        cases running
      · have inside := (List.getElem?_eq_some_iff.mp here).1
        rcases ceased with rfl | rfl <;> cases steps_of_step step
        all_goals
          simp only [moved, List.getElem?_set_self inside, Option.some.injEq] at there
          exact absurd (by rw [← there]; rfl) held

/-- A session that cannot take its step waits for another. -/
theorem waits_of_stuck {i : Nat} (here : S.sessions[i]? = some ⟨c, ℓ, .running p⟩)
    (running : p.upcoming ≠ .done) (stuck : S.step service (.run i) = none) :
    ∃ j r, S.waits i j r = true := by
  obtain ⟨m, moves⟩ : ∃ m, p.move S.clock S.store ℓ = some m := by
    cases p with
    | ret a => exact absurd rfl running
    | fail e => exact absurd rfl running
    | _ => exact ⟨_, rfl⟩
  by_contra free
  have advances : S.Advances i c ℓ p m := by
    refine ⟨here, moves, fun j s there other g held k claim => ?_⟩
    by_contra conflict
    refine free ⟨j, k.lock.res, ?_⟩
    simp only [waits, here, there, moves, ne_eq, Ne.symm other, not_false_eq_true, decide_true,
      Bool.true_and, List.any_eq_true, Bool.and_eq_true, decide_eq_true_eq]
    exact ⟨k, claim, rfl, g, held, by simpa using conflict⟩
  rw [step_of_free advances] at stuck
  cases stuck

/-- Where there is no circle, every session under way is behind one that can
take its step. -/
theorem Reaches.behind (reached : Reaches service cond S₀ S) (none : S₀.sessions = [])
    (clear : ∀ i, ¬S.Circular i) {i : Nat} (there : S.sessions[i]? = some s)
    (running : s.Running) :
    ∃ j, Relation.ReflTransGen (fun i j => ∃ r, S.waits i j r = true) i j ∧
      (S.step service (.run j)).isSome := by
  let below (j i : Fin S.sessions.length) : Prop :=
    Relation.TransGen (fun i j => ∃ r, S.waits i j r = true) i.1 j.1
  have trans : IsTrans _ below := ⟨fun _ _ _ first second => second.trans first⟩
  have irrefl : Std.Irrefl below := ⟨fun i => clear i.1⟩
  have founded : WellFounded below := Finite.wellFounded_of_trans_of_irrefl below
  suffices ∀ i : Fin S.sessions.length, S.sessions[i].Running →
      ∃ j, Relation.ReflTransGen (fun i j => ∃ r, S.waits i j r = true) i.1 j ∧
        (S.step service (.run j)).isSome by
    obtain ⟨inside, same⟩ := List.getElem?_eq_some_iff.mp there
    exact this ⟨i, inside⟩ (same ▸ running)
  intro i
  induction i using founded.induction with
  | _ i ih =>
    rintro ⟨p, phase⟩
    cases next : S.step service (.run i.1) with
    | some S' => exact ⟨i.1, .refl, by rw [next]; rfl⟩
    | none =>
      have here : S.sessions[i.1]? = some S.sessions[i] := List.getElem?_eq_getElem i.2
      have whole : S.sessions[i.1]? = some ⟨S.sessions[i].call, S.sessions[i].loc, .running p⟩ := by
        rw [here, ← phase]
      obtain ⟨j, r, waits⟩ := waits_of_stuck whole ((reached.alive none here).1 p phase) next
      obtain ⟨_, _, _, s', _, g, wait⟩ := waits_cases waits
      obtain ⟨inside, same⟩ := List.getElem?_eq_some_iff.mp wait.there
      have alive := (reached.alive none wait.there).2 (List.ne_nil_of_mem wait.held)
      obtain ⟨k, path, goes⟩ := ih ⟨j, inside⟩ (.single ⟨r, waits⟩) (same ▸ alive)
      exact ⟨k, .head ⟨r, waits⟩ path, goes⟩

variable (service) in
/-- A session no other holds a lock against takes its step, and none does then. -/
theorem Sole.step {i : Nat} (sole : S.Sole i) (here : S.sessions[i]? = some ⟨c, ℓ, .running p⟩)
    (running : p.upcoming ≠ .done) :
    ∃ S', S.step service (.run i) = some S' ∧ S'.Sole i := by
  cases next : S.step service (.run i) with
  | none =>
    obtain ⟨j, r, waits⟩ := waits_of_stuck here running next
    obtain ⟨_, _, _, s, _, g, wait⟩ := waits_cases waits
    have none := sole j s wait.there (Ne.symm wait.other)
    exact absurd none (List.ne_nil_of_mem wait.held)
  | some S' =>
    refine ⟨S', rfl, fun j s there other => ?_⟩
    rw [sessions_of_step next (Or.inl rfl) other] at there
    exact sole j s there other

/-- Where at most one session holds locks, one that runs can take its step: the
one that holds them, or any when that one has ended. -/
theorem Reaches.sole_goes (reached : Reaches service cond S₀ S) (none : S₀.sessions = [])
    (sole : S.Sole i) (member : s ∈ S.sessions) (running : s.Running) :
    ∃ j S', S.step service (.run j) = some S' ∧ S'.Sole j := by
  suffices ∃ j, S.Sole j ∧ ∃ s, S.sessions[j]? = some s ∧ s.Running by
    obtain ⟨j, sole, ⟨c, ℓ, phase⟩, there, p, rfl⟩ := this
    obtain ⟨S', step, sole⟩ := sole.step service there ((reached.alive none there).1 p rfl)
    exact ⟨j, S', step, sole⟩
  by_cases holder : ∃ s, S.sessions[i]? = some s ∧ s.Running
  · exact ⟨i, sole, holder⟩
  · obtain ⟨j, there⟩ := List.mem_iff_getElem?.mp member
    refine ⟨j, fun k s there' _ => ?_, s, there, running⟩
    by_cases mine : k = i
    · subst mine
      by_contra held
      exact holder ⟨s, there', (reached.alive none there').2 held⟩
    · exact sole k s there' mine

/-! ### Programs that wait for nobody -/

/-- The session of a program that claims nothing neither waits nor is waited
for. -/
theorem Reaches.unclaiming (reached : Reaches service cond S₀ S) (none : S₀.sessions = [])
    (each : (service c).Each Unclaiming) {i : Nat}
    (there : S.sessions[i]? = some ⟨c, ℓ, .running p⟩) : p.Each Unclaiming ∧ ℓ.held = [] := by
  refine reached.underway (P := fun c ℓ p => (service c).Each Unclaiming →
    p.Each Unclaiming ∧ ℓ.held = []) none (fun _ each => ⟨each, rfl⟩) ?_ there each
  intro c p ℓ now σ m before moves _ each
  obtain ⟨silent, held⟩ := before each
  refine ⟨silent.move moves, List.eq_nil_iff_forall_not_mem.mpr fun g kept => ?_⟩
  rcases (move_grants moves).1 g (Or.inl kept) with old | ⟨_, k, claim, _⟩
  · rw [held] at old
    cases old
  · rw [claims_move silent moves] at claim
    cases claim

/-- It answers after as many steps as its program has instructions, whatever
else is under way. -/
theorem answers_within {p : Prog Store Write Res ε α} {i : Nat}
    (there : S.sessions[i]? = some (.reached c ℓ p)) (each : p.Each Unclaiming)
    (short : p.Within n) : ∃ k ≤ n, ∃ S' ℓ' result,
      S.run service (.replicate k (.run i)) = some S' ∧
        S'.sessions[i]? = some ⟨c, ℓ', .answered result⟩ := by
  induction n generalizing S ℓ p with
  | zero =>
    cases p with
    | ret a => exact ⟨0, Nat.le_refl _, S, _, _, rfl, there⟩
    | fail e => exact ⟨0, Nat.le_refl _, S, _, _, rfl, there⟩
    | _ => cases short
  | succ n ih =>
    cases moves : p.move S.clock S.store ℓ with
    | none =>
      cases p with
      | ret a => exact ⟨0, Nat.zero_le _, S, _, _, rfl, there⟩
      | fail e => exact ⟨0, Nat.zero_le _, S, _, _, rfl, there⟩
      | _ => cases moves
    | some m =>
      have here : S.sessions[i]? = some ⟨c, ℓ, .running p⟩ := by
        cases p with
        | ret a => cases moves
        | fail e => cases moves
        | _ => exact there
      have advances : S.Advances i c ℓ p m := ⟨here, moves, fun _ _ _ _ _ _ k claim => by
        rw [claims_move each moves] at claim
        cases claim⟩
      have next : (S.moved i c m (.reached c m.loc m.next)).sessions[i]? =
          some (.reached c m.loc m.next) := by
        simp [moved, (List.getElem?_eq_some_iff.mp here).1]
      obtain ⟨k, less, S', ℓ', result, ran, answered⟩ := ih next (each.move moves)
        (short.move moves)
      refine ⟨k + 1, Nat.succ_le_succ less, S', ℓ', result, ?_, answered⟩
      rw [List.replicate_succ, run, step_of_free advances]
      exact ran

end System

end

end Txn
