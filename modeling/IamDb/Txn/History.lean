import Mathlib.Data.List.Induction
import IamDb.Txn.Locking

/-! What a run leaves behind. Every change of the store is one logged commit of
one session, a service whose programs end with their commits answers with each
of them, an ended session stays ended, and a snapshot is a committed store of
the run. -/
namespace Txn.System

section
variable {Call Store Write Res ε α : Type} [Locking Write Res] [DecidableEq Res]
  [Writes Store Write]

/-- One commit of a run: the session it is the commit of, what it writes, the
call it is logged under, every guarantee the session was ready for, the step of
its program it is, and the answer it ends with. -/
structure Lands (Inv : Store → Prop) (G : Call → Guar Store Write Res ε α)
    (S : System Call Store Write Res ε α) (i : Nat) (c : Call) (k : Commit Store Write Res ε α)
    (S' : System Call Store Write Res ε α) : Prop where
  commits : S.Commits Inv G i c k
  result : S'.store = k.result
  log : S'.log = S.log ++ [c]
  clock : S'.clock = S.clock
  running : ∃ ℓ p, S.sessions[i]? = some ⟨c, ℓ, .running p⟩
  held : ∀ ℓ p, S.sessions[i]? = some ⟨c, ℓ, .running p⟩ →
    ∀ g ∈ k.under, g ∈ ℓ.held ∨ g.since = S.clock
  meets : ∀ (R : Rely Store Write Res) (P : Call → Guar Store Write Res ε α) Q watched,
    S.Ready R P Q watched → watched c → P c k
  made : ∀ ℓ p, S.sessions[i]? = some ⟨c, ℓ, .running p⟩ →
    ∃ m, p.move S.clock S.store ℓ = some m ∧ m.commits = true ∧ k = m.commit S.store
  answer : ∃ a ℓ, k.answer = some (.ok a) ∧ (S'.sessions[i]? = some ⟨c, ℓ, .answered (.ok a)⟩ ∨
    S'.sessions[i]? = some ⟨c, ℓ, .dropped⟩)

variable {service : Call → Prog Store Write Res ε α} {R : Rely Store Write Res}
  {G : Call → Guar Store Write Res ε α} {Inv : Store → Prop}
  {cond : System Call Store Write Res ε α → Action Call → System Call Store Write Res ε α → Prop}
  {S₀ S S' : System Call Store Write Res ε α}

/-- The commit a step of a program that ends with it is. -/
theorem Sound.lands (sound : S.Sound Inv R G) (advances : S.Advances i c ℓ p m) (ends : p.Ends)
    (lands : m.commits = true) (became : s = .reached c m.loc m.next ∨
      s = (Session.reached c m.loc m.next).drop) :
    S.Lands Inv G i c (m.commit S.store) (S.moved i c m s) := by
  obtain ⟨a, done⟩ := (ends.move advances.moves).2 lands
  obtain ⟨_, ready⟩ := sound.ready i c ℓ p advances.here trivial
  have answer : (m.commit S.store).answer = some (.ok a) := by
    simp [Move.commit, done, Prog.answer?]
  have here := (List.getElem?_eq_some_iff.mp advances.here).1
  have now : (S.moved i c m s).sessions[i]? = some s := by simp [moved, here]
  have commits : S.Commits Inv G i c (m.commit S.store) :=
    ⟨sound.inv, (wp_move ready advances.moves).1 lands, rfl,
      fun j s there other => under_admitted sound.ordered advances there other⟩
  have log : (S.moved i c m s).log = S.log ++ [c] := by simp [moved, lands]
  rw [done] at became
  refine ⟨commits, rfl, log, rfl, ⟨ℓ, p, advances.here⟩, ?_, ?_, ?_, ?_⟩
  · intro ℓ' p' here g under
    obtain ⟨rfl, rfl⟩ : ℓ = ℓ' ∧ p = p' := by
      cases Option.some.inj (advances.here.symm.trans here)
      exact ⟨rfl, rfl⟩
    exact ((move_grants advances.moves).1 g (Or.inr under)).imp_right And.left
  · intro R P Q watched ready watching
    exact (wp_move (ready i c ℓ p advances.here watching).2 advances.moves).1 lands
  · intro ℓ' p' here
    cases Option.some.inj (advances.here.symm.trans here)
    exact ⟨m, advances.moves, lands, rfl⟩
  rw [now]
  rcases became with rfl | rfl
  · exact ⟨a, _, answer, Or.inl rfl⟩
  · exact ⟨a, _, answer, Or.inr rfl⟩

private theorem Reaches.program_ends (none : S₀.sessions = []) (ends : ∀ c, (service c).Ends)
    (reached : Reaches service cond S₀ S) {i : Nat}
    (there : S.sessions[i]? = some ⟨c, ℓ, .running p⟩) : p.Ends :=
  reached.underway (P := fun _ _ p => p.Ends) none ends
    (fun _ _ _ _ _ _ before moves _ => (before.move moves).1) there

/-- A commit is a step of its own session, which ends with it. -/
theorem Lands.acts (lands : S.Lands Inv G i c k S') (step : S.step service act = some S') :
    (act = .run i ∧ ∃ a ℓ, k.answer = some (.ok a) ∧
      S'.sessions[i]? = some ⟨c, ℓ, .answered (.ok a)⟩) ∨ act = .lose i := by
  obtain ⟨ℓ₀, p, here⟩ := lands.running
  obtain ⟨a, ℓ, answer, there | there⟩ := lands.answer
  · cases turn_of_step step there with
    | kept still => rw [here] at still; cases still
    | arrived absent => rw [here] at absent; cases absent
    | ran _ run => exact Or.inl ⟨run, a, ℓ, answer, there⟩
    | ended _ gone => cases gone
  · cases turn_of_step step there with
    | kept still => rw [here] at still; cases still
    | arrived absent => rw [here] at absent; cases absent
    | @ran c' _ _ m _ _ _ new => cases next : m.next <;> rw [next] at new <;> cases new
    | ended _ _ _ ceased =>
      rcases ceased with lost | dropped
      · exact Or.inr lost
      · subst dropped
        cases steps_of_step step with
        | drop => exact absurd lands.log (by simp)

section
variable (verified : Verified service Inv R G) (start : S₀.Sound Inv R G)
  (none : S₀.sessions = [])
include verified start none

/-- A step leaves the store and the log alone, or is one commit. -/
theorem Reaches.lands (ends : ∀ c, (service c).Ends) (reached : Reaches service cond S₀ S)
    (step : S.step service a = some S') :
    S'.store = S.store ∧ S'.log = S.log ∨ ∃ i c k, S.Lands Inv G i c k S' := by
  have sound := reached.sound verified start
  have advance {i : Nat} {c ℓ p m s} (advances : S.Advances i c ℓ p m)
      (became : s = .reached c m.loc m.next ∨ s = (Session.reached c m.loc m.next).drop) :
      (S.moved i c m s).store = S.store ∧ (S.moved i c m s).log = S.log ∨
        ∃ i' c' k, S.Lands Inv G i' c' k (S.moved i c m s) := by
    cases lands : m.commits with
    | false =>
      obtain ⟨_, ready⟩ := sound.ready i c ℓ p advances.here trivial
      refine Or.inl ⟨?_, by simp [moved, lands]⟩
      simp [moved, (wp_move ready advances.moves).2.1 lands]
    | true =>
      have ends := reached.program_ends none ends advances.here
      exact Or.inr ⟨i, c, _, sound.lands advances ends lands became⟩
  cases steps_of_step step with
  | call c => exact Or.inl ⟨rfl, rfl⟩
  | run advances => exact advance advances (Or.inl rfl)
  | lose advances => exact advance advances (Or.inr rfl)
  | drop here => exact Or.inl ⟨rfl, rfl⟩
  | tick seconds => exact Or.inl ⟨rfl, rfl⟩

/-- A call that earns its answer answers success only with its commit. -/
theorem Reaches.answered_lands (ends : ∀ c, (service c).Ends) (reached : Reaches service cond S₀ S)
    (step : S.step service act = some S') (earned : (service c).Earned) {i : Nat}
    (there : S'.sessions[i]? = some ⟨c, ℓ, .answered (.ok a)⟩)
    (new : S.sessions[i]? ≠ some ⟨c, ℓ, .answered (.ok a)⟩) :
    ∃ k, S.Lands Inv G i c k S' ∧ k.answer = some (.ok a) := by
  have sound := reached.sound verified start
  have here {i : Nat} {c ℓ p} (there : S.sessions[i]? = some ⟨c, ℓ, .running p⟩) :
      (service c).Earned → p.Ends ∧ p.Earned :=
    reached.underway (P := fun c _ p => (service c).Earned → p.Ends ∧ p.Earned) none
      (fun c earned => ⟨ends c, earned⟩)
      (fun c p ℓ now σ m before moves running earned => by
        obtain ⟨last, worth⟩ := before earned
        obtain ⟨rest, ceased⟩ := last.move moves
        refine ⟨rest, (worth.move moves).resolve_left fun commits => ?_⟩
        obtain ⟨a, done⟩ := ceased commits
        simp [done, Prog.upcoming] at running) there
  cases turn_of_step step there with
  | kept here => exact absurd here new
  | @arrived c' absent _ _ _ fresh =>
    obtain rfl : c = c' := by
      cases h : service c' <;> rw [h] at fresh <;> cases fresh
      rfl
    cases program : service c <;> rw [program] at fresh earned <;> cases fresh
    cases earned
  | @ran c' ℓ' p m advances run whole became =>
    obtain rfl : c = c' := by
      cases h : m.next <;> rw [h] at became <;> cases became
      rfl
    obtain ⟨last, worth⟩ := here advances.here earned
    rcases worth.move advances.moves with lands | rest
    · obtain ⟨b, done⟩ := (last.move advances.moves).2 lands
      have landed := sound.lands advances last lands (Or.inl rfl)
      rw [← whole] at landed
      refine ⟨_, landed, ?_⟩
      rw [done] at became
      cases became
      simp [Move.commit, done, Prog.answer?]
    · cases next : m.next <;> rw [next] at became rest <;> cases became
      cases rest
  | ended _ gone => cases gone

/-- A step that ends with a refusal changes nothing. -/
theorem Reaches.refused (ends : ∀ c, (service c).Ends) (reached : Reaches service cond S₀ S)
    (step : S.step service act = some S') {i : Nat}
    (there : S'.sessions[i]? = some ⟨c, ℓ, .answered (.error e)⟩)
    (new : S.sessions[i]? ≠ some ⟨c, ℓ, .answered (.error e)⟩) :
    S'.store = S.store ∧ S'.log = S.log := by
  cases turn_of_step step there with
  | kept here => exact absurd here new
  | arrived _ call =>
    subst call
    cases step
    exact ⟨rfl, rfl⟩
  | @ran c' ℓ' p m advances run whole became =>
    have ready := ((reached.sound verified start).ready i c' ℓ' p advances.here trivial).2
    have silent : m.commits = false := by
      by_contra commits
      obtain ⟨a, done⟩ := ((reached.program_ends none ends advances.here).move
        advances.moves).2 (by simpa using commits)
      rw [done] at became
      cases became
    refine ⟨?_, by simp [whole, moved, silent]⟩
    simp [whole, moved, (wp_move ready advances.moves).2.1 silent]
  | ended _ gone => cases gone

/-- What a lock of a running session covers is what it was when the lock was
granted. -/
theorem Reaches.since {f : Store → β} {i : Nat} (ends : ∀ c, (service c).Ends)
    (locked : ∀ c k, G c k → k.Locked)
    (outside : ∀ w : Write, Locking.res w ≠ r → ∀ σ, f (Writes.apply w σ) = f σ)
    (reached : Reaches service cond S₀ S) (there : S.sessions[i]? = some ⟨c, ℓ, .running p⟩)
    (held : ⟨⟨r, mode⟩, t⟩ ∈ ℓ.held) :
    ∃ T, Reaches service cond S₀ T ∧ Reaches service cond T S ∧ T.clock = t ∧
      f T.store = f S.store := by
  induction reached generalizing c ℓ p with
  | refl => rw [none] at there; cases there
  | @step T a T' before step holds ih =>
    -- The step is no commit of the session, which still runs, and no other can touch the row.
    have kept (here : ∃ c ℓ p, T.sessions[i]? = some ⟨c, ℓ, .running p⟩ ∧
        (a ≠ .run i → ⟨⟨r, mode⟩, t⟩ ∈ ℓ.held)) : f T'.store = f T.store := by
      rcases before.lands verified start none ends step with ⟨same, _⟩ | ⟨j, c', k, lands⟩
      · rw [same]
      · obtain ⟨c, ℓ, p, here, held⟩ := here
        have other : j ≠ i := by
          rintro rfl
          obtain ⟨_, _, _, ended | ended⟩ := lands.answer <;> rw [there] at ended <;> cases ended
        have acts : a ≠ .run i := by
          rcases lands.acts step with ⟨run, _⟩ | lost
          · rw [run]
            exact fun same => other (by cases same; rfl)
          · rw [lost]
            nofun
        have room := lands.commits.admitted i _ here (Ne.symm other)
        rw [lands.result, ← lands.commits.store]
        exact (locked c' k lands.commits.guar).frame outside
          (room.not_exclusive ⟨t, held acts⟩)
    cases turn_of_step step there with
    | kept here =>
      obtain ⟨U, first, rest, clock, same⟩ := ih here held
      exact ⟨U, first, rest.step step holds, clock, same.trans (kept ⟨_, _, _, here, fun _ => held⟩).symm⟩
    | arrived _ _ _ _ fresh =>
      obtain ⟨rfl, rfl, rfl, _⟩ := Session.reached_running fresh.symm
      cases held
    | @ran c' ℓ' p' m advances run whole became =>
      obtain ⟨rfl, rfl, rfl, _⟩ := Session.reached_running became.symm
      have still := kept ⟨_, _, _, advances.here, fun other => absurd run other⟩
      rcases (move_grants advances.moves).1 _ (Or.inl held) with old | ⟨now, _⟩
      · obtain ⟨U, first, rest, clock, same⟩ := ih advances.here old
        exact ⟨U, first, rest.step step holds, clock, same.trans still.symm⟩
      · exact ⟨T, before, .step .refl step holds, now.symm, still.symm⟩
    | ended _ gone => cases gone

end

/-! ### Sessions over a run -/

/-- A step a session takes, whoever receives its answer, is a step of its
program. -/
theorem advances_of_step {i : Nat} (step : S.step service act = some S')
    (acts : act = .run i ∨ act = .lose i) (here : S.sessions[i]? = some ⟨c, ℓ, .running p⟩) :
    ∃ m s, S.Advances i c ℓ p m ∧ S' = S.moved i c m s := by
  rcases acts with rfl | rfl
  · cases steps_of_step step with
    | run advances =>
      cases Option.some.inj (here.symm.trans advances.here)
      exact ⟨_, _, advances, rfl⟩
  · cases steps_of_step step with
    | lose advances =>
      cases Option.some.inj (here.symm.trans advances.here)
      exact ⟨_, _, advances, rfl⟩

/-- A session that has ended stays as it is. -/
theorem Reaches.ended (reached : Reaches service cond S S') {i : Nat}
    (there : S.sessions[i]? = some s) (ceased : ∀ p, s.phase ≠ .running p) :
    S'.sessions[i]? = some s := by
  induction reached with
  | refl => exact there
  | step _ step _ ih =>
    cases steps_of_step step with
    | call c =>
      rw [List.getElem?_append_left (List.getElem?_eq_some_iff.mp ih).1]
      exact ih
    | @run j c ℓ p m advances =>
      by_cases same : j = i
      · subst same
        cases Option.some.inj (ih.symm.trans advances.here)
        exact absurd rfl (ceased p)
      · simpa [moved, List.getElem?_set, same] using ih
    | @lose j c ℓ p m advances =>
      by_cases same : j = i
      · subst same
        cases Option.some.inj (ih.symm.trans advances.here)
        exact absurd rfl (ceased p)
      · simpa [moved, List.getElem?_set, same] using ih
    | @drop j c ℓ p here =>
      by_cases same : j = i
      · subst same
        cases Option.some.inj (ih.symm.trans here)
        exact absurd rfl (ceased p)
      · simpa [List.getElem?_set, same] using ih
    | tick seconds => exact ih

/-- A call that has arrived stays. -/
theorem Reaches.session (reached : Reaches service cond S S') {i : Nat}
    (there : S.sessions[i]? = some s) : ∃ s', S'.sessions[i]? = some s' ∧ s'.call = s.call := by
  have moved_session {T : System Call Store Write Res ε α} {j : Nat} {c : Call}
      {ℓ : Local Store Write Res} {p : Prog Store Write Res ε α} {s₀ s₁ : Session Call Store Write Res ε α}
      (here : T.sessions[j]? = some ⟨c, ℓ, .running p⟩) (same : s₁.call = c)
      (old : T.sessions[i]? = some s₀) :
      ∃ s', (T.sessions.set j s₁)[i]? = some s' ∧ s'.call = s₀.call := by
    by_cases mine : j = i
    · subst mine
      cases Option.some.inj (old.symm.trans here)
      exact ⟨s₁, by simp [(List.getElem?_eq_some_iff.mp here).1], same⟩
    · exact ⟨s₀, by simpa [List.getElem?_set, mine] using old, rfl⟩
  have reached_call (c : Call) (ℓ : Local Store Write Res) (p : Prog Store Write Res ε α) :
      (Session.reached c ℓ p).call = c := by cases p <;> rfl
  induction reached with
  | refl => exact ⟨s, there, rfl⟩
  | step _ step _ ih =>
    obtain ⟨s₀, old, same⟩ := ih
    rw [← same]
    cases steps_of_step step with
    | call c =>
      exact ⟨s₀, by rwa [List.getElem?_append_left (List.getElem?_eq_some_iff.mp old).1], rfl⟩
    | run advances => exact moved_session advances.here (reached_call _ _ _) old
    | lose advances => exact moved_session advances.here (reached_call _ _ _) old
    | drop here => exact moved_session here rfl old
    | tick seconds => exact ⟨s₀, old, rfl⟩

/-- The log only grows. -/
theorem Reaches.log (reached : Reaches service cond S S') : ∃ later, S'.log = S.log ++ later := by
  induction reached with
  | refl => exact ⟨[], (List.append_nil _).symm⟩
  | step _ step _ ih =>
    obtain ⟨later, ih⟩ := ih
    have advance {i : Nat} {c m s} {T : System Call Store Write Res ε α}
        (ih : T.log = S.log ++ later) : ∃ later, (T.moved i c m s).log = S.log ++ later := by
      simp only [moved, ih]
      split
      · exact ⟨later ++ [c], List.append_assoc _ _ _⟩
      · exact ⟨later, rfl⟩
    cases steps_of_step step with
    | run advances => exact advance ih
    | lose advances => exact advance ih
    | _ => exact ⟨later, ih⟩

theorem Reaches.clock_le (reached : Reaches service cond S S') : S.clock ≤ S'.clock := by
  induction reached with
  | refl => exact Int.le_refl _
  | step _ step _ ih => exact Int.le_trans ih (clock_le_of_step step)

/-- The snapshot of a session that had none at some point is a committed store
of the run from there on, with its time. -/
theorem Reaches.snapshot (reached : Reaches service cond S S') {i : Nat}
    (there : S'.sessions[i]? = some s) (alive : s.phase ≠ .dropped)
    (taken : s.loc.snapshot = some snap)
    (none : ∀ s₀, S.sessions[i]? = some s₀ → s₀.loc.snapshot = none) :
    ∃ S₁, Reaches service cond S S₁ ∧ S₁.store = snap.store ∧ S₁.clock = snap.since ∧
      Reaches service cond S₁ S' := by
  induction reached generalizing s with
  | refl => rw [none s there] at taken; cases taken
  | @step T a T' before step holds ih =>
    have earlier {s : Session Call Store Write Res ε α} (here : T.sessions[i]? = some s)
        (alive : s.phase ≠ .dropped) (taken : s.loc.snapshot = some snap) :
        ∃ S₁, Reaches service cond S S₁ ∧ S₁.store = snap.store ∧ S₁.clock = snap.since ∧
          Reaches service cond S₁ T' := by
      obtain ⟨S₁, first, store, clock, rest⟩ := ih here alive taken
      exact ⟨S₁, first, store, clock, rest.step step holds⟩
    have reached_snapshot (c : Call) (ℓ : Local Store Write Res) (p : Prog Store Write Res ε α) :
        (Session.reached c ℓ p).loc.snapshot = ℓ.snapshot := by
      cases p <;> rfl
    cases turn_of_step step there with
    | kept here => exact earlier here alive taken
    | arrived _ _ _ _ fresh =>
      rw [fresh, reached_snapshot] at taken
      cases taken
    | @ran c ℓ p m advances run whole became =>
      rw [became, reached_snapshot] at taken
      have old := earlier advances.here nofun
      have moves := advances.moves
      cases p with
      | ret a => cases moves
      | fail e => cases moves
      | begin iso p => cases moves; cases taken
      | stmt s k =>
        cases moves
        simp only [Local.after] at taken
        split at taken
        · cases had : ℓ.snapshot with
          | none =>
            rw [had] at taken
            cases taken
            exact ⟨T, before, rfl, rfl, .step .refl step holds⟩
          | some first =>
            rw [had] at taken
            cases taken
            exact old had
        · exact old taken
      | auto iso s k => cases moves; exact old taken
      | commit p => cases moves; exact old taken
    | ended _ gone => exact absurd gone alive

/-- A session with nothing left but reads changes nothing any more. -/
theorem Reaches.idle (reached : Reaches service cond S S') {i : Nat}
    (there : S.sessions[i]? = some ⟨c, ℓ, .running p⟩) (idle : p.Idle) (pending : ℓ.pending = [])
    (step : S'.step service act = some S'') (acts : act = .run i ∨ act = .lose i) :
    S''.store = S'.store := by
  have still : ∀ c ℓ p, S'.sessions[i]? = some ⟨c, ℓ, .running p⟩ → p.Idle ∧ ℓ.pending = [] := by
    clear step
    induction reached with
    | refl =>
      intro c' ℓ' p' here
      cases Option.some.inj (there.symm.trans here)
      exact ⟨idle, pending⟩
    | step before step _ ih =>
      intro c' ℓ' p' here
      cases turn_of_step step here with
      | kept here => exact ih _ _ _ here
      | arrived absent =>
        obtain ⟨_, present, _⟩ := before.session there
        rw [absent] at present
        cases present
      | ran advances _ _ new =>
        obtain ⟨rfl, rfl, rfl, _⟩ := Session.reached_running new.symm
        obtain ⟨idle, pending⟩ := ih _ _ _ advances.here
        exact ⟨(idle.move pending advances.moves).1, (idle.move pending advances.moves).2.1⟩
      | ended _ gone => cases gone
  have silent {c' ℓ' p' m s} (advances : S'.Advances i c' ℓ' p' m) :
      (S'.moved i c' m s).store = S'.store := by
    obtain ⟨idle, pending⟩ := still _ _ _ advances.here
    simp [moved, (idle.move pending advances.moves).2.2]
  rcases acts with rfl | rfl
  · cases steps_of_step step with
    | run advances => exact silent advances
  · cases steps_of_step step with
    | lose advances => exact silent advances

/-- A session of a call that opens one transaction has not opened it yet, or is
inside it. -/
theorem Reaches.inside (reached : Reaches service cond S₀ S) (none : S₀.sessions = [])
    (opens : (service c).Opens) {i : Nat} (there : S.sessions[i]? = some ⟨c, ℓ, .running p⟩) :
    p = service c ∧ ℓ.held = [] ∧ ℓ.pending = [] ∨ p.Rest := by
  refine reached.underway (P := fun c ℓ p => (service c).Opens →
    p = service c ∧ ℓ.held = [] ∧ ℓ.pending = [] ∨ p.Rest) none
    (fun _ _ => Or.inl ⟨rfl, rfl, rfl⟩) ?_ there opens
  intro c p ℓ now σ m before moves running opens
  rcases before opens with ⟨rfl, _⟩ | rest
  · cases program : service c with
    | begin iso q =>
      rw [program] at moves opens
      cases moves
      exact Or.inr opens
    | fail e =>
      rw [program] at moves
      cases moves
    | _ => rw [program] at opens; cases opens
  · exact Or.inr (rest.move moves running).1

/-- A session of a call with no transaction holds no lock from one statement to
the next. -/
theorem Reaches.bare (reached : Reaches service cond S₀ S) (none : S₀.sessions = [])
    (loose : (service c).Loose) {i : Nat} (there : S.sessions[i]? = some ⟨c, ℓ, .running p⟩) :
    p.Loose ∧ ℓ.held = [] := by
  refine reached.underway (P := fun c ℓ p => (service c).Loose → p.Loose ∧ ℓ.held = []) none
    (fun _ loose => ⟨loose, rfl⟩) ?_ there loose
  intro c p ℓ now σ m before moves _ loose
  obtain ⟨rest, held⟩ := before loose
  cases p with
  | ret a => cases moves
  | fail e => cases moves
  | auto iso s k =>
    cases moves
    exact ⟨rest _, held⟩
  | _ => cases rest

/-- Inside its transaction a session keeps every lock it was granted. -/
theorem Reaches.keeps (reached : Reaches service cond S S') {i : Nat}
    (there : S.sessions[i]? = some ⟨c, ℓ, .running p⟩) (rest : p.Rest)
    (there' : S'.sessions[i]? = some ⟨c', ℓ', .running p'⟩) :
    p'.Rest ∧ ∀ g ∈ ℓ.held, g ∈ ℓ'.held := by
  induction reached generalizing c' ℓ' p' with
  | refl =>
    cases Option.some.inj (there.symm.trans there')
    exact ⟨rest, fun _ held => held⟩
  | step before step _ ih =>
    cases turn_of_step step there' with
    | kept here => exact ih here
    | arrived absent =>
      obtain ⟨_, present, _⟩ := before.session there
      rw [absent] at present
      cases present
    | @ran c ℓ q m advances _ _ new =>
      obtain ⟨rfl, rfl, rfl, running⟩ := Session.reached_running new.symm
      obtain ⟨rest', kept⟩ := ih advances.here
      refine ⟨(rest'.move advances.moves running).1, fun g held => ?_⟩
      have moves := advances.moves
      cases q with
      | stmt s k =>
        cases moves
        exact List.mem_append_left _ (kept g held)
      | commit q =>
        obtain ⟨a, rfl⟩ := rest'
        cases moves
        exact absurd rfl running
      | fail e => cases moves
      | _ => cases rest'
    | ended _ gone => cases gone

/-! ### The steps of a run -/

/-- The steps of a run, each with the state it leads from and the one it leads
to. -/
def trace (service : Call → Prog Store Write Res ε α) (S : System Call Store Write Res ε α) :
    List (Action Call) →
      List (System Call Store Write Res ε α × Action Call × System Call Store Write Res ε α)
  | [] => []
  | a :: rest =>
    match S.step service a with
    | some S' => (S, a, S') :: S'.trace service rest
    | none => []

theorem run_concat : S.run service (as ++ [a]) = some S' ↔
    ∃ T, S.run service as = some T ∧ T.step service a = some S' := by
  rw [run_append, Option.bind_eq_some_iff]
  simp [run]

theorem trace_append (ran : S.run service as = some T) :
    S.trace service (as ++ bs) = S.trace service as ++ T.trace service bs := by
  induction as generalizing S with
  | nil =>
    cases ran
    rfl
  | cons a as ih =>
    rw [run, Option.bind_eq_some_iff] at ran
    obtain ⟨U, first, rest⟩ := ran
    simp only [List.cons_append, trace, first, ih rest]

theorem trace_concat (ran : S.run service as = some T) (step : T.step service a = some S') :
    S.trace service (as ++ [a]) = S.trace service as ++ [(T, a, S')] := by
  rw [trace_append ran]
  simp only [trace, step]

/-- What some steps start and others end, and no other step changes, holds after
a run that started it and has not ended it since. -/
theorem holds_iff_trace {P : System Call Store Write Res ε α → Prop}
    {starts ends : System Call Store Write Res ε α → System Call Store Write Res ε α → Prop}
    (fresh : ¬P S₀)
    (one : ∀ T a T', Reaches service (fun _ _ _ => True) S₀ T → T.step service a = some T' →
      (P T' ↔ starts T T' ∨ P T ∧ ¬ends T T')) (ran : S₀.run service actions = some S) :
    P S ↔ ∃ before T a T' after, S₀.trace service actions = before ++ (T, a, T') :: after ∧
      starts T T' ∧ ∀ x ∈ after, ¬ends x.1 x.2.2 := by
  induction actions using List.reverseRecOn generalizing S with
  | nil =>
    cases ran
    refine ⟨fun holds => absurd holds fresh, ?_⟩
    rintro ⟨before, T, a, T', after, split, _⟩
    exact absurd split.symm (List.append_ne_nil_of_right_ne_nil before (List.cons_ne_nil _ _))
  | append_singleton as b ih =>
    obtain ⟨U, earlier, step⟩ := run_concat.mp ran
    rw [one U b S (.of_run earlier) step, ih earlier, trace_concat earlier step]
    constructor
    · rintro (started | ⟨⟨before, T, a, T', after, split, started, going⟩, last⟩)
      · exact ⟨_, U, b, S, [], rfl, started, nofun⟩
      · refine ⟨before, T, a, T', after ++ [(U, b, S)], by rw [split]; simp, started, ?_⟩
        intro x member
        rcases List.mem_append.mp member with old | new
        · exact going x old
        · obtain rfl := List.mem_singleton.mp new
          exact last
    · rintro ⟨before, T, a, T', after, split, started, going⟩
      rcases List.eq_nil_or_concat after with rfl | ⟨init, final, rfl⟩
      · obtain ⟨_, same⟩ := List.append_inj' split rfl
        cases same
        exact Or.inl started
      · rw [List.concat_eq_append, ← List.cons_append, ← List.append_assoc] at split
        obtain ⟨same, tail⟩ := List.append_inj' split rfl
        cases tail
        rw [List.concat_eq_append] at going
        exact Or.inr ⟨⟨before, T, a, T', init, same, started, fun x member =>
          going x (List.mem_append_left _ member)⟩, going _ List.mem_concat_self⟩

/-- What some steps write and no other step changes is, after a run, what the
last of these steps wrote. -/
theorem wrote_iff_trace {f : System Call Store Write Res ε α → β}
    {writes : System Call Store Write Res ε α → System Call Store Write Res ε α → β → Prop}
    (fresh : f S₀ ≠ b)
    (stores : ∀ T a T' v, Reaches service (fun _ _ _ => True) S₀ T →
      T.step service a = some T' → writes T T' v → f T' = v)
    (keeps : ∀ T a T', Reaches service (fun _ _ _ => True) S₀ T →
      T.step service a = some T' → (∀ v, ¬writes T T' v) → f T' = f T)
    (ran : S₀.run service actions = some S) :
    f S = b ↔ ∃ before T a T' after, S₀.trace service actions = before ++ (T, a, T') :: after ∧
      writes T T' b ∧ ∀ x ∈ after, ∀ v, ¬writes x.1 x.2.2 v := by
  have one : ∀ T a T', Reaches service (fun _ _ _ => True) S₀ T → T.step service a = some T' →
      (f T' = b ↔ writes T T' b ∨ f T = b ∧ ¬∃ v, writes T T' v) := by
    intro T a T' reached step
    by_cases wrote : ∃ v, writes T T' v
    · obtain ⟨v, written⟩ := wrote
      rw [stores T a T' v reached step written]
      constructor
      · rintro rfl
        exact Or.inl written
      · rintro (same | ⟨_, none⟩)
        · exact (stores T a T' v reached step written).symm.trans
            (stores T a T' b reached step same)
        · exact absurd ⟨v, written⟩ none
    · rw [keeps T a T' reached step fun v written => wrote ⟨v, written⟩]
      exact ⟨fun same => Or.inr ⟨same, wrote⟩,
        fun either => either.elim (fun written => absurd ⟨b, written⟩ wrote) And.left⟩
  rw [holds_iff_trace (P := fun T => f T = b) fresh one ran]
  simp only [not_exists]

end

end Txn.System
