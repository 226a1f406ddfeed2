import IamDb.Txn.System
import Mathlib.Logic.Relation

/-! Reasoning about one program at a time. A program is verified against a
rely, the changes the other sessions may commit while it is about to run an
instruction, and a guarantee about every commit of its own: the locks it is
made under, what it writes and what the call goes on to answer. When every
commit a call guarantees is one the others rely on, the guarantee of each call
holds of every commit of every run, and every answer meets its postcondition. -/
namespace Txn

section
variable {Call Store Write Res ε α : Type}

/-- One commit: the locks it is made under, every lock its session was granted
by then, the writes, the committed store they are made on, and what the call
answers with it, if that ends it. -/
structure Commit (Store Write Res ε α : Type) where
  under : List (Grant Res)
  seen : List (Grant Res)
  writes : List Write
  store : Store
  answer : Option (Except ε α)

/-- The committed store after it. -/
def Commit.result [Writes Store Write] (k : Commit Store Write Res ε α) : Store :=
  applyAll k.writes k.store

/-- The same commit by a program that goes on. -/
def Commit.answering (k : Commit Store Write Res ε α) (answer : Option (Except ε β)) :
    Commit Store Write Res ε β :=
  ⟨k.under, k.seen, k.writes, k.store, answer⟩

variable [Locking Write Res]

/-- The changes of the committed store a session puts up with, given its
locals and the instruction it is about to run. -/
abbrev Rely (Store Write Res : Type) [Locking Write Res] : Type 1 :=
  Local Store Write Res → Next Store Write Res → Store → Store → Prop

/-- What holds of every commit of a program. -/
abbrev Guar (Store Write Res ε α : Type) : Type := Commit Store Write Res ε α → Prop

/-- The guarantee of a program that commits nothing. -/
def Guar.none : Guar Store Write Res ε α := fun _ => False

/-- What holds when a program ends: of its answer, its locals, the committed
store and the clock. -/
abbrev Post (Store Write Res ε α : Type) : Type :=
  Except ε α → Local Store Write Res → Store → Int → Prop

/-- Any number of changes of the rely. -/
def Drift (R : Rely Store Write Res) (ℓ : Local Store Write Res) (n : Next Store Write Res) :
    Store → Store → Prop :=
  Relation.ReflTransGen (R ℓ n)

/-- A property that every change of the rely carries over survives any number
of them. -/
theorem Drift.carries {R : Rely Store Write Res} {P : Store → Store → Prop}
    (drift : Drift R ℓ n σ σ') (refl : ∀ σ, P σ σ)
    (trans : ∀ σ σ' σ'', P σ σ' → P σ' σ'' → P σ σ'')
    (one : ∀ σ σ', R ℓ n σ σ' → P σ σ') : P σ σ' := by
  induction drift with
  | refl => exact refl _
  | tail _ last ih => exact trans _ _ _ ih (one _ _ last)

/-- A predicate every change of the rely preserves holds after any number of
them. -/
theorem Drift.preserves {R : Rely Store Write Res} {P : Store → Prop}
    (drift : Drift R ℓ n σ σ') (holds : P σ) (one : ∀ σ σ', R ℓ n σ σ' → P σ → P σ') : P σ' := by
  induction drift with
  | refl => exact holds
  | tail _ last ih => exact one _ _ last ih

theorem Drift.mono {R R' : Rely Store Write Res} (drift : Drift R' ℓ n σ σ')
    (rely : ∀ σ σ', R' ℓ n σ σ' → R ℓ n σ σ') : Drift R ℓ n σ σ' :=
  Relation.ReflTransGen.mono rely _ _ drift

/-- Any number of changes of the rely, at any instructions. -/
def Drifts (R : Rely Store Write Res) : Store → Store → Prop :=
  Relation.ReflTransGen fun σ σ' => ∃ ℓ n, R ℓ n σ σ'

theorem Drift.drifts {R : Rely Store Write Res} (drift : Drift R ℓ n σ σ') : Drifts R σ σ' :=
  Relation.ReflTransGen.mono (fun _ _ change => ⟨ℓ, n, change⟩) _ _ drift

variable [Writes Store Write]

/-- The weakest precondition: before every instruction other sessions may
change the store as the rely allows and time may pass, every commit is one of
the guarantee, and the end meets the postcondition. -/
def wp (R : Rely Store Write Res) (G : Guar Store Write Res ε α) :
    Prog Store Write Res ε α → Post Store Write Res ε α →
      Local Store Write Res → Store → Int → Prop
  | .ret a, Q, ℓ, σ, t => Q (.ok a) ℓ σ t
  | .fail e, Q, ℓ, σ, t => Q (.error e) ℓ σ t
  | .begin iso p, Q, ℓ, σ, t => ∀ σ' t', Drift R ℓ (.start iso) σ σ' → t ≤ t' →
      wp R G p Q (ℓ.opened iso) σ' t'
  | .stmt s k, Q, ℓ, σ, t => ∀ σ' t', Drift R ℓ (.stmt s) σ σ' → t ≤ t' →
      wp R G (k (s.exec t' (ℓ.view s σ')).1) Q (ℓ.after s σ' t') σ' t'
  | .auto iso s k, Q, ℓ, σ, t => ∀ σ' t', Drift R ℓ (.auto s) σ σ' → t ≤ t' →
      ((s.exec t' σ').2 ≠ [] →
        G ⟨granted t' (s.claims t' iso σ'), (ℓ.afterAuto iso s σ' t').seen, (s.exec t' σ').2, σ',
          (k (s.exec t' σ').1).answer?⟩) ∧
      wp R G (k (s.exec t' σ').1) Q (ℓ.afterAuto iso s σ' t') (applyAll (s.exec t' σ').2 σ') t'
  | .commit p, Q, ℓ, σ, t => ∀ σ' t', Drift R ℓ .commit σ σ' → t ≤ t' →
      G ⟨ℓ.held, ℓ.seen, ℓ.pending, σ', p.answer?⟩ ∧
      wp R G p Q ℓ.closed (applyAll ℓ.pending σ') t'

section
variable {R : Rely Store Write Res} {G : Guar Store Write Res ε α} {Q : Post Store Write Res ε α}

@[simp] theorem wp_ret : wp R G (.ret a) Q ℓ σ t ↔ Q (.ok a) ℓ σ t := Iff.rfl

@[simp] theorem wp_fail : wp R G (.fail e) Q ℓ σ t ↔ Q (.error e) ℓ σ t := Iff.rfl

@[simp] theorem wp_pure :
    wp R G (pure a : Prog Store Write Res ε α) Q ℓ σ t ↔ Q (.ok a) ℓ σ t := Iff.rfl

@[simp] theorem wp_fail_bind {f : β → Prog Store Write Res ε α} :
    wp R G ((Prog.fail e : Prog Store Write Res ε β) >>= f) Q ℓ σ t ↔ Q (.error e) ℓ σ t := Iff.rfl

@[simp] theorem wp_ret_bind {f : β → Prog Store Write Res ε α} :
    wp R G ((Prog.ret b : Prog Store Write Res ε β) >>= f) Q ℓ σ t ↔ wp R G (f b) Q ℓ σ t := Iff.rfl

/-- A weaker guarantee and a weaker postcondition under a stronger rely. -/
theorem wp_mono {R' : Rely Store Write Res} {G' : Guar Store Write Res ε α}
    {Q' : Post Store Write Res ε α} {p : Prog Store Write Res ε α}
    (ready : wp R G p Q ℓ σ t) (rely : ∀ ℓ n σ σ', R' ℓ n σ σ' → R ℓ n σ σ')
    (guar : ∀ k, G k → G' k) (post : ∀ r ℓ σ t, Q r ℓ σ t → Q' r ℓ σ t) :
    wp R' G' p Q' ℓ σ t := by
  induction p generalizing ℓ σ t with
  | ret a => exact post _ _ _ _ ready
  | fail e => exact post _ _ _ _ ready
  | begin iso p ih => exact fun σ' t' d later => ih (ready σ' t' (d.mono (rely _ _)) later)
  | stmt s k ih => exact fun σ' t' d later => ih _ (ready σ' t' (d.mono (rely _ _)) later)
  | auto iso s k ih =>
    intro σ' t' d later
    obtain ⟨commits, rest⟩ := ready σ' t' (d.mono (rely _ _)) later
    exact ⟨fun writes => guar _ (commits writes), ih _ rest⟩
  | commit p ih =>
    intro σ' t' d later
    obtain ⟨commits, rest⟩ := ready σ' t' (d.mono (rely _ _)) later
    exact ⟨guar _ commits, ih rest⟩

/-- Nothing is asked of a program. -/
theorem wp_trivial {p : Prog Store Write Res ε α} :
    wp R (fun _ => True) p (fun _ _ _ _ => True) ℓ σ t := by
  induction p generalizing ℓ σ t with
  | ret a => trivial
  | fail e => trivial
  | begin iso p ih => exact fun σ' t' _ _ => ih
  | stmt s k ih => exact fun σ' t' _ _ => ih _
  | auto iso s k ih => exact fun σ' t' _ _ => ⟨fun _ => trivial, ih _⟩
  | commit p ih => exact fun σ' t' _ _ => ⟨trivial, ih⟩

/-- Two verifications of one program hold together. -/
theorem wp_and {G' : Guar Store Write Res ε α} {Q' : Post Store Write Res ε α}
    {p : Prog Store Write Res ε α} (left : wp R G p Q ℓ σ t) (right : wp R G' p Q' ℓ σ t) :
    wp R (fun k => G k ∧ G' k) p (fun r ℓ σ t => Q r ℓ σ t ∧ Q' r ℓ σ t) ℓ σ t := by
  induction p generalizing ℓ σ t with
  | ret a => exact ⟨left, right⟩
  | fail e => exact ⟨left, right⟩
  | begin iso p ih => exact fun σ' t' d later => ih (left σ' t' d later) (right σ' t' d later)
  | stmt s k ih => exact fun σ' t' d later => ih _ (left σ' t' d later) (right σ' t' d later)
  | auto iso s k ih =>
    intro σ' t' d later
    have first := left σ' t' d later
    have second := right σ' t' d later
    exact ⟨fun writes => ⟨first.1 writes, second.1 writes⟩, ih _ first.2 second.2⟩
  | commit p ih =>
    intro σ' t' d later
    have first := left σ' t' d later
    have second := right σ' t' d later
    exact ⟨⟨first.1, second.1⟩, ih first.2 second.2⟩

/-- A program followed by another, through what holds between them. -/
theorem wp_then {p : Prog Store Write Res ε α} {f : α → Prog Store Write Res ε β}
    {G' : Guar Store Write Res ε β} {Q : Post Store Write Res ε β}
    (ready : wp R G p (fun r ℓ σ t => match r with
      | .ok a => wp R G' (f a) Q ℓ σ t
      | .error e => Q (.error e) ℓ σ t) ℓ σ t)
    (commits : ∀ k, G k → G' (k.answering (k.answer.bind fun r => match r with
      | .ok a => (f a).answer?
      | .error e => some (.error e)))) : wp R G' (p >>= f) Q ℓ σ t := by
  induction p generalizing ℓ σ t with
  | ret a => exact ready
  | fail e => exact ready
  | begin iso p ih => exact fun σ' t' d later => ih (ready σ' t' d later)
  | stmt s k ih => exact fun σ' t' d later => ih _ (ready σ' t' d later)
  | auto iso s k ih =>
    intro σ' t' d later
    obtain ⟨guar, rest⟩ := ready σ' t' d later
    refine ⟨fun writes => ?_, ih _ rest⟩
    dsimp only
    rw [Prog.answer?_bind]
    exact commits _ (guar writes)
  | commit p ih =>
    intro σ' t' d later
    obtain ⟨guar, rest⟩ := ready σ' t' d later
    refine ⟨?_, ih rest⟩
    rw [Prog.answer?_bind]
    exact commits _ guar

/-- A program whose answer is wrapped. -/
theorem wp_map {p : Prog Store Write Res ε α} {g : α → β} {G : Guar Store Write Res ε β}
    {Q : Post Store Write Res ε β}
    (ready : wp R (fun k => G (k.answering (k.answer.map (Except.map g)))) p
      (fun r ℓ σ t => Q (r.map g) ℓ σ t) ℓ σ t) :
    wp R G (do pure (g (← p))) Q ℓ σ t := by
  refine wp_then (wp_mono ready (fun _ _ _ _ h => h) (fun _ h => h) ?_) ?_
  · intro r ℓ σ t post
    cases r <;> exact post
  · intro k guar
    cases answer : k.answer with
    | none => simpa [answer] using guar
    | some r =>
      rw [answer] at guar
      cases r <;> exact guar

section
variable {k : ρ → Prog Store Write Res ε α}

/-- A statement of the open transaction, and what follows. -/
theorem wp_query : wp R G (Prog.query s >>= k) Q ℓ σ t ↔
    ∀ σ' t', Drift R ℓ (.stmt s) σ σ' → t ≤ t' →
      wp R G (k (s.exec t' (ℓ.view s σ')).1) Q (ℓ.after s σ' t') σ' t' := Iff.rfl

theorem wp_single : wp R G (Prog.single iso s >>= k) Q ℓ σ t ↔
    ∀ σ' t', Drift R ℓ (.auto s) σ σ' → t ≤ t' →
      ((s.exec t' σ').2 ≠ [] →
        G ⟨granted t' (s.claims t' iso σ'), (ℓ.afterAuto iso s σ' t').seen, (s.exec t' σ').2, σ',
          (k (s.exec t' σ').1).answer?⟩) ∧
      wp R G (k (s.exec t' σ').1) Q (ℓ.afterAuto iso s σ' t') (applyAll (s.exec t' σ').2 σ') t' :=
  Iff.rfl

end

theorem wp_start {k : Unit → Prog Store Write Res ε α} :
    wp R G (Prog.start iso >>= k) Q ℓ σ t ↔
      ∀ σ' t', Drift R ℓ (.start iso) σ σ' → t ≤ t' → wp R G (k ()) Q (ℓ.opened iso) σ' t' :=
  Iff.rfl

theorem wp_finish {k : Unit → Prog Store Write Res ε α} :
    wp R G (Prog.finish >>= k) Q ℓ σ t ↔ ∀ σ' t', Drift R ℓ .commit σ σ' → t ≤ t' →
      G ⟨ℓ.held, ℓ.seen, ℓ.pending, σ', (k ()).answer?⟩ ∧
      wp R G (k ()) Q ℓ.closed (applyAll ℓ.pending σ') t' := Iff.rfl

/-- What is ready to take its next instruction stays so while the rely changes
the store and time passes. -/
theorem wp_drift {p : Prog Store Write Res ε α} (ready : wp R G p Q ℓ σ t)
    (running : p.upcoming ≠ .done) (drift : Drift R ℓ p.upcoming σ σ') (later : t ≤ t') :
    wp R G p Q ℓ σ' t' := by
  cases p with
  | ret a => exact absurd rfl running
  | fail e => exact absurd rfl running
  | begin iso p => exact fun σ₂ t₂ d after => ready σ₂ t₂ (drift.trans d) (Int.le_trans later after)
  | stmt s k => exact fun σ₂ t₂ d after => ready σ₂ t₂ (drift.trans d) (Int.le_trans later after)
  | auto iso s k => exact fun σ₂ t₂ d after => ready σ₂ t₂ (drift.trans d) (Int.le_trans later after)
  | commit p => exact fun σ₂ t₂ d after => ready σ₂ t₂ (drift.trans d) (Int.le_trans later after)

/-- The commit a step is, if it is one. -/
def Move.commit (m : Move Store Write Res ε α) (σ : Store) : Commit Store Write Res ε α :=
  ⟨m.under, m.loc.seen, m.writes, σ, m.next.answer?⟩

/-- A step of a program that is ready commits its guarantee, or writes nothing,
and leaves the rest of it ready. -/
theorem wp_move {p : Prog Store Write Res ε α} (ready : wp R G p Q ℓ σ t)
    (moves : p.move t σ ℓ = some m) :
    (m.commits = true → G (m.commit σ)) ∧ (m.commits = false → m.writes = []) ∧
      wp R G m.next Q m.loc (applyAll m.writes σ) t := by
  cases p with
  | ret a => cases moves
  | fail e => cases moves
  | begin iso p =>
    cases moves
    exact ⟨nofun, fun _ => rfl, ready σ t .refl (Int.le_refl t)⟩
  | stmt s k =>
    cases moves
    exact ⟨nofun, fun _ => rfl, ready σ t .refl (Int.le_refl t)⟩
  | auto iso s k =>
    cases moves
    obtain ⟨commits, rest⟩ := ready σ t .refl (Int.le_refl t)
    exact ⟨fun writes => commits (by simpa using writes), fun none => by simpa using none, rest⟩
  | commit p =>
    cases moves
    obtain ⟨commits, rest⟩ := ready σ t .refl (Int.le_refl t)
    exact ⟨fun _ => commits, nofun, rest⟩

end

/-! ### From programs to runs -/

private theorem reached_answered {c c' : Call} {ℓ ℓ' : Local Store Write Res}
    {p : Prog Store Write Res ε α} {r : Except ε α} {R : Rely Store Write Res}
    {G : Guar Store Write Res ε α} {Q : Post Store Write Res ε α}
    (same : Session.reached c ℓ p = ⟨c', ℓ', .answered r⟩) (ready : wp R G p Q ℓ σ t) :
    c' = c ∧ ℓ' = ℓ.closed ∧ Q r ℓ σ t := by
  cases p <;> cases same <;> exact ⟨rfl, rfl, ready⟩

variable [DecidableEq Res]

/-- Every call's program is verified, every guaranteed change keeps the
invariant and is one every session with room for its locks relies on. -/
structure Verified (service : Call → Prog Store Write Res ε α) (Inv : Store → Prop)
    (R : Rely Store Write Res) (G : Call → Guar Store Write Res ε α) : Prop where
  program : ∀ c σ t, Inv σ → wp R (G c) (service c) (fun _ _ _ _ => True) .fresh σ t
  keeps : ∀ c k, Inv k.store → G c k → Inv k.result
  relied : ∀ ℓ n c k, Inv k.store → ℓ.admits k.under → G c k → R ℓ n k.store k.result

/-- The rely of a service that is verified for no more than its guarantees:
the commits of its calls under locks that leave room for the session's. -/
def Interferes (Inv : Store → Prop) (G : Call → Guar Store Write Res ε α) :
    Rely Store Write Res := fun ℓ _ σ σ' =>
  ∃ c k, Inv σ ∧ ℓ.admits k.under ∧ G c k ∧ k.store = σ ∧ k.result = σ'

theorem verified_of_interferes {service : Call → Prog Store Write Res ε α} {Inv : Store → Prop}
    {G : Call → Guar Store Write Res ε α}
    (program : ∀ c σ t, Inv σ →
      wp (Interferes Inv G) (G c) (service c) (fun _ _ _ _ => True) .fresh σ t)
    (keeps : ∀ c k, Inv k.store → G c k → Inv k.result) :
    Verified service Inv (Interferes Inv G) G :=
  ⟨program, keeps, fun _ _ c k inv room guar => ⟨c, k, inv, room, guar, rfl, rfl⟩⟩

namespace System

/-- The store changes by the commit `k` of session `i`, one its call
guarantees, under locks that leave room to every other session. -/
structure Commits (Inv : Store → Prop) (G : Call → Guar Store Write Res ε α)
    (S : System Call Store Write Res ε α) (i : Nat) (c : Call)
    (k : Commit Store Write Res ε α) : Prop where
  inv : Inv k.store
  guar : G c k
  store : k.store = S.store
  admitted : ∀ (j : Nat) (s : Session Call Store Write Res ε α), S.sessions[j]? = some s →
    j ≠ i → s.loc.admits k.under

/-- Every running session satisfies its own precondition. -/
def Ready (R : Rely Store Write Res) (G : Call → Guar Store Write Res ε α)
    (Q : Call → Post Store Write Res ε α) (watched : Call → Prop)
    (S : System Call Store Write Res ε α) : Prop :=
  ∀ (i : Nat) c ℓ p, S.sessions[i]? = some ⟨c, ℓ, .running p⟩ → watched c →
    p.upcoming ≠ .done ∧ wp R (G c) p (Q c) ℓ S.store S.clock

/-- What a step does to the sessions it is not a step of. -/
def Bears (R : Rely Store Write Res) (watched : Call → Prop)
    (S : System Call Store Write Res ε α) (a : Action Call)
    (S' : System Call Store Write Res ε α) : Prop :=
  ∀ (i : Nat) c ℓ p, S.sessions[i]? = some ⟨c, ℓ, .running p⟩ → watched c →
    a ≠ .run i → a ≠ .lose i → S'.store = S.store ∨ R ℓ p.upcoming S.store S'.store

section
variable {service : Call → Prog Store Write Res ε α} {R : Rely Store Write Res}
  {G : Call → Guar Store Write Res ε α} {Q : Call → Post Store Write Res ε α} {watched : Call → Prop}
  {S S' : System Call Store Write Res ε α}

/-- Sessions stay ready through a step that bears on them only as they rely on. -/
theorem Ready.step (ready : S.Ready R G Q watched) (step : S.step service a = some S')
    (bears : Bears R watched S a S')
    (program : ∀ c, a = .call c → watched c → wp R (G c) (service c) (Q c) .fresh S.store S.clock) :
    S'.Ready R G Q watched := by
  intro i c ℓ p there watching
  cases turn_of_step step there with
  | kept here notRun notLost =>
    obtain ⟨running, before⟩ := ready i c ℓ p here watching
    refine ⟨running, wp_drift before running ?_ (clock_le_of_step step)⟩
    rcases bears i c ℓ p here watching notRun notLost with same | change
    · rw [same]
      exact .refl
    · exact .single change
  | arrived absent call store clock new =>
    obtain ⟨rfl, rfl, rfl, running⟩ := Session.reached_running new.symm
    rw [store, clock]
    exact ⟨running, program _ call watching⟩
  | ran advances run whole new =>
    obtain ⟨rfl, rfl, rfl, running⟩ := Session.reached_running new.symm
    obtain ⟨_, before⟩ := ready _ _ _ _ advances.here watching
    rw [whole]
    exact ⟨running, (wp_move before advances.moves).2.2⟩
  | ended here gone call => cases gone

/-- An answer given in a step meets the postcondition at that moment. -/
theorem Ready.answer {i : Nat} (ready : S.Ready R G Q watched) (step : S.step service a = some S')
    (program : ∀ c, a = .call c → watched c → wp R (G c) (service c) (Q c) .fresh S.store S.clock)
    (there : S'.sessions[i]? = some ⟨c, ℓ, .answered r⟩)
    (new : S.sessions[i]? ≠ some ⟨c, ℓ, .answered r⟩) (watching : watched c) :
    ∃ ℓ₀, ℓ = ℓ₀.closed ∧ Q c r ℓ₀ S'.store S'.clock := by
  cases turn_of_step step there with
  | kept here => exact absurd here new
  | @arrived c' absent call store clock new =>
    obtain rfl : c = c' := by cases h : service c' <;> rw [h] at new <;> cases new <;> rfl
    obtain ⟨_, rfl, post⟩ := reached_answered new.symm (program c call watching)
    rw [store, clock]
    exact ⟨_, rfl, post⟩
  | @ran c' ℓ' p m advances run whole new =>
    obtain rfl : c = c' := by cases h : m.next <;> rw [h] at new <;> cases new <;> rfl
    obtain ⟨_, before⟩ := ready _ _ _ _ advances.here watching
    obtain ⟨_, rfl, post⟩ := reached_answered new.symm (wp_move before advances.moves).2.2
    rw [whole]
    exact ⟨_, rfl, post⟩
  | ended here gone call => cases gone

/-- A state of a verified service: the locks are in order, the invariant holds
and every session is ready to go on. -/
structure Sound (Inv : Store → Prop) (R : Rely Store Write Res)
    (G : Call → Guar Store Write Res ε α) (S : System Call Store Write Res ε α) : Prop where
  ordered : S.Ordered
  inv : Inv S.store
  ready : S.Ready R G (fun _ _ _ _ _ => True) fun _ => True

/-- What a step of a run does to the store. -/
inductive Change (Inv : Store → Prop) (G : Call → Guar Store Write Res ε α)
    (S : System Call Store Write Res ε α) (a : Action Call)
    (S' : System Call Store Write Res ε α) : Prop where
  | none (store : S'.store = S.store) (log : S'.log = S.log)
  | commit (advances : S.Advances i c ℓ p m) (acts : a = .run i ∨ a = .lose i)
      (lands : m.commits = true) (store : S'.store = (m.commit S.store).result)
      (log : S'.log = S.log ++ [c]) (commits : S.Commits Inv G i c (m.commit S.store))

private theorem change_of_advances {Inv : Store → Prop} (sound : S.Sound Inv R G)
    (advances : S.Advances i c ℓ p m) (acts : a = .run i ∨ a = .lose i) :
    Change Inv G S a (S.moved i c m s) := by
  obtain ⟨_, ready⟩ := sound.ready i c ℓ p advances.here trivial
  obtain ⟨guar, same, _⟩ := wp_move ready advances.moves
  cases lands : m.commits with
  | false => exact .none (by simp [moved, same lands]) (by simp [moved, lands])
  | true =>
    refine .commit advances acts lands rfl (by simp [moved, lands])
      ⟨sound.inv, guar lands, rfl, ?_⟩
    exact fun j s there other => under_admitted sound.ordered advances there other

theorem Sound.change {Inv : Store → Prop} (sound : S.Sound Inv R G)
    (step : S.step service a = some S') : Change Inv G S a S' := by
  cases steps_of_step step with
  | call c => exact .none rfl rfl
  | run advances => exact change_of_advances sound advances (Or.inl rfl)
  | lose advances => exact change_of_advances sound advances (Or.inr rfl)
  | drop here => exact .none rfl rfl
  | tick seconds => exact .none rfl rfl

/-- A change bears on the other sessions only through locks they leave room
for. -/
theorem Change.bears {Inv : Store → Prop} (change : Change Inv G S a S')
    (relied : ∀ (i j : Nat) c c' ℓ ℓ' p p' m, S.sessions[j]? = some ⟨c', ℓ', .running p'⟩ →
      watched c' → j ≠ i → S.Advances i c ℓ p m → a = .run i ∨ a = .lose i → m.commits = true →
      S'.store = (m.commit S.store).result → ℓ'.admits m.under →
      S.Commits Inv G i c (m.commit S.store) → R ℓ' p'.upcoming S.store S'.store) :
    Bears R watched S a S' := by
  intro j c' ℓ' p' here watching notRun notLost
  cases change with
  | none same => exact Or.inl same
  | @commit i c ℓ p m advances acts lands store log commits =>
    have other : j ≠ i := by
      rintro rfl
      rcases acts with run | lost
      · exact notRun run
      · exact notLost lost
    exact Or.inr (relied i j c c' ℓ ℓ' p p' m here watching other advances acts lands store
      (commits.admitted j _ here other) commits)

/-- Every step of a verified service keeps the state sound. -/
theorem Sound.step {Inv : Store → Prop} (verified : Verified service Inv R G)
    (sound : S.Sound Inv R G) (step : S.step service a = some S') : S'.Sound Inv R G := by
  have change := sound.change step
  refine ⟨sound.ordered.step step, ?_, ?_⟩
  · cases change with
    | none same => exact same ▸ sound.inv
    | commit _ _ _ store _ commits =>
      exact store ▸ verified.keeps _ _ commits.inv commits.guar
  · refine sound.ready.step step (change.bears ?_) fun c _ _ => verified.program c _ _ sound.inv
    intro i j c c' ℓ ℓ' p p' m _ _ _ _ _ _ store room commits
    rw [store]
    exact verified.relied ℓ' _ c _ commits.inv room commits.guar

theorem sound_start {Inv : Store → Prop} (inv : Inv σ) :
    (start σ now : System Call Store Write Res ε α).Sound Inv R G :=
  ⟨ordered_start, inv, by simp [start, Ready]⟩

/-- Every state a verified service reaches is sound. -/
theorem Reaches.sound {Inv : Store → Prop}
    {cond : System Call Store Write Res ε α → Action Call → System Call Store Write Res ε α → Prop}
    (verified : Verified service Inv R G) (start : S₀.Sound Inv R G)
    (reached : Reaches service cond S₀ S) : S.Sound Inv R G :=
  reached.invariant start fun _ _ _ _ sound step _ => sound.step verified step

/-- Calls verified again, for their answers and for more about their commits,
under a rely that the condition on the steps of a run may make finer than the
one of the service. -/
structure Watched (service : Call → Prog Store Write Res ε α) (Inv : Store → Prop)
    (R : Rely Store Write Res) (G : Call → Guar Store Write Res ε α)
    (cond : System Call Store Write Res ε α → Action Call →
      System Call Store Write Res ε α → Prop)
    (watched : Call → Prop) (R₂ : Rely Store Write Res) (G₂ : Call → Guar Store Write Res ε α)
    (Q : Call → Post Store Write Res ε α) : Prop where
  program : ∀ c, watched c → ∀ σ t, Inv σ → wp R₂ (G₂ c) (service c) (Q c) .fresh σ t
  relied : ∀ (S : System Call Store Write Res ε α) (a : Action Call)
    (S' : System Call Store Write Res ε α) (i j : Nat) (c c' : Call)
    (ℓ' : Local Store Write Res) (p' : Prog Store Write Res ε α)
    (k : Commit Store Write Res ε α),
    S.Sound Inv R G → S.step service a = some S' → cond S a S' →
    S.sessions[j]? = some ⟨c', ℓ', .running p'⟩ → watched c' →
    j ≠ i ∧ S'.sessions[j]? = S.sessions[j]? →
    (∃ ℓ p, S.sessions[i]? = some ⟨c, ℓ, .running p⟩) → S'.store = k.result →
    ℓ'.admits k.under → S.Commits Inv G i c k → (watched c → G₂ c k) →
    R₂ ℓ' p'.upcoming S.store S'.store

section
variable {Inv : Store → Prop} {R₂ : Rely Store Write Res}
  {G₂ : Call → Guar Store Write Res ε α}
  {cond : System Call Store Write Res ε α → Action Call → System Call Store Write Res ε α → Prop}

/-- Calls are watched under the rely of the service itself. -/
theorem watched_of_verified (verified : Verified service Inv R G)
    (program : ∀ c, watched c → ∀ σ t, Inv σ → wp R (G₂ c) (service c) (Q c) .fresh σ t) :
    Watched service Inv R G cond watched R G₂ Q := by
  refine ⟨program, ?_⟩
  intro S a S' i j c c' ℓ' p' k _ _ _ _ _ _ _ store room commits _
  rw [store, ← commits.store]
  exact verified.relied ℓ' _ c k commits.inv room commits.guar

/-- Watched sessions stay ready through the whole run. -/
theorem Reaches.ready_watched (verified : Verified service Inv R G)
    (watch : Watched service Inv R G cond watched R₂ G₂ Q) (start : S₀.Sound Inv R G)
    (none : S₀.sessions = []) (reached : Reaches service cond S₀ S) :
    S.Ready R₂ G₂ Q watched := by
  refine reached.invariant ?_ ?_
  · simp [Ready, none]
  · intro S a S' before ready step holds
    have sound := before.sound verified start
    refine ready.step step ((sound.change step).bears ?_) ?_
    · intro i j c c' ℓ ℓ' p p' m here watching other advances acts lands store room commits
      refine watch.relied S a S' i j c c' ℓ' p' _ sound step holds here watching
        ⟨other, sessions_of_step step acts other⟩ ⟨ℓ, p, advances.here⟩ store room commits fun acting => ?_
      exact (wp_move (ready i c ℓ p advances.here acting).2 advances.moves).1 lands
    · exact fun c _ watching => watch.program c watching _ _ sound.inv

/-- Every new answer was given at some moment of the run. -/
theorem Reaches.answered {i : Nat} (reached : Reaches service cond S₀ S)
    (there : S.sessions[i]? = some ⟨c, ℓ, .answered r⟩)
    (unanswered : S₀.sessions[i]? ≠ some ⟨c, ℓ, .answered r⟩) :
    ∃ S₁ a S₂, Reaches service cond S₀ S₁ ∧ S₁.step service a = some S₂ ∧ cond S₁ a S₂ ∧
      S₂.sessions[i]? = some ⟨c, ℓ, .answered r⟩ ∧
      S₁.sessions[i]? ≠ some ⟨c, ℓ, .answered r⟩ ∧ Reaches service cond S₂ S := by
  induction reached with
  | refl => exact absurd there unanswered
  | @step S a S' before step holds ih =>
    by_cases already : S.sessions[i]? = some ⟨c, ℓ, .answered r⟩
    · obtain ⟨S₁, b, S₂, first, taken, met, given, new, rest⟩ := ih already
      exact ⟨S₁, b, S₂, first, taken, met, given, new, rest.step step holds⟩
    · exact ⟨S, a, S', before, step, holds, there, already, .refl⟩

/-- Every new answer of a watched call met its postcondition at the moment it
was given. -/
theorem Reaches.postcondition {i : Nat} (verified : Verified service Inv R G)
    (watch : Watched service Inv R G cond watched R₂ G₂ Q) (start : S₀.Sound Inv R G)
    (none : S₀.sessions = []) (before : Reaches service cond S₀ S)
    (reached : Reaches service cond S S')
    (there : S'.sessions[i]? = some ⟨c, ℓ, .answered r⟩)
    (unanswered : S.sessions[i]? ≠ some ⟨c, ℓ, .answered r⟩) (watching : watched c) :
    ∃ S₁ a S₂ ℓ₀, Reaches service cond S S₁ ∧ S₁.step service a = some S₂ ∧ cond S₁ a S₂ ∧
      S₂.sessions[i]? = some ⟨c, ℓ, .answered r⟩ ∧ ℓ = ℓ₀.closed ∧
      Q c r ℓ₀ S₂.store S₂.clock ∧ Reaches service cond S₂ S' := by
  obtain ⟨S₁, a, S₂, first, step, holds, given, new, rest⟩ := reached.answered there unanswered
  have sound := (before.trans first).sound verified start
  have ready := (before.trans first).ready_watched verified watch start none
  obtain ⟨ℓ₀, closed, post⟩ := ready.answer step (fun c _ watching =>
    watch.program c watching _ _ sound.inv) given new watching
  exact ⟨S₁, a, S₂, ℓ₀, first, step, holds, given, closed, post, rest⟩

end

end

end System

end

end Txn
