import IamDb.Txn.Alone

/-! Sessions that wait in a circle. What a session holds and is about to claim,
at every point it comes to, is an assertion that can be proved one program at a
time, like a weakest precondition; and sessions that stand as said can be shown
never to close a circle. -/
namespace Txn

section
variable {Call Store Write Res ε α : Type} [Locking Write Res]

/-- What is said of a session that is about to claim locks. -/
abbrev Stance (Store Write Res : Type) : Type :=
  Local Store Write Res → Store → List (Claim Res) → Prop

/-- What is said of the moment at which a session runs an instruction. -/
abbrev Instant (Store Write Res : Type) [Locking Write Res] : Type 1 :=
  Local Store Write Res → Next Store Write Res → Store → Int → Prop

/-- A statement that claims nothing writes nothing. -/
theorem Unclaiming.reads {s : Statement Store Write Res ρ} (silent : Unclaiming ρ s) (now : Int)
    (σ : Store) : (s.exec now σ).2 = [] := by
  refine List.eq_nil_iff_forall_not_mem.mpr fun w write => ?_
  have claim := s.covered now .readCommitted σ w write
  rw [silent] at claim
  cases claim

variable [Writes Store Write]

/-- Before every instruction of the program, while other sessions change the
store as the rely allows, the session stands as said. The statements of its
transaction it runs at the moments given only, and what it ends with meets the
postcondition; of a failure nothing is asked. -/
def along (R : Rely Store Write Res) (ok : Instant Store Write Res) (I : Stance Store Write Res) :
    Prog Store Write Res ε α → (α → Local Store Write Res → Store → Prop) →
      Local Store Write Res → Store → Prop
  | .ret a, Q, ℓ, σ => Q a ℓ σ
  | .fail _, _, _, _ => True
  | .begin iso p, Q, ℓ, σ => ∀ σ', Drift R ℓ (.start iso) σ σ' →
      I ℓ σ' [] ∧ along R ok I p Q (ℓ.opened iso) σ'
  | .stmt s k, Q, ℓ, σ => ∀ σ' now, Drift R ℓ (.stmt s) σ σ' →
      I ℓ σ' (s.claims now ℓ.iso (ℓ.view s σ')) ∧
      (ok ℓ (.stmt s) σ' now →
        along R ok I (k (s.exec now (ℓ.view s σ')).1) Q (ℓ.after s σ' now) σ')
  | .auto iso s k, Q, ℓ, σ => ∀ σ' now, Drift R ℓ (.auto s) σ σ' →
      I ℓ σ' (s.claims now iso σ') ∧
      along R ok I (k (s.exec now σ').1) Q (ℓ.afterAuto iso s σ' now)
        (applyAll (s.exec now σ').2 σ')
  | .commit p, Q, ℓ, σ => ∀ σ', Drift R ℓ .commit σ σ' →
      I ℓ σ' [] ∧ along R ok I p Q ℓ.closed (applyAll ℓ.pending σ')

section
variable {R : Rely Store Write Res} {ok : Instant Store Write Res} {I : Stance Store Write Res}
  {Q : α → Local Store Write Res → Store → Prop} {ℓ : Local Store Write Res}

@[simp] theorem along_pure :
    along R ok I (pure a : Prog Store Write Res ε α) Q ℓ σ ↔ Q a ℓ σ := Iff.rfl

@[simp] theorem along_fail : along R ok I (.fail e : Prog Store Write Res ε α) Q ℓ σ := trivial

theorem along_query {s : Statement Store Write Res ρ} {k : ρ → Prog Store Write Res ε α} :
    along R ok I (Prog.query s >>= k) Q ℓ σ ↔ ∀ σ' now, Drift R ℓ (.stmt s) σ σ' →
      I ℓ σ' (s.claims now ℓ.iso (ℓ.view s σ')) ∧
      (ok ℓ (.stmt s) σ' now →
        along R ok I (k (s.exec now (ℓ.view s σ')).1) Q (ℓ.after s σ' now) σ') := Iff.rfl

theorem along_start {k : Unit → Prog Store Write Res ε α} :
    along R ok I (Prog.start iso >>= k) Q ℓ σ ↔ ∀ σ', Drift R ℓ (.start iso) σ σ' →
      I ℓ σ' [] ∧ along R ok I (k ()) Q (ℓ.opened iso) σ' := Iff.rfl

/-- A program followed by another, through what holds between them. -/
theorem along_bind {p : Prog Store Write Res ε α} {f : α → Prog Store Write Res ε β}
    {Q : β → Local Store Write Res → Store → Prop}
    (first : along R ok I p (fun a ℓ σ => along R ok I (f a) Q ℓ σ) ℓ σ) :
    along R ok I (p >>= f) Q ℓ σ := by
  induction p generalizing ℓ σ with
  | ret a => exact first
  | fail e => trivial
  | begin iso p ih => exact fun σ' d => (first σ' d).imp id ih
  | stmt s k ih => exact fun σ' now d => (first σ' now d).imp id fun rest now => ih _ (rest now)
  | auto iso s k ih => exact fun σ' now d => (first σ' now d).imp id (ih _)
  | commit p ih => exact fun σ' d => (first σ' d).imp id ih

theorem along_lift {d : Except ε β} {f : β → Prog Store Write Res ε α}
    (rest : ∀ b, along R ok I (f b) Q ℓ σ) : along R ok I (Prog.lift d >>= f) Q ℓ σ := by
  cases d with
  | error e => trivial
  | ok b => exact rest b

/-- A program that claims nothing, whatever its session holds. -/
theorem along_unclaiming {p : Prog Store Write Res ε α} (still : ∀ ℓ σ, I ℓ σ [])
    (each : p.Each Unclaiming) (post : ∀ a ℓ σ, Q a ℓ σ) : along R ok I p Q ℓ σ := by
  induction p generalizing ℓ σ with
  | ret a => exact post _ _ _
  | fail e => trivial
  | begin iso p ih => exact fun σ' _ => ⟨still _ _, ih each⟩
  | stmt s k ih =>
    intro σ' now _
    rw [each.1]
    exact ⟨still _ _, fun _ => ih _ (each.2 _)⟩
  | auto iso s k ih =>
    intro σ' now _
    rw [each.1]
    exact ⟨still _ _, ih _ (each.2 _)⟩
  | commit p ih => exact fun σ' _ => ⟨still _ _, ih each⟩

/-- A program of single statements: its session never holds a lock. -/
theorem along_loose {p : Prog Store Write Res ε α}
    (free : ∀ ℓ σ claims, ℓ.held = [] → I ℓ σ claims) (loose : p.Loose) (none : ℓ.held = [])
    (post : ∀ a ℓ σ, ℓ.held = [] → Q a ℓ σ) : along R ok I p Q ℓ σ := by
  induction p generalizing ℓ σ with
  | ret a => exact post _ _ _ none
  | fail e => trivial
  | auto iso s k ih => exact fun σ' now _ => ⟨free _ _ _ none, ih _ (loose _) none⟩
  | _ => cases loose

/-- The statements of a transaction, through what each of them keeps. -/
theorem along_inner {D : Local Store Write Res → Store → Prop}
    {C : ∀ ρ : Type, Statement Store Write Res ρ → Prop} {p : Prog Store Write Res ε α}
    (inner : p.Inner) (each : p.Each C) (here : D ℓ σ)
    (kept : ∀ ℓ n σ σ', D ℓ σ → Drift R ℓ n σ σ' → D ℓ σ')
    (one : ∀ ρ (s : Statement Store Write Res ρ) ℓ σ now, C ρ s → D ℓ σ →
      I ℓ σ (s.claims now ℓ.iso (ℓ.view s σ)) ∧ D (ℓ.after s σ now) σ)
    (post : ∀ a ℓ σ, D ℓ σ → Q a ℓ σ) : along R ok I p Q ℓ σ := by
  induction p generalizing ℓ σ with
  | ret a => exact post _ _ _ here
  | fail e => trivial
  | stmt s k ih =>
    intro σ' now drift
    obtain ⟨stands, next⟩ := one _ s ℓ σ' now each.1 (kept _ _ _ _ here drift)
    exact ⟨stands, fun _ => ih _ (inner _) (each.2 _) next⟩
  | _ => cases inner

/-- What stands at its next instruction does so while others change the store. -/
theorem along_drift {p : Prog Store Write Res ε α} (stands : along R ok I p Q ℓ σ)
    (running : p.upcoming ≠ .done) (drift : Drift R ℓ p.upcoming σ σ') :
    along R ok I p Q ℓ σ' := by
  cases p with
  | ret a => exact absurd rfl running
  | fail e => exact absurd rfl running
  | begin iso p => exact fun σ₂ d => stands σ₂ (drift.trans d)
  | stmt s k => exact fun σ₂ now d => stands σ₂ now (drift.trans d)
  | auto iso s k => exact fun σ₂ now d => stands σ₂ now (drift.trans d)
  | commit p => exact fun σ₂ d => stands σ₂ (drift.trans d)

/-- A session that takes a step stands as said before it, and after it too. -/
theorem along_move {p : Prog Store Write Res ε α} (stands : along R ok I p Q ℓ σ)
    (moves : p.move now σ ℓ = some m) :
    I ℓ σ m.claims ∧
      (ok ℓ p.upcoming σ now → along R ok I m.next Q m.loc (applyAll m.writes σ)) := by
  cases p with
  | ret a => cases moves
  | fail e => cases moves
  | begin iso p =>
    cases moves
    exact (stands σ .refl).imp id fun rest _ => rest
  | stmt s k =>
    cases moves
    exact stands σ now .refl
  | auto iso s k =>
    cases moves
    exact (stands σ now .refl).imp id fun rest _ => rest
  | commit p =>
    cases moves
    exact (stands σ .refl).imp id fun rest _ => rest

end

namespace System

variable [DecidableEq Res] {service : Call → Prog Store Write Res ε α} {Inv : Store → Prop}
  {R : Rely Store Write Res} {G : Call → Guar Store Write Res ε α}
  {ok : Instant Store Write Res} {I : Stance Store Write Res}
  {cond : System Call Store Write Res ε α → Action Call → System Call Store Write Res ε α → Prop}
  {S₀ S S' : System Call Store Write Res ε α}

/-- In a run whose calls are among those whose programs stand as said, and
whose statements run at the moments given, every session does. -/
theorem Reaches.along {W : Call → Prop} (verified : Verified service Inv R G)
    (start : S₀.Sound Inv R G) (none : S₀.sessions = [])
    (program : ∀ c σ, W c → Inv σ → along R ok I (service c) (fun _ _ _ => True) .fresh σ)
    (arrives : ∀ S c S', cond S (.call c) S' → W c)
    (moments : ∀ S i S' c ℓ p m, cond S (.run i) S' → S.Advances i c ℓ p m →
      ok ℓ p.upcoming S.store S.clock)
    (reached : Reaches service cond S₀ S) {i : Nat}
    (there : S.sessions[i]? = some ⟨c, ℓ, .running p⟩) :
    p.upcoming ≠ .done ∧ Txn.along R ok I p (fun _ _ _ => True) ℓ S.store := by
  induction reached generalizing i c ℓ p with
  | refl =>
    rw [none] at there
    cases there
  | @step S a S' before step met ih =>
    have sound := before.sound verified start
    cases turn_of_step step there with
    | kept here notRun notLost =>
      obtain ⟨running, stands⟩ := ih here
      have bears : Bears R (fun _ => True) S a S' := by
        refine (sound.change step).bears ?_
        intro i j c c' ℓ ℓ' p p' m _ _ _ _ _ _ store room commits
        rw [store]
        exact verified.relied ℓ' _ c _ commits.inv room commits.guar
      refine ⟨running, along_drift stands running ?_⟩
      rcases bears i c ℓ p here trivial notRun notLost with same | change
      · rw [same]
        exact .refl
      · exact .single change
    | arrived _ call store _ new =>
      obtain ⟨rfl, rfl, rfl, running⟩ := Session.reached_running new.symm
      rw [store]
      exact ⟨running, program _ _ (arrives S _ S' (call ▸ met)) sound.inv⟩
    | ran advances run whole new =>
      obtain ⟨rfl, rfl, rfl, running⟩ := Session.reached_running new.symm
      obtain ⟨_, stands⟩ := ih advances.here
      rw [whole]
      exact ⟨running, (along_move stands advances.moves).2
        (moments S _ S' _ _ _ _ (run ▸ met) advances)⟩
    | ended _ gone => cases gone

/-! ### Circles -/

/-- A session waits for itself, by way of others. -/
def Circular (S : System Call Store Write Res ε α) (i : Nat) : Prop :=
  Relation.TransGen (fun i j => ∃ r, S.waits i j r = true) i i

/-- There is no circle where every session that is waited for, and waits itself,
ranks above the one that waits for it. -/
theorem not_circular {f : Nat → Nat} {i : Nat}
    (rises : ∀ (i j k : Nat) r r', S.waits i j r = true → S.waits j k r' = true → f i < f j) :
    ¬S.Circular i := by
  intro circular
  have climbs {j : Nat} (path : Relation.TransGen (fun i j => ∃ r, S.waits i j r = true) i j) :
      (∃ k r, S.waits j k r = true) → f i < f j := by
    induction path with
    | single waits =>
      rintro ⟨k, r', on⟩
      obtain ⟨r, waits⟩ := waits
      exact rises _ _ _ _ _ waits on
    | tail _ waits ih =>
      rintro ⟨k, r', on⟩
      obtain ⟨r, waits⟩ := waits
      exact Nat.lt_trans (ih ⟨_, r, waits⟩) (rises _ _ _ _ _ waits on)
  obtain ⟨j, ⟨r, waits⟩, _⟩ := Relation.TransGen.head'_iff.mp circular
  exact Nat.lt_irrefl _ (climbs circular ⟨j, r, waits⟩)

/-- Nor where a session's rank can be told from what it holds and is about to
claim. -/
theorem Ordered.not_circular {R : Nat → Stance Store Write Res} (ordered : S.Ordered)
    (ranked : ∀ (i : Nat) c ℓ p m, S.sessions[i]? = some ⟨c, ℓ, .running p⟩ →
      p.move S.clock S.store ℓ = some m → ∃ n, R n ℓ S.store m.claims)
    (rises : ∀ n n' ℓ ℓ' claims claims' k g, R n ℓ S.store claims → R n' ℓ' S.store claims' →
      ℓ.admits ℓ'.held → k ∈ claims → g ∈ ℓ'.held →
      k.lock.res = g.lock.res → claims' ≠ [] → n < n') {i : Nat} : ¬S.Circular i := by
  classical
  -- The rank of a session is one of those it stands at.
  let Stood (i n : Nat) : Prop := ∃ c ℓ p m, S.sessions[i]? = some ⟨c, ℓ, .running p⟩ ∧
    p.move S.clock S.store ℓ = some m ∧ R n ℓ S.store m.claims
  let height (i : Nat) : Nat := if stood : ∃ n, Stood i n then stood.choose else 0
  have stood {i j : Nat} {r} (waits : S.waits i j r = true) : Stood i (height i) := by
    obtain ⟨c, ℓ, p, _, _, _, wait⟩ := waits_cases waits
    obtain ⟨m, moves, _⟩ := wait.claim
    obtain ⟨n, rank⟩ := ranked i c ℓ p m wait.here moves
    have some : ∃ n, Stood i n := ⟨n, c, ℓ, p, m, wait.here, moves, rank⟩
    simp only [height, dif_pos some]
    exact some.choose_spec
  refine System.not_circular (f := height) fun i j k r r' waits on => ?_
  obtain ⟨c, ℓ, p, m, here, moves, at_i⟩ := stood waits
  obtain ⟨c', ℓ', p', m', there, moves', at_j⟩ := stood on
  obtain ⟨_, _, _, _, claim, g, wait⟩ := waits_cases waits
  obtain ⟨_, _, _, _, _, _, wait'⟩ := waits_cases on
  cases Option.some.inj (here.symm.trans wait.here)
  cases Option.some.inj (there.symm.trans wait.there)
  obtain ⟨n, moves₀, claimed⟩ := wait.claim
  cases Option.some.inj (moves.symm.trans moves₀)
  cases Option.some.inj (there.symm.trans wait'.here)
  obtain ⟨n', moves₁, claimed'⟩ := wait'.claim
  cases Option.some.inj (moves'.symm.trans moves₁)
  refine rises _ _ ℓ ℓ' _ _ claim g at_i at_j
    (ordered.apart i j _ _ here there wait.other) claimed wait.held ?_ (List.ne_nil_of_mem claimed')
  exact wait.row.trans wait.same_row.symm

end System

end

end Txn
