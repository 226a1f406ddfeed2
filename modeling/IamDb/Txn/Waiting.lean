import IamDb.Txn.History

/-! Sessions that wait for one another. A session waits for every other that
holds a lock in the way of its next step, and takes the step when there is none.
A program that claims a row in one place only is at every point of a run before
that place, with no lock on the row, or past it. -/
namespace Txn

theorem Lock.conflicts_of_ne [DecidableEq Res] {a b : Lock Res} (other : a.res ≠ b.res) :
    a.conflicts b = false := by
  rw [Lock.conflicts, decide_eq_false other, Bool.false_and]

section
variable {Store Write Res ε α : Type} [Locking Write Res]

/-- A statement that leaves a row alone. -/
def Aside (r : Res) (ρ : Type) (s : Statement Store Write Res ρ) : Prop :=
  ∀ now iso σ, ∀ k ∈ s.claims now iso σ, k.lock.res ≠ r

/-- A session that holds no lock on a row and has not written it. -/
structure Local.Clear (ℓ : Local Store Write Res) (r : Res) : Prop where
  held : ∀ g ∈ ℓ.held, g.lock.res ≠ r
  pending : ∀ w ∈ ℓ.pending, Locking.res w ≠ r

theorem Local.clear_fresh (r : Res) : (.fresh : Local Store Write Res).Clear r :=
  ⟨nofun, nofun⟩

/-- What a session that has not written a row sees there is what is committed. -/
theorem Local.Clear.frame [Writes Store Write] {ℓ : Local Store Write Res} {f : Store → β}
    (clear : ℓ.Clear r)
    (outside : ∀ w : Write, Locking.res w ≠ r → ∀ σ, f (Writes.apply w σ) = f σ) (σ : Store) :
    f (applyAll ℓ.pending σ) = f σ :=
  applyAll_frame (fun w member => outside w (clear.pending w member)) σ

/-- What a step claims one of its statements claims. -/
theorem Prog.Each.claims [Writes Store Write] {Q : ∀ ρ : Type, Statement Store Write Res ρ → Prop}
    {p : Prog Store Write Res ε α} (each : p.Each Q) (moves : p.move now σ ℓ = some m)
    (claim : k ∈ m.claims) : ∃ (ρ : Type) (s : Statement Store Write Res ρ) (iso : Isolation)
      (σ' : Store), Q ρ s ∧ k ∈ s.claims now iso σ' := by
  cases p with
  | ret a => cases moves
  | fail e => cases moves
  | begin iso p => cases moves; cases claim
  | stmt s k => cases moves; exact ⟨_, s, _, _, each.1, claim⟩
  | auto iso s k => cases moves; exact ⟨_, s, _, _, each.1, claim⟩
  | commit p => cases moves; cases claim

/-- A program whose statements meet a condition until it has come to one of the
places named. -/
def Prog.Until (Q₁ : ∀ ρ : Type, Statement Store Write Res ρ → Prop)
    (Q : Prog Store Write Res ε α → Prop) : Prog Store Write Res ε α → Prop
  | ret _ => True
  | fail _ => True
  | begin iso p => Q (.begin iso p) ∨ p.Until Q₁ Q
  | stmt s k => Q (.stmt s k) ∨ Q₁ _ s ∧ ∀ r, (k r).Until Q₁ Q
  | auto iso s k => Q (.auto iso s k) ∨ Q₁ _ s ∧ ∀ r, (k r).Until Q₁ Q
  | commit p => Q (.commit p) ∨ p.Until Q₁ Q

namespace Prog
variable {Q₁ : ∀ ρ : Type, Statement Store Write Res ρ → Prop}
  {Q : Prog Store Write Res ε α → Prop}

theorem until_here (here : Q p) : p.Until Q₁ Q := by
  cases p with
  | ret a => trivial
  | fail e => trivial
  | _ => exact Or.inl here

theorem Each.until {p : Prog Store Write Res ε α} (each : p.Each Q₁) : p.Until Q₁ Q := by
  induction p with
  | ret a => trivial
  | fail e => trivial
  | begin iso p ih => exact Or.inr (ih each)
  | stmt s k ih => exact Or.inr ⟨each.1, fun r => ih r (each.2 r)⟩
  | auto iso s k ih => exact Or.inr ⟨each.1, fun r => ih r (each.2 r)⟩
  | commit p ih => exact Or.inr (ih each)

/-- Statements that meet the condition come before the places of the rest. -/
theorem Until.after {p : Prog Store Write Res ε β} {f : β → Prog Store Write Res ε α}
    (each : p.Each Q₁) (rest : ∀ b, (f b).Until Q₁ Q) : (p >>= f).Until Q₁ Q := by
  induction p with
  | ret b => exact rest b
  | fail e => trivial
  | begin iso p ih => exact Or.inr (ih each)
  | stmt s k ih => exact Or.inr ⟨each.1, fun r => ih r (each.2 r)⟩
  | auto iso s k ih => exact Or.inr ⟨each.1, fun r => ih r (each.2 r)⟩
  | commit p ih => exact Or.inr (ih each)

/-- A step before the place leaves the row alone. -/
theorem Until.move [Writes Store Write] {p : Prog Store Write Res ε α}
    (way : p.Until (Aside r) Q) (clear : ℓ.Clear r) (moves : p.move now σ ℓ = some m) :
    Q p ∨ m.next.Until (Aside r) Q ∧ m.loc.Clear r ∧ ∀ k ∈ m.claims, k.lock.res ≠ r := by
  cases p with
  | ret a => cases moves
  | fail e => cases moves
  | begin iso p =>
    cases moves
    exact way.imp_right fun rest => ⟨rest, ⟨nofun, nofun⟩, nofun⟩
  | stmt s k =>
    cases moves
    refine way.imp_right fun ⟨aside, rest⟩ => ⟨rest _, ⟨?_, ?_⟩, aside _ _ _⟩
    · intro g held
      rcases List.mem_append.mp held with old | new
      · exact clear.held g old
      · obtain ⟨k, member, same, _⟩ := mem_granted.mp new
        exact same ▸ aside _ _ _ k (List.mem_filter.mp member).1
    · intro w pending
      rcases List.mem_append.mp pending with old | new
      · exact clear.pending w old
      · exact aside _ _ _ _ (s.covered _ ℓ.iso _ w new)
  | auto iso s k =>
    cases moves
    exact way.imp_right fun ⟨aside, rest⟩ => ⟨rest _, ⟨clear.held, clear.pending⟩, aside _ _ _⟩
  | commit p =>
    cases moves
    exact way.imp_right fun rest => ⟨rest, ⟨nofun, nofun⟩, nofun⟩

end Prog

end

section
variable {Call Store Write Res ε α : Type} [Locking Write Res] [DecidableEq Res]
  [Writes Store Write] {service : Call → Prog Store Write Res ε α}
  {cond : System Call Store Write Res ε α → Action Call → System Call Store Write Res ε α → Prop}
  {S₀ S S' : System Call Store Write Res ε α}

namespace System

/-- Whether a lock of session `j` on a row is in the way of the next step of
session `i`. -/
def waits (S : System Call Store Write Res ε α) (i j : Nat) (r : Res) : Bool :=
  match S.sessions[i]?, S.sessions[j]? with
  | some ⟨_, ℓ, .running p⟩, some s =>
    match p.move S.clock S.store ℓ with
    | some m => i ≠ j && m.claims.any fun k =>
      k.lock.res = r && s.loc.held.any fun g => k.lock.conflicts g.lock
    | none => false
  | _, _ => false

/-- A wait: the claim, and the lock in its way. -/
structure Waits (S : System Call Store Write Res ε α) (i j : Nat) (r : Res) (c : Call)
    (ℓ : Local Store Write Res) (p : Prog Store Write Res ε α)
    (s : Session Call Store Write Res ε α) (k : Claim Res) (g : Grant Res) : Prop where
  other : i ≠ j
  here : S.sessions[i]? = some ⟨c, ℓ, .running p⟩
  there : S.sessions[j]? = some s
  claim : ∃ m, p.move S.clock S.store ℓ = some m ∧ k ∈ m.claims
  row : k.lock.res = r
  held : g ∈ s.loc.held
  conflict : k.lock.conflicts g.lock = true

theorem waits_cases {i j : Nat} (waits : S.waits i j r = true) :
    ∃ c ℓ p s k g, S.Waits i j r c ℓ p s k g := by
  unfold System.waits at waits
  split at waits
  · rename_i c ℓ p s here there
    split at waits
    · rename_i m moves
      simp only [ne_eq, decide_not, Bool.and_eq_true, Bool.not_eq_true', decide_eq_false_iff_not,
        List.any_eq_true, decide_eq_true_eq] at waits
      obtain ⟨other, k, claim, row, g, held, conflict⟩ := waits
      exact ⟨c, ℓ, p, s, k, g, other, here, there, ⟨m, moves, claim⟩, row, held, conflict⟩
    · cases waits
  · cases waits

/-- The lock in the way is on the row the claim is on. -/
theorem Waits.same_row {i j : Nat} (waits : S.Waits i j r c ℓ p s k g) : g.lock.res = r := by
  have conflict := waits.conflict
  simp only [Lock.conflicts, Bool.and_eq_true, decide_eq_true_eq] at conflict
  exact conflict.1.symm.trans waits.row

/-- A lock a session holds after a step it held before, or was granted by the
step. -/
theorem held_of_step {j : Nat} (step : S.step service a = some S')
    (there : S'.sessions[j]? = some s) (held : g ∈ s.loc.held) :
    (∃ s₀, S.sessions[j]? = some s₀ ∧ g ∈ s₀.loc.held) ∨
      ∃ c ℓ p m, a = .run j ∧ S.Advances j c ℓ p m ∧ ∃ k ∈ m.claims, k.lock = g.lock := by
  have released (s₀ : Session Call Store Write Res ε α) : g ∉ s₀.drop.loc.held := nofun
  cases turn_of_step step there with
  | kept here => exact Or.inl ⟨s, here, held⟩
  | @arrived c _ _ _ _ new =>
    rw [new] at held
    cases program : service c <;> rw [program] at held <;> cases held
  | @ran c ℓ p m advances run _ new =>
    have kept : g ∈ m.loc.held := by
      rw [new] at held
      cases next : m.next <;> rw [next] at held <;> first | exact held | cases held
    rcases (move_grants advances.moves).1 g (Or.inl kept) with old | ⟨_, claim⟩
    · exact Or.inl ⟨_, advances.here, old⟩
    · exact Or.inr ⟨c, ℓ, p, m, run, advances, claim⟩
  | ended here _ _ ceased =>
    have inside := (List.getElem?_eq_some_iff.mp here).1
    rcases ceased with rfl | rfl <;> cases steps_of_step step
    all_goals
      simp only [moved, List.getElem?_set_self inside, Option.some.injEq] at there
      exact absurd (there ▸ held) (released _)

/-- A step that claims one of the rows short of exclusively does so while no
other session holds a lock on it. -/
def Lone (rows : Res → Prop) (S : System Call Store Write Res ε α) (a : Action Call)
    (_ : System Call Store Write Res ε α) : Prop :=
  ∀ (i : Nat) c ℓ p m, a = .run i ∨ a = .lose i → S.Advances i c ℓ p m →
    ∀ k ∈ m.claims, rows k.lock.res → k.lock.mode ≠ .exclusive →
      ∀ (j : Nat) s, S.sessions[j]? = some s → j ≠ i → ∀ g ∈ s.loc.held, g.lock.res ≠ k.lock.res

/-- A check that a step is lone, whichever the rows. -/
def loneNow (S : System Call Store Write Res ε α) (a : Action Call)
    (_ : System Call Store Write Res ε α) : Bool :=
  match a with
  | .run i | .lose i =>
    match S.sessions[i]? with
    | some ⟨_, ℓ, .running p⟩ =>
      match p.move S.clock S.store ℓ with
      | some m => m.claims.all fun k => k.lock.mode = .exclusive ||
        S.sessions.zipIdx.all fun (s, j) => j = i || s.loc.held.all fun g => g.lock.res ≠ k.lock.res
      | none => true
    | _ => true
  | _ => true

theorem lone_of_now {rows : Res → Prop} (now : S.loneNow a S' = true) : Lone rows S a S' := by
  intro i c ℓ p m acts advances k claim _ mode j s there other g held
  have all : (m.claims.all fun k => k.lock.mode = .exclusive || S.sessions.zipIdx.all fun (s, j) =>
      j = i || s.loc.held.all fun g => g.lock.res ≠ k.lock.res) = true := by
    rcases acts with rfl | rfl
    all_goals
      simp only [loneNow, advances.here, advances.moves] at now
      exact now
  have alone := List.all_eq_true.mp all k claim
  rw [Bool.or_eq_true, decide_eq_true_eq] at alone
  have apart := List.all_eq_true.mp (alone.resolve_left mode) (s, j)
    (List.mem_zipIdx_iff_getElem?.mpr there)
  simp only [Bool.or_eq_true, decide_eq_true_eq] at apart
  exact of_decide_eq_true (List.all_eq_true.mp (apart.resolve_left other) g held)

/-- While every step is lone, no two sessions hold a lock on one of the rows. -/
theorem Reaches.lone {rows : Res → Prop} (none : S₀.sessions = [])
    (reached : Reaches service (Lone rows) S₀ S) {i j : Nat} (there : S.sessions[i]? = some s)
    (there' : S.sessions[j]? = some s') (other : i ≠ j) (held : g ∈ s.loc.held)
    (held' : g' ∈ s'.loc.held) (row : rows g.lock.res) : g'.lock.res ≠ g.lock.res := by
  induction reached generalizing i j s s' g g' with
  | refl =>
    rw [none] at there
    cases there
  | @step S a S' _ step lone ih =>
    -- A lock just granted is on a row the other session holds no lock on.
    have granted {i j : Nat} {s₀ : Session Call Store Write Res ε α} {g g' : Grant Res} {c ℓ p m}
        (acts : a = .run i) (advances : S.Advances i c ℓ p m)
        (claim : ∃ k ∈ m.claims, k.lock = g.lock) (there : S.sessions[j]? = some s₀)
        (held : g' ∈ s₀.loc.held) (other : j ≠ i) (row : rows g.lock.res) :
        g'.lock.res ≠ g.lock.res := by
      obtain ⟨k, claim, same⟩ := claim
      rw [← same] at row ⊢
      by_cases exclusive : k.lock.mode = .exclusive
      · intro rows
        have apart := advances.free j s₀ there other g' held k claim
        simp [Lock.conflicts, rows, exclusive, Mode.conflicts] at apart
      · exact lone i c ℓ p m (Or.inl acts) advances k claim row exclusive j s₀ there other g' held
    rcases held_of_step step there held with ⟨s₀, here, old⟩ | ⟨c, ℓ, p, m, acts, advances, claim⟩
    · rcases held_of_step step there' held' with
        ⟨s₁, here', old'⟩ | ⟨c, ℓ, p, m, acts, advances, claim⟩
      · exact ih here here' other old old' row
      · intro same
        exact granted acts advances claim here old other (same ▸ row) same.symm
    · rcases held_of_step step there' held' with ⟨s₁, here', old'⟩ | ⟨c', ℓ', p', m', acts', _⟩
      · exact granted acts advances claim here' old' (Ne.symm other) row
      · rw [acts] at acts'
        cases acts'
        exact absurd rfl other

/-- A step whose claims nobody is in the way of can be taken. -/
theorem advance_of_free {i : Nat} (advances : S.Advances i c ℓ p m)
    (ends : Session Call Store Write Res ε α → Session Call Store Write Res ε α) :
    S.advance i ends = some (S.moved i c m (ends (.reached c m.loc m.next))) := by
  unfold System.advance
  rw [advances.here]
  dsimp only
  rw [advances.moves]
  dsimp only
  rw [if_pos (free_iff.mpr advances.free)]

theorem step_of_free {i : Nat} (advances : S.Advances i c ℓ p m) :
    S.step service (.run i) = some (S.moved i c m (.reached c m.loc m.next)) :=
  advance_of_free advances id

/-- What a session that nothing holds up has come to: it was dropped, it can
take its next step, or it was answered as said. -/
inductive Proceeds (service : Call → Prog Store Write Res ε α)
    (S : System Call Store Write Res ε α) (i : Nat) (c : Call) (said : Except ε α → Prop) :
    Prop where
  | dropped (there : S.sessions[i]? = some ⟨c, ℓ, .dropped⟩) : Proceeds service S i c said
  | free (there : S.sessions[i]? = some ⟨c, ℓ, .running p⟩)
      (step : (S.step service (.run i)).isSome) : Proceeds service S i c said
  | answered (there : S.sessions[i]? = some ⟨c, ℓ, .answered result⟩) (as : said result) :
    Proceeds service S i c said

/-- A session that can take its step at every stage, from one stage to another
or to an answer, is never held up. -/
theorem Reaches.proceeds {P : Local Store Write Res → Prog Store Write Res ε α → Prop}
    {said : Except ε α → Prop} {i : Nat} (reached : Reaches service cond S S')
    (there : S.sessions[i]? = some ⟨c, ℓ, .running p⟩) (stage : P ℓ p)
    (moves : ∀ T ℓ p, Reaches service cond S T → T.sessions[i]? = some ⟨c, ℓ, .running p⟩ →
      P ℓ p → ∃ m, T.Advances i c ℓ p m ∧ (m.next.upcoming ≠ .done → P m.loc m.next) ∧
        ∀ result, m.next.answer? = some result → said result) :
    Proceeds service S' i c said := by
  have stands : ∀ s, S'.sessions[i]? = some s → s.call = c ∧ (s.phase = .dropped ∨
      (∃ p, s.phase = .running p ∧ P s.loc p) ∨ ∃ result, s.phase = .answered result ∧
        said result) := by
    induction reached with
    | refl =>
      intro s here
      cases Option.some.inj (there.symm.trans here)
      exact ⟨rfl, Or.inr (Or.inl ⟨p, rfl, stage⟩)⟩
    | @step T a T' before step _ ih =>
      intro s here
      cases turn_of_step step here with
      | kept here => exact ih s here
      | arrived absent =>
        obtain ⟨_, present, _⟩ := before.session there
        rw [absent] at present
        cases present
      | @ran c' ℓ' p' m advances _ _ new =>
        obtain ⟨rfl, ceased | ⟨q, running, stage⟩ | ⟨result, ceased, _⟩⟩ := ih _ advances.here
        · cases ceased
        · cases running
          obtain ⟨m', advances', next, answer⟩ := moves T ℓ' p' before advances.here stage
          obtain rfl : m = m' := Option.some.inj (advances.moves.symm.trans advances'.moves)
          rw [new]
          cases at_ : m.next with
          | ret a =>
            rw [at_] at answer
            exact ⟨rfl, Or.inr (Or.inr ⟨_, rfl, answer _ rfl⟩)⟩
          | fail e =>
            rw [at_] at answer
            exact ⟨rfl, Or.inr (Or.inr ⟨_, rfl, answer _ rfl⟩)⟩
          | _ =>
            rw [at_] at next
            exact ⟨rfl, Or.inr (Or.inl ⟨_, rfl, next nofun⟩)⟩
        · cases ceased
      | ended here gone call =>
        exact ⟨call.trans (ih _ here).1, Or.inl gone⟩
  obtain ⟨⟨c', ℓ', phase⟩, here, _⟩ := reached.session there
  obtain ⟨rfl, rfl | ⟨q, rfl, stage⟩ | ⟨result, rfl, as⟩⟩ := stands _ here
  · exact .dropped here
  · obtain ⟨m, advances, _⟩ := moves S' ℓ' q reached here stage
    exact .free here (by rw [step_of_free advances]; rfl)
  · exact .answered here as

/-- A session of a watched call has not come to the place yet, and holds no lock
on its row, or is past it. -/
theorem Reaches.stands {W : Call → Prop} {r : Call → Res}
    {Q : Call → Prog Store Write Res ε α → Prop}
    {P : Call → Local Store Write Res → Prog Store Write Res ε α → Prop}
    (reached : Reaches service cond S₀ S) (none : S₀.sessions = [])
    (start : ∀ c, W c → (service c).Until (Aside (r c)) (Q c))
    (passes : ∀ c ℓ p now σ m, W c → Q c p → ℓ.Clear (r c) → p.move now σ ℓ = some m →
      P c m.loc m.next)
    (goes : ∀ c ℓ p now σ m, W c → P c ℓ p → p.move now σ ℓ = some m →
      P c m.loc m.next)
    {i : Nat} (there : S.sessions[i]? = some ⟨c, ℓ, .running p⟩) (watching : W c) :
    p.Until (Aside (r c)) (Q c) ∧ ℓ.Clear (r c) ∨ P c ℓ p := by
  refine reached.underway (P := fun c ℓ p => W c →
    p.Until (Aside (r c)) (Q c) ∧ ℓ.Clear (r c) ∨ P c ℓ p) none ?_ ?_ there watching
  · exact fun c watching => Or.inl ⟨start c watching, Local.clear_fresh _⟩
  · intro c p ℓ now σ m before moves _ watching
    rcases before watching with ⟨way, clear⟩ | past
    · rcases way.move clear moves with here | ⟨rest, clear, _⟩
      · exact Or.inr (passes c ℓ p now σ m watching here clear moves)
      · exact Or.inl ⟨rest, clear⟩
    · exact Or.inr (goes c ℓ p now σ m watching past moves)

end System

end

end Txn
