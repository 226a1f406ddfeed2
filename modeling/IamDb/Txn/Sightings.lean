import IamDb.Txn.System

/-! What a program answers is decided by what its statements see: given a store
for each of them, whatever else went on in between, the answer is a function of
those stores. Every answer given in a run is one of these, for the stores the
session saw in it. -/
namespace Txn

section
variable {Call Store Write Res ε α : Type} [Locking Write Res]

/-- What a program answers when its statements see these stores, from the `n`th
on. -/
def Prog.answering (sees : Nat → Snapshot Store) : Nat → Prog Store Write Res ε α → Except ε α
  | _, .ret a => .ok a
  | _, .fail e => .error e
  | n, .begin _ p => p.answering sees n
  | n, .stmt s k => (k (s.exec (sees n).since (sees n).store).1).answering sees (n + 1)
  | n, .auto _ s k => (k (s.exec (sees n).since (sees n).store).1).answering sees (n + 1)
  | n, .commit p => p.answering sees n

namespace Prog
variable {sees : Nat → Snapshot Store} {p : Prog Store Write Res ε α}

@[simp] theorem answering_ret : (ret a : Prog Store Write Res ε α).answering sees n = .ok a := rfl

@[simp] theorem answering_fail :
    (fail e : Prog Store Write Res ε α).answering sees n = .error e := rfl

@[simp] theorem answering_start {k : Unit → Prog Store Write Res ε α} :
    (start iso >>= k).answering sees n = (k ()).answering sees n := rfl

@[simp] theorem answering_query {s : Statement Store Write Res ρ}
    {k : ρ → Prog Store Write Res ε α} : (query s >>= k).answering sees n =
      (k (s.exec (sees n).since (sees n).store).1).answering sees (n + 1) := rfl

@[simp] theorem answering_single {s : Statement Store Write Res ρ}
    {k : ρ → Prog Store Write Res ε α} : (single iso s >>= k).answering sees n =
      (k (s.exec (sees n).since (sees n).store).1).answering sees (n + 1) := rfl

/-- An error is final. -/
theorem answering_error {f : α → Prog Store Write Res ε β}
    (failed : p.answering sees n = .error e) : (p >>= f).answering sees n = .error e := by
  induction p generalizing n with
  | ret a => cases failed
  | fail e' =>
    cases failed
    rfl
  | begin iso p ih => exact ih failed
  | stmt s k ih => exact ih _ failed
  | auto iso s k ih => exact ih _ failed
  | commit p ih => exact ih failed

/-- Whether all a program can answer has a property, whatever its statements
answer. -/
def Yields (P : α → Prop) : Prog Store Write Res ε α → Prop
  | ret a => P a
  | fail _ => True
  | begin _ p => p.Yields P
  | stmt _ k => ∀ r, (k r).Yields P
  | auto _ _ k => ∀ r, (k r).Yields P
  | commit p => p.Yields P

/-- What comes after decides. -/
theorem Yields.after {P : β → Prop} {f : α → Prog Store Write Res ε β} (rest : ∀ a, (f a).Yields P) :
    (p >>= f).Yields P := by
  induction p with
  | ret a => exact rest a
  | fail e => trivial
  | begin iso p ih => exact ih
  | stmt s k ih => exact fun r => ih r
  | auto iso s k ih => exact fun r => ih r
  | commit p ih => exact ih

theorem Yields.bind {P : α → Prop} {Q : β → Prop} {f : α → Prog Store Write Res ε β}
    (yields : p.Yields P) (rest : ∀ a, P a → (f a).Yields Q) : (p >>= f).Yields Q := by
  induction p with
  | ret a => exact rest a yields
  | fail e => trivial
  | begin iso p ih => exact ih yields
  | stmt s k ih => exact fun r => ih r (yields r)
  | auto iso s k ih => exact fun r => ih r (yields r)
  | commit p ih => exact ih yields

theorem Yields.move [Writes Store Write] {P : α → Prop} (yields : p.Yields P)
    (moves : p.move now σ ℓ = some m) : m.next.Yields P := by
  cases p with
  | ret a => cases moves
  | fail e => cases moves
  | begin iso p => cases moves; exact yields
  | stmt s k => cases moves; exact yields _
  | auto iso s k => cases moves; exact yields _
  | commit p => cases moves; exact yields

end Prog

namespace System

variable [DecidableEq Res] [Writes Store Write] {service : Call → Prog Store Write Res ε α}
  {cond : System Call Store Write Res ε α → Action Call → System Call Store Write Res ε α → Prop}

/-- A store that session `i` saw at a moment of a run. -/
def Sighted (service : Call → Prog Store Write Res ε α)
    (cond : System Call Store Write Res ε α → Action Call →
      System Call Store Write Res ε α → Prop)
    (S₀ S : System Call Store Write Res ε α) (i : Nat) (m : Snapshot Store) : Prop :=
  ∃ T c ℓ p plain, Reaches service cond S₀ T ∧ Reaches service cond T S ∧
    T.sessions[i]? = some ⟨c, ℓ, .running p⟩ ∧ m.since = T.clock ∧
    (m.store = T.store ∨ m.store = applyAll ℓ.pending (ℓ.base plain T.store))

/-- After `n` statements a session's program goes on as the whole one would. -/
structure Halfway (service : Call → Prog Store Write Res ε α)
    (cond : System Call Store Write Res ε α → Action Call →
      System Call Store Write Res ε α → Prop)
    (S₀ S : System Call Store Write Res ε α) (i : Nat) (c : Call)
    (p : Prog Store Write Res ε α) (n : Nat) (seen : Nat → Snapshot Store) : Prop where
  sighted : ∀ k, k < n → Sighted service cond S₀ S i (seen k)
  rest : ∀ sees : Nat → Snapshot Store, (∀ k, k < n → sees k = seen k) →
    (service c).answering sees 0 = p.answering sees n

theorem Sighted.later (sighted : Sighted service cond S₀ S i m)
    (later : Reaches service cond S S') : Sighted service cond S₀ S' i m := by
  obtain ⟨T, c, ℓ, p, plain, first, second, rest⟩ := sighted
  exact ⟨T, c, ℓ, p, plain, first, second.trans later, rest⟩

variable {S₀ S S' : System Call Store Write Res ε α}

theorem Halfway.later {p : Prog Store Write Res ε α} {seen : Nat → Snapshot Store}
    (halfway : Halfway service cond S₀ S i c p n seen) (later : Reaches service cond S S') :
    Halfway service cond S₀ S' i c p n seen :=
  ⟨fun k before => (halfway.sighted k before).later later, halfway.rest⟩

/-- One more statement, and what it saw. -/
theorem Halfway.stmt {p p' : Prog Store Write Res ε α} {seen : Nat → Snapshot Store}
    (halfway : Halfway service cond S₀ S i c p n seen)
    (sighted : Sighted service cond S₀ S i m)
    (next : ∀ sees : Nat → Snapshot Store, sees n = m →
      p.answering sees n = p'.answering sees (n + 1)) :
    Halfway service cond S₀ S i c p' (n + 1) (fun k => if k = n then m else seen k) := by
  constructor
  · intro k before
    by_cases last : k = n
    · rwa [if_pos last]
    · rw [if_neg last]
      exact halfway.sighted k (by omega)
  · intro sees agree
    rw [halfway.rest sees fun k before => ?_, next sees]
    · rw [agree n (Nat.lt_succ_self n), if_pos rfl]
    · rw [agree k (Nat.lt_succ_of_lt before), if_neg (Nat.ne_of_lt before)]

/-- A step of its program takes a session on. -/
theorem Halfway.move {p : Prog Store Write Res ε α} {seen : Nat → Snapshot Store}
    (halfway : Halfway service cond S₀ S i c p n seen) (reached : Reaches service cond S₀ S)
    (here : S.sessions[i]? = some ⟨c, ℓ, .running p⟩) (moves : p.move S.clock S.store ℓ = some m) :
    ∃ n' seen', Halfway service cond S₀ S i c m.next n' seen' := by
  cases p with
  | ret a => cases moves
  | fail e => cases moves
  | begin iso p =>
    cases moves
    exact ⟨n, seen, halfway.sighted, halfway.rest⟩
  | stmt s k =>
    cases moves
    refine ⟨_, _, halfway.stmt (m := ⟨ℓ.view s S.store, S.clock⟩)
      ⟨S, c, ℓ, _, s.plain, reached, .refl, here, rfl, Or.inr rfl⟩ fun sees last => ?_⟩
    rw [Prog.answering, last]
  | auto iso s k =>
    cases moves
    refine ⟨_, _, halfway.stmt (m := ⟨S.store, S.clock⟩)
      ⟨S, c, ℓ, _, false, reached, .refl, here, rfl, Or.inl rfl⟩ fun sees last => ?_⟩
    rw [Prog.answering, last]
  | commit p =>
    cases moves
    exact ⟨n, seen, halfway.sighted, halfway.rest⟩

/-- A session of a run has been dropped, or has come where its program goes on
what it saw. -/
theorem halfway_of_reaches (reached : Reaches service cond S₀ S) (absent : S₀.sessions[i]? = none)
    (there : S.sessions[i]? = some s) : s.phase = .dropped ∨
      ∃ ℓ p n seen, s = .reached s.call ℓ p ∧ Halfway service cond S₀ S i s.call p n seen := by
  refine reached.invariant (P := fun S => ∀ s, S.sessions[i]? = some s → s.phase = .dropped ∨
    ∃ ℓ p n seen, s = .reached s.call ℓ p ∧ Halfway service cond S₀ S i s.call p n seen)
    ?_ ?_ s there
  · intro s there
    rw [absent] at there
    cases there
  · intro S a S' before ih step met s there
    have later : Reaches service cond S S' := .step .refl step met
    cases turn_of_step step there with
    | kept there =>
      rcases ih s there with dropped | ⟨ℓ, p, n, seen, whole, halfway⟩
      · exact Or.inl dropped
      · exact Or.inr ⟨ℓ, p, n, seen, whole, halfway.later later⟩
    | @arrived c _ _ _ _ new =>
      have same : s.call = c := by
        rw [new]
        cases service c <;> rfl
      refine Or.inr ⟨.fresh, service c, 0, fun _ => ⟨S.store, S.clock⟩, by rw [same]; exact new, ?_⟩
      rw [same]
      exact ⟨nofun, fun _ _ => rfl⟩
    | @ran c ℓ p m advances _ _ new =>
      rcases ih _ advances.here with dropped | ⟨ℓ', p', n, seen, whole, halfway⟩
      · cases dropped
      · obtain ⟨_, _, rfl, _⟩ := Session.reached_running whole.symm
        obtain ⟨n', seen', on⟩ := halfway.move before advances.here advances.moves
        have same : s.call = c := by
          rw [new]
          cases m.next <;> rfl
        refine Or.inr ⟨m.loc, m.next, n', seen', by rw [same]; exact new, ?_⟩
        rw [same]
        exact on.later later
    | ended _ gone => exact Or.inl gone

/-- What a session answered is what its program answers to the stores it saw. -/
theorem answered_seen (reached : Reaches service cond S₀ S) (absent : S₀.sessions[i]? = none)
    (there : S.sessions[i]? = some ⟨c, ℓ, .answered r⟩) :
    ∃ (n : Nat) (seen : Nat → Snapshot Store), (∀ k, k < n → Sighted service cond S₀ S i (seen k)) ∧
      ∀ sees : Nat → Snapshot Store, (∀ k, k < n → sees k = seen k) →
        (service c).answering sees 0 = r := by
  rcases halfway_of_reaches reached absent there with dropped | ⟨ℓ', p, n, seen, whole, halfway⟩
  · cases dropped
  · refine ⟨n, seen, halfway.sighted, fun sees agree => ?_⟩
    rw [halfway.rest sees agree]
    cases p <;> cases whole <;> rfl

end System

end

end Txn
