import IamDb.Txn.Logic

/-! Calls made one after the other. In a run where a call arrives only when
every earlier one is answered, each call meets the store the earlier ones left
and nobody changes it meanwhile. So what a call does by itself, proved against
a rely that allows no change, adds up along the history of calls and answers. -/
namespace Txn

section
variable {Call Store Write Res ε α : Type} [Locking Write Res]

/-- Nobody else changes the store. -/
def Rely.none : Rely Store Write Res := fun _ _ _ _ => False

theorem Drift.still {ℓ : Local Store Write Res} (drift : Drift Rely.none ℓ n σ σ') : σ' = σ := by
  cases drift with
  | refl => rfl
  | tail _ last => exact last.elim

theorem Drifts.still (drifts : Drifts (Rely.none : Rely Store Write Res) σ σ') : σ' = σ := by
  cases drifts with
  | refl => rfl
  | tail _ last =>
    obtain ⟨_, _, change⟩ := last
    exact change.elim

/-- A session whose snapshot, if it took one, is the store. -/
def Local.Steady (ℓ : Local Store Write Res) (σ : Store) : Prop :=
  ∀ snap, ℓ.snapshot = some snap → snap.store = σ

section
variable [Writes Store Write] {ℓ : Local Store Write Res} {s : Statement Store Write Res ρ}

omit [Locking Write Res] [Writes Store Write] in
theorem Local.steady_opened : (ℓ.opened level).Steady σ := nofun

theorem Local.Steady.view (steady : ℓ.Steady σ) : ℓ.view s σ = applyAll ℓ.pending σ := by
  rw [Local.view, Local.base]
  split
  · cases taken : ℓ.snapshot with
    | none => rfl
    | some snap => exact congrArg (applyAll ℓ.pending) (steady snap taken)
  · rfl

theorem Local.Steady.after (steady : ℓ.Steady σ) (s : Statement Store Write Res ρ) (now : Int) :
    (ℓ.after s σ now).Steady σ := by
  intro snap taken
  simp only [Local.after] at taken
  split at taken
  · cases before : ℓ.snapshot with
    | none =>
      rw [before] at taken
      cases taken
      rfl
    | some snap' =>
      rw [before] at taken
      cases taken
      exact steady _ before
  · exact steady snap taken

/-- Where nobody else changes the store, a statement sees it with the
session's own writes. -/
theorem wp_steady {G : Guar Store Write Res ε α} {Q : Post Store Write Res ε α}
    {k : ρ → Prog Store Write Res ε α} (steady : ℓ.Steady σ)
    (rest : ∀ ℓ' t', t ≤ t' → ℓ'.Steady σ →
      ℓ'.pending = ℓ.pending ++ (s.exec t' (applyAll ℓ.pending σ)).2 →
      wp Rely.none G (k (s.exec t' (applyAll ℓ.pending σ)).1) Q ℓ' σ t') :
    wp Rely.none G (Prog.query s >>= k) Q ℓ σ t := by
  rw [wp_query]
  intro σ' t' drift later
  obtain rfl := drift.still
  have step := rest _ t' later (steady.after s t') (by rw [Local.after_pending, steady.view])
  rwa [steady.view]

end

/-- What happens to the store call after call: `Spec c σ r σ'` says that call
`c` met the store `σ`, answered `r` and left `σ'`. -/
inductive Chain (Spec : Call → Store → Except ε α → Store → Prop) (σ : Store) :
    List (Call × Except ε α) → Store → Prop where
  | nil : Chain Spec σ [] σ
  | snoc (before : Chain Spec σ h σ') (last : Spec c σ' r σ'') : Chain Spec σ (h ++ [(c, r)]) σ''

section
variable {Spec : Call → Store → Except ε α → Store → Prop}

theorem Chain.mono {Spec' : Call → Store → Except ε α → Store → Prop} (chain : Chain Spec σ h σ')
    (weaker : ∀ c σ r σ', Spec c σ r σ' → Spec' c σ r σ') : Chain Spec' σ h σ' := by
  induction chain with
  | nil => exact .nil
  | snoc _ last ih => exact ih.snoc (weaker _ _ _ _ last)

theorem Chain.nothing (chain : Chain Spec σ [] σ') : σ' = σ := by
  generalize empty : ([] : List (Call × Except ε α)) = history at chain
  cases chain with
  | nil => rfl
  | snoc => cases List.append_ne_nil_of_right_ne_nil _ (List.cons_ne_nil _ _) empty.symm

/-- A history ends with its last call. -/
theorem Chain.last (chain : Chain Spec σ (h ++ [(c, r)]) σ'') :
    ∃ σ', Chain Spec σ h σ' ∧ Spec c σ' r σ'' := by
  generalize whole : h ++ [(c, r)] = history at chain
  cases chain with
  | nil => cases List.append_ne_nil_of_right_ne_nil h (List.cons_ne_nil _ _) whole
  | snoc before last =>
    obtain ⟨rfl, same⟩ := List.append_inj' whole rfl
    cases same
    exact ⟨_, before, last⟩

/-- A history splits at each of its calls. -/
theorem Chain.split (chain : Chain Spec σ (h ++ (c, r) :: rest) σ'') :
    ∃ σ₁ σ₂, Chain Spec σ h σ₁ ∧ Spec c σ₁ r σ₂ ∧ Chain Spec σ₂ rest σ'' := by
  generalize whole : h ++ (c, r) :: rest = history at chain
  induction chain generalizing rest with
  | nil => cases List.append_ne_nil_of_right_ne_nil h (List.cons_ne_nil _ _) whole
  | @snoc before σ' c' r' σ₂ chain last ih =>
    rcases List.eq_nil_or_concat rest with rfl | ⟨init, final, rfl⟩
    · obtain ⟨rfl, same⟩ := List.append_inj' whole rfl
      cases same
      exact ⟨_, _, chain, last, .nil⟩
    · rw [List.concat_eq_append, ← List.cons_append, ← List.append_assoc] at whole
      obtain ⟨same, tail⟩ := List.append_inj' whole rfl
      cases tail
      obtain ⟨σ₁, σ₂, first, one, after⟩ := ih same
      exact ⟨σ₁, σ₂, first, one, List.concat_eq_append ▸ after.snoc last⟩

end

namespace System

/-- Whether every session has been answered. -/
def Idle (S : System Call Store Write Res ε α) : Prop :=
  ∀ s ∈ S.sessions, ∃ r, s.phase = .answered r

/-- The calls answered so far and their answers, oldest first. -/
def answers (sessions : List (Session Call Store Write Res ε α)) : List (Call × Except ε α) :=
  sessions.filterMap fun s => s.answer.map fun r => (s.call, r)

theorem answers_append (old new : List (Session Call Store Write Res ε α)) :
    answers (old ++ new) = answers old ++ answers new := by
  simp [answers]

variable [DecidableEq Res] [Writes Store Write]

/-- A step of a sequential run: a call arrives when every other is answered,
and none is ended early. -/
structure Sequential (S : System Call Store Write Res ε α) (a : Action Call)
    (_ : System Call Store Write Res ε α) : Prop where
  arrives : ∀ c, a = .call c → S.Idle
  ends : ∀ i, a ≠ .lose i ∧ a ≠ .drop i

/-- Any number of commits of a guarantee. -/
def Changes (G : Guar Store Write Res ε α) : Store → Store → Prop :=
  Relation.ReflTransGen fun σ σ' => ∃ k, G k ∧ k.store = σ ∧ k.result = σ'

/-- What a call does by itself. -/
def Solo (G : Call → Guar Store Write Res ε α) (Q : Call → Store → Except ε α → Store → Prop)
    (c : Call) (σ : Store) (r : Except ε α) (σ' : Store) : Prop :=
  Q c σ r σ' ∧ Changes (G c) σ σ'

/-- Where a sequential run stands since a state at rest: between two calls, or
in the last one. -/
inductive Stands (G : Call → Guar Store Write Res ε α)
    (Q : Call → Store → Except ε α → Store → Prop) (S₀ S : System Call Store Write Res ε α) :
    Prop where
  | between (sessions : S.sessions = S₀.sessions ++ new) (idle : S.Idle)
      (chain : Chain (Solo G Q) S₀.store (answers new) S.store)
  | within (sessions : S.sessions = S₀.sessions ++ new ++ [⟨c, ℓ, .running p⟩])
      (idle : ∀ s ∈ S₀.sessions ++ new, ∃ r, s.phase = .answered r)
      (chain : Chain (Solo G Q) S₀.store (answers new) σ) (changes : Changes (G c) σ S.store)
      (running : p.upcoming ≠ .done)
      (ready : wp Rely.none (G c) p (fun r _ σ' _ => Q c σ r σ') ℓ S.store S.clock)

section
variable {service : Call → Prog Store Write Res ε α} {G : Call → Guar Store Write Res ε α}
  {Q : Call → Store → Except ε α → Store → Prop} {S₀ S S' : System Call Store Write Res ε α}
  {cond : System Call Store Write Res ε α → Action Call → System Call Store Write Res ε α → Prop}

omit [DecidableEq Res] in
/-- A session that has come to a point of its program, after sessions that are
all answered. -/
theorem stands_reached {p : Prog Store Write Res ε α}
    (sessions : S.sessions = S₀.sessions ++ new ++ [.reached c ℓ p])
    (idle : ∀ s ∈ S₀.sessions ++ new, ∃ r, s.phase = .answered r)
    (chain : Chain (Solo G Q) S₀.store (answers new) σ) (changes : Changes (G c) σ S.store)
    (ready : wp Rely.none (G c) p (fun r _ σ' _ => Q c σ r σ') ℓ S.store S.clock) :
    Stands G Q S₀ S := by
  have ended (r : Except ε α) (whole : Session.reached c ℓ p = ⟨c, ℓ.closed, .answered r⟩)
      (post : Q c σ r S.store) : Stands G Q S₀ S := by
    rw [whole] at sessions
    refine .between (sessions.trans (List.append_assoc _ _ _)) (fun s member => ?_) ?_
    · rw [sessions] at member
      rcases List.mem_append.mp member with before | last
      · exact idle s before
      · obtain rfl := List.mem_singleton.mp last
        exact ⟨r, rfl⟩
    · rw [answers_append]
      exact chain.snoc ⟨post, changes⟩
  cases p with
  | ret a => exact ended (.ok a) rfl ready
  | fail e => exact ended (.error e) rfl ready
  | begin | stmt | auto | commit => exact .within sessions idle chain changes nofun ready

/-- Every step of a sequential run is a call's own. -/
theorem Stands.step (stands : Stands G Q S₀ S) (step : S.step service a = some S')
    (sequential : Sequential S a S')
    (program : ∀ c, a = .call c → wp Rely.none (G c) (service c)
      (fun r _ σ' _ => Q c S.store r σ') .fresh S.store S.clock) : Stands G Q S₀ S' := by
  cases steps_of_step step with
  | call c =>
    have idle := sequential.arrives c rfl
    cases stands with
    | @between new sessions _ chain =>
      refine stands_reached (c := c) (ℓ := .fresh) (p := service c) ?_ ?_ chain .refl
        (program c rfl)
      · rw [← sessions]
      · rwa [← sessions]
    | within sessions =>
      obtain ⟨r, answered⟩ := idle _ (by rw [sessions]; exact List.mem_concat_self)
      cases answered
  | @run i c ℓ p m advances =>
    have here := advances.here
    cases stands with
    | between _ idle =>
      obtain ⟨r, answered⟩ := idle _ (List.mem_of_getElem? here)
      cases answered
    | @within new c' ℓ' p' σ' sessions idle chain changes running ready =>
      have last : i = (S₀.sessions ++ new).length := by
        rw [sessions, List.getElem?_append] at here
        split at here
        · obtain ⟨r, answered⟩ := idle _ (List.mem_of_getElem? here)
          cases answered
        · rw [List.getElem?_singleton] at here
          split at here
          · omega
          · cases here
      rw [sessions, last, List.getElem?_concat_length] at here
      cases here
      obtain ⟨guar, same, rest⟩ := wp_move ready advances.moves
      refine stands_reached (ℓ := m.loc) (p := m.next) ?_ idle chain ?_ rest
      · rw [moved, sessions, last, List.set_append_right _ _ (Nat.le_refl _), Nat.sub_self]
        rfl
      · cases lands : m.commits with
        | true => exact changes.tail ⟨_, guar lands, rfl, rfl⟩
        | false =>
          have still : (S.moved i c m (.reached c m.loc m.next)).store = S.store := by
            rw [moved, same lands, applyAll_nil]
          rw [still]
          exact changes
  | lose => exact absurd rfl (sequential.ends _).1
  | drop => exact absurd rfl (sequential.ends _).2
  | tick seconds =>
    cases stands with
    | between sessions idle chain => exact .between sessions idle chain
    | within sessions idle chain changes running ready =>
      exact .within sessions idle chain changes running
        (wp_drift ready running .refl (Int.le_add_of_nonneg_right (Int.natCast_nonneg _)))

/-- What each call does by itself where it arrives, a sequential run does one
after the other. -/
theorem Reaches.stands_sequential (reached : Reaches service cond S₀ S) (rest : S₀.Idle)
    (sequential : ∀ T a T', cond T a T' → Sequential T a T')
    (program : ∀ T c T', Reaches service cond S₀ T → cond T (.call c) T' →
      wp Rely.none (G c) (service c) (fun r _ σ' _ => Q c T.store r σ') .fresh T.store T.clock) :
    Stands G Q S₀ S := by
  refine reached.invariant (.between (List.append_nil _).symm rest .nil)
    fun T a T' before stands step met => ?_
  refine stands.step step (sequential T a T' met) ?_
  rintro c rfl
  exact program T c T' before met

/-- Between its calls a sequential run has done what each does by itself. -/
theorem Reaches.chain (reached : Reaches service cond S₀ S) (rest : S₀.Idle) (idle : S.Idle)
    (sequential : ∀ T a T', cond T a T' → Sequential T a T')
    (program : ∀ T c T', Reaches service cond S₀ T → cond T (.call c) T' →
      wp Rely.none (G c) (service c) (fun r _ σ' _ => Q c T.store r σ') .fresh T.store T.clock) :
    ∃ new, S.sessions = S₀.sessions ++ new ∧ Chain (Solo G Q) S₀.store (answers new) S.store := by
  cases reached.stands_sequential rest sequential program with
  | between sessions _ chain => exact ⟨_, sessions, chain⟩
  | within sessions =>
    obtain ⟨r, answered⟩ := idle _ (by rw [sessions]; exact List.mem_concat_self)
    cases answered

/-- `Idle`, to be evaluated. -/
def idleNow (S : System Call Store Write Res ε α) : Bool := S.sessions.all fun s => s.answer.isSome

/-- `Sequential`, to be evaluated. -/
def sequentialNow (S : System Call Store Write Res ε α) (a : Action Call)
    (_ : System Call Store Write Res ε α) : Bool :=
  match a with
  | .call _ => S.idleNow
  | .lose _ | .drop _ => false
  | _ => true

omit [DecidableEq Res] [Writes Store Write] in
theorem idle_of_now (now : S.idleNow = true) : S.Idle := by
  intro s member
  have answered := List.all_eq_true.mp now s member
  unfold Session.answer at answered
  split at answered
  · rename_i r phase
    exact ⟨r, phase⟩
  · cases answered

omit [DecidableEq Res] [Writes Store Write] in
theorem sequential_of_now (now : sequentialNow S a S' = true) : Sequential S a S' := by
  refine ⟨?_, fun i => ⟨?_, ?_⟩⟩
  · rintro c rfl
    exact idle_of_now now
  · rintro rfl
    cases now
  · rintro rfl
    cases now

end

end System

end

end Txn
