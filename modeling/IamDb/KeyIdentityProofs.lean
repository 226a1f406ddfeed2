import IamDb.SettingProofs

/-! Recording the key identity. The insert reads every user row under a shared
lock, so its predicate still holds at the commit; an insert that wrote nothing
compares with the latest committed marker. -/
namespace IamDb.KeyIdentityProofs
open Txn Schema Messages Service KeyIdentity Effects Evolution Interference Rules

variable [Engine]

/-- The marker a call presents. -/
def presentedRow (p : Presented) : Schema.KeyIdentity := ⟨p.version, p.fingerprint, p.key⟩

/-- What the insert of the marker claims, answers and writes. -/
inductive InsertsMarker (p : Presented) (holds : Store → Bool) (σ : Store)
    (claims : List (Claim Res)) : Except DbError Nat × List Write → Prop where
  | unmet (fails : holds σ = false) : InsertsMarker p holds σ claims (.ok 0, [])
  | unfit (met : holds σ = true) (long : fits maxIdempotencyKey p.key = false) :
    InsertsMarker p holds σ claims (.error .other, [])
  | taken (met : holds σ = true) (stored : σ.keyIdentity.find? () = some row)
      (shared : share .keyIdentity ∈ claims) :
    InsertsMarker p holds σ claims (.error (.duplicate true), [])
  | done (met : holds σ = true) (held : fits maxIdempotencyKey p.key = true)
      (absent : σ.keyIdentity.find? () = none)
      (locked : exclude .keyIdentity ∈ claims) (range : share .users ∈ claims)
      (rows : ∀ u ∈ σ.users, share (.user u.key) ∈ claims) :
    InsertsMarker p holds σ claims (.ok 1, [.keyIdentity (presentedRow p)])

theorem insertMarker_exec (p : Presented) (holds : Store → Bool) (now : Int) (iso : Isolation)
    (σ : Store) :
    InsertsMarker p holds σ ((insertMarker p holds).claims now iso σ)
      ((insertMarker p holds).exec now σ) := by
  simp only [insertMarker]
  cases met : holds σ with
  | false => exact .unmet met
  | true =>
    cases held : fits maxIdempotencyKey p.key with
    | false => exact .unfit met held
    | true =>
      cases stored : σ.keyIdentity.find? () with
      | some row => exact .taken met stored (by simp [insertRow])
      | none =>
        refine .done met held stored (by simp [insertRow]) (by simp) fun u member => ?_
        exact List.mem_cons_of_mem _ (List.mem_append_left _ (List.mem_map_of_mem member))

section
variable {R : Rely Store Write Res} {G : Guar Store Write Res Status KeyIdentityOutcome}
  {Q : Post Store Write Res Status KeyIdentityOutcome} {ℓ : Local Store Write Res}

/-- The re-read of a transaction that has written nothing. -/
private theorem wp_compared {p : Presented} (quiet : Quiet R) (pending : ℓ.pending = [])
    (before : Drifts R σ₀ σ) (known : P → ∃ row, σ.keyIdentity.find? () = some row)
    (compared : ∀ (ℓ' : Local Store Write Res) (σ' : Store) t' row outcome, Drifts R σ₀ σ' →
      σ'.keyIdentity.find? () = some row → replayedOrCompared row p = .ok outcome →
      G ⟨ℓ'.held, ℓ'.seen, [], σ', some (.ok outcome)⟩ ∧ Q (.ok outcome) ℓ'.closed σ' t')
    (replayed : ∀ e ℓ' (σ' : Store) t' row, Drifts R σ₀ σ' → σ'.keyIdentity.find? () = some row →
      replayedOrCompared row p = .error e → Q (.error e) ℓ' σ' t')
    (absent : ∀ ℓ' (σ' : Store) t', ¬P → Drifts R σ σ' → Evolves σ σ' →
      σ'.keyIdentity.find? () = none → Q (.error refusal) ℓ' σ' t') :
    wp R G (againstTheStoredMarker p >>= fun outcome =>
      match outcome with
      | none => refuse refusal
      | some outcome => do
        commit
        pure outcome) Q ℓ σ t := by
  unfold againstTheStoredMarker
  simp only [bind_assoc]
  refine wp_drifting quiet (Or.inl rfl) fun ℓ₁ σ₁ t₁ drift₁ pass₁ _ _ => ?_
  rw [pending, applyAll_nil] at pass₁ ⊢
  have pending₁ : ℓ₁.pending = [] := by simpa [pending, selectMarker] using pass₁.pending
  have drifts₁ : Drifts R σ₀ σ₁ := Relation.ReflTransGen.trans before drift₁.drifts
  cases stored : σ₁.keyIdentity.find? () with
  | none =>
    simp only [selectMarker, stored, pure_bind, wp_fail]
    refine absent _ _ _ (fun held => ?_) drift₁.drifts pass₁.calm.evolves stored
    obtain ⟨row, found⟩ := known held
    obtain ⟨row', found', _⟩ := pass₁.calm.evolves.keyIdentity _ _ found
    rw [stored] at found'
    cases found'
  | some row =>
    simp only [selectMarker, stored, bind_assoc]
    cases outcome : replayedOrCompared row p with
    | error e => exact replayed _ _ _ _ row drifts₁ stored outcome
    | ok outcome' =>
      show wp R G (commit >>= fun _ => pure outcome') Q ℓ₁ σ₁ t₁
      rw [wp_finish]
      intro σ₂ t₂ drift₂ _
      obtain ⟨row', found', same⟩ := (calm_of_drift quiet drift₂).evolves.keyIdentity _ _ stored
      cases same
      rw [pending₁]
      exact compared _ _ _ row outcome' (Relation.ReflTransGen.trans drifts₁ drift₂.drifts) found'
        outcome

/-- A recording call writes the marker, or answers for the one that is there. -/
theorem wp_record {p : Presented} {holds : Store → Bool} (quiet : Quiet R)
    (users : ∀ σ σ' : Store, σ'.users = σ.users → holds σ' = holds σ)
    (wrote : ∀ (ℓ' : Local Store Write Res) (σ' : Store) t', Drifts R σ σ' → holds σ' = true →
      fits maxIdempotencyKey p.key = true → σ'.keyIdentity.find? () = none → Holds ℓ'.held .users .shared →
      Holds ℓ'.held .keyIdentity .exclusive →
      G ⟨ℓ'.held, ℓ'.seen, [.keyIdentity (presentedRow p)], σ', some (.ok .recorded)⟩ ∧
        Q (.ok .recorded) ℓ'.closed (Write.apply (.keyIdentity (presentedRow p)) σ') t')
    (compared : ∀ (ℓ' : Local Store Write Res) (σ' : Store) t' row outcome, Drifts R σ σ' →
      σ'.keyIdentity.find? () = some row → replayedOrCompared row p = .ok outcome →
      G ⟨ℓ'.held, ℓ'.seen, [], σ', some (.ok outcome)⟩ ∧ Q (.ok outcome) ℓ'.closed σ' t')
    (replayed : ∀ e ℓ' (σ' : Store) t' row, Drifts R σ σ' → σ'.keyIdentity.find? () = some row →
      replayedOrCompared row p = .error e → Q (.error e) ℓ' σ' t')
    (absent : ∀ ℓ' (σ₁ σ' : Store) t', Drifts R σ σ₁ → holds σ₁ = false → Drifts R σ₁ σ' →
      Evolves σ₁ σ' → σ'.keyIdentity.find? () = none → Q (.error refusal) ℓ' σ' t')
    (unfit : ∀ ℓ' (σ' : Store) t', Drifts R σ σ' → fits maxIdempotencyKey p.key = false →
      Q (.error (db .other)) ℓ' σ' t') :
    wp R G (KeyIdentity.record p holds refusal) Q ℓ σ t := by
  unfold KeyIdentity.record
  rw [wp_start]
  intro σ₀ t₀ drift₀ _
  refine wp_drifting quiet (Or.inl rfl) fun ℓ₁ σ₁ t₁ drift₁ pass₁ _ claimed₁ => ?_
  have drifts₁ : Drifts R σ σ₁ := Relation.ReflTransGen.trans drift₀.drifts drift₁.drifts
  have inserts := insertMarker_exec p holds t₁ (ℓ.opened defaultIsolation).iso σ₁
  have held₁ := claimed₁.held
  simp only [Local.opened_pending, applyAll_nil] at pass₁ held₁ ⊢
  generalize (insertMarker p holds).exec t₁ σ₁ = outcome at inserts pass₁ ⊢
  cases inserts with
  | unmet fails =>
    have pending₁ : ℓ₁.pending = [] := pass₁.pending
    simp only [outcomeOf]
    exact wp_compared (P := False) quiet pending₁ drifts₁ (fun none => none.elim) compared replayed
      fun ℓ' σ' t' _ => absent ℓ' σ₁ σ' t' drifts₁ fails
  | unfit _ long =>
    simp only [outcomeOf, DbError.isUniqueViolation, Bool.false_eq_true, if_false]
    exact unfit _ _ _ drifts₁ long
  | @taken row _ stored =>
    have pending₁ : ℓ₁.pending = [] := pass₁.pending
    simp only [outcomeOf, DbError.isUniqueViolation, if_true]
    exact wp_compared (P := True) quiet pending₁ drifts₁ (fun _ => ⟨row, stored⟩) compared replayed
      fun _ _ _ never => absurd trivial never
  | done met held none locked range rows =>
    have pending₁ : ℓ₁.pending = [.keyIdentity (presentedRow p)] := pass₁.pending
    have locked : Holds ℓ₁.held .keyIdentity .exclusive := ⟨t₁, held₁ _ _ locked⟩
    have range : Holds ℓ₁.held .users .shared := ⟨t₁, held₁ _ _ range⟩
    have rows : ∀ u ∈ σ₁.users, Holds ℓ₁.held (.user u.key) .shared :=
      fun u member => ⟨t₁, held₁ _ _ (rows u member)⟩
    simp only [outcomeOf, pure_bind]
    rw [wp_finish]
    intro σ₂ t₂ drift₂ _
    have calm₂ := calm_of_drift quiet drift₂
    rw [pending₁]
    exact wrote _ _ _ (Relation.ReflTransGen.trans drifts₁ drift₂.drifts)
      ((users _ _ (calm₂.users_table range rows)).trans met) held
      ((calm₂.keyIdentity_row locked).trans none) range locked

end

theorem noUsers_congr (σ σ' : Store) (same : σ'.users = σ.users) : noUsers σ' = noUsers σ := by
  simp only [noUsers, same]

theorem oldestAre_congr (ids : List String) (σ σ' : Store) (same : σ'.users = σ.users) :
    oldestAre ids σ' = oldestAre ids σ := by
  unfold oldestAre oldestFirst
  rw [same]

/-! ### The two arms -/

/-- What a recording call is told of the marker that is stored when it ends, or
of a store without one where its predicate did not hold. -/
def Told (p : Presented) (unmet : Store → Prop) (σ : Store) :
    Except Status KeyIdentityOutcome → Prop
  | .ok outcome => ∃ row, σ.keyIdentity.find? () = some row ∧
      (outcome = .recorded ∧ row = presentedRow p ∨ replayedOrCompared row p = .ok outcome)
  | .error e => (∃ row, σ.keyIdentity.find? () = some row ∧ replayedOrCompared row p = .error e) ∨
      σ.keyIdentity.find? () = none ∧ e.code = .failedPrecondition ∧ unmet σ

/-- What a recording call presents. -/
def setPresented (r : SetKeyIdentityRequest) : Presented :=
  ⟨r.keyFingerprint, r.derivationVersion, r.idempotency.getD ""⟩

def adoptPresented (r : AdoptKeyIdentityRequest) : Presented :=
  ⟨r.keyFingerprint, r.derivationVersion, r.idempotency.getD ""⟩

/-- A commit of a recording call: the marker, or nothing and a comparison. -/
def Marks (p : Presented) (k : Commit Store Write Res Status KeyIdentityOutcome) : Prop :=
  k.writes = [.keyIdentity (presentedRow p)] ∧ k.store.keyIdentity.find? () = none ∧
      k.answer = some (.ok .recorded) ∨
    k.writes = [] ∧ ∃ row outcome, k.store.keyIdentity.find? () = some row ∧
      replayedOrCompared row p = .ok outcome ∧ k.answer = some (.ok outcome)

section
variable {R : Rely Store Write Res} {c : Call} {ℓ : Local Store Write Res}

theorem wp_recordKeyIdentity (quiet : Quiet R) (request : c.request = .setKeyIdentity r) :
    wp R (fun k => Does c .setKeyIdentity k ∧ Marks (setPresented r) k) (recordKeyIdentity r)
      (fun result _ σ _ => presented r.keyFingerprint r.derivationVersion = .ok () →
        fits maxIdempotencyKey (setPresented r).key = true → Told (setPresented r) (fun σ => σ.users.rows ≠ []) σ result) ℓ σ t := by
  unfold recordKeyIdentity
  cases valid : presented r.keyFingerprint r.derivationVersion with
  | error e => exact nofun
  | ok _ =>
    show wp R _ (KeyIdentity.record (setPresented r) noUsers _) _ ℓ σ t
    refine wp_record quiet noUsers_congr ?_ ?_ ?_ ?_ ?_
    · intro ℓ' σ' t' _ met held absent range _
      have empty : σ'.users.rows = [] := by simpa [noUsers] using met
      refine ⟨⟨⟨.mark (presentedRow (setPresented r)), .record request rfl empty absent range rfl
        held, rfl⟩, Or.inl ⟨rfl, absent, rfl⟩⟩,
        fun _ _ => ⟨presentedRow (setPresented r), ?_, Or.inl ⟨rfl, rfl⟩⟩⟩
      exact Table.find?_put_self
    · intro ℓ' σ' t' row outcome _ stored same
      exact ⟨⟨⟨.nothing, .nothing (by simp [request, mayIdle]) nofun, rfl⟩,
        Or.inr ⟨rfl, row, outcome, stored, same, rfl⟩⟩, fun _ _ => ⟨row, stored, Or.inr same⟩⟩
    · exact fun e ℓ' σ' t' row _ stored same _ _ => Or.inl ⟨row, stored, same⟩
    · intro ℓ' σ₁ σ' t' _ somebody _ evolves absent _ _
      refine Or.inr ⟨absent, rfl, fun none => ?_⟩
      obtain ⟨u, there⟩ := List.exists_mem_of_ne_nil σ₁.users.rows (by
        simpa [noUsers] using somebody)
      obtain ⟨u', still, _⟩ := evolves.users.mem there
      rw [Table.mem_def, none] at still
      cases still
    · intro ℓ' σ' t' _ long _ fits
      cases long.symm.trans fits

theorem wp_recordAdoption (quiet : Quiet R) (request : c.request = .adoptKeyIdentity r) :
    wp R (fun k => Does c .adoptKeyIdentity k ∧ Marks (adoptPresented r) k) (recordAdoption r)
      (fun result _ σ _ => presented r.keyFingerprint r.derivationVersion = .ok () →
        evidence r.evidenceUserIds = .ok () → fits maxIdempotencyKey (adoptPresented r).key = true →
          Told (adoptPresented r) (fun _ => True) σ result) ℓ σ t := by
  unfold recordAdoption
  cases valid : presented r.keyFingerprint r.derivationVersion with
  | error e => exact nofun
  | ok _ =>
    cases evident : evidence r.evidenceUserIds with
    | error e => exact fun _ => nofun
    | ok _ =>
      show wp R _ (KeyIdentity.record (adoptPresented r) (oldestAre r.evidenceUserIds) _) _ ℓ σ t
      refine wp_record quiet (oldestAre_congr _) ?_ ?_ ?_ ?_ ?_
      · intro ℓ' σ' t' _ met held absent range _
        refine ⟨⟨⟨.mark (presentedRow (adoptPresented r)), .adopt request rfl evident met absent
          range rfl held, rfl⟩, Or.inl ⟨rfl, absent, rfl⟩⟩,
          fun _ _ _ => ⟨presentedRow (adoptPresented r), ?_, Or.inl ⟨rfl, rfl⟩⟩⟩
        exact Table.find?_put_self
      · intro ℓ' σ' t' row outcome _ stored same
        exact ⟨⟨⟨.nothing, .nothing (by simp [request, mayIdle]) nofun, rfl⟩,
          Or.inr ⟨rfl, row, outcome, stored, same, rfl⟩⟩, fun _ _ _ => ⟨row, stored, Or.inr same⟩⟩
      · exact fun e ℓ' σ' t' row _ stored same _ _ _ => Or.inl ⟨row, stored, same⟩
      · exact fun ℓ' σ₁ σ' t' _ _ _ _ absent _ _ _ => Or.inr ⟨absent, rfl, trivial⟩
      · intro ℓ' σ' t' _ long _ _ fits
        cases long.symm.trans fits

end

end IamDb.KeyIdentityProofs
