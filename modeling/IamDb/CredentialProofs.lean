import IamDb.EpochProofs

/-! Minting, revoking and resolving a credential. A row is inserted or changed
by one statement, at a store where its predicate holds; a mint that matched
nothing is followed by a read only, and whether the person it names turned up
meanwhile is left to the user of the lemma. A resolve reads one snapshot. -/
namespace IamDb.CredentialProofs
open Txn Schema Messages Service Effects Evolution Interference Rules

variable [Engine]

/-! ### Minting -/

/-- A value the insert of a credential cannot store. -/
def Clash (id : String) (r : CreateCredentialRequest) (σ : Store) : Prop :=
  binary32 r.tokenHash = none ∨ fits Credential.maxLabel r.label = false ∨
    (σ.credentials.find? (weight id)).isSome ∨
    ∃ token, binary32 r.tokenHash = some token ∧ (σ.credential? token).isSome

/-- The row a mint inserts. -/
def minted (id : String) (r : CreateCredentialRequest) (u : User) (token : Bytes) (now : Int) :
    Credential :=
  ⟨id, u.id, token, r.label, now, r.expiresAt.bind fromUnixtime, none⟩

/-- What the insert of a credential answers and writes. -/
inductive InsertsCredential (id : String) (r : CreateCredentialRequest) (now : Int) (σ : Store) :
    Except DbError Nat × List Write → Prop where
  | unmatched
      (gone : (σ.user? r.userId).filter (Credential.mintable r.expectedCredentialEpoch) = none) :
    InsertsCredential id r now σ (.ok 0, [])
  | refused (user : σ.user? r.userId = some u)
      (mintable : Credential.mintable r.expectedCredentialEpoch u = true) (clash : Clash id r σ) :
    InsertsCredential id r now σ (.error e, [])
  | done (user : σ.user? r.userId = some u)
      (mintable : Credential.mintable r.expectedCredentialEpoch u = true)
      (stores : binary32 r.tokenHash = some token) (label : fits Credential.maxLabel r.label = true)
      (fresh : σ.credentials.find? (weight id) = none) (unused : σ.credential? token = none) :
    InsertsCredential id r now σ (.ok 1, [.credential (minted id r u token now)])

theorem insertCredential_exec (id : String) (r : CreateCredentialRequest) (now : Int)
    (σ : Store) :
    InsertsCredential id r now σ ((Credential.insertCredential id r).exec now σ) := by
  simp only [Credential.insertCredential]
  cases found : (σ.user? r.userId).filter (Credential.mintable r.expectedCredentialEpoch) with
  | none => exact .unmatched found
  | some u =>
    obtain ⟨user, mintable⟩ := Option.filter_eq_some_iff.mp found
    cases stores : binary32 r.tokenHash with
    | none => exact .refused user mintable (Or.inl stores)
    | some token =>
      dsimp only
      split
      · rename_i long
        exact .refused user mintable (Or.inr (Or.inl (by simpa using long)))
      rename_i label
      split
      · rename_i taken
        exact .refused user mintable (Or.inr (Or.inr (Or.inl taken)))
      rename_i fresh
      split
      · rename_i used
        exact .refused user mintable (Or.inr (Or.inr (Or.inr ⟨token, stores, used⟩)))
      · rename_i unused
        exact .done user mintable stores (by simpa using label) (by simpa using fresh)
          (by simpa using unused)

section
variable {R : Rely Store Write Res} {c : Call} {ℓ : Local Store Write Res}

/-- A mint inserts its row in its first statement, or answers without one. -/
theorem wp_mintCredential {Q : Post Store Write Res Status String}
    (request : c.request = .createCredential r)
    (failed : ∀ e ℓ' σ t, Q (.error e) ℓ' σ t)
    (done : ∀ ℓ' (σ : Store) t u token, σ.user? r.userId = some u →
      Credential.mintable r.expectedCredentialEpoch u = true →
      minted ("yadgar:credential:" ++ c.uuid.text) r u token t ∈ σ.credentials →
      Q (.ok ("yadgar:credential:" ++ c.uuid.text)) ℓ' σ t)
    (passed : ∀ ℓ₁ ℓ₂ (σ₁ σ₂ : Store) t₂, r.expectedCredentialEpoch = none →
      σ₁.liveUser? r.userId = none →
      Drift R ℓ₁ (.auto (selectLiveUser r.userId)) σ₁ σ₂ → (σ₂.liveUser? r.userId).isSome →
      Q (.ok ("yadgar:credential:" ++ c.uuid.text)) ℓ₂ σ₂ t₂) :
    wp R (Does c .createCredential) (Credential.mintCredential c.uuid.text r) Q ℓ σ t := by
  unfold Credential.mintCredential
  dsimp only
  rw [wp_single]
  intro σ₁ t₁ _ _
  have inserts := insertCredential_exec ("yadgar:credential:" ++ c.uuid.text) r t₁ σ₁
  generalize ran : (Credential.insertCredential ("yadgar:credential:" ++ c.uuid.text) r).exec
    t₁ σ₁ = outcome at inserts ⊢
  cases inserts with
  | unmatched gone =>
    refine ⟨fun writes => absurd rfl writes, ?_⟩
    simp only [orElse, wp_ret_bind, if_true]
    refine wp_liveUser_conn (fun _ _ _ _ _ => failed _ _ _ _) fun ℓ₂ σ₂ t₂ drift _ live => ?_
    cases expected : r.expectedCredentialEpoch with
    | some e => exact failed _ _ _ _
    | none =>
      refine passed _ ℓ₂ σ₁ σ₂ t₂ expected ?_ drift live
      simpa [expected, Credential.mintable, Store.liveUser?] using gone
  | refused => exact ⟨fun writes => absurd rfl writes, failed _ _ _ _⟩
  | @done u token user mintable stores label fresh unused =>
    refine ⟨fun _ => ⟨.mintCredential (minted _ r u token t₁),
      .mintCredential request user mintable stores rfl fresh unused ?_ label ?_, rfl⟩, ?_⟩
    · exact ⟨t₁, mem_granted.mpr
        ⟨_, List.mem_append_left _ (mem_userRow user mintable), rfl, rfl⟩⟩
    · exact mem_granted.mpr ⟨_, List.mem_append_left _ (mem_userRow user mintable), rfl, rfl⟩
    · exact done _ _ t₁ u token user mintable Table.mem_put_self

/-! ### Revoking -/

/-- How a revoke is refused. -/
def unrevoked (r : RevokeCredentialRequest) : Status :=
  if r.userId = "" then ⟨.invalidArgument, "a revoke must name the credential's user"⟩
  else ⟨.notFound, "no such credential"⟩

/-- A revoke answers the user id it was sent, of a credential that is there
under the id and the user it names. -/
theorem wp_revoke {Q : Post Store Write Res Status String}
    (request : c.request = .revokeCredential r)
    (failed : ∀ ℓ' σ t, Q (.error (unrevoked r)) ℓ' σ t)
    (done : ∀ ℓ' (σ : Store) t row, row ∈ σ.credentials → row.key = weight r.credentialId →
      weight row.userId = weight r.userId → Q (.ok r.userId) ℓ' σ t) :
    wp R (Does c .revokeCredential) (Credential.revoke r) Q ℓ σ t := by
  unfold Credential.revoke
  split
  · rename_i unnamed
    have refused := failed ℓ σ t
    rw [unrevoked, if_pos unnamed] at refused
    exact refused
  rename_i named
  have failed (ℓ') (σ : Store) (t) : Q (.error ⟨.notFound, "no such credential"⟩) ℓ' σ t := by
    have refused := failed ℓ' σ t
    rw [unrevoked, if_neg named] at refused
    exact refused
  rw [wp_single]
  intro σ₁ t₁ _ _
  cases found : (σ₁.credentials.find? (weight r.credentialId)).filter fun c =>
      weight c.userId = weight r.userId && c.revokedAt.isNone with
  | none =>
    simp only [Credential.updateRevoked, found]
    refine ⟨fun writes => absurd rfl writes, ?_⟩
    rw [if_pos trivial]
    refine wp_conn (fun _ _ => rfl) fun ℓ₂ σ₂ t₂ _ _ => ?_
    cases owned : ((Credential.selectOwned r.credentialId r.userId).exec t₂ σ₂).1 with
    | false => exact failed _ _ _
    | true =>
      obtain ⟨row, holds⟩ := Option.isSome_iff_exists.mp owned
      obtain ⟨stored, owner⟩ := Option.filter_eq_some_iff.mp holds
      obtain ⟨member, named⟩ := Table.find?_eq_some.mp stored
      exact done _ _ _ row member named (of_decide_eq_true owner)
  | some row =>
    obtain ⟨stored, holds⟩ := Option.filter_eq_some_iff.mp found
    simp only [Bool.and_eq_true, decide_eq_true_eq, Option.isNone_iff_eq_none] at holds
    obtain ⟨member, named⟩ := Table.find?_eq_some.mp stored
    simp only [Credential.updateRevoked, found]
    refine ⟨fun _ => ⟨.revokeCredential row t₁,
      .revokeCredential request member named holds.1 holds.2 ?_, rfl⟩, ?_⟩
    · exact mem_granted.mpr ⟨⟨⟨.credential row.key, .exclusive⟩, true⟩,
        by simp [stored, holds, named], rfl, rfl⟩
    exact done _ _ _ (revokedAt t₁ row) Table.mem_put_self named holds.1

/-! ### Resolving -/

/-- The limits set for a user. -/
def limits (σ : Store) (userId : String) : List (String × Int × RateLimit) :=
  (σ.rateLimits.rows.filter fun o => weight o.userId = weight userId).map fun o =>
    (o.module, o.kind, ⟨o.rate, o.burst⟩)

/-- Both levels of a setting, whole. -/
def setting (σ : Store) (settingName : String) : InheritedSetting :=
  let org := ((σ.orgSettings.find? (weight settingName)).map fun s => (s.value, s.locked)).getD
    (0, false)
  ⟨org.1, org.2, (σ.overrides.rows.filter fun s => weight s.name = weight settingName).map fun s =>
    (s.teamId, s.value)⟩

/-- An answer from a credential row, as the transaction's snapshot has it. -/
structure Resolves (r : ResolveCredentialRequest) (snap : Snapshot Store) (row : Schema.Credential)
    (u : User) (a : ResolveCredentialResponse) : Prop where
  token : snap.store.credential? r.tokenHash = some row
  admits : Credential.resolves snap.since snap.store row = true
  user : snap.store.user? row.userId = some u
  credentialId : a.credentialId = row.id
  userId : a.userId = row.userId
  teamIds : a.teamIds = (snap.store.teamMembers.rows.filter fun m =>
    weight m.userId = weight row.userId && (snap.store.liveTeam? m.teamId).isSome).map (·.teamId)
  isAdmin : a.isAdmin =
    if r.adminFromTeam then a.teamIds.any (· = Team.administrators) else u.isAdmin
  rateLimits : a.rateLimitOverrides = limits snap.store row.userId
  setting : a.ownerReadsOwnRecord = some (setting snap.store ownerReadsOwnRecord)

/-- No row answers to the token in the transaction's snapshot. -/
def Unknown (r : ResolveCredentialRequest) (snap : Snapshot Store) : Prop :=
  (snap.store.credential? r.tokenHash).filter (Credential.resolves snap.since snap.store) = none

/-- A resolve reads one snapshot, and answers what it holds at the moment it was
taken. -/
theorem wp_resolve {Q : Post Store Write Res Status ResolveCredentialResponse} (quiet : Quiet R)
    (request : c.request = .resolveCredential r)
    (unknown : ∀ ℓ' σ' t snap, ℓ'.snapshot = some snap → Drifts R σ snap.store → Unknown r snap →
      Q (.ok .default) ℓ' σ' t)
    (known : ∀ ℓ' σ' t snap row u a, ℓ'.snapshot = some snap → Drifts R σ snap.store →
      Resolves r snap row u a → Q (.ok a) ℓ' σ' t) :
    wp R (Does c .resolveCredential) (Credential.resolve r) Q ℓ σ t := by
  unfold Credential.resolve Credential.teamsAndAdmin Credential.ownerReadsOwnRecord
    Credential.readSetting
  simp only [bind_assoc, pure_bind]
  rw [wp_start]
  intro σ₀ t₀ drift₀ _
  refine wp_first quiet rfl rfl rfl (fun _ _ => rfl) fun ℓ₁ σ₁ t₁ drift₁ pass₁ _ taken₁ => ?_
  have drifts : Drifts R σ σ₁ := Relation.ReflTransGen.trans drift₀.drifts drift₁.drifts
  have pending₁ : ℓ₁.pending = [] := by simpa using pass₁.pending
  have iso₁ : ℓ₁.iso = .repeatableRead := pass₁.iso
  simp only [Credential.selectCredential, Local.opened_pending, applyAll_nil]
  cases found : (σ₁.credential? r.tokenHash).filter (Credential.resolves t₁ σ₁) with
  | none => exact unknown _ _ _ _ taken₁ drifts found
  | some row =>
    obtain ⟨token, admits⟩ := Option.filter_eq_some_iff.mp found
    cases owner : σ₁.user? row.userId with
    | none => simp [Credential.resolves, Store.liveUser?, owner] at admits
    | some u =>
      simp only [Option.bind_some, Option.map_some, owner]
      refine wp_frozen taken₁ iso₁ rfl (fun _ _ => rfl) fun ℓ₂ σ₂ t₂ pending₂ iso₂ taken₂ _ => ?_
      refine wp_frozen taken₂ (iso₂.trans iso₁) rfl (fun _ _ => rfl)
        fun ℓ₃ σ₃ t₃ pending₃ iso₃ taken₃ _ => ?_
      refine wp_frozen taken₃ (iso₃.trans (iso₂.trans iso₁)) rfl (fun _ _ => rfl)
        fun ℓ₄ σ₄ t₄ pending₄ iso₄ taken₄ _ => ?_
      refine wp_frozen taken₄ (iso₄.trans (iso₃.trans (iso₂.trans iso₁))) rfl (fun _ _ => rfl)
        fun ℓ₅ σ₅ t₅ pending₅ _ taken₅ _ => ?_
      have pending : ℓ₅.pending = [] := by
        rw [pending₅, pending₄, pending₃, pending₂, pending₁]
      rw [wp_finish]
      intro σ₆ t₆ _ _
      refine ⟨⟨.nothing, .nothing (by simp [request, mayIdle]) (by rintro _ ⟨⟩), ?_⟩, ?_⟩
      · rw [Commit.result, pending]
        rfl
      · have view₄ : applyAll ℓ₄.pending σ₁ = σ₁ := by
          rw [pending₄, pending₃, pending₂, pending₁, applyAll_nil]
        refine known _ _ _ ⟨σ₁, t₁⟩ row u _ taken₅ drifts
          ⟨token, admits, owner, rfl, rfl, ?_, rfl, ?_, ?_⟩
        · simp only [pending₁, applyAll_nil]
          rfl
        · simp only [pending₂, pending₁, applyAll_nil]
          rfl
        · simp only [view₄, pending₃, pending₂, pending₁, applyAll_nil]
          rfl

end

end IamDb.CredentialProofs
