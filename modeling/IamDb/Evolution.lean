import IamDb.Effects

/-! What no commit ever takes back, and what the tables always satisfy. Rows
of people, credentials, enrolments and ledgers stay; a credential is revoked
once, an enrolment ends once and an epoch only grows. -/
namespace IamDb.Evolution
open Txn Schema Messages Service Effects

/-! ### Rows -/

/-- A user row and the same row later. -/
structure UserLater (u u' : User) : Prop where
  id : u'.id = u.id
  externalId : u'.externalId = u.externalId
  deletedAt : u'.deletedAt = u.deletedAt
  epoch : u.credentialEpoch ≤ u'.credentialEpoch

/-- A credential row and the same row later. -/
structure CredentialLater (c c' : Credential) : Prop where
  id : c'.id = c.id
  userId : c'.userId = c.userId
  tokenHash : c'.tokenHash = c.tokenHash
  expiresAt : c'.expiresAt = c.expiresAt
  revoked : c.revokedAt ≠ none → c' = c
  live : c'.revokedAt = none → c' = c

/-- An enrolment row and the same row later. -/
structure EnrolmentLater (e e' : Enrolment) : Prop where
  id : e'.id = e.id
  userId : e'.userId = e.userId
  secretHash : e'.secretHash = e.secretHash
  expiresAt : e'.expiresAt = e.expiresAt
  flag : e'.revokeExistingCredentials = e.revokeExistingCredentials
  ended : e.spentAt ≠ none ∨ e.voidedAt ≠ none → e' = e
  unended : e'.spentAt = none → e'.voidedAt = none → e' = e
  oneEnd : e.spentAt = none ∨ e.voidedAt = none → e'.spentAt = none ∨ e'.voidedAt = none

theorem UserLater.refl (u : User) : UserLater u u := ⟨rfl, rfl, rfl, Nat.le_refl _⟩

theorem UserLater.trans (first : UserLater u u') (second : UserLater u' u'') : UserLater u u'' :=
  ⟨second.id.trans first.id, second.externalId.trans first.externalId,
    second.deletedAt.trans first.deletedAt, first.epoch.trans second.epoch⟩

theorem userLater_bumped (u : User) : UserLater u (bumped u) := ⟨rfl, rfl, rfl, Nat.le_succ _⟩

theorem CredentialLater.refl (c : Credential) : CredentialLater c c :=
  ⟨rfl, rfl, rfl, rfl, fun _ => rfl, fun _ => rfl⟩

theorem CredentialLater.trans (first : CredentialLater c c') (second : CredentialLater c' c'') :
    CredentialLater c c'' := by
  refine ⟨second.id.trans first.id, second.userId.trans first.userId,
    second.tokenHash.trans first.tokenHash, second.expiresAt.trans first.expiresAt, ?_, ?_⟩
  · intro revoked
    have same := first.revoked revoked
    subst same
    exact second.revoked revoked
  · intro live
    have same := second.live live
    subst same
    exact first.live live

theorem EnrolmentLater.refl (e : Enrolment) : EnrolmentLater e e :=
  ⟨rfl, rfl, rfl, rfl, rfl, fun _ => rfl, fun _ _ => rfl, fun one => one⟩

theorem EnrolmentLater.trans (first : EnrolmentLater e e') (second : EnrolmentLater e' e'') :
    EnrolmentLater e e'' := by
  refine ⟨second.id.trans first.id, second.userId.trans first.userId,
    second.secretHash.trans first.secretHash, second.expiresAt.trans first.expiresAt,
    second.flag.trans first.flag, ?_, ?_, fun one => second.oneEnd (first.oneEnd one)⟩
  · intro ended
    have same := first.ended ended
    subst same
    exact second.ended ended
  · intro unspent unvoided
    have same := second.unended unspent unvoided
    subst same
    exact first.unended unspent unvoided

theorem credentialLater_revokedAt {c : Credential} (live : c.revokedAt = none) :
    CredentialLater c (revokedAt now c) :=
  ⟨rfl, rfl, rfl, rfl, fun revoked => absurd live revoked, nofun⟩

theorem enrolmentLater_spentAt {e : Enrolment} (unspent : e.spentAt = none)
    (unvoided : e.voidedAt = none) : EnrolmentLater e (spentAt now e) :=
  ⟨rfl, rfl, rfl, rfl, rfl, fun ended => by simp [unspent, unvoided] at ended, nofun,
    fun _ => Or.inr unvoided⟩

theorem enrolmentLater_voidedAt {e : Enrolment} (unspent : e.spentAt = none)
    (unvoided : e.voidedAt = none) : EnrolmentLater e (voidedAt now e) :=
  ⟨rfl, rfl, rfl, rfl, rfl, fun ended => by simp [unspent, unvoided] at ended, nofun,
    fun _ => Or.inl unspent⟩

/-! ### Tables -/

variable [Engine]

/-- What every later store keeps of an earlier one. -/
structure Evolves (σ σ' : Store) : Prop where
  users : Table.Persists UserLater σ.users σ'.users
  passwords : Table.Persists (fun _ _ => True) σ.passwords σ'.passwords
  teams : Table.Persists (fun _ _ => True) σ.teams σ'.teams
  credentials : Table.Persists CredentialLater σ.credentials σ'.credentials
  enrolments : Table.Persists EnrolmentLater σ.enrolments σ'.enrolments
  redemptions : Table.Persists Eq σ.redemptions σ'.redemptions
  settingWrites : Table.Persists Eq σ.settingWrites σ'.settingWrites
  keyIdentity : Table.Persists Eq σ.keyIdentity σ'.keyIdentity

theorem Evolves.refl (σ : Store) : Evolves σ σ :=
  ⟨.refl .refl, .refl fun _ => trivial, .refl fun _ => trivial, .refl .refl, .refl .refl,
    .refl fun _ => rfl, .refl fun _ => rfl, .refl fun _ => rfl⟩

theorem Evolves.trans (first : Evolves σ σ') (second : Evolves σ' σ'') : Evolves σ σ'' :=
  ⟨.trans (fun _ _ _ => .trans) first.users second.users,
    .trans (fun _ _ _ _ _ => trivial) first.passwords second.passwords,
    .trans (fun _ _ _ _ _ => trivial) first.teams second.teams,
    .trans (fun _ _ _ => .trans) first.credentials second.credentials,
    .trans (fun _ _ _ => .trans) first.enrolments second.enrolments,
    .trans (fun _ _ _ => .trans) first.redemptions second.redemptions,
    .trans (fun _ _ _ => .trans) first.settingWrites second.settingWrites,
    .trans (fun _ _ _ => .trans) first.keyIdentity second.keyIdentity⟩

theorem persists_revoked (t : Table Credential.key) :
    Table.Persists CredentialLater t (t.update (liveOf user) (revokedAt now)) := by
  refine Table.persists_update .refl (fun _ => rfl) fun c selected => ?_
  simp only [liveOf, Bool.and_eq_true, Option.isNone_iff_eq_none] at selected
  exact credentialLater_revokedAt selected.2

theorem persists_voided (t : Table Enrolment.key) :
    Table.Persists EnrolmentLater t (t.update (openOf user) (voidedAt now)) := by
  refine Table.persists_update .refl (fun _ => rfl) fun e selected => ?_
  simp only [openOf, Bool.and_eq_true, Option.isNone_iff_eq_none] at selected
  exact enrolmentLater_voidedAt selected.1.2 selected.2

private theorem evolves_setting {σ : Store}
    (fresh : ∀ w, claim = some w → σ.settingWrites.find? w.key = none) :
    Evolves σ ((Effect.setting level claim).apply σ) := by
  have same := Evolves.refl σ
  cases level <;> cases claim with
  | none => exact { same with }
  | some w =>
    exact { same with settingWrites := Table.persists_put_new (fun _ => rfl) (fresh w rfl) }

theorem persists_synced {teams after : Table Team.key}
    (kept : ∀ t ∈ teams, ∃ t' ∈ after, t'.id = t.id ∧ t'.name = t.name) :
    Table.Persists (fun _ _ => True) teams after := by
  intro key t found
  obtain ⟨stored, rfl⟩ := Table.find?_eq_some.mp found
  obtain ⟨t', there, id, _⟩ := kept t stored
  have here : t'.key = t.key := congrArg weight id
  exact ⟨t', here ▸ Table.find?_of_mem there, trivial⟩

theorem Evolves.team? (evolves : Evolves σ σ') (there : (σ.team? teamId).isSome) :
    (σ'.team? teamId).isSome := by
  obtain ⟨t, found⟩ := Option.isSome_iff_exists.mp there
  obtain ⟨t', found', _⟩ := evolves.teams _ _ found
  exact Option.isSome_iff_exists.mpr ⟨t', found'⟩

/-- Every effect a call may have keeps what is kept. -/
theorem evolves_of_allowed {c : Call} {k : Committed} (allowed : Allowed c k ef) :
    Evolves k.store (ef.apply k.store) := by
  have same := Evolves.refl k.store
  cases allowed with
  | nothing => exact same
  | createUser _ _ _ absent => exact { same with users := Table.persists_put_new .refl absent }
  | bootstrap _ _ _ _ absent => exact { same with users := Table.persists_put_new .refl absent }
  | redeem _ enrolment _ unspent unvoided _ _ owner _ _ _ _ fresh =>
    have spent (now : Int) := Table.persists_put EnrolmentLater.refl enrolment
      (spentAt_key _) (enrolmentLater_spentAt unspent unvoided : EnrolmentLater _ (spentAt now _))
    refine ⟨?_, Table.persists_put_any, same.teams, ?_, ?_, ?_, same.settingWrites, same.keyIdentity⟩
    · exact Table.persists_put .refl (Store.user?_mem owner).1 rfl (userLater_bumped _)
    · simp only [Effect.apply]
      split
      · exact persists_revoked _
      · exact same.credentials
    · simp only [Effect.apply]
      split
      · exact .trans (fun _ _ _ => .trans) (spent _) (persists_voided _)
      · exact spent _
    · simp only [Effect.apply]
      split
      · exact Table.persists_put_new (fun _ => rfl) (fresh _ rfl)
      · exact same.redemptions
  | revokeAll _ user =>
    exact { same with
      users := Table.persists_put .refl (Store.user?_mem user).1 rfl (userLater_bumped _)
      credentials := persists_revoked _
      enrolments := persists_voided _ }
  | setPassword _ user =>
    exact { same with
      users := Table.persists_put .refl (Store.user?_mem user).1 rfl (userLater_bumped _)
      passwords := Table.persists_put_any }
  | mintCredential _ _ _ _ _ fresh =>
    exact { same with credentials := Table.persists_put_new .refl fresh }
  | revokeCredential _ stored _ _ unrevoked =>
    exact { same with
      credentials := Table.persists_put .refl stored rfl (credentialLater_revokedAt unrevoked) }
  | mintEnrolment _ _ _ _ _ fresh =>
    exact { same with enrolments := Table.persists_put_new .refl fresh }
  | setAdmin _ user =>
    exact { same with
      users := Table.persists_put .refl (Store.user?_mem user).1 rfl ⟨rfl, rfl, rfl, Nat.le_refl _⟩ }
  | setRateLimit => exact { same with }
  | clearRateLimit => exact { same with }
  | setting _ _ fresh => exact evolves_setting fun w same => (fresh w same).2.2
  | sync _ _ synced => exact { same with teams := persists_synced synced.kept }
  | record _ _ _ absent => exact { same with keyIdentity := Table.persists_put_new (fun _ => rfl) absent }
  | adopt _ _ _ _ absent => exact { same with keyIdentity := Table.persists_put_new (fun _ => rfl) absent }

/-! ### Where rows come from -/

section
variable {c : Call} {k : Committed}

private theorem voided_origin {t : Table Enrolment.key}
    (member : e' ∈ t.update (openOf user) (voidedAt now)) : ∃ e ∈ t, EnrolmentLater e e' := by
  obtain ⟨e, stored, rfl⟩ := (Table.mem_update (f := voidedAt now) fun _ => rfl).mp member
  refine ⟨e, stored, ?_⟩
  split
  · rename_i selected
    simp only [openOf, Bool.and_eq_true, Option.isNone_iff_eq_none] at selected
    exact enrolmentLater_voidedAt selected.1.2 selected.2
  · exact .refl e

private theorem spent_origin {t : Table Enrolment.key} (stored : e ∈ t)
    (unspent : e.spentAt = none) (unvoided : e.voidedAt = none)
    (member : e' ∈ t.put (spentAt now e)) : ∃ e ∈ t, EnrolmentLater e e' := by
  rcases Table.mem_put.mp member with rfl | ⟨before, _⟩
  · exact ⟨e, stored, enrolmentLater_spentAt unspent unvoided⟩
  · exact ⟨e', before, .refl e'⟩

private theorem revoked_origin {t : Table Credential.key}
    (member : r' ∈ t.update (liveOf user) (revokedAt now)) : ∃ r ∈ t, CredentialLater r r' := by
  obtain ⟨r, stored, rfl⟩ := (Table.mem_update (f := revokedAt now) fun _ => rfl).mp member
  refine ⟨r, stored, ?_⟩
  split
  · rename_i selected
    simp only [liveOf, Bool.and_eq_true, Option.isNone_iff_eq_none] at selected
    exact credentialLater_revokedAt selected.2
  · exact .refl r

/-- A user row was there before, or a `CreateUser` has just written it. -/
theorem user_origin (allowed : Allowed c k ef) (member : u' ∈ (ef.apply k.store).users) :
    (∃ u ∈ k.store.users, UserLater u u') ∨
      (ef = .createUser u' ∨ ef = .bootstrap u') ∧ k.store.user? u'.id = none := by
  have old (u : User) (stored : u ∈ k.store.users) (now : u' = u) :
      ∃ u ∈ k.store.users, UserLater u u' := ⟨u, stored, now ▸ .refl u⟩
  have changed {u u₁ : User} (stored : u ∈ k.store.users) (later : UserLater u u₁)
      (put : u' ∈ k.store.users.put u₁) : ∃ u ∈ k.store.users, UserLater u u' := by
    rcases Table.mem_put.mp put with rfl | ⟨before, _⟩
    · exact ⟨u, stored, later⟩
    · exact old u' before rfl
  cases allowed with
  | createUser _ _ _ absent =>
    rcases Table.mem_put.mp member with rfl | ⟨before, _⟩
    · exact Or.inr ⟨Or.inl rfl, absent⟩
    · exact Or.inl (old u' before rfl)
  | bootstrap _ _ _ _ absent =>
    rcases Table.mem_put.mp member with rfl | ⟨before, _⟩
    · exact Or.inr ⟨Or.inr rfl, absent⟩
    · exact Or.inl (old u' before rfl)
  | redeem _ _ _ _ _ _ _ owner =>
    exact Or.inl (changed (Store.user?_mem owner).1 (userLater_bumped _) member)
  | revokeAll _ user =>
    exact Or.inl (changed (Store.user?_mem user).1 (userLater_bumped _) member)
  | setPassword _ user =>
    exact Or.inl (changed (Store.user?_mem user).1 (userLater_bumped _) member)
  | setAdmin _ user =>
    rcases Table.mem_put.mp member with rfl | ⟨before, _⟩
    · exact Or.inl ⟨_, (Store.user?_mem user).1, ⟨rfl, rfl, rfl, Nat.le_refl _⟩⟩
    · exact Or.inl (old u' before rfl)
  | @setting _ level claim =>
    cases level <;> cases claim <;> exact Or.inl (old u' member rfl)
  | _ => exact Or.inl (old u' member rfl)

/-- A credential row was there before, or has just been minted. -/
theorem credential_origin (allowed : Allowed c k ef)
    (member : r' ∈ (ef.apply k.store).credentials) :
    (∃ r ∈ k.store.credentials, CredentialLater r r') ∨ ef = .mintCredential r' := by
  have old (stored : r' ∈ k.store.credentials) :
      (∃ r ∈ k.store.credentials, CredentialLater r r') ∨ ef = .mintCredential r' :=
    Or.inl ⟨r', stored, .refl r'⟩
  cases allowed with
  | redeem =>
    simp only [Effect.apply] at member
    split at member
    · exact Or.inl (revoked_origin member)
    · exact old member
  | revokeAll => exact Or.inl (revoked_origin member)
  | mintCredential =>
    rcases Table.mem_put.mp member with rfl | ⟨before, _⟩
    · exact Or.inr rfl
    · exact old before
  | revokeCredential _ stored _ _ unrevoked =>
    rcases Table.mem_put.mp member with rfl | ⟨before, _⟩
    · exact Or.inl ⟨_, stored, credentialLater_revokedAt unrevoked⟩
    · exact old before
  | @setting _ level claim => cases level <;> cases claim <;> exact old member
  | _ => exact old member

/-- An enrolment row was there before, or has just been minted. -/
theorem enrolment_origin (allowed : Allowed c k ef)
    (member : e' ∈ (ef.apply k.store).enrolments) :
    (∃ e ∈ k.store.enrolments, EnrolmentLater e e') ∨ ef = .mintEnrolment e' := by
  have old (stored : e' ∈ k.store.enrolments) :
      (∃ e ∈ k.store.enrolments, EnrolmentLater e e') ∨ ef = .mintEnrolment e' :=
    Or.inl ⟨e', stored, .refl e'⟩
  cases allowed with
  | redeem _ enrolment _ unspent unvoided =>
    simp only [Effect.apply] at member
    split at member
    · obtain ⟨x, put, later⟩ := voided_origin member
      obtain ⟨e, stored, first⟩ := spent_origin enrolment unspent unvoided put
      exact Or.inl ⟨e, stored, first.trans later⟩
    · exact Or.inl (spent_origin enrolment unspent unvoided member)
  | revokeAll => exact Or.inl (voided_origin member)
  | mintEnrolment =>
    rcases Table.mem_put.mp member with rfl | ⟨before, _⟩
    · exact Or.inr rfl
    · exact old before
  | @setting _ level claim => cases level <;> cases claim <;> exact old member
  | _ => exact old member

/-- A ledger row was there before, or a redemption has just written it. -/
theorem redemption_origin (allowed : Allowed c k ef)
    (member : row ∈ (ef.apply k.store).redemptions) :
    row ∈ k.store.redemptions ∨
      ∃ e u p spent revoked voided, ef = .redeem e u p (some row) spent revoked voided := by
  cases allowed with
  | redeem =>
    simp only [Effect.apply] at member
    split at member
    · rcases Table.mem_put.mp member with rfl | ⟨before, _⟩
      · exact Or.inr ⟨_, _, _, _, _, _, rfl⟩
      · exact Or.inl before
    · exact Or.inl member
  | @setting _ level claim => cases level <;> cases claim <;> exact Or.inl member
  | _ => exact Or.inl member

/-- A member of a team was one before, or names a person who is there now. -/
theorem member_origin (allowed : Allowed c k ef) (member : m ∈ (ef.apply k.store).teamMembers) :
    m ∈ k.store.teamMembers ∨ ((ef.apply k.store).user? m.userId).isSome := by
  cases allowed with
  | bootstrap _ _ _ new =>
    rcases Table.mem_put.mp member with rfl | ⟨before, _⟩
    · refine Or.inr ?_
      simp [Effect.apply, Store.user?, Table.find?_put, User.key]
    · exact Or.inl before
  | sync _ _ synced =>
    rcases synced.listed m member with ⟨_, _, _, _, known⟩ | ⟨before, _⟩
    · exact Or.inr known
    · exact Or.inl before
  | @setting _ level claim => cases level <;> cases claim <;> exact Or.inl member
  | _ => exact Or.inl member

end

/-! ### Integrity -/

/-- What the constraints of the schema and the verbs keep of every store. -/
structure Integrity (σ : Store) : Prop where
  secrets : ∀ e ∈ σ.enrolments, ∀ e' ∈ σ.enrolments, e.secretHash = e'.secretHash → e = e'
  width : ∀ e ∈ σ.enrolments, e.secretHash.length = 32
  oneEnd : ∀ e ∈ σ.enrolments, e.spentAt = none ∨ e.voidedAt = none
  enrolmentOwner : ∀ e ∈ σ.enrolments, (σ.user? e.userId).isSome
  credentialOwner : ∀ r ∈ σ.credentials, ∃ u, σ.user? r.userId = some u ∧ u.id = r.userId
  memberUser : ∀ m ∈ σ.teamMembers, (σ.user? m.userId).isSome
  redeemed : ∀ row ∈ σ.redemptions, ∃ e ∈ σ.enrolments, e.id = row.enrolmentId ∧
    e.secretHash = row.secretHash ∧ e.userId = row.userId ∧ e.spentAt ≠ none
  epoch : ∀ row ∈ σ.redemptions, ∃ u, σ.user? row.userId = some u ∧
    row.credentialEpoch ≤ u.credentialEpoch

/-- A row an id names stays the row it names. -/
theorem Evolves.user? (evolves : Evolves σ σ') (found : σ.user? userId = some u) :
    ∃ u', σ'.user? userId = some u' ∧ UserLater u u' :=
  evolves.users _ u found

theorem Evolves.user?_isSome (evolves : Evolves σ σ') (found : (σ.user? userId).isSome) :
    (σ'.user? userId).isSome := by
  obtain ⟨u, found⟩ := Option.isSome_iff_exists.mp found
  obtain ⟨u', found', _⟩ := evolves.user? found
  simp [found']

section
variable {c : Call} {k : Committed}

private theorem minted_enrolment (allowed : Allowed c k (.mintEnrolment row)) :
    row.secretHash.length = 32 ∧ (∀ e ∈ k.store.enrolments, e.secretHash ≠ row.secretHash) ∧
      (k.store.user? row.userId).isSome := by
  cases allowed with
  | mintEnrolment _ user _ stores new _ unused =>
    subst new
    refine ⟨length_binary32 stores, ?_, ?_⟩
    · simpa [Store.enrolment?, Table.mem_def] using unused
    · simp [Store.user?_self (Store.user?_mem user).1]

private theorem secrets_kept (inv : Integrity k.store) (allowed : Allowed c k ef) :
    ∀ e ∈ (ef.apply k.store).enrolments, ∀ e' ∈ (ef.apply k.store).enrolments,
      e.secretHash = e'.secretHash → e = e' := by
  intro e member e' member' same
  rcases enrolment_origin allowed member with ⟨e₀, stored, later⟩ | new <;>
    rcases enrolment_origin allowed member' with ⟨e₁, stored', later'⟩ | new'
  · have same₀ : e₀ = e₁ := inv.secrets e₀ stored e₁ stored'
      (later.secretHash.symm.trans (same.trans later'.secretHash))
    subst same₀
    exact Table.eq_of_key member member' (by simp [Enrolment.key, later.id, later'.id])
  · subst new'
    exact absurd (later.secretHash.symm.trans same) ((minted_enrolment allowed).2.1 e₀ stored)
  · subst new
    exact absurd (later'.secretHash.symm.trans same.symm) ((minted_enrolment allowed).2.1 e₁ stored')
  · rw [new] at new'
    cases new'
    rfl

private theorem credentials_kept (inv : Integrity k.store) (allowed : Allowed c k ef) :
    ∀ r ∈ (ef.apply k.store).credentials,
      ∃ u, (ef.apply k.store).user? r.userId = some u ∧ u.id = r.userId := by
  have evolves := evolves_of_allowed allowed
  intro r member
  rcases credential_origin allowed member with ⟨r₀, stored, later⟩ | rfl
  · obtain ⟨u, owner, named⟩ := inv.credentialOwner r₀ stored
    obtain ⟨u', owner', after⟩ := evolves.user? owner
    exact ⟨u', later.userId ▸ owner', by rw [after.id, named, later.userId]⟩
  · cases allowed with
    | mintCredential _ user _ _ new =>
      subst new
      obtain ⟨u', owner', after⟩ := evolves.user? (Store.user?_self (Store.user?_mem user).1)
      exact ⟨u', owner', after.id⟩

private theorem redemptions_kept (inv : Integrity k.store) (allowed : Allowed c k ef) :
    ∀ row ∈ (ef.apply k.store).redemptions,
      (∃ e ∈ (ef.apply k.store).enrolments, e.id = row.enrolmentId ∧
        e.secretHash = row.secretHash ∧ e.userId = row.userId ∧ e.spentAt ≠ none) ∧
      ∃ u, (ef.apply k.store).user? row.userId = some u ∧
        row.credentialEpoch ≤ u.credentialEpoch := by
  have evolves := evolves_of_allowed allowed
  intro row member
  rcases redemption_origin allowed member with stored | ⟨e, u, p, spent, revoked, voided, rfl⟩
  · obtain ⟨e, kept, named, secret, owner, ended⟩ := inv.redeemed row stored
    obtain ⟨e', member', _, later⟩ := evolves.enrolments.mem kept
    obtain ⟨u, found, bound⟩ := inv.epoch row stored
    obtain ⟨u', found', after⟩ := evolves.user? found
    refine ⟨⟨e', member', later.id.trans named, later.secretHash.trans secret,
      later.userId.trans owner, ?_⟩, u', found', bound.trans after.epoch⟩
    rw [later.ended (Or.inl ended)]
    exact ended
  · cases allowed with
    | redeem _ enrolment _ unspent unvoided _ _ owner _ _ _ recorded =>
      split at recorded
      · cases recorded
      · cases recorded
        refine ⟨⟨spentAt spent e, ?_, rfl, rfl, rfl, nofun⟩, bumped u, ?_, Nat.le_refl _⟩
        · simp only [Effect.apply]
          split
          · exact (Table.mem_update (f := voidedAt voided) fun _ => rfl).mpr
              ⟨_, Table.mem_put_self, by simp [openOf, spentAt]⟩
          · exact Table.mem_put_self
        · have here : weight e.userId = u.key := (Store.user?_mem owner).2.symm
          simp [Effect.apply, Store.user?, here, Table.find?_put]

/-- Every effect a call may have keeps the store whole. -/
theorem integrity_of_allowed (inv : Integrity k.store) (allowed : Allowed c k ef) :
    Integrity (ef.apply k.store) where
  secrets := secrets_kept inv allowed
  width e member := by
    rcases enrolment_origin allowed member with ⟨e₀, stored, later⟩ | rfl
    · exact later.secretHash ▸ inv.width e₀ stored
    · exact (minted_enrolment allowed).1
  oneEnd e member := by
    rcases enrolment_origin allowed member with ⟨e₀, stored, later⟩ | rfl
    · exact later.oneEnd (inv.oneEnd e₀ stored)
    · cases allowed with
      | mintEnrolment _ _ _ _ new => exact Or.inl (by rw [new])
  enrolmentOwner e member := by
    have evolves := evolves_of_allowed allowed
    rcases enrolment_origin allowed member with ⟨e₀, stored, later⟩ | rfl
    · exact evolves.user?_isSome (later.userId ▸ inv.enrolmentOwner e₀ stored)
    · exact evolves.user?_isSome (minted_enrolment allowed).2.2
  credentialOwner := credentials_kept inv allowed
  memberUser m member := by
    rcases member_origin allowed member with stored | known
    · exact (evolves_of_allowed allowed).user?_isSome (inv.memberUser m stored)
    · exact known
  redeemed row member := (redemptions_kept inv allowed row member).1
  epoch row member := (redemptions_kept inv allowed row member).2

end

theorem integrity_migrated : Integrity migrated := by
  constructor <;> intro _ member <;> cases member

end IamDb.Evolution
