import IamDb.ServiceProofs
import IamDb.Txn.History

/-! How each verb ends. Whatever a call commits it commits as its last step and
answers with, and the calls that are one transaction answer success with
nothing less. -/
namespace IamDb.Endings
open Txn Schema Messages Service Handlers Prog

variable [Engine]

/-! ### Parts of a transaction -/

@[simp] theorem inner_orElse : (orElse e r : Rpc ρ).Inner := by
  cases r <;> trivial

theorem inner_liveUser : (liveUser tx userId).Inner := by
  unfold liveUser
  rw [inner_query]
  intro live
  cases live <;> trivial

theorem inner_liveTeam : (liveTeam tx teamId).Inner := by
  unfold liveTeam
  rw [inner_query]
  intro live
  cases live <;> trivial

theorem inner_revokeAll : (Epoch.revokeAll userId).Inner := by
  unfold Epoch.revokeAll
  rw [inner_query]
  intro user
  cases user
  · trivial
  · exact fun _ => trivial

theorem inner_current : (Epoch.current userId).Inner := by
  unfold Epoch.current
  rw [inner_query]
  exact fun _ => inner_orElse

theorem inner_voidEnrolments : (Epoch.voidEnrolments userId).Inner := fun _ => trivial

theorem inner_replay : (Enrolment.replay key presented lock).Inner := by
  unfold Enrolment.replay
  rw [inner_query]
  intro prior
  cases prior with
  | none => trivial
  | some prior =>
    dsimp only
    split
    · trivial
    · rw [inner_query]
      refine fun _ => inner_orElse.bind fun _ => ?_
      rw [inner_query]
      exact fun _ => inner_orElse.bind fun _ => trivial

theorem inner_lockOwner : (Enrolment.lockOwner secret).Inner := by
  unfold Enrolment.lockOwner
  rw [inner_query]
  intro owner
  cases owner
  · trivial
  · exact fun _ => trivial

theorem inner_unredeemable : (Enrolment.unredeemable secret).Inner := by
  unfold Enrolment.unredeemable
  rw [inner_query]
  intro row
  split <;> trivial

theorem inner_predicate : (Identity.predicate userId).Inner := by
  unfold Identity.predicate Team.lockAdministrators Team.liveAdministrators
  rw [inner_query]
  intro live
  split
  · trivial
  · rw [inner_query]
    intro n
    split
    · trivial
    · rw [inner_query]
      intro taken
      cases taken
      · exact fun _ => trivial
      · trivial

theorem inner_demand : (Enrolment.predicate userId).Inner := by
  unfold Enrolment.predicate Team.lockAdministrators
  rw [inner_query]
  intro live
  split
  · trivial
  · rw [inner_query]
    intro found
    cases found
    · trivial
    · intro member
      cases member
      · trivial
      · exact fun _ => trivial

theorem inner_recorded : (Setting.recorded key lock).Inner := fun _ => trivial

theorem inner_alreadyRecorded : (Setting.Claim.alreadyRecorded claim).Inner := by
  unfold Setting.Claim.alreadyRecorded
  split
  · trivial
  · refine inner_recorded.bind fun prior => ?_
    cases prior with
    | none => trivial
    | some prior => exact inner_lift.bind fun _ => trivial

theorem inner_recordClaim : (Setting.recordClaim claim).Inner := by
  unfold Setting.recordClaim
  split
  · trivial
  · rw [inner_query]
    intro done
    cases done with
    | ok _ => trivial
    | error e =>
      dsimp only
      split
      · trivial
      · refine inner_recorded.bind fun prior => ?_
        cases prior with
        | none => trivial
        | some prior => exact inner_lift

theorem inner_writeAtScope : (Setting.writeAtScope r scope).Inner := by
  unfold Setting.writeAtScope Setting.setTeamOverride
  split
  · exact fun _ => inner_orElse
  · exact fun _ => inner_orElse
  · rw [inner_query]
    refine fun _ => inner_orElse.bind fun done => ?_
    split
    · exact inner_liveTeam.bind fun _ => trivial
    · trivial

theorem inner_readSetting : (Credential.readSetting name).Inner := fun _ _ => trivial

theorem inner_teamsAndAdmin : (Credential.teamsAndAdmin userId fromTeam column).Inner :=
  fun _ => trivial

theorem inner_outcomeOf : (KeyIdentity.outcomeOf attempt p).Inner := by
  have compared : (KeyIdentity.againstTheStoredMarker p).Inner := by
    unfold KeyIdentity.againstTheStoredMarker
    rw [inner_query]
    intro stored
    cases stored with
    | none => trivial
    | some stored => exact inner_lift.bind fun _ => trivial
  unfold KeyIdentity.outcomeOf
  split
  · trivial
  · exact compared
  · split
    · exact compared
    · trivial

/-! ### Loops of a sync -/

theorem inner_knownUsers : (Team.knownUsers members known).Inner := by
  induction members generalizing known with
  | nil => trivial
  | cons m rest ih =>
    rw [Team.knownUsers]
    split
    · exact ih
    · exact fun _ => ih

theorem inner_openTeams : (Team.openTeams stored declared progress).Inner := by
  induction declared generalizing progress with
  | nil => trivial
  | cons team rest ih =>
    rw [Team.openTeams]
    split
    · refine Inner.bind ?_ fun _ => ih
      unfold Team.insertTeam
      rw [inner_query]
      intro done
      cases done <;> trivial
    · exact fun _ => ih.bind fun _ => trivial
    · exact ih

theorem inner_archiveTeams : (Team.archiveTeams declared stored progress).Inner := by
  induction stored generalizing progress with
  | nil => trivial
  | cons entry rest ih =>
    rw [Team.archiveTeams]
    split
    · exact ih
    · exact fun _ _ => ih

theorem inner_removeMembers : (Team.removeMembers teamId gone progress).Inner := by
  induction gone generalizing progress with
  | nil => trivial
  | cons m rest ih =>
    rw [Team.removeMembers]
    exact fun _ => ih

theorem inner_addMembers : (Team.addMembers teamId new progress).Inner := by
  induction new generalizing progress with
  | nil => trivial
  | cons m rest ih =>
    rw [Team.addMembers, inner_query]
    exact fun _ => inner_orElse.bind fun _ => ih

theorem inner_writeAllMembers :
    (Team.writeAllMembers known reactivated declared progress).Inner := by
  induction declared generalizing progress with
  | nil => trivial
  | cons team rest ih =>
    rw [Team.writeAllMembers]
    refine Inner.bind ?_ fun _ => ih
    unfold Team.writeMembers
    rw [inner_query]
    exact fun _ => inner_removeMembers.bind fun _ => inner_addMembers

theorem inner_replacePending : (Team.replacePending pending).Inner := by
  unfold Team.replacePending
  rw [inner_query]
  intro _
  induction pending with
  | nil => trivial
  | cons p rest ih =>
    rw [Team.insertAllPending, inner_query]
    exact fun _ => inner_orElse.bind fun _ => ih

/-! ### One transaction -/

theorem atomic_lift {f : β → Rpc α} (rest : ∀ b, (f b).Atomic) : (lift d >>= f).Atomic :=
  Atomic.after inner_lift rest

theorem earned_lift {f : β → Rpc α} (rest : ∀ b, (f b).Earned) : (lift d >>= f).Earned := by
  cases d with
  | error e => trivial
  | ok b => exact rest b

private theorem atomic_committed (a : α) : (do commit; pure a : Rpc α).Atomic := ⟨a, rfl⟩

theorem rest_redeemed (key : String) : (Enrolment.redeemed key r).Rest := by
  have recorded (a : RedeemEnrolmentResponse) (row : Redemption) : (do
      if key = "" then pure () else do
        let recorded ← tx (Enrolment.insertRedemption row)
        orElse db recorded
      commit
      pure a : Rpc _).Rest := by
    split
    · exact ⟨a, rfl⟩
    · exact Rest.after inner_query_only fun _ => Rest.after inner_orElse fun _ => ⟨a, rfl⟩
  unfold Enrolment.redeemed
  refine Rest.after inner_query_only fun _ => Rest.after inner_orElse fun row => ?_
  obtain ⟨enrolmentId, userId, externalId, revoking⟩ := row
  refine Rest.after inner_query_only fun _ => Rest.after inner_current fun epoch => ?_
  have stored (voided : Nat) := Rest.after (p := tx (Enrolment.upsertPassword userId
    r.argon2idHash)) inner_query_only fun done => Rest.after (inner_orElse (e := db) (r := done))
      fun _ => recorded ⟨.redeemed, userId, enrolmentId, externalId, revoking, epoch, voided⟩
        ⟨key, r.secretHash, enrolmentId, userId, epoch⟩
  dsimp only
  split
  · exact Rest.after inner_revokeAll fun _ => Rest.after inner_voidEnrolments stored
  · exact stored 0

private theorem rest_committed (a : α) : (do commit; pure a : Rpc α).Rest := ⟨a, rfl⟩

private theorem rest_unspent (key : String) : (Enrolment.unspent key r).Rest := by
  have explained : (do
      let outcome ← Enrolment.unredeemable r.secretHash
      commit
      pure ⟨outcome, "", "", [], false, 0, 0⟩ : Rpc RedeemEnrolmentResponse).Rest :=
    Rest.after inner_unredeemable fun _ => rest_committed _
  unfold Enrolment.unspent
  dsimp only
  split
  · exact explained
  · refine Rest.after inner_replay fun replayed => ?_
    cases replayed with
    | some a => exact rest_committed a
    | none => exact explained

private theorem rest_lift {f : β → Rpc α} (rest : ∀ b, (f b).Rest) : (lift d >>= f).Rest :=
  Rest.after inner_lift rest

theorem opens_redeem : (Enrolment.redeem r).Opens := by
  have fresh (key : String) : (Enrolment.redeemFresh key r).Rest := by
    refine rest_lift fun _ => Rest.after inner_lockOwner fun _ => ?_
    refine Rest.after inner_query_only fun spent => ?_
    split
    · exact rest_unspent key
    · exact rest_redeemed key
  unfold Enrolment.redeem
  rw [opens_start]
  dsimp only
  split
  · exact fresh _
  · refine Rest.after inner_replay fun replayed => ?_
    cases replayed with
    | some a => exact rest_committed a
    | none => exact fresh _

theorem atomic_redeem : (Enrolment.redeem r).Atomic := opens_redeem.atomic

theorem opens_storePassword : (Password.storePassword r).Opens := by
  unfold Password.storePassword
  refine Opens.lift fun _ => ?_
  rw [opens_start]
  refine Rest.after inner_query_only fun bumped => ?_
  have stored : (do
      let done ← tx (Password.insertPassword r.userId r.argon2idHash)
      if done = 0 then liveUser tx r.userId
      commit : Rpc Unit).Rest := by
    refine Rest.after inner_query_only fun done => ?_
    split
    · exact Rest.after inner_liveUser fun _ => ⟨(), rfl⟩
    · exact ⟨(), rfl⟩
  split
  · exact Rest.after inner_liveUser fun _ => stored
  · exact stored

theorem atomic_storePassword : (Password.storePassword r).Atomic := opens_storePassword.atomic

theorem opens_revokeAllCredentials : (Credential.revokeAllCredentials r).Opens := by
  unfold Credential.revokeAllCredentials
  rw [opens_start]
  refine Rest.after inner_revokeAll fun rows => ?_
  cases rows with
  | none => trivial
  | some rows =>
    exact Rest.after inner_query_only fun _ => Rest.after inner_voidEnrolments fun _ =>
      rest_committed _

theorem atomic_revokeAllCredentials : (Credential.revokeAllCredentials r).Atomic :=
  opens_revokeAllCredentials.atomic

theorem opens_insertDeclaredUser : (Identity.insertDeclaredUser r).Opens := by
  unfold Identity.insertDeclaredUser
  split
  · trivial
  · rw [opens_start]
    refine Rest.after inner_predicate fun decided => ?_
    cases decided with
    | error step => trivial
    | ok _ =>
      refine Rest.after inner_query_only fun _ => Rest.after inner_orElse fun _ => ?_
      refine Rest.after inner_query_only fun _ => Rest.after inner_orElse fun _ => ?_
      exact Rest.after inner_query_only fun _ => rest_committed _

theorem atomic_insertDeclaredUser : (Identity.insertDeclaredUser r).Atomic :=
  opens_insertDeclaredUser.atomic

theorem opens_issue {id : String} : (Enrolment.issue id r seconds).Opens := by
  unfold Enrolment.issue
  rw [opens_start]
  refine Rest.after inner_demand fun decided => ?_
  cases decided with
  | error step => trivial
  | ok n =>
    refine Rest.after inner_query_only fun _ => Rest.after inner_orElse fun _ => ?_
    exact rest_committed _

theorem atomic_issue {id : String} : (Enrolment.issue id r seconds).Atomic := opens_issue.atomic

theorem opens_storeSetting : (Setting.storeSetting r).Opens := by
  have answered : (Setting.answer r.name).Rest :=
    Rest.after inner_readSetting fun _ => rest_committed _
  unfold Setting.storeSetting
  refine Opens.lift fun scope => ?_
  rw [opens_start]
  refine Rest.after inner_alreadyRecorded fun replayed => ?_
  cases replayed with
  | true => exact answered
  | false =>
    exact Rest.after inner_writeAtScope fun _ => Rest.after inner_recordClaim fun _ => answered

theorem atomic_storeSetting : (Setting.storeSetting r).Atomic := opens_storeSetting.atomic

private theorem atomic_record : (KeyIdentity.record p holds refusal).Atomic := by
  unfold KeyIdentity.record
  rw [atomic_start]
  refine Atomic.after inner_query_only fun _ => Atomic.after inner_outcomeOf fun outcome => ?_
  cases outcome with
  | none => trivial
  | some outcome => exact atomic_committed outcome

theorem atomic_recordKeyIdentity : (KeyIdentity.recordKeyIdentity r).Atomic :=
  atomic_lift fun _ => atomic_record

theorem atomic_recordAdoption : (KeyIdentity.recordAdoption r).Atomic :=
  atomic_lift fun _ => atomic_lift fun _ => atomic_record

theorem opens_syncTeams : (Team.syncTeams r).Opens := by
  unfold Team.syncTeams
  refine Opens.lift fun declared => ?_
  rw [opens_start]
  refine Rest.after inner_query_only fun _ => Rest.after inner_orElse fun _ => ?_
  refine Rest.after inner_query_only fun _ => Rest.after inner_query_only fun n => ?_
  refine Rest.after inner_knownUsers fun known => ?_
  dsimp only
  split
  · trivial
  · refine Rest.after ?_ fun written => ?_
    · refine Inner.bind inner_query_only fun _ => inner_openTeams.bind fun _ => ?_
      exact inner_archiveTeams.bind fun _ => trivial
    · refine Rest.after inner_writeAllMembers fun _ => Rest.after inner_replacePending fun _ => ?_
      exact rest_committed _

theorem atomic_syncTeams : (Team.syncTeams r).Atomic := opens_syncTeams.atomic

/-! ### Single statements -/

theorem loose_liveUser : (liveUser conn userId).Loose := by
  intro live
  cases live <;> trivial

theorem loose_orElse : (orElse e r : Rpc ρ).Loose := by
  cases r <;> trivial

theorem loose_mintCredential : (Credential.mintCredential uuid r).Loose := by
  unfold Credential.mintCredential
  refine loose_single.mpr fun done => Loose.bind loose_orElse fun n => ?_
  split
  · refine Loose.bind loose_liveUser fun _ => ?_
    split <;> trivial
  · trivial

/-! ### Every verb -/

/-- A read outside any transaction commits nothing. -/
private theorem ends_read {k : ρ → Rpc α} (reads : ∀ now σ, (s.exec now σ).2 = [])
    (rest : ∀ r, (k r).Ends) : (conn s >>= k).Ends :=
  ⟨fun now σ writes => absurd (reads now σ) writes, rest⟩

private theorem ends_liveUser {k : Unit → Rpc α} (rest : (k ()).Ends) :
    (liveUser conn userId >>= k).Ends := by
  unfold liveUser
  rw [bind_assoc]
  refine ends_read (fun _ _ => rfl) fun live => ?_
  cases live
  · trivial
  · exact rest

/-- A write outside any transaction is the last thing its verb does. -/
private theorem ends_write {k : ρ → Rpc α}
    (last : ∀ now σ, (s.exec now σ).2 ≠ [] → ∃ a, k (s.exec now σ).1 = pure a)
    (rest : ∀ r, (k r).Ends) : (conn s >>= k).Ends := ⟨last, rest⟩

theorem ends_mintCredential : (Credential.mintCredential uuid r).Ends := by
  unfold Credential.mintCredential
  refine ends_write (fun now σ writes => ?_) fun done => Ends.after inner_orElse fun n => ?_
  · have inserts := CredentialProofs.insertCredential_exec ("yadgar:credential:" ++ uuid) r now σ
    generalize (Credential.insertCredential ("yadgar:credential:" ++ uuid) r).exec now σ = outcome
      at inserts writes ⊢
    cases inserts with
    | unmatched => exact absurd rfl writes
    | refused => exact absurd rfl writes
    | done => exact ⟨_, rfl⟩
  · split
    · refine ends_liveUser ?_
      split <;> trivial
    · trivial

theorem ends_mintEnrolment : (Enrolment.mintEnrolment uuid r).Ends := by
  unfold Enrolment.mintEnrolment
  split
  · trivial
  rename_i seconds _
  dsimp only
  split
  · exact atomic_issue.ends
  refine Ends.after inner_lift fun _ => ?_
  obtain ⟨flag, matched, looks, same, _⟩ :=
    EnrolmentProofs.statement_eq ("yadgar:enrolment:" ++ uuid) r seconds
  rw [same]
  refine ends_write (fun now σ writes => ?_) fun done => Ends.after inner_orElse fun n => ?_
  · have inserts := EnrolmentProofs.insertEnrolment_exec ("yadgar:enrolment:" ++ uuid) r.secretHash
      seconds r.userId flag matched looks now defaultIsolation σ
    generalize (Enrolment.insertEnrolment ("yadgar:enrolment:" ++ uuid) r.secretHash seconds
      r.userId flag matched looks).exec now σ = outcome at inserts writes ⊢
    cases inserts with
    | unmatched => exact absurd rfl writes
    | refused => exact absurd rfl writes
    | done => exact ⟨_, rfl⟩
  · split
    · refine ends_liveUser ?_
      split
      · exact ends_read (fun _ _ => rfl) fun _ => trivial
      · trivial
    · trivial

private theorem earned_liveUser {k : Unit → Rpc α} (rest : (k ()).Earned) :
    (liveUser conn userId >>= k).Earned := by
  unfold liveUser
  rw [bind_assoc]
  intro now σ _
  dsimp only
  cases ((selectLiveUser userId).exec now σ).1 with
  | false => trivial
  | true => exact rest

/-- A mint that is told an epoch answers only with its row. -/
theorem earned_mintCredential (checked : r.expectedCredentialEpoch.isSome) :
    (Credential.mintCredential uuid r).Earned := by
  unfold Credential.mintCredential
  intro now σ silent
  have inserts := CredentialProofs.insertCredential_exec ("yadgar:credential:" ++ uuid) r now σ
  generalize (Credential.insertCredential ("yadgar:credential:" ++ uuid) r).exec now σ = outcome
    at inserts silent ⊢
  cases inserts with
  | unmatched =>
    refine earned_liveUser ?_
    rw [if_pos checked]
    trivial
  | refused => trivial
  | done => cases silent

/-- A demanded enrolment is answered only with its row. -/
theorem earned_mintEnrolment (demand : r.requireZeroCredentialAdmin = true) :
    (Enrolment.mintEnrolment uuid r).Earned := by
  unfold Enrolment.mintEnrolment
  split
  · trivial
  rename_i seconds _
  dsimp only
  split
  · exact atomic_issue.earned
  cases compatible : Enrolment.compatible r with
  | error e => trivial
  | ok _ =>
    intro now σ silent
    obtain ⟨flag, matched, looks, same, _⟩ :=
      EnrolmentProofs.statement_eq ("yadgar:enrolment:" ++ uuid) r seconds
    have inserts := EnrolmentProofs.insertEnrolment_exec ("yadgar:enrolment:" ++ uuid) r.secretHash
      seconds r.userId flag matched looks now defaultIsolation σ
    rw [same] at silent ⊢
    generalize (Enrolment.insertEnrolment ("yadgar:enrolment:" ++ uuid) r.secretHash seconds
      r.userId flag matched looks).exec now σ = outcome at inserts silent ⊢
    cases inserts with
    | unmatched =>
      exact earned_liveUser fun _ _ _ => trivial
    | refused => trivial
    | done => cases silent

theorem ends_revoke : (Credential.revoke r).Ends := by
  unfold Credential.revoke
  split
  · trivial
  refine ends_write (fun now σ writes => ?_) fun rows => ?_
  · have outcome : (Credential.updateRevoked r.credentialId r.userId).exec now σ = (0, []) ∨
        ∃ w, (Credential.updateRevoked r.credentialId r.userId).exec now σ = (1, [w]) := by
      simp only [Credential.updateRevoked]
      split
      · exact Or.inr ⟨_, rfl⟩
      · exact Or.inl rfl
    rcases outcome with none | ⟨w, one⟩
    · simp [none] at writes
    · rw [one]
      exact ⟨_, rfl⟩
  · split
    · refine ends_read (fun _ _ => rfl) fun owned => ?_
      cases owned <;> trivial
    · trivial

theorem ends_insertUser : (Identity.insertUser uuid r).Ends := by
  unfold Identity.insertUser
  split
  · exact atomic_insertDeclaredUser.ends
  refine ends_write (fun now σ writes => ?_) fun done => Ends.after inner_orElse fun _ => trivial
  have inserts := IdentityProofs.insertUserRow_exec (Team.userPrefix ++ uuid) r r.isAdmin now
    defaultIsolation σ
  generalize (Identity.insertUserRow (Team.userPrefix ++ uuid) r r.isAdmin).exec now σ = outcome
    at inserts writes ⊢
  cases inserts with
  | refused => exact absurd rfl writes
  | done => exact ⟨_, rfl⟩

/-- The re-read that refuses the dead is the end of its verb. -/
private theorem ends_liveUser_last : (liveUser conn userId).Ends := by
  rw [← bind_pure (liveUser conn userId)]
  exact ends_liveUser trivial

theorem ends_setAdmin : (Policy.setAdmin r).Ends := by
  unfold Policy.setAdmin
  refine ends_write (fun now σ writes => ?_) fun done => ?_
  · cases live : σ.liveUser? r.userId with
    | none => simp [Policy.updateIsAdmin, live] at writes
    | some u =>
      have one : (Policy.updateIsAdmin r.userId r.isAdmin).exec now σ =
          (1, [.user { u with isAdmin := r.isAdmin }]) := by simp [Policy.updateIsAdmin, live]
      rw [one]
      exact ⟨_, rfl⟩
  · split
    · exact ends_liveUser_last
    · trivial

theorem ends_setRateLimit : (Policy.setRateLimit r).Ends := by
  unfold Policy.setRateLimit
  refine Ends.after inner_lift fun _ => ?_
  split
  · rename_i limit _
    refine ends_write (fun now σ writes => ?_) fun done => ?_
    · cases live : σ.liveUser? r.userId with
      | none => simp [Policy.upsertRateLimit, live] at writes
      | some u =>
        rw [PolicyProofs.upsertRateLimit_exec r limit now σ live] at writes ⊢
        split at writes
        · rename_i fit
          rw [if_pos fit]
          exact ⟨_, rfl⟩
        · exact absurd rfl writes
    · refine Ends.after inner_orElse fun n => ?_
      split
      · exact ends_liveUser_last
      · trivial
  · exact ends_liveUser ⟨fun _ _ _ => ⟨(), rfl⟩, fun _ => trivial⟩

theorem ends_resolve : (Credential.resolve r).Ends := by
  unfold Credential.resolve
  rw [ends_start]
  refine Ends.after inner_query_only fun row => ?_
  split
  · trivial
  · refine Ends.after inner_teamsAndAdmin fun _ => ?_
    refine Ends.after inner_query_only fun _ => Ends.after inner_readSetting fun _ => ?_
    exact (atomic_committed _).ends

/-- Whatever a call commits it answers with. -/
theorem service_ends (c : Call) : (service c).Ends := by
  refine Ends.after inner_lift fun _ => ?_
  unfold verb
  cases c.request with
  | resolveCredential r => exact ends_resolve.map _
  | getPasswordHash r => exact Ends.map _ (ends_read (fun _ _ => rfl) fun _ => trivial)
  | setPassword r => exact atomic_storePassword.ends.map _
  | createEnrolment r => exact ends_mintEnrolment.map _
  | redeemEnrolment r => exact atomic_redeem.ends.map _
  | createCredential r => exact ends_mintCredential.map _
  | revokeCredential r => exact ends_revoke.map _
  | revokeAllCredentials r => exact atomic_revokeAllCredentials.ends.map _
  | listCredentials r => exact Ends.map _ (ends_read (fun _ _ => rfl) fun _ => trivial)
  | createUser r => exact ends_insertUser.map _
  | setUserAdmin r => exact ends_setAdmin.map _
  | setRateLimitOverride r => exact ends_setRateLimit.map _
  | addTeamMember r => trivial
  | removeTeamMember r => trivial
  | setInheritedSetting r => exact atomic_storeSetting.ends.map _
  | getKeyIdentity r =>
    refine Ends.map _ (Ends.after inner_lift fun _ => ends_read (fun _ _ => rfl) fun stored => ?_)
    cases stored <;> trivial
  | setKeyIdentity r => exact atomic_recordKeyIdentity.ends.map _
  | listKeyIdentityEvidence r =>
    exact Ends.map _ (Ends.after inner_lift fun _ => ends_read (fun _ _ => rfl) fun _ => trivial)
  | adoptKeyIdentity r => exact atomic_recordAdoption.ends.map _
  | syncTeams r => exact atomic_syncTeams.ends.map _

end IamDb.Endings
