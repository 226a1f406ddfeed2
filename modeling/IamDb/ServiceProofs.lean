import IamDb.TeamProofs

/-! The whole service, verified: every commit of every call has an effect its
call may have, under exclusive locks on the rows it writes, whatever the other
calls commit meanwhile. -/
namespace IamDb.ServiceProofs
open Txn Schema Messages Service Effects Evolution Interference Rules Handlers
open EpochProofs CredentialProofs PolicyProofs EnrolmentProofs RedemptionProofs IdentityProofs
open SettingProofs KeyIdentityProofs TeamProofs

variable [Engine] {R : Rely Store Write Res} {c : Call} {ℓ : Local Store Write Res}

/-- Whom the service does not admit it answers at once. -/
theorem wp_service {G : Guar Store Write Res Status Response}
    {Q : Post Store Write Res Status Response}
    (refused : ∀ e, admitted c.caller = .error e → Q (.error e) ℓ σ t)
    (ready : admitted c.caller = .ok () → wp R G (verb c.uuid.text c.request) Q ℓ σ t) :
    wp R G (service c) Q ℓ σ t := by
  unfold service
  cases caller : admitted c.caller with
  | error e => exact refused e caller
  | ok _ => exact ready caller

/-- Every verb does only what its call may do. -/
theorem wp_verb (quiet : Quiet R) (inv : Integrity σ) :
    wp R (fun k => ∃ ef, Allowed c k ef ∧ k.result = ef.apply k.store)
      (verb c.uuid.text c.request) (fun _ _ _ _ => True) ℓ σ t := by
  cases request : c.request with
  | resolveCredential r =>
    exact wp_map (wp_resolve quiet request (fun _ _ _ _ _ _ _ => trivial)
      fun _ _ _ _ _ _ _ _ _ _ => trivial)
  | getPasswordHash r => exact wp_map (wp_conn (fun _ _ => rfl) fun _ _ _ _ _ => trivial)
  | setPassword r =>
    exact wp_map (wp_storePassword quiet request (fun _ _ _ _ => trivial)
      fun _ _ _ _ _ _ _ _ _ _ => trivial)
  | createEnrolment r =>
    exact wp_map (wp_mintEnrolment quiet request (fun _ _ _ _ => trivial)
      (fun _ _ _ _ _ _ => trivial) fun _ _ _ _ _ _ _ _ _ => trivial)
  | redeemEnrolment r =>
    exact wp_map (wp_mono (wp_redeem quiet request inv) (fun _ _ _ _ h => h) (fun _ h => h)
      fun _ _ _ _ _ => trivial)
  | createCredential r =>
    exact wp_map (wp_mintCredential request (fun _ _ _ _ => trivial)
      (fun _ _ _ _ _ _ _ _ => trivial) fun _ _ _ _ _ _ _ _ _ => trivial)
  | revokeCredential r =>
    exact wp_map (wp_revoke (Q := fun _ _ _ _ => True) request (fun _ _ _ => trivial)
      fun _ _ _ _ _ _ _ => trivial)
  | revokeAllCredentials r => exact wp_map (wp_revokeAllCredentials quiet request)
  | listCredentials r => exact wp_map (wp_conn (fun _ _ => rfl) fun _ _ _ _ _ => trivial)
  | createUser r => exact wp_map (wp_insertUser quiet request inv)
  | setUserAdmin r =>
    exact wp_map (wp_setAdmin request (fun _ _ _ _ => trivial) (fun _ _ _ _ _ _ => trivial)
      fun _ _ _ _ _ _ _ _ => trivial)
  | setRateLimitOverride r =>
    exact wp_map (wp_mono (wp_setRateLimit (Q := fun _ _ _ _ => True) request
      (fun _ _ _ _ => trivial) (fun _ _ _ _ => trivial) (fun _ _ _ _ _ _ _ _ _ _ => trivial)
      fun _ _ _ _ _ _ _ _ => trivial) (fun _ _ _ _ h => h) (fun _ guar => guar.1)
      fun _ _ _ _ _ => trivial)
  | addTeamMember r => trivial
  | removeTeamMember r => trivial
  | setInheritedSetting r => exact wp_map (wp_settles quiet request)
  | getKeyIdentity r =>
    refine wp_map ?_
    unfold KeyIdentity.keyIdentity
    cases KeyIdentity.presented r.keyFingerprint r.derivationVersion with
    | error e => trivial
    | ok _ =>
      refine wp_conn (fun _ _ => rfl) fun ℓ' σ' t' _ _ => ?_
      split <;> trivial
  | setKeyIdentity r =>
    exact wp_map (wp_mono (wp_recordKeyIdentity quiet request) (fun _ _ _ _ h => h)
      (fun _ h => h.1) fun _ _ _ _ _ => trivial)
  | listKeyIdentityEvidence r =>
    refine wp_map ?_
    unfold KeyIdentity.evidencePage
    cases KeyIdentity.Position.parse r.pageToken with
    | error e => trivial
    | ok _ => exact wp_conn (fun _ _ => rfl) fun _ _ _ _ _ => trivial
  | adoptKeyIdentity r =>
    exact wp_map (wp_mono (wp_recordAdoption quiet request) (fun _ _ _ _ h => h)
      (fun _ h => h.1) fun _ _ _ _ _ => trivial)
  | syncTeams r =>
    exact wp_map (wp_mono (wp_syncTeams quiet request inv) (fun _ _ _ _ h => h)
      (fun _ h => h.1) fun _ _ _ _ _ => trivial)

/-- Whatever is shown of a call besides, its commits are effective. -/
theorem wp_effective {G : Guar Store Write Res Status Response}
    {Q : Post Store Write Res Status Response} (quiet : Quiet R) (inv : Integrity σ)
    (ready : wp R G (service c) Q .fresh σ t) :
    wp R (fun k => Effective c k ∧ G k) (service c) Q .fresh σ t := by
  have does : wp R (fun k => ∃ ef, Allowed c k ef ∧ k.result = ef.apply k.store) (service c)
      (fun _ _ _ _ => True) .fresh σ t :=
    wp_service (fun _ _ => trivial) fun _ => wp_verb quiet inv
  have locked : wp R Commit.Locked (service c) (fun _ _ _ _ => True) .fresh σ t :=
    wp_locked nofun
  exact wp_mono (wp_and (wp_and locked does) ready) (fun _ _ _ _ h => h) (fun _ h => h)
    fun _ _ _ _ h => h.2

/-- The service keeps to its effects. -/
theorem verified : Verified service Integrity Others Effective := by
  refine verified_of_interferes (fun c σ t inv => ?_) fun c k => integrity_of_effective
  have any : wp Others (fun _ => True) (service c) (fun _ _ _ _ => True) .fresh σ t := wp_trivial
  exact wp_mono (wp_effective quiet_others inv any) (fun _ _ _ _ h => h) (fun _ h => h.1)
    fun _ _ _ _ h => h

end IamDb.ServiceProofs
