import IamDb.Circles
import IamDb.Txn.Progress

/-! The service never stands still. In the runs that keep to the lock order,
whoever waits is behind a session that can go on, and the calls under way can
always be brought to an end; a read never waits and is never waited for. -/
namespace IamDb.Progress
open Txn Schema Messages Service Effects Evolution Interference Handlers Runs LockOrder Circles

section
variable [Engine]

/-! ### Only a redemption spends -/

/-- A statement that spends no enrolment. -/
def Unspending (ρ : Type) (s : Sql ρ) : Prop :=
  ∀ now σ e, Write.enrolment e ∈ (s.exec now σ).2 → e.spentAt = none

theorem unspending_of_reads {s : Sql ρ} (reads : ∀ now σ, (s.exec now σ).2 = []) :
    Unspending ρ s := by
  intro now σ e write
  rw [reads] at write
  cases write

/-- What claims no row below a user row writes none. -/
theorem unspending_of_sideways {s : Sql ρ} (sideways : Sideways ρ s) : Unspending ρ s := by
  intro now σ e write
  have claim := s.covered now .readCommitted σ _ write
  exact (sideways _ _ _ _ claim).1.elim

theorem unspending_liveUser {executor : Sql Bool → Rpc Bool} (only : ∀ s, Unspending _ s →
    (executor s).Each Unspending) : (liveUser executor userId).Each Unspending := by
  refine (only _ (unspending_of_reads fun _ _ => rfl)).bind fun found => ?_
  cases found <;> trivial

theorem unspending_liveUser_tx : (liveUser tx userId : Rpc Unit).Each Unspending :=
  unspending_liveUser fun _ each => Prog.each_query_only.mpr each

theorem unspending_liveUser_conn : (liveUser conn userId : Rpc Unit).Each Unspending :=
  unspending_liveUser fun _ each => ⟨each, fun _ => trivial⟩

theorem unspending_orElse {r : Except DbError ρ} : (orElse e r : Rpc ρ).Each Unspending := by
  cases r <;> trivial

theorem unspending_updateEpoch : Unspending _ (Epoch.updateEpoch userId matched) := by
  intro now σ e write
  simp only [Epoch.updateEpoch] at write
  split at write <;> simp at write

theorem unspending_insertEnrolment :
    Unspending _ (Enrolment.insertEnrolment enrolmentId secret seconds userId revoking matched
      looks) := by
  intro now σ e write
  simp only [Enrolment.insertEnrolment] at write
  split at write
  · cases write
  · split at write
    · split at write
      · cases write
      · split at write
        · cases write
        · cases List.mem_singleton.mp write
          rfl
    · cases write

theorem unspending_storePassword : (Password.storePassword r).Each Unspending := by
  have stored : Unspending _ (Password.insertPassword r.userId r.argon2idHash) := by
    intro now σ e write
    simp only [Password.insertPassword] at write
    split at write
    · cases write
    · split at write <;> simp at write
  have ends : ((do
      let done ← tx (Password.insertPassword r.userId r.argon2idHash)
      if done = 0 then liveUser tx r.userId
      commit : Rpc Unit)).Each Unspending := by
    refine Prog.each_query.mpr ⟨stored, fun done => ?_⟩
    dsimp only
    split
    · exact unspending_liveUser_tx.bind fun _ => trivial
    · trivial
  unfold Password.storePassword
  refine Prog.Each.bind Prog.each_lift fun _ => ?_
  refine Prog.each_query.mpr ⟨unspending_updateEpoch, fun bumped => ?_⟩
  dsimp only
  split
  · exact unspending_liveUser_tx.bind fun _ => ends
  · exact ends

theorem unspending_mintEnrolment : (Enrolment.mintEnrolment uuid r).Each Unspending := by
  have demand : (Enrolment.predicate r.userId).Each Unspending :=
    sideways_demand.imp fun _ _ => unspending_of_sideways
  have statement (seconds : Int) :
      Unspending _ (Enrolment.statement ("yadgar:enrolment:" ++ uuid) r seconds) := by
    unfold Enrolment.statement
    split <;> exact unspending_insertEnrolment
  unfold Enrolment.mintEnrolment
  split
  · trivial
  · dsimp only
    split
    · refine demand.bind fun decided => ?_
      cases decided with
      | error e => trivial
      | ok n =>
        refine Prog.each_query.mpr ⟨?_, fun done => unspending_orElse.bind fun _ => trivial⟩
        split <;> exact unspending_insertEnrolment
    · refine Prog.Each.bind Prog.each_lift fun _ => ?_
      refine ⟨statement _, fun inserted => unspending_orElse.bind fun done => ?_⟩
      split
      · refine unspending_liveUser_conn.bind fun _ => ?_
        split
        · exact ⟨unspending_of_reads fun _ _ => rfl, fun _ => trivial⟩
        · trivial
      · trivial

theorem unspending_mintCredential : (Credential.mintCredential uuid r).Each Unspending := by
  have inserts : Unspending _ (Credential.insertCredential ("yadgar:credential:" ++ uuid) r) := by
    intro now σ e write
    simp only [Credential.insertCredential] at write
    split at write
    · cases write
    split at write
    · cases write
    split at write
    · cases write
    split at write
    · cases write
    split at write <;> simp at write
  refine ⟨inserts, fun inserted => unspending_orElse.bind fun done => ?_⟩
  split
  · refine unspending_liveUser_conn.bind fun _ => ?_
    split <;> trivial
  · trivial

theorem unspending_revoke : (Credential.revoke r).Each Unspending := by
  have updates : Unspending _ (Credential.updateRevoked r.credentialId r.userId) := by
    intro now σ e write
    simp only [Credential.updateRevoked] at write
    split at write <;> simp at write
  unfold Credential.revoke
  split
  · trivial
  · refine Prog.each_single.mpr ⟨updates, fun rows => ?_⟩
    split
    · refine Prog.each_single.mpr ⟨unspending_of_reads fun _ _ => rfl, fun owned => ?_⟩
      split <;> trivial
    · trivial

theorem unspending_revokeAllCredentials : (Credential.revokeAllCredentials r).Each Unspending := by
  have revokes : Unspending _ (Epoch.updateRevokedAt r.userId) := by
    intro now σ e write
    obtain ⟨_, _, same⟩ := List.mem_map.mp write
    cases same
  have voids : Unspending _ (Epoch.updateVoidedAt r.userId) := by
    intro now σ e write
    obtain ⟨e₀, open_, same⟩ := List.mem_map.mp write
    have unspent := (List.mem_filter.mp open_).2
    simp only [Bool.and_eq_true, Option.isNone_iff_eq_none] at unspent
    cases same
    exact unspent.1.2
  refine Prog.each_query.mpr ⟨unspending_of_reads fun _ _ => rfl, fun user => ?_⟩
  cases user with
  | false => trivial
  | true =>
    exact ⟨revokes, fun _ => ⟨unspending_updateEpoch, fun _ => ⟨voids, fun _ => trivial⟩⟩⟩

theorem unspending_insertUser : (Identity.insertUser uuid r).Each Unspending := by
  have row (userId : String) (isAdmin : Bool) :
      Unspending _ (Identity.insertUserRow userId r isAdmin) := unspending_of_sideways sideways_insertUserRow
  have demand : (Identity.predicate r.userId).Each Unspending :=
    sideways_predicate.imp fun _ _ => unspending_of_sideways
  unfold Identity.insertUser
  split
  · unfold Identity.insertDeclaredUser
    split
    · trivial
    · refine demand.bind fun decided => ?_
      cases decided with
      | error e => trivial
      | ok _ =>
        refine ⟨row _ _, fun _ => unspending_orElse.bind fun _ => ?_⟩
        refine Prog.each_query.mpr ⟨unspending_of_sideways sideways_insertMember, fun _ => unspending_orElse.bind fun _ => ?_⟩
        exact ⟨unspending_of_sideways sideways_deletePending, fun _ => trivial⟩
  · exact ⟨row _ _, fun _ => unspending_orElse.bind fun _ => trivial⟩

theorem unspending_setAdmin : (Policy.setAdmin r).Each Unspending := by
  have updates : Unspending _ (Policy.updateIsAdmin r.userId r.isAdmin) := by
    intro now σ e write
    simp only [Policy.updateIsAdmin] at write
    split at write <;> simp at write
  refine Prog.each_single.mpr ⟨updates, fun done => ?_⟩
  split
  · exact unspending_liveUser_conn
  · trivial

theorem unspending_setRateLimit : (Policy.setRateLimit r).Each Unspending := by
  have upserts (limit : RateLimit) :
      Unspending _ (Policy.upsertRateLimit r.userId r.module r.kind limit) := by
    intro now σ e write
    simp only [Policy.upsertRateLimit] at write
    split at write
    · cases write
    split at write
    · cases write
    split at write <;> simp at write
  have deletes : Unspending _ (Policy.deleteRateLimit r.userId r.module r.kind) := by
    intro now σ e write
    simp only [Policy.deleteRateLimit] at write
    split at write <;> simp at write
  unfold Policy.setRateLimit
  refine Prog.Each.bind Prog.each_lift fun _ => ?_
  split
  · refine Prog.each_single.mpr ⟨upserts _, fun written => unspending_orElse.bind fun done => ?_⟩
    split
    · exact unspending_liveUser_conn
    · trivial
  · exact unspending_liveUser_conn.bind fun _ => ⟨deletes, fun _ => trivial⟩

theorem unspending_syncTeams : (Team.syncTeams r).Each Unspending := by
  have locks : Unspending _ Team.selectAdministratorsForUpdate :=
    unspending_of_sideways sideways_selectAdministratorsForUpdate
  unfold Team.syncTeams
  refine Prog.Each.bind Prog.each_lift fun declared => ?_
  refine Prog.each_query.mpr ⟨unspending_of_reads fun _ _ => rfl, fun locked => ?_⟩
  refine unspending_orElse.bind fun _ => ⟨locks, fun _ => ?_⟩
  refine ⟨unspending_of_reads fun _ _ => rfl, fun liveBefore => ?_⟩
  refine (sideways_knownUsers.imp fun _ _ => unspending_of_sideways).bind fun known => ?_
  dsimp only
  split
  · trivial
  · refine (sideways_writeTeams.imp fun _ _ => unspending_of_sideways).bind fun written => ?_
    refine (sideways_writeAllMembers.imp fun _ _ => unspending_of_sideways).bind fun progress => ?_
    exact (sideways_replacePending.imp fun _ _ => unspending_of_sideways).bind fun _ => trivial

/-- No other of these verbs spends an enrolment. -/
theorem unspending_verb (known : listed request = true)
    (other : ∀ r, request ≠ .redeemEnrolment r) : (verb uuid request).Each Unspending := by
  have reads {ρ : Type} {s : Sql ρ} (reads : ∀ now σ, (s.exec now σ).2 = []) : Unspending _ s :=
    unspending_of_reads reads
  cases request with
  | resolveCredential r =>
    exact (unclaiming_resolve.imp fun _ _ silent => reads (Unclaiming.reads silent)).bind
      fun _ => trivial
  | getPasswordHash r => exact ⟨reads fun _ _ => rfl, fun _ => trivial⟩
  | setPassword r => exact unspending_storePassword.bind fun _ => trivial
  | createEnrolment r => exact unspending_mintEnrolment.bind fun _ => trivial
  | redeemEnrolment r => exact absurd rfl (other r)
  | createCredential r => exact unspending_mintCredential.bind fun _ => trivial
  | revokeCredential r => exact unspending_revoke.bind fun _ => trivial
  | revokeAllCredentials r => exact unspending_revokeAllCredentials.bind fun _ => trivial
  | listCredentials r => exact ⟨reads fun _ _ => rfl, fun _ => trivial⟩
  | createUser r => exact unspending_insertUser.bind fun _ => trivial
  | setUserAdmin r => exact unspending_setAdmin.bind fun _ => trivial
  | setRateLimitOverride r => exact unspending_setRateLimit.bind fun _ => trivial
  | addTeamMember r => trivial
  | removeTeamMember r => trivial
  | setInheritedSetting r => cases known
  | getKeyIdentity r =>
    unfold verb KeyIdentity.keyIdentity
    refine Prog.Each.bind (Prog.Each.bind Prog.each_lift fun _ => ?_) fun _ => trivial
    refine ⟨reads fun _ _ => rfl, fun stored => ?_⟩
    cases stored <;> trivial
  | setKeyIdentity r => cases known
  | listKeyIdentityEvidence r =>
    unfold verb KeyIdentity.evidencePage
    exact Prog.Each.bind (Prog.Each.bind Prog.each_lift fun _ => ⟨reads fun _ _ => rfl,
      fun _ => trivial⟩) fun _ => trivial
  | adoptKeyIdentity r => cases known
  | syncTeams r => exact unspending_syncTeams.bind fun _ => trivial

/-! ### A redemption about to spend -/

/-- A statement that claims neither the sync lock nor a team row. -/
def Teamless (ρ : Type) (s : Sql ρ) : Prop :=
  ∀ now iso σ, ∀ k ∈ s.claims now iso σ, k.lock.res ≠ .teamSyncLock ∧ ∀ key, k.lock.res ≠ .team key

theorem teamless_of_unclaiming {s : Sql ρ} (silent : Unclaiming ρ s) : Teamless ρ s := by
  intro now iso σ k claim
  rw [silent] at claim
  cases claim

theorem teamless_userRow (claim : k ∈ userRow mode userId matched iso σ) :
    k.lock.res ≠ .teamSyncLock ∧ ∀ key, k.lock.res ≠ .team key := by
  unfold userRow at claim
  split at claim
  · obtain rfl := List.mem_singleton.mp claim
    simp
  · split at claim
    · simp only [List.mem_cons, List.not_mem_nil, or_false] at claim
      rcases claim with rfl | rfl <;> simp [share]
    · obtain rfl := List.mem_singleton.mp claim
      simp

theorem teamless_replay : (Enrolment.replay key secret lock).Each Teamless := by
  have ledger : Teamless _ (Enrolment.selectRedemption key lock) := by
    intro now iso σ k claim
    simp only [Enrolment.selectRedemption] at claim
    split at claim
    · cases claim
    · obtain rfl := List.mem_singleton.mp claim
      simp
  exact Prog.each_query.mpr ⟨ledger, fun prior => (unclaiming_replayed prior).imp
    fun _ _ => teamless_of_unclaiming⟩

theorem teamless_redeemed : (Enrolment.redeemed key r).Each Teamless := by
  have unbroken {ρ : Type} {d : Except DbError ρ} : (orElse db d : Rpc ρ).Each Teamless := by
    cases d <;> trivial
  have bumps {userId : String} : Teamless _ (Epoch.updateEpoch userId fun _ => true) :=
    fun _ _ _ _ => teamless_userRow
  have revokes {userId : String} : (Epoch.revokeAll userId).Each Teamless := by
    have locks : Teamless _ (Epoch.selectUserForUpdate userId) := fun _ _ _ _ => teamless_userRow
    have credentials : Teamless _ (Epoch.updateRevokedAt userId) := by
      intro now iso σ k claim
      obtain ⟨c, _, rfl⟩ := List.mem_map.mp claim
      simp
    refine Prog.each_query.mpr ⟨locks, fun user => ?_⟩
    cases user with
    | false => trivial
    | true => exact ⟨credentials, fun _ => trivial⟩
  have voids {userId : String} : (Epoch.voidEnrolments userId).Each Teamless := by
    refine Prog.each_query.mpr ⟨fun now iso σ k claim => ?_, fun _ => trivial⟩
    obtain ⟨e, _, rfl⟩ := List.mem_map.mp claim
    simp
  have stores {userId : String} : Teamless _ (Enrolment.upsertPassword userId r.argon2idHash) := by
    intro now iso σ k claim
    simp only [Enrolment.upsertPassword, List.mem_cons, List.not_mem_nil, or_false] at claim
    rcases claim with rfl | rfl <;> simp [exclude, share]
  have records {row : Redemption} : Teamless _ (Enrolment.insertRedemption row) := by
    intro now iso σ k claim
    simp only [Enrolment.insertRedemption] at claim
    split at claim
    case isFalse => cases claim
    simp only [List.mem_cons, List.not_mem_nil, or_false] at claim
    rcases claim with rfl | rfl
    · simp
    · simp [share]
  have ends (enrolmentId userId : String) (epoch : Nat) (answer : RedeemEnrolmentResponse) : (do
      let stored ← tx (Enrolment.upsertPassword userId r.argon2idHash)
      orElse db stored
      if key = "" then pure () else do
        let recorded ← tx (Enrolment.insertRedemption ⟨key, r.secretHash, enrolmentId, userId, epoch⟩)
        orElse db recorded
      commit
      pure answer : Rpc RedeemEnrolmentResponse).Each Teamless := by
    refine Prog.each_query.mpr ⟨stores, fun stored => unbroken.bind fun _ => ?_⟩
    dsimp only
    split
    · trivial
    · exact Prog.each_query.mpr ⟨records, fun _ => unbroken.bind fun _ => trivial⟩
  unfold Enrolment.redeemed
  refine Prog.each_query.mpr ⟨teamless_of_unclaiming fun _ _ _ => rfl, fun row => ?_⟩
  refine unbroken.bind fun row => Prog.each_query.mpr ⟨bumps, fun _ => ?_⟩
  refine (unclaiming_current.imp fun _ _ => teamless_of_unclaiming).bind fun epoch => ?_
  dsimp only
  split
  · exact revokes.bind fun _ => voids.bind fun voided => ends _ _ _ _
  · exact ends _ _ _ _

theorem teamless_redeem : (Enrolment.redeem r).Each Teamless := by
  have locks {userId : String} : Teamless _ (Epoch.selectUserForUpdate userId) :=
    fun _ _ _ _ => teamless_userRow
  have owner : (Enrolment.lockOwner r.secretHash).Each Teamless := by
    refine Prog.each_query.mpr ⟨teamless_of_unclaiming fun _ _ _ => rfl, fun owner => ?_⟩
    cases owner with
    | none => trivial
    | some userId => exact ⟨locks, fun _ => trivial⟩
  have spends : Teamless _ (Enrolment.updateSpentAt r.secretHash) := by
    intro now iso σ k claim
    simp only [Enrolment.updateSpentAt] at claim
    split at claim
    · simp only [List.mem_cons, List.not_mem_nil, or_false] at claim
      rcases claim with rfl | rfl <;> simp
    · obtain rfl := List.mem_singleton.mp claim
      simp
  have unspent {key : String} : (Enrolment.unspent key r).Each Teamless := by
    have fails : (do
        let outcome ← Enrolment.unredeemable r.secretHash
        commit
        pure ⟨outcome, "", "", [], false, 0, 0⟩ : Rpc RedeemEnrolmentResponse).Each Teamless :=
      (unclaiming_unredeemable.imp fun _ _ => teamless_of_unclaiming).bind fun _ => trivial
    unfold Enrolment.unspent
    split
    · exact fails
    · refine teamless_replay.bind fun replayed => ?_
      cases replayed with
      | none => exact fails
      | some a => trivial
  have fresh {key : String} : (Enrolment.redeemFresh key r).Each Teamless := by
    unfold Enrolment.redeemFresh
    refine Prog.Each.bind Prog.each_lift fun _ => owner.bind fun _ => ?_
    refine Prog.each_query.mpr ⟨spends, fun spent => ?_⟩
    split
    · exact unspent
    · exact teamless_redeemed
  unfold Enrolment.redeem
  refine Prog.each_start.mpr ?_
  dsimp only
  split
  · exact fresh
  · refine teamless_replay.bind fun replayed => ?_
    cases replayed with
    | none => exact fresh
    | some a => trivial

variable {S : Handlers.System}

/-- A redemption holds no team row. -/
theorem teamless_held (reachable : Reachable S) {i : Nat}
    (there : S.sessions[i]? = some ⟨c, ℓ, .running p⟩) (request : c.request = .redeemEnrolment r) :
    ∀ g ∈ ℓ.held, g.lock.res ≠ .teamSyncLock ∧ ∀ key, g.lock.res ≠ .team key := by
  obtain ⟨σ, now, inv, later⟩ := reachable
  refine (later.underway (P := fun c ℓ p => c.request = .redeemEnrolment r → p.Each Teamless ∧
    ∀ g ∈ ℓ.held, g.lock.res ≠ .teamSyncLock ∧ ∀ key, g.lock.res ≠ .team key) rfl ?_ ?_ there
    request).2
  · intro c request
    refine ⟨Prog.Each.bind Prog.each_lift fun _ => ?_, nofun⟩
    rw [request]
    exact teamless_redeem.bind fun _ => trivial
  · intro c p ℓ now σ m before moves _ request
    obtain ⟨each, held⟩ := before request
    refine ⟨each.move moves, fun g kept => ?_⟩
    rcases (System.move_grants moves).1 g (Or.inl kept) with old | ⟨_, k, claim, same⟩
    · exact held g old
    · obtain ⟨_, _, _, _, teamless, claim⟩ := each.claims moves claim
      exact same ▸ teamless _ _ _ _ claim

/-- In a run that keeps to the order, every session stands at its place in it. -/
theorem stands_ruled (reached : ReachableWhile Ruled S) {i : Nat}
    (there : S.sessions[i]? = some ⟨c, ℓ, .running p⟩)
    (moves : p.move S.clock S.store ℓ = some m) : ∃ n, Stands ℓ S.store m.claims n := by
  obtain ⟨σ, now, inv, steps⟩ := reached
  have stands := steps.along ServiceProofs.verified (System.sound_start inv) rfl
    (W := fun c => listed c.request = true)
    (fun c σ known inv => along_lift fun _ => inOrder_verb inv known)
    (fun _ c _ met => met.listed c rfl)
    (fun _ i _ c ℓ p m met advances => met.guarded i c ℓ p rfl advances.here) there
  exact (along_move stands.2 moves).1

theorem not_circular_ruled (reached : ReachableWhile Ruled S) (i : Nat) : ¬S.Circular i := by
  refine reached.reachable.sound.ordered.not_circular
    (R := fun n ℓ σ claims => Stands ℓ σ claims n)
    (fun _ _ _ _ _ there moves => stands_ruled reached there moves) ?_
  intro n n' ℓ ℓ' claims claims' k g stands stands' room claim held row waits
  exact stands.rises reached.reachable.inv stands' room claim held row waits

/-- The calls of a run that keeps to the order are among those that do. -/
theorem listed_ruled (reached : ReachableWhile Ruled S) {i : Nat} (there : S.sessions[i]? = some s) :
    listed s.call.request = true := by
  obtain ⟨σ, now, inv, steps⟩ := reached
  induction steps generalizing i s with
  | refl => cases there
  | step before step met ih =>
    cases System.turn_of_step step there with
    | kept here => exact ih here
    | arrived _ call _ _ new =>
      rw [new, Txn.Session.reached_call]
      exact met.listed _ call
    | ran advances _ _ new =>
      rw [new, Txn.Session.reached_call]
      exact ih advances.here
    | ended here _ call => exact call ▸ ih here

/-- A session about to spend an enrolment without its owner's row holds nothing. -/
theorem unguarded_free (reached : ReachableWhile Ruled S) {i : Nat}
    (there : S.sessions[i]? = some ⟨c, ℓ, .running p⟩)
    (unguarded : ¬Guarded ℓ p.upcoming S.store S.clock) : ℓ.held = [] := by
  simp only [Guarded, not_forall] at unguarded
  obtain ⟨secret, e, spends, found, unowned⟩ := unguarded
  obtain ⟨k, rfl⟩ : ∃ k, p = .stmt (Enrolment.updateSpentAt secret) k := by
    cases p with
    | stmt s k =>
      cases spends
      exact ⟨k, rfl⟩
    | _ => cases spends
  obtain ⟨row, matched⟩ := Option.filter_eq_some_iff.mp found
  rw [Local.view_current rfl] at row matched found
  obtain ⟨r, request⟩ : ∃ r, c.request = .redeemEnrolment r := by
    by_contra other
    obtain ⟨σ, now, inv, steps⟩ := reached
    have quiet : Prog.Each Unspending (.stmt (Enrolment.updateSpentAt secret) k) := by
      refine steps.underway (P := fun c _ p => listed c.request = true →
        (∀ r, c.request ≠ .redeemEnrolment r) → p.Each Unspending) rfl ?_ ?_ there
        (listed_ruled ⟨σ, now, inv, steps⟩ there) fun r same => other ⟨r, same⟩
      · exact fun c known other => Prog.Each.bind Prog.each_lift fun _ => unspending_verb known other
      · exact fun _ _ _ _ _ _ before moves _ known other => (before known other).move moves
    have spent := quiet.1 S.clock (applyAll ℓ.pending S.store) { e with spentAt := some S.clock }
      (by simp [Enrolment.updateSpentAt, found])
    cases spent
  have teamless := teamless_held reached.reachable there request
  have claims : (Enrolment.updateSpentAt secret).claims S.clock ℓ.iso (applyAll ℓ.pending S.store) =
      [⟨⟨.secret secret, .exclusive⟩, true⟩, ⟨⟨.enrolment e.key, .exclusive⟩, true⟩] := by
    simp [Enrolment.updateSpentAt, row, matched]
  obtain ⟨n, stands⟩ := stands_ruled reached there rfl
  simp only [Local.view_current (s := Enrolment.updateSpentAt secret) rfl, claims] at stands
  cases stands with
  | free none => exact none
  | still none => cases none
  | syncing synced =>
    obtain ⟨t, held⟩ := synced
    exact absurd rfl (teamless _ held).1
  | writing writing =>
    obtain ⟨t, held⟩ := writing.team
    exact absurd rfl ((teamless _ held).2 _)
  | declaring declaring =>
    obtain ⟨t, held⟩ := declaring.synced
    exact absurd rfl (teamless _ held).1
  | owning owning below =>
    rcases below ⟨⟨.enrolment e.key, .exclusive⟩, true⟩ (by simp) with hangs | ⟨key, same⟩
    · have mine : Hangs (weight e.userId) (applyAll ℓ.pending S.store) (.enrolment e.key) :=
        ⟨e, (Store.enrolment?_mem row).1, rfl, rfl⟩
      obtain rfl := hangs.unique reached.reachable.inv
        (mine.kept (keeps_pending owning.pending (.refl _)))
      exact absurd owning.owner unowned
    · cases same

/-! ### Going on -/

/-- No deadlock. In a run of any number of calls, the writers of the settings
and of the key's marker apart, in which a redemption spends an enrolment only
while it holds its owner's row, every call under way is, by way of the calls it
waits for, behind one that can take its next step. -/
theorem someone_goes_on (reached : ReachableWhile Ruled S) {i : Nat}
    (there : S.sessions[i]? = some s) (running : s.Running) :
    ∃ j, Relation.ReflTransGen (fun i j => ∃ r, S.waits i j r = true) i j ∧
      (S.step service (.run j)).isSome := by
  have clear := not_circular_ruled reached
  obtain ⟨σ, now, inv, steps⟩ := reached
  exact steps.behind rfl clear there running

/-- The calls under way can be brought to an end. From every state of such a
run there are steps of its sessions alone, with no new call and none lost, that
lead to a state in which every call has ended. -/
theorem calls_come_to_rest (reached : ReachableWhile Ruled S) :
    ∃ (turns : List Nat) (S' : Handlers.System),
      S.run service (turns.map .run) = some S' ∧ S'.AtRest := by
  -- The order is kept as long as somebody can go on and keep it; then nobody holds anything.
  let P (T : Handlers.System) : Prop := ReachableWhile Ruled T ∨ Reachable T ∧ ∃ i, T.Sole i
  suffices goes : ∀ T, P T → ∀ s ∈ T.sessions, s.Running →
      ∃ i T', T.step service (.run i) = some T' ∧ P T' by
    obtain ⟨turns, S', ran, _, rest⟩ := System.comes_to_rest service (P := P) (Or.inl reached) goes
    exact ⟨turns, S', ran, rest⟩
  have alone {T : Handlers.System} {i : Nat} {s : Session} (reachable : Reachable T) (sole : T.Sole i) (member : s ∈ T.sessions)
      (running : s.Running) : ∃ i T', T.step service (.run i) = some T' ∧ P T' := by
    obtain ⟨σ, now, inv, steps⟩ := reachable
    obtain ⟨j, T', step, sole⟩ := steps.sole_goes rfl sole member running
    exact ⟨j, T', step, Or.inr ⟨Reachable.step ⟨σ, now, inv, steps⟩ step, j, sole⟩⟩
  rintro T (ruled | ⟨reachable, i, sole⟩) s member running
  swap
  · exact alone reachable sole member running
  by_cases keeps : ∃ j T', T.step service (.run j) = some T' ∧ ∀ c ℓ p,
      T.sessions[j]? = some ⟨c, ℓ, .running p⟩ → Guarded ℓ p.upcoming T.store T.clock
  · obtain ⟨j, T', step, guarded⟩ := keeps
    refine ⟨j, T', step, Or.inl (ruled.later (.step .refl step ⟨nofun, ?_⟩))⟩
    rintro k c ℓ p same here
    cases same
    exact guarded c ℓ p here
  -- Whoever can take a step holds nothing, so nobody waits for it.
  have free (j : Nat) (able : (T.step service (.run j)).isSome) (s : Session)
      (here : T.sessions[j]? = some s) : s.loc.held = [] := by
    by_contra held
    obtain ⟨T', step⟩ := Option.isSome_iff_exists.mp able
    refine keeps ⟨j, T', step, fun c ℓ p there => ?_⟩
    by_contra unguarded
    cases Option.some.inj (here.symm.trans there)
    exact held (unguarded_free ruled there unguarded)
  have nothing (k : Nat) (s : Session) (here : T.sessions[k]? = some s) : s.loc.held = [] := by
    by_contra held
    obtain ⟨σ, now, inv, steps⟩ := ruled
    have running := (steps.alive rfl here).2 held
    obtain ⟨j, path, able⟩ := someone_goes_on ⟨σ, now, inv, steps⟩ here running
    rcases path.cases_tail with rfl | ⟨x, _, r, waits⟩
    · exact held (free _ able _ here)
    · obtain ⟨_, _, _, s', _, g, wait⟩ := System.waits_cases waits
      have none := free j able s' wait.there
      have some := wait.held
      rw [none] at some
      cases some
  exact alone (i := 0) ruled.reachable (fun j s there _ => nothing j s there) member running

/-! ### Reads -/

/-- The verbs that read without a lock. -/
def reading : Request → Bool
  | .resolveCredential _ => true
  | .getPasswordHash _ => true
  | .listCredentials _ => true
  | .getKeyIdentity _ => true
  | .listKeyIdentityEvidence _ => true
  | _ => false

theorem unclaiming_reading (reads : reading c.request = true) : (service c).Each Unclaiming := by
  refine Prog.Each.bind Prog.each_lift fun _ => ?_
  cases request : c.request with
  | resolveCredential r => exact unclaiming_resolve.bind fun _ => trivial
  | getPasswordHash r => exact ⟨fun _ _ _ => rfl, fun _ => trivial⟩
  | listCredentials r => exact ⟨fun _ _ _ => rfl, fun _ => trivial⟩
  | getKeyIdentity r =>
    unfold verb KeyIdentity.keyIdentity
    refine Prog.Each.bind (Prog.Each.bind Prog.each_lift fun _ => ?_) fun _ => trivial
    refine ⟨fun _ _ _ => rfl, fun stored => ?_⟩
    cases stored <;> trivial
  | listKeyIdentityEvidence r =>
    unfold verb KeyIdentity.evidencePage
    exact Prog.Each.bind (Prog.Each.bind Prog.each_lift fun _ => ⟨fun _ _ _ => rfl,
      fun _ => trivial⟩) fun _ => trivial
  | _ =>
    rw [request] at reads
    cases reads

theorem within_resolve : (Credential.resolve r).Within 7 := by
  intro row
  cases row with
  | none => trivial
  | some row => exact fun _ _ _ _ => trivial

theorem within_keyIdentity : (KeyIdentity.keyIdentity r).Within 7 := by
  unfold KeyIdentity.keyIdentity
  refine Prog.Within.lift fun _ => ?_
  intro stored
  cases stored <;> trivial

theorem within_evidencePage : (KeyIdentity.evidencePage r).Within 7 := by
  unfold KeyIdentity.evidencePage
  exact Prog.Within.lift fun _ _ => trivial

theorem within_reading (reads : reading c.request = true) : (service c).Within 7 := by
  refine Prog.Within.lift fun _ => ?_
  cases request : c.request with
  | resolveCredential r => exact within_resolve.map
  | getPasswordHash r => exact fun _ => trivial
  | listCredentials r => exact fun _ => trivial
  | getKeyIdentity r => exact within_keyIdentity.map
  | listKeyIdentityEvidence r => exact within_evidencePage.map
  | _ =>
    rw [request] at reads
    cases reads

/-- A read never waits for anybody, whatever else is under way, and nobody ever
waits for it; and it is never more than seven steps of its own from its answer. -/
theorem reads_never_wait (reachable : Reachable S) {i : Nat}
    (there : S.sessions[i]? = some ⟨c, ℓ, .running p⟩) (reads : reading c.request = true) :
    (∀ j r, S.waits i j r = false ∧ S.waits j i r = false) ∧
      ∃ k ≤ 7, ∃ S' ℓ' result, S.run service (.replicate k (.run i)) = some S' ∧
        S'.sessions[i]? = some ⟨c, ℓ', .answered result⟩ := by
  obtain ⟨σ, now, inv, later⟩ := reachable
  have unended := (later.alive rfl there).1 p rfl
  have short : p.Within 7 := by
    refine later.underway (P := fun c _ p => reading c.request = true → p.Within 7) rfl
      (fun c reads => within_reading reads) ?_ there reads
    intro c p ℓ now σ m before moves _ reads
    exact Prog.Within.succ (Prog.Within.move (before reads) moves)
  obtain ⟨each, held⟩ := later.unclaiming rfl (unclaiming_reading reads) there
  refine ⟨fun j r => ⟨?_, ?_⟩, ?_⟩
  · by_contra waits
    obtain ⟨_, _, _, _, _, _, wait⟩ := System.waits_cases (by simpa using waits)
    cases Option.some.inj (there.symm.trans wait.here)
    obtain ⟨m, moves, claim⟩ := wait.claim
    rw [claims_move each moves] at claim
    cases claim
  · by_contra waits
    obtain ⟨_, _, _, _, _, _, wait⟩ := System.waits_cases (by simpa using waits)
    cases Option.some.inj (there.symm.trans wait.there)
    have held' := wait.held
    rw [held] at held'
    cases held'
  · refine System.answers_within (ℓ := ℓ) ?_ each short
    rw [there]
    cases p with
    | ret a => exact absurd rfl unended
    | fail e => exact absurd rfl unended
    | _ => rfl

/-- Whether a session is under way with a read. -/
def readNow (S : Handlers.System) (i : Nat) : Bool :=
  match S.sessions[i]? with
  | some ⟨c, _, .running _⟩ => reading c.request
  | _ => false

theorem read_of_now {S : Handlers.System} (now : readNow S i = true) :
    ∃ c ℓ p, S.sessions[i]? = some ⟨c, ℓ, .running p⟩ ∧ reading c.request = true := by
  unfold readNow at now
  split at now
  · rename_i here
    exact ⟨_, _, _, here, now⟩
  · cases now

end

open Bytewise in
theorem someone_goes_on_racing : ∃ j, Relation.ReflTransGen
    (fun i j => ∃ r, (after racing).waits i j r = true) 3 j ∧
      ((after racing).step service (.run j)).isSome := by
  have waits : (after racing).waits 3 2 (.user Enrolments.enrolledId) = true := by decide +kernel
  obtain ⟨_, _, p, _, _, _, wait⟩ := System.waits_cases waits
  exact someone_goes_on ⟨migrated, 0, integrity_migrated,
    reaches_after ruledNow (fun _ _ _ => ruled_of_now) (by decide +kernel)⟩ wait.here ⟨p, rfl⟩

open Bytewise in
theorem calls_come_to_rest_racing : ∃ (turns : List Nat) (S' : Handlers.System),
    (after racing).run service (turns.map .run) = some S' ∧ S'.AtRest :=
  calls_come_to_rest ⟨migrated, 0, integrity_migrated,
    reaches_after ruledNow (fun _ _ _ => ruled_of_now) (by decide +kernel)⟩

/-- A read of the user the redemption and the revoke contend for. -/
def looking : List (Action Call) :=
  racing ++ calling firstUuid (.resolveCredential ⟨Enrolments.aSecret, false⟩) 4 1

open Bytewise in
theorem reads_never_wait_looking : ∃ c ℓ, ∃ p : Rpc Response,
    (after looking).sessions[4]? = some ⟨c, ℓ, .running p⟩ ∧
    (∀ j r, (after looking).waits 4 j r = false ∧ (after looking).waits j 4 r = false) ∧
      ∃ k ≤ 7, ∃ S' ℓ' result, (after looking).run service (.replicate k (.run 4)) = some S' ∧
        S'.sessions[4]? = some ⟨c, ℓ', .answered result⟩ := by
  obtain ⟨c, ℓ, p, here, reads⟩ := read_of_now (S := after looking) (i := 4) (by decide +kernel)
  exact ⟨c, ℓ, p, here, reads_never_wait (reachable_after looking) here reads⟩

end IamDb.Progress
