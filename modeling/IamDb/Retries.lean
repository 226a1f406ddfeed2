import IamDb.Spellings
import IamDb.Txn.Working

/-! Deliveries repeated by their shape. A tombstone, an assignment and an upsert
say what a row should be and not how to change it, so a delivery made again
right after the first, with no key and no ledger, finds what it asks for done:
it answers the same and changes nothing. A new password and a revoke of all
find it done too, but each delivery raises the epoch. -/
namespace IamDb.Retries
open Txn Schema Messages Service Effects Handlers Runs

section
variable [Engine]

/-- The requests whose repetition is a replay by the shape of what they write. -/
def byShape : Request → Bool
  | .revokeCredential _ => true
  | .setUserAdmin _ => true
  | .setRateLimitOverride _ => true
  | .addTeamMember _ => true
  | .removeTeamMember _ => true
  | _ => false

/-- A program by itself, run again on the store it left, answers the same and
leaves the same store. -/
def Repeats (p : Rpc α) : Prop :=
  ∀ ℓ σ now now', p.alone ℓ (p.alone ℓ σ now).2 now' = p.alone ℓ σ now

/-! ### Programs by themselves -/

theorem alone_conn {s : Sql ρ} {k : ρ → Rpc α} : (conn s >>= k).alone ℓ σ now =
    (k (s.exec now σ).1).alone (ℓ.afterAuto defaultIsolation s σ now)
      (applyAll (s.exec now σ).2 σ) now := rfl

theorem alone_map {p : Rpc α} {g : α → β} : (do pure (g (← p)) : Rpc β).alone ℓ σ now =
    ((p.alone ℓ σ now).1.map g, (p.alone ℓ σ now).2) := by
  induction p generalizing ℓ σ with
  | ret a => rfl
  | fail e => rfl
  | begin iso p ih => exact ih
  | stmt s k ih => exact ih _
  | auto iso s k ih => exact ih _
  | commit p ih => exact ih

theorem Repeats.map {p : Rpc α} {g : α → β} (repeats : Repeats p) :
    Repeats (do pure (g (← p)) : Rpc β) := by
  intro ℓ σ now now'
  rw [alone_map, alone_map, repeats]

theorem Repeats.lift {d : Except Status β} {f : β → Rpc α} (repeats : ∀ b, Repeats (f b)) :
    Repeats (Prog.lift d >>= f) := by
  cases d with
  | ok b => exact repeats b
  | error e => exact fun _ _ _ _ => rfl

def noLiveUser : Status := ⟨.notFound, "no such live user"⟩

theorem alone_liveUser {k : Unit → Rpc α} : (liveUser conn userId >>= k).alone ℓ σ now =
    if (σ.liveUser? userId).isSome then
      (k ()).alone (ℓ.afterAuto defaultIsolation (selectLiveUser userId) σ now) σ now
    else (.error noLiveUser, σ) := by
  unfold liveUser
  rw [bind_assoc, alone_conn]
  cases found : (σ.liveUser? userId).isSome <;> simp only [selectLiveUser, found] <;> rfl

/-- A write of a live user's row, or of one that hangs off it, that answers
whether it matched, and a look at the user where it did not. -/
theorem alone_matched {s : Sql Nat} {row : User → Write} (exec : s.exec now σ =
      (σ.liveUser? userId).elim (0, []) fun u => (1, [row u])) :
    (do let done ← conn s
        if done = 0 then liveUser conn userId else pure () : Rpc Unit).alone ℓ σ now =
      (σ.liveUser? userId).elim (.error noLiveUser, σ) fun u => (.ok (), (row u).apply σ) := by
  rw [alone_conn, exec]
  cases found : σ.liveUser? userId with
  | none =>
    show Prog.alone (liveUser conn userId) _ σ now = _
    rw [← bind_pure (liveUser conn userId), alone_liveUser, found]
    rfl
  | some u => rfl

/-- It repeats itself where the row it writes is written again as it stands. -/
theorem repeats_matched {p : Rpc Unit} (row : Store → User → Write)
    (alone : ∀ ℓ σ now, p.alone ℓ σ now =
      (σ.liveUser? userId).elim (.error noLiveUser, σ) fun u => (.ok (), (row σ u).apply σ))
    (again : ∀ σ u, σ.liveUser? userId = some u →
      ∃ u', ((row σ u).apply σ).liveUser? userId = some u' ∧
        (row ((row σ u).apply σ) u').apply ((row σ u).apply σ) = (row σ u).apply σ) :
    Repeats p := by
  intro ℓ σ now now'
  rw [alone ℓ σ now]
  cases found : σ.liveUser? userId with
  | none => rw [Option.elim_none, alone, found, Option.elim_none]
  | some u =>
    obtain ⟨u', live, same⟩ := again σ u found
    rw [Option.elim_some, alone, live, Option.elim_some, same]

/-! ### The verbs -/

/-- A row written again as it stands. -/
theorem user_again {σ : Store} {u : User} :
    (Write.user u).apply ((Write.user u).apply σ) = (Write.user u).apply σ := by
  show { σ with users := (σ.users.put u).put u } = { σ with users := σ.users.put u }
  rw [Table.put_of_mem Table.mem_put_self]

theorem user_written {σ : Store} (found : σ.user? userId = some u) (key : u'.key = u.key) :
    ((Write.user u').apply σ).user? userId = some u' := by
  show (Table.put _ _).find? _ = _
  rw [Table.find?_put, if_pos (by exact (key.trans (Store.user?_mem found).2).symm)]

theorem live_written {σ : Store} (live : σ.liveUser? userId = some u) (key : u'.key = u.key)
    (same : u'.deletedAt = u.deletedAt) :
    ((Write.user u').apply σ).liveUser? userId = some u' := by
  obtain ⟨row, alive⟩ := Store.liveUser?_eq_some.mp live
  exact Store.liveUser?_eq_some.mpr ⟨user_written row key, same.trans alive⟩

theorem rateLimit_again {σ : Store} {o : RateLimitOverride} :
    (Write.rateLimit o).apply ((Write.rateLimit o).apply σ) = (Write.rateLimit o).apply σ := by
  show { σ with rateLimits := (σ.rateLimits.put o).put o } = { σ with rateLimits := σ.rateLimits.put o }
  rw [Table.put_of_mem Table.mem_put_self]

theorem repeats_setAdmin : Repeats (Policy.setAdmin r) := by
  refine repeats_matched (fun _ u => .user { u with isAdmin := r.isAdmin })
    (fun ℓ σ now => alone_matched ?_) fun σ u found => ?_
  · simp only [Policy.updateIsAdmin]
    cases σ.liveUser? r.userId <;> rfl
  · exact ⟨{ u with isAdmin := r.isAdmin }, live_written found rfl rfl, user_again⟩

section
variable {r : SetRateLimitOverrideRequest}

theorem alone_upsert (limit : RateLimit) (ℓ : Local Store Write Res) (σ : Store) (now : Int) : (do
    let written ← conn (Policy.upsertRateLimit r.userId r.module r.kind limit)
    let done ← orElse db written
    if done = 0 then liveUser conn r.userId else pure () : Rpc Unit).alone ℓ σ now =
      (σ.liveUser? r.userId).elim (.error noLiveUser, σ) fun u =>
        if fits Policy.maxModule r.module then
          (.ok (), (Write.rateLimit (limited r limit σ u)).apply σ)
        else (.error (db .other), σ) := by
  rw [alone_conn]
  cases found : σ.liveUser? r.userId with
  | none =>
    have exec : (Policy.upsertRateLimit r.userId r.module r.kind limit).exec now σ = (.ok 0, []) := by
      simp only [Policy.upsertRateLimit, found]
    rw [exec]
    show Prog.alone (liveUser conn r.userId) _ σ now = _
    rw [← bind_pure (liveUser conn r.userId), alone_liveUser, found]
    rfl
  | some u =>
    rw [PolicyProofs.upsertRateLimit_exec r limit now σ found, Option.elim_some]
    split
    · rfl
    · rfl

theorem repeats_upsert : Repeats (do
    let written ← conn (Policy.upsertRateLimit r.userId r.module r.kind limit)
    let done ← orElse db written
    if done = 0 then liveUser conn r.userId else pure () : Rpc Unit) := by
  by_cases fit : fits Policy.maxModule r.module = true
  · have alone := alone_upsert (r := r) limit
    simp only [fit, if_true] at alone
    refine repeats_matched (fun σ u => .rateLimit (limited r limit σ u)) alone
      fun σ u found => ⟨u, found, ?_⟩
    have stored : limited r limit ((Write.rateLimit (limited r limit σ u)).apply σ) u =
        limited r limit σ u := by
      have here : ((Write.rateLimit (limited r limit σ u)).apply σ).rateLimits.find?
          (u.key, weight r.module, r.kind) = some (limited r limit σ u) := by
        rw [← limited_key]
        exact Table.find?_put_self
      conv_lhs => rw [limited, here]
      unfold limited
      cases σ.rateLimits.find? (u.key, weight r.module, r.kind) <;> rfl
    rw [stored, rateLimit_again]
  · intro ℓ σ now now'
    have refused := alone_upsert (r := r) limit ℓ σ
    simp only [fit, Bool.false_eq_true, if_false] at refused
    rw [refused]
    cases live : σ.liveUser? r.userId with
    | none => rw [Option.elim_none, refused, live, Option.elim_none]
    | some u => rw [Option.elim_some, refused, live, Option.elim_some]

/-- The store without the override. -/
def cleared (r : SetRateLimitOverrideRequest) (σ : Store) : Store :=
  if (σ.rateLimits.find? (weight r.userId, weight r.module, r.kind)).isSome then
    { σ with rateLimits := σ.rateLimits.erase (weight r.userId, weight r.module, r.kind) }
  else σ

theorem liveUser?_cleared : (cleared r σ).liveUser? userId = σ.liveUser? userId := by
  unfold cleared
  split <;> rfl

theorem cleared_again : cleared r (cleared r σ) = cleared r σ := by
  cases found : (σ.rateLimits.find? (weight r.userId, weight r.module, r.kind)).isSome with
  | false =>
    have same : cleared r σ = σ := by rw [cleared, found, if_neg Bool.false_ne_true]
    rw [same, same]
  | true =>
    have gone : (σ.rateLimits.erase (weight r.userId, weight r.module, r.kind)).find?
        (weight r.userId, weight r.module, r.kind) = none := by
      rw [Table.find?_eq_none]
      exact fun row stored => (Table.mem_erase.mp stored).2
    have erased : cleared r σ = { σ with
        rateLimits := σ.rateLimits.erase (weight r.userId, weight r.module, r.kind) } := by
      rw [cleared, found, if_pos rfl]
    rw [erased, cleared, gone, Option.isSome_none, if_neg Bool.false_ne_true]

theorem alone_delete (now : Int) : (do
    liveUser conn r.userId
    conn (Policy.deleteRateLimit r.userId r.module r.kind) : Rpc Unit).alone ℓ σ now =
      if (σ.liveUser? r.userId).isSome then (.ok (), cleared r σ) else (.error noLiveUser, σ) := by
  rw [alone_liveUser]
  refine if_congr Iff.rfl ?_ rfl
  show (Except.ok (),
    applyAll ((Policy.deleteRateLimit r.userId r.module r.kind).exec now σ).2 σ) = _
  simp only [Policy.deleteRateLimit, cleared]
  split <;> rfl

theorem repeats_delete : Repeats (do
    liveUser conn r.userId
    conn (Policy.deleteRateLimit r.userId r.module r.kind) : Rpc Unit) := by
  intro ℓ σ now now'
  rw [alone_delete now]
  cases live : (σ.liveUser? r.userId).isSome with
  | false => rw [if_neg Bool.false_ne_true, alone_delete, live, if_neg Bool.false_ne_true]
  | true => rw [if_pos rfl, alone_delete, liveUser?_cleared, live, if_pos rfl, cleared_again]

theorem repeats_setRateLimit : Repeats (Policy.setRateLimit r) := by
  unfold Policy.setRateLimit
  refine Repeats.lift fun _ => ?_
  cases r.limit with
  | some limit => exact repeats_upsert
  | none => exact repeats_delete

end

/-- The credential a revoke is of, whoever owns it. -/
def revocable (r : RevokeCredentialRequest) (σ : Store) : Option Schema.Credential :=
  (σ.credentials.find? (weight r.credentialId)).filter fun c =>
    weight c.userId = weight r.userId && c.revokedAt.isNone

section
variable {r : RevokeCredentialRequest} {ℓ : Local Store Write Res}

theorem alone_revoke (named : r.userId ≠ "") (found : revocable r σ = some c) :
    (Credential.revoke r).alone ℓ σ now =
      (.ok r.userId, { σ with credentials := σ.credentials.put (revokedAt now c) }) := by
  have exec : (Credential.updateRevoked r.credentialId r.userId).exec now σ =
      (1, [.credential (revokedAt now c)]) := by
    simp only [Credential.updateRevoked]
    rw [revocable] at found
    rw [found]
    rfl
  rw [Credential.revoke, if_neg named, alone_conn, exec]
  rfl

theorem alone_revoked (named : r.userId ≠ "") (none : revocable r σ = none) :
    (Credential.revoke r).alone ℓ σ now =
      (if ((σ.credentials.find? (weight r.credentialId)).filter fun c =>
          weight c.userId = weight r.userId).isSome then .ok r.userId
        else .error ⟨.notFound, "no such credential"⟩, σ) := by
  have exec : (Credential.updateRevoked r.credentialId r.userId).exec now σ = (0, []) := by
    simp only [Credential.updateRevoked]
    rw [revocable] at none
    rw [none]
  rw [Credential.revoke, if_neg named, alone_conn, exec]
  show ((conn (Credential.selectOwned r.credentialId r.userId)) >>= _).alone _ σ now = _
  have look : (Credential.selectOwned r.credentialId r.userId).exec now σ =
      (((σ.credentials.find? (weight r.credentialId)).filter fun c =>
        weight c.userId = weight r.userId).isSome, []) := rfl
  rw [alone_conn, look]
  dsimp only
  by_cases owned : ((σ.credentials.find? (weight r.credentialId)).filter fun c =>
      weight c.userId = weight r.userId).isSome
  · rw [if_pos owned, if_pos owned]
    rfl
  · rw [if_neg owned, if_neg owned]
    rfl

end

theorem repeats_revoke : Repeats (Credential.revoke r) := by
  intro ℓ σ now now'
  by_cases named : r.userId = ""
  · rw [Credential.revoke, if_pos named]
    rfl
  cases found : revocable r σ with
  | none => rw [alone_revoked named found, alone_revoked named found]
  | some c =>
    rw [alone_revoke named found]
    obtain ⟨row, holds⟩ := Option.filter_eq_some_iff.mp found
    have key := (Table.find?_eq_some.mp row).2
    have here : (σ.credentials.put (revokedAt now c)).find? (weight r.credentialId) =
        some (revokedAt now c) := by
      rw [← key]
      exact Table.find?_put_self
    simp only [Bool.and_eq_true, decide_eq_true_eq] at holds
    have done : revocable r { σ with credentials := σ.credentials.put (revokedAt now c) } = none := by
      rw [revocable, here, Option.filter_some, if_neg (by simp [revokedAt])]
    rw [alone_revoked named done]
    show (if (((σ.credentials.put (revokedAt now c)).find? (weight r.credentialId)).filter _).isSome
      then _ else _, _) = _
    rw [here, Option.filter_some, if_pos (by simp [revokedAt, holds.1])]

/-- A delivery made again right after the first changes nothing. -/
theorem repeats_by_shape {c : Call} (shape : byShape c.request = true) (σ : Store)
    (now now' : Int) :
    (service c).alone .fresh ((service c).alone .fresh σ now).2 now' =
      (service c).alone .fresh σ now := by
  refine (Repeats.lift fun _ => ?_ : Repeats (service c)) .fresh σ now now'
  unfold verb
  cases request : c.request with
  | revokeCredential r => exact repeats_revoke.map
  | setUserAdmin r => exact repeats_setAdmin.map
  | setRateLimitOverride r => exact repeats_setRateLimit.map
  | addTeamMember r => exact fun _ _ _ _ => rfl
  | removeTeamMember r => exact fun _ _ _ _ => rfl
  | _ =>
    rw [request] at shape
    cases shape

/-! ### What raises the epoch -/

/-- A person's epoch counted up, if there is such a person. -/
def raised (userId : String) (σ : Store) : Store :=
  (σ.user? userId).elim σ fun u => (Write.user (bumped u)).apply σ

theorem exec_updateEpoch {matched : User → Bool} :
    (Epoch.updateEpoch userId matched).exec now σ =
      ((σ.user? userId).filter matched).elim (0, []) fun u => (1, [.user (bumped u)]) := by
  simp only [Epoch.updateEpoch]
  cases (σ.user? userId).filter matched <;> rfl

/-- Where a call is answered OK, it was let in. -/
theorem admitted_answered {c : Call} {ℓ : Local Store Write Res}
    (answered : (service c).alone ℓ σ now = (.ok b, σ')) : admitted c.caller = .ok () := by
  cases caller : admitted c.caller with
  | ok _ => rfl
  | error e =>
    unfold service at answered
    rw [caller] at answered
    cases answered

section
variable {r : SetPasswordRequest}

/-- The row a password upsert leaves. -/
def rehashed (r : SetPasswordRequest) (σ : Store) (u : User) : Password :=
  ((σ.passwords.find? u.key).map fun p => { p with argon2idHash := r.argon2idHash }).getD
    ⟨u.id, r.argon2idHash⟩

/-- What a new password leaves. -/
def hashed (r : SetPasswordRequest) (u : User) (σ : Store) : Store :=
  (Write.password (rehashed r σ u)).apply ((Write.user (bumped u)).apply σ)

theorem rehashed_key : (rehashed r σ u).key = u.key := by
  unfold rehashed
  cases found : σ.passwords.find? u.key with
  | none => rfl
  | some p => exact (Table.find?_eq_some.mp found).2

theorem rehashed_hashed : rehashed r (hashed r u σ) (bumped u) = rehashed r σ u := by
  have here : (hashed r u σ).passwords.find? (bumped u).key = some (rehashed r σ u) := by
    rw [bumped_key, ← rehashed_key (r := r) (σ := σ)]
    exact Table.find?_put_self
  rw [rehashed, here, Option.map_some, Option.getD_some]
  unfold rehashed
  cases σ.passwords.find? u.key <;> rfl

theorem hashed_again :
    hashed r (bumped u) (hashed r u σ) = (Write.user (bumped (bumped u))).apply (hashed r u σ) := by
  rw [hashed, rehashed_hashed]
  show Store.mk .. = Store.mk ..
  rw [show (((Write.user (bumped (bumped u))).apply (hashed r u σ)).passwords.put
      (rehashed r σ u)) = (hashed r u σ).passwords from Table.put_of_mem Table.mem_put_self]
  rfl

theorem live_hashed (live : σ.liveUser? r.userId = some u) :
    (hashed r u σ).liveUser? r.userId = some (bumped u) := live_written live rfl rfl

theorem working_storePassword (fits : fitsPasswordColumn r.argon2idHash = .ok ()) :
    (Password.storePassword r).working now σ =
      (σ.liveUser? r.userId).elim (.error noLiveUser) fun u => .ok ((), hashed r u σ) := by
  unfold Password.storePassword
  rw [fits]
  show (tx (Epoch.updateEpoch r.userId fun u => u.deletedAt.isNone) >>= _).working now σ = _
  rw [Prog.working_query, exec_updateEpoch]
  cases live : σ.liveUser? r.userId with
  | none =>
    have matched : (σ.user? r.userId).filter (fun u => u.deletedAt.isNone) = none := live
    rw [matched]
    show (liveUser tx r.userId >>= _).working now σ = _
    unfold liveUser
    rw [bind_assoc, Prog.working_query]
    simp only [selectLiveUser, live]
    rfl
  | some u =>
    have matched : (σ.user? r.userId).filter (fun u => u.deletedAt.isNone) = some u := live
    have stored : (Password.insertPassword r.userId r.argon2idHash).exec now
        ((Write.user (bumped u)).apply σ) = (1, [.password (rehashed r σ u)]) := by
      have same : ((Write.user (bumped u)).apply σ).passwords = σ.passwords := rfl
      simp only [Password.insertPassword, live_written live (bumped_key u) rfl, same, bumped_key,
        rehashed]
      cases σ.passwords.find? u.key <;> rfl
    rw [matched]
    show (tx (Password.insertPassword r.userId r.argon2idHash) >>= _).working now
      ((Write.user (bumped u)).apply σ) = _
    rw [Prog.working_query, stored]
    rfl

/-- A new password delivered again is answered the same and leaves the same
hash, but it raises the epoch once more: what was minted in between is out. -/
theorem password_repeats_but_epoch {c : Call} (request : c.request = .setPassword r)
    (answered : (service c).alone .fresh σ now = (.ok b, σ')) :
    (service c).alone .fresh σ' now' = (.ok b, raised r.userId σ') := by
  have whole : service c = (do pure ((fun _ => .setPassword) (← Password.storePassword r))) := by
    unfold service
    rw [admitted_answered answered, request]
    rfl
  have opens := Endings.opens_storePassword.map (p := Password.storePassword r)
    fun _ => Response.setPassword
  rw [whole] at answered ⊢
  have worked := opens.worked answered
  cases fits : fitsPasswordColumn r.argon2idHash with
  | error e =>
    unfold Password.storePassword at worked
    rw [fits] at worked
    cases worked
  | ok _ =>
    cases live : σ.liveUser? r.userId with
    | none =>
      rw [Prog.working_bind_error (by rw [working_storePassword fits, live]; rfl)] at worked
      cases worked
    | some u =>
      rw [Prog.working_bind (by rw [working_storePassword fits, live]; rfl)] at worked
      cases worked
      have found := (Store.liveUser?_eq_some.mp (live_hashed live)).1
      rw [raised, found, Option.elim_some, ← hashed_again]
      refine opens.alone_ok ?_
      rw [Prog.working_bind (by rw [working_storePassword fits, live_hashed live]; rfl)]
      rfl

end

section
variable {r : RevokeAllCredentialsRequest}

/-- What a revoke of all leaves. -/
def revokedAll (u : User) (now : Int) (σ : Store) : Store := (Effect.revokeAll u now now).apply σ

theorem apply_unrevoked {userId : String} :
    applyAll ((Epoch.unrevoked σ userId).map fun c => Write.credential (revokedAt now c)) σ =
      { σ with credentials := σ.credentials.update (liveOf (weight userId)) (revokedAt now) } := by
  rw [EpochProofs.applyAll_revoked]
  exact congrArg (fun t => { σ with credentials := t }) (Table.putAll_eq_update (f := revokedAt now)
    (fun _ => rfl) (fun _ => List.mem_filter) (Table.filter_distinct _ _))

theorem apply_unended {userId : String} :
    applyAll ((Epoch.unended σ userId).map fun e => Write.enrolment (voidedAt now e)) σ =
      { σ with enrolments := σ.enrolments.update (openOf (weight userId)) (voidedAt now) } := by
  rw [EpochProofs.applyAll_voided]
  exact congrArg (fun t => { σ with enrolments := t }) (Table.putAll_eq_update (f := voidedAt now)
    (fun _ => rfl) (fun _ => List.mem_filter) (Table.filter_distinct _ _))

theorem working_revokeAll : (Credential.revokeAllCredentials r).working now σ =
    (σ.user? r.userId).elim (.error ⟨.notFound, "no such user"⟩) fun u =>
      .ok (⟨saturated (Epoch.unrevoked σ r.userId).length,
        saturated (Epoch.unended σ r.userId).length⟩, revokedAll u now σ) := by
  unfold Credential.revokeAllCredentials Epoch.revokeAll
  show ((tx (Epoch.selectUserForUpdate r.userId) >>= _) >>= _).working now σ = _
  rw [bind_assoc, Prog.working_query]
  cases found : σ.user? r.userId with
  | none =>
    simp only [Epoch.selectUserForUpdate, found]
    rfl
  | some u =>
    have key := (Store.user?_mem found).2
    have bumping (W : Store) (same : W.users = σ.users) :
        (Epoch.updateEpoch r.userId fun _ => true).exec now W = (1, [.user (bumped u)]) := by
      rw [exec_updateEpoch, Store.user?, same]
      show ((σ.user? r.userId).filter _).elim _ _ = _
      rw [found]
      rfl
    simp only [Epoch.selectUserForUpdate, found]
    show (tx (Epoch.updateRevokedAt r.userId) >>= _).working now σ = _
    rw [Prog.working_query]
    show Prog.working now _ (applyAll
      ((Epoch.unrevoked σ r.userId).map fun c => Write.credential (revokedAt now c)) σ) = _
    rw [apply_unrevoked]
    show (tx (Epoch.updateEpoch r.userId fun _ => true) >>= _).working now _ = _
    rw [Prog.working_query, bumping { σ with
      credentials := σ.credentials.update (liveOf (weight r.userId)) (revokedAt now) } rfl]
    show (tx (Epoch.updateVoidedAt r.userId) >>= _).working now ((Write.user (bumped u)).apply _) = _
    rw [Prog.working_query]
    show Prog.working now _ (applyAll
      ((Epoch.unended _ r.userId).map fun e => Write.enrolment (voidedAt now e)) _) = _
    rw [apply_unended, Option.elim_some, revokedAll, ← key]
    rfl

theorem revoked_all (stored : c ∈ (revokedAll u now σ).credentials) : liveOf u.key c = false :=
  Table.of_mem_update (f := revokedAt now) (fun _ => rfl) (fun c => by simp [liveOf, revokedAt]) stored

theorem voided_all (stored : e ∈ (revokedAll u now σ).enrolments) : openOf u.key e = false :=
  Table.of_mem_update (f := voidedAt now) (fun _ => rfl) (fun e => by simp [openOf, voidedAt]) stored

theorem unrevoked_revokedAll (found : σ.user? r.userId = some u) :
    Epoch.unrevoked (revokedAll u now σ) r.userId = [] := by
  rw [Epoch.unrevoked, List.filter_eq_nil_iff, ← (Store.user?_mem found).2]
  exact fun c stored => Bool.eq_false_iff.mp (revoked_all stored)

theorem unended_revokedAll (found : σ.user? r.userId = some u) :
    Epoch.unended (revokedAll u now σ) r.userId = [] := by
  rw [Epoch.unended, List.filter_eq_nil_iff, ← (Store.user?_mem found).2]
  exact fun e stored => Bool.eq_false_iff.mp (voided_all stored)

theorem revokedAll_again (now' : Int) : revokedAll (bumped u) now' (revokedAll u now σ) =
    (Write.user (bumped (bumped u))).apply (revokedAll u now σ) := by
  show { revokedAll u now σ with
    users := (revokedAll u now σ).users.put (bumped (bumped u))
    credentials := (revokedAll u now σ).credentials.update (liveOf u.key) (revokedAt now')
    enrolments := (revokedAll u now σ).enrolments.update (openOf u.key) (voidedAt now') } = _
  rw [Table.update_eq_self fun _ => revoked_all, Table.update_eq_self fun _ => voided_all]
  rfl

/-- A revoke of all delivered again finds nothing to revoke or void and answers
so, but it raises the epoch once more. -/
theorem revoke_all_repeats_nothing {c : Call} (request : c.request = .revokeAllCredentials r)
    (answered : (service c).alone .fresh σ now = (.ok b, σ')) :
    (service c).alone .fresh σ' now' =
      (.ok (.revokeAllCredentials ⟨0, 0⟩), raised r.userId σ') := by
  have whole : service c =
      (do pure (.revokeAllCredentials (← Credential.revokeAllCredentials r))) := by
    unfold service
    rw [admitted_answered answered, request]
    rfl
  have opens := Endings.opens_revokeAllCredentials.map (p := Credential.revokeAllCredentials r)
    Response.revokeAllCredentials
  rw [whole] at answered ⊢
  have worked := opens.worked answered
  cases found : σ.user? r.userId with
  | none =>
    rw [Prog.working_bind_error (by rw [working_revokeAll, found]; rfl)] at worked
    cases worked
  | some u =>
    rw [Prog.working_bind (by rw [working_revokeAll, found]; rfl)] at worked
    cases worked
    have found' : (revokedAll u now σ).user? r.userId = some (bumped u) := user_written found rfl
    rw [raised, found', Option.elim_some, ← revokedAll_again now']
    refine opens.alone_ok ?_
    rw [Prog.working_bind (by rw [working_revokeAll, found']; rfl), unrevoked_revokedAll found,
      unended_revokedAll found]
    rfl

end

end

/-! ### Runs -/

open Bytewise in
/-- A revoke whose answer was lost is sent again a little later. -/
theorem repeats_by_shape_revoked :
    (service ⟨some iamCaller, secondUuid,
        .revokeCredential ⟨Spellings.credentialId, Spellings.personId⟩⟩).alone .fresh
      ((service ⟨some iamCaller, secondUuid,
        .revokeCredential ⟨Spellings.credentialId, Spellings.personId⟩⟩).alone .fresh
          (after Spellings.crediting).store 5).2 9 =
      (service ⟨some iamCaller, secondUuid,
        .revokeCredential ⟨Spellings.credentialId, Spellings.personId⟩⟩).alone .fresh
          (after Spellings.crediting).store 5 :=
  repeats_by_shape rfl _ 5 9

/-- A person's password is changed. -/
def changing : Call :=
  ⟨some iamCaller, secondUuid, .setPassword ⟨Spellings.personId, "$argon2id$"⟩⟩

open Bytewise in
theorem password_repeats_but_epoch_changed :
    (service changing).alone .fresh
      ((service changing).alone .fresh (after Spellings.crediting).store 5).2 9 =
      (.ok .setPassword, raised Spellings.personId
        ((service changing).alone .fresh (after Spellings.crediting).store 5).2) :=
  password_repeats_but_epoch (c := changing) (b := .setPassword) rfl
    (Prod.ext (by decide +kernel) rfl)

/-- A person's credentials are all revoked. -/
def leaving : Call :=
  ⟨some iamCaller, secondUuid, .revokeAllCredentials ⟨Spellings.personId⟩⟩

open Bytewise in
theorem revoke_all_repeats_nothing_leaving :
    (service leaving).alone .fresh
      ((service leaving).alone .fresh (after Spellings.crediting).store 5).2 9 =
      (.ok (.revokeAllCredentials ⟨0, 0⟩), raised Spellings.personId
        ((service leaving).alone .fresh (after Spellings.crediting).store 5).2) :=
  revoke_all_repeats_nothing (c := leaving) (b := .revokeAllCredentials ⟨1, 0⟩) rfl
    (Prod.ext (by decide +kernel) rfl)

end IamDb.Retries
