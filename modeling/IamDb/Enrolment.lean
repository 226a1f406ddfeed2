import IamDb.Epoch

/-! Minting an enrolment secret, and spending one. A redemption runs in one
READ COMMITTED transaction: the ledger is read first, the owner's row is locked,
the secret is spent in one statement, and a spend that matched nothing reads
the ledger again before it says why. -/
namespace IamDb.Enrolment
open Txn Schema Messages Service Team Epoch

variable [Engine]

/-! ### Minting -/

/-- The insert of an enrolment, on the user row its `SELECT` matches. -/
def insertEnrolment (id : String) (secretHash : Bytes) (seconds : Int) (userId : String)
    (revoking : Bool) (matched : Store → User → Bool) (looks : Store → List (Claim Res)) :
    Sql (Except DbError Nat) where
  claims _ iso σ :=
    userRow .shared userId (matched σ) iso σ ++ looks σ ++
      match (σ.user? userId).filter (matched σ) with
      | some _ =>
        [insertRow (.enrolment (weight id)) (σ.enrolments.find? (weight id)).isSome,
          insertRow (.secret ((binary32 secretHash).getD secretHash))
            (σ.enrolment? ((binary32 secretHash).getD secretHash)).isSome]
      | none => []
  exec _ σ :=
    match (σ.user? userId).filter (matched σ) with
    | none => (.ok 0, [])
    | some u =>
      match binary32 secretHash, fromUnixtime seconds with
      | some secret, some expiresAt =>
        if (σ.enrolments.find? (weight id)).isSome then (.error (.duplicate true), [])
        else if (σ.enrolment? secret).isSome then (.error (.duplicate false), [])
        else (.ok 1, [.enrolment ⟨id, u.id, secret, expiresAt, none, none, revoking⟩])
      | _, _ => (.error .other, [])
  covered now iso σ w writes := by
    split at writes
    · cases writes
    · rename_i u found
      split at writes
      · split at writes
        · cases writes
        · rename_i absent
          split at writes
          · cases writes
          · obtain rfl := List.mem_singleton.mp writes
            simp [found, insertRow, absent, exclude, Write.res, Enrolment.key]
      · cases writes

def isLive (_ : Store) (u : User) : Bool := u.deletedAt.isNone

/-- The ordinary arm. -/
def ordinary (id : String) (r : CreateEnrolmentRequest) (seconds : Int) :
    Sql (Except DbError Nat) :=
  insertEnrolment id r.secretHash seconds r.userId false isLive fun _ => []

/-- The ordinary arm carrying the revoke instruction. -/
def revoking (id : String) (r : CreateEnrolmentRequest) (seconds : Int) :
    Sql (Except DbError Nat) :=
  insertEnrolment id r.secretHash seconds r.userId true isLive fun _ => []

/-- The demand's predicate: a live administrator with no password row and no
credential row of any liveness. -/
def demanded (σ : Store) (u : User) : Bool :=
  u.deletedAt.isNone && u.isAdmin && (σ.passwords.find? u.key).isNone &&
    !σ.credentials.rows.any fun c => weight c.userId = u.key

/-- The demand arm: its locking read reaches the joined tables too. -/
def demand (id : String) (r : CreateEnrolmentRequest) (seconds : Int) :
    Sql (Except DbError Nat) :=
  insertEnrolment id r.secretHash seconds r.userId false demanded fun σ =>
    share (.password (weight r.userId)) ::
      (σ.credentials.rows.filter fun c => weight c.userId = weight r.userId).map fun c =>
        share (.credential c.key)

/-- Which statement the write runs. -/
def statement (id : String) (r : CreateEnrolmentRequest) (seconds : Int) :
    Sql (Except DbError Nat) :=
  match r.requireZeroCredentialAdmin, r.revokeExistingCredentials with
  | true, _ => demand id r seconds
  | false, true => revoking id r seconds
  | false, false => ordinary id r seconds

/-- Refuse the bootstrap demand carrying the revoke instruction. -/
def compatible (r : CreateEnrolmentRequest) : Except Status Unit :=
  if r.requireZeroCredentialAdmin && r.revokeExistingCredentials then
    .error ⟨.invalidArgument,
      "`revoke_existing_credentials` cannot be combined with `require_zero_credential_admin`"⟩
  else .ok ()

/-- The one sentence of every refusal of the demand. -/
def refusal : String :=
  "the bootstrap token may only enrol an administrator who has never held a credential"

/-- Which half of the demand's predicate refused, for the log. -/
inductive DemandConjunct where
  | notAdmin
  | heldCredential
  deriving DecidableEq, Repr

/-- The flag, for naming only; its error is returned and not rendered. -/
def selectAdminFlag (userId : String) : Sql (Except DbError (Option Bool)) where
  plain := true
  exec _ σ := (.ok ((σ.liveUser? userId).map (·.isAdmin)), [])

/-- The half that refused, unless the person is gone or the read failed. -/
def named : Except DbError (Option Bool) → Option DemandConjunct
  | .ok (some true) => some .heldCredential
  | .ok (some false) => some .notAdmin
  | .ok none => none
  | .error _ => none

/-- Name the zero for the log, then refuse; the reading never decides. -/
def refuseDemand (userId : String) : Rpc α := do
  let flag ← conn (selectAdminFlag userId)
  let _conjunct := named flag
  refuse ⟨.permissionDenied, refusal⟩

def secretConflict (e : DbError) : Status :=
  if e.isUniqueViolation then ⟨.alreadyExists, "that enrolment secret is already in use"⟩ else db e

/-! #### The declared arm -/

inductive Conjunct where
  | noAdministratorsTeam
  | notLiveUser
  | notDeclaredMember
  deriving DecidableEq, Repr

def selectLiveUserShared (userId : String) : Sql Bool where
  claims _ := userRow .shared userId fun u => u.deletedAt.isNone
  exec _ σ := ((σ.liveUser? userId).isSome, [])

def selectAdministrator (userId : String) : Sql Bool where
  plain := true
  exec _ σ := ((σ.teamMembers.find? (weight administrators, weight userId)).isSome, [])

def countLiveCredentials (userId : String) : Sql Nat where
  plain := true
  exec now σ :=
    ((σ.credentials.rows.filter fun c => weight c.userId = weight userId && c.revokedAt.isNone &&
      (match c.expiresAt with
        | none => true
        | some at' => now < at')).length, [])

/-- The team, the liveness and the membership, in that order; on admission how
many live credentials the target holds. -/
def predicate (userId : String) : Rpc (Except Conjunct Nat) := do
  let live ← lockAdministrators
  if live ≠ some true then
    pure (.error .noAdministratorsTeam)
  else do
    let found ← tx (selectLiveUserShared userId)
    if !found then
      pure (.error .notLiveUser)
    else do
      let member ← tx (selectAdministrator userId)
      if !member then
        pure (.error .notDeclaredMember)
      else do
        let n ← tx (countLiveCredentials userId)
        pure (.ok n)

/-- The arm with team-derived admin on: the predicate and the insert in one
transaction. -/
def issue (id : String) (r : CreateEnrolmentRequest) (seconds : Int) : Rpc String := do
  begin .readCommitted
  let decided ← predicate r.userId
  match decided with
  | .error _ => refuse ⟨.permissionDenied, refusal⟩
  | .ok _ => do
    let done ← tx (if r.revokeExistingCredentials then revoking id r seconds
      else ordinary id r seconds)
    let _ ← orElse secretConflict done
    commit
    pure id

def mintEnrolment (uuid : String) (r : CreateEnrolmentRequest) : Rpc String :=
  match r.expiresAt with
  | none => refuse ⟨.invalidArgument, "an enrolment must carry an expiry"⟩
  | some seconds =>
    let id := "yadgar:enrolment:" ++ uuid
    if r.requireZeroCredentialAdmin && r.adminFromTeam then
      issue id r seconds
    else do
      .lift (compatible r)
      let inserted ← conn (statement id r seconds)
      let done ← orElse secretConflict inserted
      if done = 0 then do
        liveUser conn r.userId
        if r.requireZeroCredentialAdmin then
          refuseDemand r.userId
        else
          pure id
      else
        pure id

/-! ### Redeeming -/

def selectRedemption (key : String) (lock : Lock) : Sql (Option Redemption) where
  plain := lock = .no
  claims _ _ σ :=
    if lock = .no then []
    else [⟨⟨.redemption (weight key), .exclusive⟩, (σ.redemptions.find? (weight key)).isSome⟩]
  exec _ σ := (σ.redemptions.find? (weight key), [])

def selectExternalId (userId : String) : Sql (Except DbError Bytes) where
  plain := true
  exec _ σ :=
    (match σ.user? userId with
      | some u => .ok u.externalId
      | none => .error .other, [])

def selectRevoking (enrolmentId : String) : Sql (Except DbError Bool) where
  plain := true
  exec _ σ :=
    (match σ.enrolments.find? (weight enrolmentId) with
      | some e => .ok e.revokeExistingCredentials
      | none => .error .other, [])

/-- The original outcome of a redemption already recorded under a key; refused
when the key redeemed another secret. -/
def replay (key : String) (presented : Bytes) (lock : Lock) :
    Rpc (Option RedeemEnrolmentResponse) := do
  let prior ← tx (selectRedemption key lock)
  match prior with
  | none => pure none
  | some prior =>
    if prior.secretHash ≠ presented then
      refuse ⟨.invalidArgument, "this idempotency key was used with a different enrolment secret"⟩
    else do
      let ciphertext ← tx (selectExternalId prior.userId)
      let externalId ← orElse db ciphertext
      let flag ← tx (selectRevoking prior.enrolmentId)
      let revoked ← orElse db flag
      pure (some ⟨.redeemed, prior.userId, prior.enrolmentId, externalId, revoked,
        prior.credentialEpoch, 0⟩)

def selectOwner (secretHash : Bytes) : Sql (Option String) where
  plain := true
  exec _ σ := ((σ.enrolment? secretHash).map (·.userId), [])

/-- Lock the user row of the enrolment a secret names. The owner is read
without a lock; an unknown secret locks nothing. -/
def lockOwner (secretHash : Bytes) : Rpc Unit := do
  let owner ← tx (selectOwner secretHash)
  match owner with
  | none => pure ()
  | some userId => do
    let _ ← tx (selectUserForUpdate userId)
    pure ()

/-- Whether the spend matches an enrolment: unspent, unexpired, unvoided, and
of a live person. -/
def spendable (now : Int) (σ : Store) (e : Enrolment) : Bool :=
  e.spentAt.isNone && now < e.expiresAt && e.voidedAt.isNone && (σ.liveUser? e.userId).isSome

/-- The spend: check and write in one statement. The rows of `iam_user` its
subquery reads are not locked at READ COMMITTED, and an enrolment it does not
match is unlocked again. -/
def updateSpentAt (secretHash : Bytes) : Sql Nat where
  claims now iso σ :=
    match σ.enrolment? secretHash with
    | some e =>
      let kept := iso = .repeatableRead || spendable now σ e
      [⟨⟨.secret secretHash, .exclusive⟩, kept⟩, ⟨⟨.enrolment e.key, .exclusive⟩, kept⟩]
    | none => [⟨⟨.secret secretHash, .exclusive⟩, false⟩]
  exec now σ :=
    match (σ.enrolment? secretHash).filter (spendable now σ) with
    | some e => (1, [.enrolment { e with spentAt := some now }])
    | none => (0, [])
  covered now iso σ w writes := by
    split at writes
    · rename_i e found
      obtain ⟨row, holds⟩ := Option.filter_eq_some_iff.mp found
      obtain rfl := List.mem_singleton.mp writes
      simp [row, holds, Write.res, Enrolment.key]
    · cases writes

def spend (r : RedeemEnrolmentRequest) : Rpc Nat := tx (updateSpentAt r.secretHash)

def selectUnredeemable (secretHash : Bytes) : Sql (Option (Bool × Bool)) where
  plain := true
  exec _ σ :=
    (((σ.enrolment? secretHash).filter fun e => (σ.liveUser? e.userId).isSome).map fun e =>
      (e.spentAt.isSome, e.voidedAt.isSome), [])

/-- Why a redemption did not happen. -/
def unredeemable (secretHash : Bytes) : Rpc RedeemOutcome := do
  let row ← tx (selectUnredeemable secretHash)
  match row with
  | none => pure .notFound
  | some (true, _) => pure .spent
  | some (false, true) => pure .voided
  | some (false, false) => pure .expired

/-- The answer when the spend matched nothing. -/
def unspent (key : String) (r : RedeemEnrolmentRequest) : Rpc RedeemEnrolmentResponse := do
  let replayed ← if key = "" then pure none else replay key r.secretHash .yes
  match replayed with
  | some replayed => do
    commit
    pure replayed
  | none => do
    let outcome ← unredeemable r.secretHash
    commit
    pure ⟨outcome, "", "", [], false, 0, 0⟩

/-- The spent enrolment's id, its user, the username and the instruction. -/
def selectRedeemed (secretHash : Bytes) :
    Sql (Except DbError (String × String × Bytes × Bool)) where
  plain := true
  exec _ σ :=
    (match (σ.enrolment? secretHash).bind fun e => (σ.user? e.userId).map fun u => (e, u) with
      | some (e, u) => .ok (e.id, e.userId, u.externalId, e.revokeExistingCredentials)
      | none => .error .other, [])

/-- The password upsert, with the foreign key on the user. -/
def upsertPassword (userId : String) (hash : String) : Sql (Except DbError Unit) where
  claims _ _ _ := [exclude (.password (weight userId)), share (.user (weight userId))]
  exec _ σ :=
    match σ.passwords.find? (weight userId) with
    | some p => (.ok (), [.password { p with argon2idHash := hash }])
    | none =>
      if (σ.user? userId).isNone then (.error .other, [])
      else (.ok (), [.password ⟨userId, hash⟩])
  covered now iso σ w writes := by
    split at writes
    · rename_i p found
      have same : weight p.userId = weight userId := (Table.find?_eq_some.mp found).2
      obtain rfl := List.mem_singleton.mp writes
      simp [exclude, Write.res, Password.key, same]
    · split at writes
      · cases writes
      · obtain rfl := List.mem_singleton.mp writes
        simp [exclude, Write.res, Password.key]

/-- `iam_enrolment_redemption.idempotency_key` is `VARCHAR(255)`. -/
def maxIdempotencyKey : Nat := 255

/-- The ledger row, with the foreign key on the enrolment. -/
def insertRedemption (row : Redemption) : Sql (Except DbError Unit) where
  claims _ _ σ :=
    if fits maxIdempotencyKey row.idempotencyKey then
      [insertRow (.redemption row.key) (σ.redemptions.find? row.key).isSome,
        share (.enrolment (weight row.enrolmentId))]
    else []
  exec _ σ :=
    if !fits maxIdempotencyKey row.idempotencyKey then (.error .other, [])
    else if (σ.redemptions.find? row.key).isSome then (.error (.duplicate true), [])
    else if (σ.enrolments.find? (weight row.enrolmentId)).isNone then (.error .other, [])
    else
      match binary32 row.secretHash with
      | some secret => (.ok (), [.redemption { row with secretHash := secret }])
      | none => (.error .other, [])
  covered now iso σ w writes := by
    split at writes
    · cases writes
    rename_i fit
    split at writes
    · cases writes
    · rename_i absent
      split at writes
      · cases writes
      · split at writes
        · obtain rfl := List.mem_singleton.mp writes
          rw [if_pos (by simpa using fit), insertRow, if_neg absent]
          exact List.mem_cons_self
        · cases writes

/-- The answer when the spend matched: the epoch, the revoke and the void the
enrolment carries, the password and the ledger row, committed as one. -/
def redeemed (key : String) (r : RedeemEnrolmentRequest) : Rpc RedeemEnrolmentResponse := do
  let row ← tx (selectRedeemed r.secretHash)
  let (enrolmentId, userId, externalId, revoking) ← orElse db row
  let _ ← bump userId
  let epoch ← current userId
  let voided ← if revoking then do
      let _ ← revokeAll userId
      voidEnrolments userId
    else pure 0
  let stored ← tx (upsertPassword userId r.argon2idHash)
  orElse db stored
  if key = "" then pure () else do
    let recorded ← tx (insertRedemption ⟨key, r.secretHash, enrolmentId, userId, epoch⟩)
    orElse db recorded
  commit
  pure ⟨.redeemed, userId, enrolmentId, externalId, revoking, epoch, voided⟩

/-- The redemption after the idempotency check. -/
def redeemFresh (key : String) (r : RedeemEnrolmentRequest) : Rpc RedeemEnrolmentResponse := do
  .lift (fitsPasswordColumn r.argon2idHash)
  lockOwner r.secretHash
  let spent ← spend r
  if spent = 0 then unspent key r else redeemed key r

def redeem (r : RedeemEnrolmentRequest) : Rpc RedeemEnrolmentResponse := do
  begin .readCommitted
  let key := r.idempotency.getD ""
  let replayed ← if key = "" then pure none else replay key r.secretHash .no
  match replayed with
  | some replayed => do
    commit
    pure replayed
  | none => redeemFresh key r

end IamDb.Enrolment
