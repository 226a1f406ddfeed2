import IamDb.Enrolment
import Mathlib.Data.List.Sort

/-! The verbs whose subject is a credential: resolving a token to an identity,
minting one, tombstoning one or all of them, and listing them. Liveness is
decided in the queries. -/
namespace IamDb.Credential
open Txn Schema Messages Service Team Epoch

variable [Engine]

/-! ### Resolving -/

/-- Whether a credential row admits its bearer at a moment: not revoked, not
expired, and of a live person. -/
def resolves (now : Int) (σ : Store) (c : Schema.Credential) : Bool :=
  c.revokedAt.isNone &&
    (match c.expiresAt with
      | none => true
      | some expiry => now < expiry) &&
    (σ.liveUser? c.userId).isSome

/-- The credential row a token names, and its user's flag, while it resolves. -/
def selectCredential (tokenHash : Bytes) : Sql (Option (Schema.Credential × Bool)) where
  plain := true
  exec now σ :=
    (((σ.credential? tokenHash).filter (resolves now σ)).bind fun c =>
      (σ.user? c.userId).map fun u => (c, u.isAdmin), [])

/-- The live teams a user is a member of. -/
def selectTeamIds (userId : String) : Sql (List String) where
  plain := true
  exec _ σ :=
    ((σ.teamMembers.rows.filter fun m =>
      weight m.userId = weight userId && (σ.liveTeam? m.teamId).isSome).map (·.teamId), [])

def teamsAndAdmin (userId : String) (adminFromTeam columnAdmin : Bool) :
    Rpc (List String × Bool) := do
  let teamIds ← tx (selectTeamIds userId)
  pure (teamIds, if adminFromTeam then teamIds.any (· = administrators) else columnAdmin)

def selectRateLimits (userId : String) : Sql (List (String × Int × RateLimit)) where
  plain := true
  exec _ σ :=
    ((σ.rateLimits.rows.filter fun r => weight r.userId = weight userId).map fun r =>
      (r.module, r.kind, ⟨r.rate, r.burst⟩), [])

def selectOrgSetting (name : String) : Sql (Option (Int × Bool)) where
  plain := true
  exec _ σ := ((σ.orgSettings.find? (weight name)).map fun s => (s.value, s.locked), [])

def selectOverrides (name : String) : Sql (List (String × Int)) where
  plain := true
  exec _ σ :=
    ((σ.overrides.rows.filter fun s => weight s.name = weight name).map fun s =>
      (s.teamId, s.value), [])

/-- Both levels of one setting; an absent organisation row is unspecified. -/
def readSetting (name : String) : Rpc InheritedSetting := do
  let org ← tx (selectOrgSetting name)
  let (orgValue, orgLocked) := org.getD (0, false)
  let teamOverride ← tx (selectOverrides name)
  pure ⟨orgValue, orgLocked, teamOverride⟩

/-- The setting every resolve answers with. -/
abbrev ownerReadsOwnRecord : Rpc InheritedSetting := readSetting Service.ownerReadsOwnRecord

def resolve (r : ResolveCredentialRequest) : Rpc ResolveCredentialResponse := do
  begin defaultIsolation
  let row ← tx (selectCredential r.tokenHash)
  match row with
  | none => pure .default
  | some (c, columnAdmin) => do
    let (teamIds, isAdmin) ← teamsAndAdmin c.userId r.adminFromTeam columnAdmin
    let rateLimits ← tx (selectRateLimits c.userId)
    let setting ← ownerReadsOwnRecord
    commit
    pure ⟨c.userId, teamIds, c.id, isAdmin, rateLimits, some setting, c.expiresAt⟩

/-! ### Minting -/

/-- Whether a mint matches a user row: live, and with the expected epoch when
the request carries one. -/
def mintable (expected : Option Nat) (u : User) : Bool :=
  u.deletedAt.isNone && expected.all fun e => u.credentialEpoch = e

/-- `iam_credential.label` is `VARCHAR(255)`. -/
def maxLabel : Nat := 255

/-- The insert of a credential on the user row its `SELECT` matches. -/
def insertCredential (id : String) (r : CreateCredentialRequest) :
    Sql (Except DbError Nat) where
  claims _ iso σ :=
    userRow .shared r.userId (mintable r.expectedCredentialEpoch) iso σ ++
      match (σ.user? r.userId).filter (mintable r.expectedCredentialEpoch) with
      | some _ =>
        [insertRow (.credential (weight id)) (σ.credentials.find? (weight id)).isSome,
          insertRow (.token ((binary32 r.tokenHash).getD r.tokenHash))
            (σ.credential? ((binary32 r.tokenHash).getD r.tokenHash)).isSome]
      | none => []
  exec now σ :=
    match (σ.user? r.userId).filter (mintable r.expectedCredentialEpoch) with
    | none => (.ok 0, [])
    | some u =>
      match binary32 r.tokenHash with
      | none => (.error .other, [])
      | some token =>
        if !fits maxLabel r.label then (.error .other, [])
        else if (σ.credentials.find? (weight id)).isSome then (.error (.duplicate true), [])
        else if (σ.credential? token).isSome then (.error (.duplicate false), [])
        else (.ok 1, [.credential ⟨id, u.id, token, r.label, now,
          r.expiresAt.bind fromUnixtime, none⟩])
  covered now iso σ w writes := by
    split at writes
    · cases writes
    · rename_i u found
      split at writes
      · cases writes
      · split at writes
        · cases writes
        · split at writes
          · cases writes
          · rename_i absent
            split at writes
            · cases writes
            · obtain rfl := List.mem_singleton.mp writes
              simp [found, insertRow, absent, exclude, Write.res, Credential.key]

/-- The refusal of a checked mint whose epoch moved. -/
def stale : Status :=
  ⟨.failedPrecondition, "the account changed since this credential was asked for"⟩

def mintCredential (uuid : String) (r : CreateCredentialRequest) : Rpc String := do
  let id := "yadgar:credential:" ++ uuid
  let inserted ← conn (insertCredential id r)
  let done ← orElse db inserted
  if done = 0 then do
    liveUser conn r.userId
    if r.expectedCredentialEpoch.isSome then
      refuse stale
    else
      pure id
  else
    pure id

/-! ### Revoking -/

def updateRevoked (credentialId userId : String) : Sql Nat where
  claims _ iso σ :=
    match σ.credentials.find? (weight credentialId) with
    | some c =>
      [⟨⟨.credential (weight credentialId), .exclusive⟩,
        iso = .repeatableRead || weight c.userId = weight userId && c.revokedAt.isNone⟩]
    | none => [⟨⟨.credential (weight credentialId), .exclusive⟩, false⟩]
  exec now σ :=
    match (σ.credentials.find? (weight credentialId)).filter fun c =>
        weight c.userId = weight userId && c.revokedAt.isNone with
    | some c => (1, [.credential { c with revokedAt := some now }])
    | none => (0, [])
  covered now iso σ w writes := by
    split at writes
    · rename_i c found
      obtain ⟨row, holds⟩ := Option.filter_eq_some_iff.mp found
      have same : weight c.id = weight credentialId := (Table.find?_eq_some.mp row).2
      obtain rfl := List.mem_singleton.mp writes
      simp only [Bool.and_eq_true, decide_eq_true_eq] at holds
      simp [row, holds.1, holds.2, Write.res, Credential.key, same]
    · cases writes

def selectOwned (credentialId userId : String) : Sql Bool where
  plain := true
  exec _ σ :=
    (((σ.credentials.find? (weight credentialId)).filter fun c =>
      weight c.userId = weight userId).isSome, [])

def revoke (r : RevokeCredentialRequest) : Rpc String :=
  if r.userId = "" then
    refuse ⟨.invalidArgument, "a revoke must name the credential's user"⟩
  else do
    let rows ← conn (updateRevoked r.credentialId r.userId)
    if rows = 0 then do
      let owned ← conn (selectOwned r.credentialId r.userId)
      if owned then
        pure r.userId
      else
        refuse ⟨.notFound, "no such credential"⟩
    else
      pure r.userId

/-- `RevokeAllCredentials`: every live credential of a person, the epoch bump
and the void, in one transaction. -/
def revokeAllCredentials (r : RevokeAllCredentialsRequest) : Rpc RevokeAllCredentialsResponse := do
  begin defaultIsolation
  let rows ← revokeAll r.userId
  match rows with
  | none => refuse ⟨.notFound, "no such user"⟩
  | some rows => do
    let _ ← bump r.userId
    let voided ← voidEnrolments r.userId
    commit
    pure ⟨saturated rows, voided⟩

/-! ### Listing -/

/-- One page of a live user's unrevoked credentials past a token, by id. -/
def selectPage (userId token : String) (size : Nat) : Sql (List Schema.Credential) where
  plain := true
  exec _ σ :=
    let rows := σ.credentials.rows.filter fun c =>
      weight c.userId = weight userId && c.revokedAt.isNone &&
        (σ.liveUser? c.userId).isSome && weight token < c.key
    ((rows.insertionSort fun a b => a.key ≤ b.key).take size, [])

def credentialPage (r : ListCredentialsRequest) : Rpc ListCredentialsResponse := do
  let rows ← conn (selectPage r.userId r.pageToken (pageSize r.pageSize))
  let credentials := rows.map fun c => ⟨c.id, r.userId, c.label, some c.createdAt, c.expiresAt⟩
  pure ⟨credentials, if credentials.length = pageSize r.pageSize then
    ((rows.getLast?).map (·.id)).getD "" else ""⟩

end IamDb.Credential
