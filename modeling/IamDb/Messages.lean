import IamDb.Schema

/-! The messages of the service: the fields its handlers read and fill, and the
status a refusal carries. A `Timestamp` is its seconds and an `Idempotency` its
key; what is only logged is left out. -/
namespace IamDb.Messages
open Schema

inductive Code where
  | invalidArgument
  | notFound
  | alreadyExists
  | permissionDenied
  | failedPrecondition
  | unavailable
  deriving DecidableEq, Repr

structure Status where
  code : Code
  message : String
  deriving DecidableEq, Repr

structure ResolveCredentialRequest where
  tokenHash : Bytes
  adminFromTeam : Bool
  deriving DecidableEq, Repr

structure RateLimit where
  rate : UInt64
  burst : Nat
  deriving DecidableEq, Repr

/-- Both levels of one inheritable setting, unresolved. -/
structure InheritedSetting where
  orgValue : Int
  orgLocked : Bool
  teamOverride : List (String × Int)
  deriving DecidableEq, Repr

structure ResolveCredentialResponse where
  userId : String
  teamIds : List String
  credentialId : String
  isAdmin : Bool
  rateLimitOverrides : List (String × Int × RateLimit)
  ownerReadsOwnRecord : Option InheritedSetting
  expiresAt : Option Int
  deriving DecidableEq, Repr

/-- The answer to every token that resolves to nobody. -/
def ResolveCredentialResponse.default : ResolveCredentialResponse :=
  ⟨"", [], "", false, [], none, none⟩

structure GetPasswordHashRequest where
  usernameBlindIndex : Bytes
  deriving DecidableEq, Repr

structure GetPasswordHashResponse where
  userId : String
  argon2idHash : String
  credentialEpoch : Nat
  deriving DecidableEq, Repr

structure SetPasswordRequest where
  userId : String
  argon2idHash : String
  deriving DecidableEq, Repr

structure CreateEnrolmentRequest where
  userId : String
  secretHash : Bytes
  expiresAt : Option Int
  requireZeroCredentialAdmin : Bool
  revokeExistingCredentials : Bool
  adminFromTeam : Bool
  deriving DecidableEq, Repr

inductive RedeemOutcome where
  | redeemed
  | notFound
  | spent
  | expired
  | voided
  deriving DecidableEq, Repr

structure RedeemEnrolmentRequest where
  idempotency : Option String
  secretHash : Bytes
  argon2idHash : String
  deriving DecidableEq, Repr

structure RedeemEnrolmentResponse where
  outcome : RedeemOutcome
  userId : String
  enrolmentId : String
  externalIdCiphertext : Bytes
  revokedExistingCredentials : Bool
  credentialEpoch : Nat
  voidedEnrolments : Nat
  deriving DecidableEq, Repr

structure CreateCredentialRequest where
  userId : String
  tokenHash : Bytes
  label : String
  expiresAt : Option Int
  expectedCredentialEpoch : Option Nat
  deriving DecidableEq, Repr

structure RevokeCredentialRequest where
  credentialId : String
  userId : String
  deriving DecidableEq, Repr

structure RevokeAllCredentialsRequest where
  userId : String
  deriving DecidableEq, Repr

structure RevokeAllCredentialsResponse where
  revoked : Nat
  voidedEnrolments : Nat
  deriving DecidableEq, Repr

structure ListCredentialsRequest where
  userId : String
  pageSize : Int
  pageToken : String
  deriving DecidableEq, Repr

/-- A listed credential; `revoked_at` is never set on one. -/
structure ListedCredential where
  id : String
  userId : String
  label : String
  createdAt : Option Int
  expiresAt : Option Int
  deriving DecidableEq, Repr

structure ListCredentialsResponse where
  credentials : List ListedCredential
  nextPageToken : String
  deriving DecidableEq, Repr

structure CreateUserRequest where
  externalIdCiphertext : Bytes
  displayNameCiphertext : Bytes
  externalIdBlindIndex : Bytes
  isAdmin : Bool
  userId : String
  deriving DecidableEq, Repr

/-- The id and version of the new row. -/
structure CreateUserResponse where
  id : String
  version : Nat
  deriving DecidableEq, Repr

structure SetUserAdminRequest where
  userId : String
  isAdmin : Bool
  deriving DecidableEq, Repr

structure SetRateLimitOverrideRequest where
  userId : String
  module : String
  kind : Int
  limit : Option RateLimit
  deriving DecidableEq, Repr

structure SetInheritedSettingRequest where
  idempotency : Option String
  scope : Int
  teamId : Option String
  name : String
  value : Option Int
  locked : Option Bool
  clear : Bool
  deriving DecidableEq, Repr

structure TeamMemberRequest where
  teamId : String
  userId : String
  deriving DecidableEq, Repr

structure DeclaredTeam where
  name : String
  memberUserIds : List String
  deriving DecidableEq, Repr

structure SyncTeamsRequest where
  teams : List DeclaredTeam
  deriving DecidableEq, Repr

structure SyncTeamsResponse where
  teamsInserted : Nat
  teamsArchived : Nat
  teamsReactivated : Nat
  membersAdded : Nat
  membersRemoved : Nat
  unknownMemberUserIds : List String
  pendingAdministratorUserIds : List String
  administratorsLiveMembers : Nat
  changedUserIds : List String
  deriving DecidableEq, Repr

inductive KeyIdentityOutcome where
  | match
  | mismatch
  | absent
  | recorded
  | derivationSkew
  deriving DecidableEq, Repr

structure GetKeyIdentityRequest where
  keyFingerprint : Bytes
  derivationVersion : Nat
  deriving DecidableEq, Repr

structure SetKeyIdentityRequest where
  idempotency : Option String
  keyFingerprint : Bytes
  derivationVersion : Nat
  deriving DecidableEq, Repr

structure ListKeyIdentityEvidenceRequest where
  pageSize : Int
  pageToken : String
  deriving DecidableEq, Repr

structure KeyIdentityEvidence where
  userId : String
  externalIdCiphertext : Bytes
  displayNameCiphertext : Bytes
  externalIdBlindIndex : Bytes
  deriving DecidableEq, Repr

structure ListKeyIdentityEvidenceResponse where
  evidence : List KeyIdentityEvidence
  nextPageToken : String
  deriving DecidableEq, Repr

structure AdoptKeyIdentityRequest where
  idempotency : Option String
  keyFingerprint : Bytes
  derivationVersion : Nat
  evidenceUserIds : List String
  deriving DecidableEq, Repr

inductive Request where
  | resolveCredential (r : ResolveCredentialRequest)
  | getPasswordHash (r : GetPasswordHashRequest)
  | setPassword (r : SetPasswordRequest)
  | createEnrolment (r : CreateEnrolmentRequest)
  | redeemEnrolment (r : RedeemEnrolmentRequest)
  | createCredential (r : CreateCredentialRequest)
  | revokeCredential (r : RevokeCredentialRequest)
  | revokeAllCredentials (r : RevokeAllCredentialsRequest)
  | listCredentials (r : ListCredentialsRequest)
  | createUser (r : CreateUserRequest)
  | setUserAdmin (r : SetUserAdminRequest)
  | setRateLimitOverride (r : SetRateLimitOverrideRequest)
  | addTeamMember (r : TeamMemberRequest)
  | removeTeamMember (r : TeamMemberRequest)
  | setInheritedSetting (r : SetInheritedSettingRequest)
  | getKeyIdentity (r : GetKeyIdentityRequest)
  | setKeyIdentity (r : SetKeyIdentityRequest)
  | listKeyIdentityEvidence (r : ListKeyIdentityEvidenceRequest)
  | adoptKeyIdentity (r : AdoptKeyIdentityRequest)
  | syncTeams (r : SyncTeamsRequest)
  deriving DecidableEq, Repr

inductive Response where
  | resolveCredential (r : ResolveCredentialResponse)
  | getPasswordHash (r : GetPasswordHashResponse)
  | setPassword
  | createEnrolment (enrolmentId : String)
  | redeemEnrolment (r : RedeemEnrolmentResponse)
  | createCredential (credentialId : String)
  | revokeCredential (userId : String)
  | revokeAllCredentials (r : RevokeAllCredentialsResponse)
  | listCredentials (r : ListCredentialsResponse)
  | createUser (r : CreateUserResponse)
  | setUserAdmin
  | setRateLimitOverride
  | addTeamMember
  | removeTeamMember
  | setInheritedSetting (setting : InheritedSetting)
  | getKeyIdentity (outcome : KeyIdentityOutcome)
  | setKeyIdentity (outcome : KeyIdentityOutcome)
  | listKeyIdentityEvidence (r : ListKeyIdentityEvidenceResponse)
  | adoptKeyIdentity (outcome : KeyIdentityOutcome)
  | syncTeams (r : SyncTeamsResponse)
  deriving DecidableEq, Repr

def isLowerHex (c : Char) : Bool := c.isDigit || ('a' ≤ c && c ≤ 'f')

/-- The shape `8-4-4-4-12` in lower-case hexadecimal, version nibble `7`, RFC
4122 variant. Every byte it admits is one character, so characters are counted
for bytes. -/
def canonicalUuid (uuid : List Char) : Bool :=
  uuid.length = 36 &&
    (uuid.zipIdx.all fun (c, i) => if i ∈ [8, 13, 18, 23] then c = '-' else isLowerHex c) &&
    uuid[14]? = some '7' &&
    (match uuid[19]? with
      | some c => c ∈ ['8', '9', 'a', 'b']
      | none => false)

/-- A uuid as the service draws one: its text is canonical. -/
structure Uuid where
  text : String
  canonical : canonicalUuid text.toList = true
  deriving DecidableEq, Repr

/-- One call as it arrives: the common name on the client's certificate, the
uuid the call will draw if it mints an id, and the request. -/
structure Call where
  caller : Option String
  uuid : Uuid
  request : Request
  deriving DecidableEq, Repr

end IamDb.Messages
