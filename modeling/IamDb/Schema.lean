import IamDb.Txn.Table
import IamDb.Txn.Locking

/-! The tables of the identity store, with the columns the service reads. Text
columns carry no collation of their own, so the engine compares and keys them
by the sort key of its default collation; `BINARY` columns compare byte for
byte. Timestamps are whole epoch seconds. -/
namespace IamDb.Schema
open Txn

abbrev Bytes := List UInt8

/-- A `BINARY(32)` column pads a shorter value with zero bytes and holds no
longer one. -/
def binary32 (b : Bytes) : Option Bytes :=
  if b.length ≤ 32 then some (b ++ List.replicate (32 - b.length) 0) else none

theorem length_binary32 (stores : binary32 b = some padded) : padded.length = 32 := by
  unfold binary32 at stores
  split at stores
  · cases stores
    simp
    omega
  · cases stores

/-- A value of the column's own width is stored as it is. -/
theorem binary32_of_length (width : b.length = 32) : binary32 b = some b := by
  simp [binary32, width]

theorem isLower_iff {c : Char} : c.isLower = true ↔ c.val ≥ 'a'.val ∧ c.val ≤ 'z'.val :=
  (Bool.and_eq_true _ _).to_iff.trans (and_congr decide_eq_true_iff decide_eq_true_iff)

/-- Strings over the characters of the ids this service writes itself. -/
def Plain (s : String) : Prop :=
  ∀ c ∈ s.toList, c.isLower ∨ c.isDigit ∨ c = ':' ∨ c = '-'

/-- A column that takes nothing longer than its width. -/
def withinWidth (width : Nat) (s : String) : Bool := s.length ≤ width

theorem withinWidth_short (width : Nat) (s : String) (short : s.length ≤ width) :
    withinWidth width s = true := decide_eq_true short

/-- What the service takes from the engine and from Unicode. `weight` is the
sort key of a text column: case, accents and trailing spaces are not in it, and
two ids this service could have written never share one. -/
class Engine where
  weight : String → String
  weight_plain : ∀ a b, Plain a → Plain b → weight a = weight b → a = b
  /-- The last second a `TIMESTAMP` can hold. -/
  maxTimestamp : Int
  /-- Whether a `VARCHAR` of a width, counted in characters, takes a string. A
  longer one it takes at most for blanks past the width. -/
  fits : Nat → String → Bool
  fits_short : ∀ width s, s.length ≤ width → fits width s = true
  /-- Full Unicode lower-casing. -/
  lowercase : String → String
  /-- Whether the debug formatter writes a character as it is. -/
  printable : Char → Bool

variable [Engine]

export Engine (weight maxTimestamp fits fits_short lowercase printable)

/-- `FROM_UNIXTIME`: `NULL` for seconds no `TIMESTAMP` can hold. -/
def fromUnixtime (seconds : Int) : Option Int :=
  if 0 ≤ seconds ∧ seconds ≤ maxTimestamp then some seconds else none

structure User where
  id : String
  blindIndex : Bytes
  externalId : Bytes
  displayName : Bytes
  isAdmin : Bool
  credentialEpoch : Nat
  createdAt : Int
  deletedAt : Option Int
  deriving DecidableEq, Repr

structure Password where
  userId : String
  argon2idHash : String
  deriving DecidableEq, Repr

structure Team where
  id : String
  version : Nat
  name : String
  deletedAt : Option Int
  deriving DecidableEq, Repr

structure TeamMember where
  teamId : String
  userId : String
  deriving DecidableEq, Repr

/-- A declared administrator who has no user row yet. -/
structure PendingMember where
  teamId : String
  userId : String
  deriving DecidableEq, Repr

structure Credential where
  id : String
  userId : String
  tokenHash : Bytes
  label : String
  createdAt : Int
  expiresAt : Option Int
  revokedAt : Option Int
  deriving DecidableEq, Repr

structure Enrolment where
  id : String
  userId : String
  secretHash : Bytes
  expiresAt : Int
  spentAt : Option Int
  voidedAt : Option Int
  revokeExistingCredentials : Bool
  deriving DecidableEq, Repr

/-- What a redemption key already did. -/
structure Redemption where
  idempotencyKey : String
  secretHash : Bytes
  enrolmentId : String
  userId : String
  credentialEpoch : Nat
  deriving DecidableEq, Repr

/-- `rate` is the bit pattern of the `DOUBLE`, which the service only copies. -/
structure RateLimitOverride where
  userId : String
  module : String
  kind : Int
  rate : UInt64
  burst : Nat
  deriving DecidableEq, Repr

structure OrgSetting where
  name : String
  value : Int
  locked : Bool
  deriving DecidableEq, Repr

structure TeamSettingOverride where
  name : String
  teamId : String
  value : Int
  deriving DecidableEq, Repr

/-- What a settings key already asked for. -/
structure SettingWrite where
  idempotencyKey : String
  scope : Int
  teamId : Option String
  name : String
  value : Option Int
  locked : Option Bool
  clearRequested : Bool
  deriving DecidableEq, Repr

structure KeyIdentity where
  derivationVersion : Nat
  keyFingerprint : Bytes
  idempotencyKey : String
  deriving DecidableEq, Repr

/-! ### Primary keys -/

def User.key (r : User) : String := weight r.id
def Password.key (r : Password) : String := weight r.userId
def Team.key (r : Team) : String := weight r.id
def TeamMember.key (r : TeamMember) : String × String := (weight r.teamId, weight r.userId)
def PendingMember.key (r : PendingMember) : String × String := (weight r.teamId, weight r.userId)
def Credential.key (r : Credential) : String := weight r.id
def Enrolment.key (r : Enrolment) : String := weight r.id
def Redemption.key (r : Redemption) : String := weight r.idempotencyKey
def RateLimitOverride.key (r : RateLimitOverride) : String × String × Int :=
  (weight r.userId, weight r.module, r.kind)
def OrgSetting.key (r : OrgSetting) : String := weight r.name
def TeamSettingOverride.key (r : TeamSettingOverride) : String × String :=
  (weight r.name, weight r.teamId)
def SettingWrite.key (r : SettingWrite) : String := weight r.idempotencyKey
/-- The `CHECK` pins the singleton column to one value. -/
def KeyIdentity.key (_ : KeyIdentity) : Unit := ()

structure Store where
  users : Table User.key
  passwords : Table Password.key
  teams : Table Team.key
  teamMembers : Table TeamMember.key
  pendingMembers : Table PendingMember.key
  credentials : Table Credential.key
  enrolments : Table Enrolment.key
  redemptions : Table Redemption.key
  rateLimits : Table RateLimitOverride.key
  orgSettings : Table OrgSetting.key
  overrides : Table TeamSettingOverride.key
  settingWrites : Table SettingWrite.key
  keyIdentity : Table KeyIdentity.key
  /-- Whether the one row of `iam_team_sync_lock` is there. -/
  teamSyncLock : Bool

/-- One row written or removed. -/
inductive Write where
  | user (r : User)
  | password (r : Password)
  | team (r : Team)
  | teamMember (r : TeamMember)
  | pendingMember (r : PendingMember)
  | credential (r : Credential)
  | enrolment (r : Enrolment)
  | redemption (r : Redemption)
  | rateLimit (r : RateLimitOverride)
  | orgSetting (r : OrgSetting)
  | override (r : TeamSettingOverride)
  | settingWrite (r : SettingWrite)
  | keyIdentity (r : KeyIdentity)
  | dropTeamMember (key : String × String)
  | dropPendingMember (key : String × String)
  | dropRateLimit (key : String × String × Int)
  | dropOverride (key : String × String)

def Write.apply : Write → Store → Store
  | user r, σ => { σ with users := σ.users.put r }
  | password r, σ => { σ with passwords := σ.passwords.put r }
  | team r, σ => { σ with teams := σ.teams.put r }
  | teamMember r, σ => { σ with teamMembers := σ.teamMembers.put r }
  | pendingMember r, σ => { σ with pendingMembers := σ.pendingMembers.put r }
  | credential r, σ => { σ with credentials := σ.credentials.put r }
  | enrolment r, σ => { σ with enrolments := σ.enrolments.put r }
  | redemption r, σ => { σ with redemptions := σ.redemptions.put r }
  | rateLimit r, σ => { σ with rateLimits := σ.rateLimits.put r }
  | orgSetting r, σ => { σ with orgSettings := σ.orgSettings.put r }
  | override r, σ => { σ with overrides := σ.overrides.put r }
  | settingWrite r, σ => { σ with settingWrites := σ.settingWrites.put r }
  | keyIdentity r, σ => { σ with keyIdentity := σ.keyIdentity.put r }
  | dropTeamMember k, σ => { σ with teamMembers := σ.teamMembers.erase k }
  | dropPendingMember k, σ => { σ with pendingMembers := σ.pendingMembers.erase k }
  | dropRateLimit k, σ => { σ with rateLimits := σ.rateLimits.erase k }
  | dropOverride k, σ => { σ with overrides := σ.overrides.erase k }

instance : Writes Store Write := ⟨Write.apply⟩

/-- What the engine locks: rows by the key they are found under, and for
`iam_user` the whole range of ids and the gap an absent id falls in. -/
inductive Res where
  | teamSyncLock
  | users
  | user (id : String)
  | userGap (id : String)
  | blindIndex (b : Bytes)
  | password (userId : String)
  | team (id : String)
  | teamName (name : String)
  | teamMember (key : String × String)
  | pendingMember (key : String × String)
  | credential (id : String)
  | token (hash : Bytes)
  | enrolment (id : String)
  | secret (hash : Bytes)
  | redemption (key : String)
  | rateLimit (key : String × String × Int)
  | orgSetting (name : String)
  | override (key : String × String)
  | settingWrite (key : String)
  | keyIdentity
  deriving DecidableEq, Repr

/-- The row a write needs locked. -/
def Write.res : Write → Res
  | user r => .user r.key
  | password r => .password r.key
  | team r => .team r.key
  | teamMember r => .teamMember r.key
  | pendingMember r => .pendingMember r.key
  | credential r => .credential r.key
  | enrolment r => .enrolment r.key
  | redemption r => .redemption r.key
  | rateLimit r => .rateLimit r.key
  | orgSetting r => .orgSetting r.key
  | override r => .override r.key
  | settingWrite r => .settingWrite r.key
  | keyIdentity _ => .keyIdentity
  | dropTeamMember k => .teamMember k
  | dropPendingMember k => .pendingMember k
  | dropRateLimit k => .rateLimit k
  | dropOverride k => .override k

instance : Locking Write Res := ⟨Write.res⟩

@[simp] theorem res_eq (w : Write) : Locking.res w = w.res := rfl

namespace Store

/-- The row an id names, soft-deleted or not. -/
def user? (σ : Store) (id : String) : Option User := σ.users.find? (weight id)

/-- The row an id names, if the person is live. -/
def liveUser? (σ : Store) (id : String) : Option User :=
  (σ.user? id).filter fun u => u.deletedAt.isNone

def team? (σ : Store) (id : String) : Option Team := σ.teams.find? (weight id)

def liveTeam? (σ : Store) (id : String) : Option Team :=
  (σ.team? id).filter fun t => t.deletedAt.isNone

theorem user?_self {σ : Store} (member : u ∈ σ.users) : σ.user? u.id = some u :=
  Table.find?_of_mem member

theorem user?_mem {σ : Store} (found : σ.user? userId = some u) : u ∈ σ.users ∧ u.key = weight userId :=
  Table.find?_eq_some.mp found

theorem liveUser?_eq_some {σ : Store} :
    σ.liveUser? userId = some u ↔ σ.user? userId = some u ∧ u.deletedAt = none := by
  simp [liveUser?, Option.filter_eq_some_iff]

theorem team?_mem {σ : Store} (found : σ.team? teamId = some t) : t ∈ σ.teams ∧ t.key = weight teamId :=
  Table.find?_eq_some.mp found

theorem liveTeam?_eq_some {σ : Store} :
    σ.liveTeam? teamId = some t ↔ σ.team? teamId = some t ∧ t.deletedAt = none := by
  simp [liveTeam?, Option.filter_eq_some_iff]

/-- The row a unique secret hash names. -/
def enrolment? (σ : Store) (secretHash : Bytes) : Option Enrolment :=
  σ.enrolments.rows.find? fun e => e.secretHash = secretHash

/-- The row a unique token hash names. -/
def credential? (σ : Store) (tokenHash : Bytes) : Option Credential :=
  σ.credentials.rows.find? fun c => c.tokenHash = tokenHash

theorem enrolment?_mem {σ : Store} (found : σ.enrolment? secret = some e) :
    e ∈ σ.enrolments ∧ e.secretHash = secret :=
  ⟨List.mem_of_find?_eq_some found, by simpa using List.find?_some found⟩

end Store

/-- The tables right after the migrations: one organisation setting is seeded,
on and locked, and the one row of the sync lock. -/
def migrated : Store where
  users := .empty
  passwords := .empty
  teams := .empty
  teamMembers := .empty
  pendingMembers := .empty
  credentials := .empty
  enrolments := .empty
  redemptions := .empty
  rateLimits := .empty
  orgSettings := Table.empty.put ⟨"owner_reads_own_record", 2, true⟩
  overrides := .empty
  settingWrites := .empty
  keyIdentity := .empty
  teamSyncLock := true

end IamDb.Schema
