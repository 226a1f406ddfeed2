import IamDb.Team

/-! The per-user credential epoch and the statements that withdraw what a
person holds. Each runs under the exclusive lock on the user row, and every
writer takes that lock before the rows that hang off it. -/
namespace IamDb.Epoch
open Txn Schema Messages Service

variable [Engine]

/-- Count a user's epoch up, if the row matches. -/
def updateEpoch (userId : String) (matched : User → Bool) : Sql Nat where
  claims _ := userRow .exclusive userId matched
  exec _ σ :=
    match (σ.user? userId).filter matched with
    | some u => (1, [.user { u with credentialEpoch := u.credentialEpoch + 1 }])
    | none => (0, [])
  covered now iso σ w writes := by
    split at writes
    · rename_i u found
      obtain ⟨row, holds⟩ := Option.filter_eq_some_iff.mp found
      obtain rfl := List.mem_singleton.mp writes
      show (⟨⟨.user u.key, .exclusive⟩, true⟩ : Claim Res) ∈ _
      exact mem_userRow row holds
    · cases writes

/-- Bump a user's epoch, live or soft-deleted; answers how many rows matched. -/
def bump (userId : String) : Rpc Nat := tx (updateEpoch userId fun _ => true)

/-- Bump a user's epoch only if the person is live. -/
def bumpLive (userId : String) : Rpc Nat := tx (updateEpoch userId fun u => u.deletedAt.isNone)

def selectEpoch (userId : String) : Sql (Except DbError Nat) where
  plain := true
  exec _ σ :=
    (match σ.user? userId with
      | some u => .ok u.credentialEpoch
      | none => .error .other, [])

/-- A user's epoch as the transaction sees it now. -/
def current (userId : String) : Rpc Nat := do
  let row ← tx (selectEpoch userId)
  orElse db row

def selectUserForUpdate (userId : String) : Sql Bool where
  claims _ := userRow .exclusive userId fun _ => true
  exec _ σ := ((σ.user? userId).isSome, [])

/-- The credentials of a user that are not yet revoked. -/
def unrevoked (σ : Store) (userId : String) : List Credential :=
  σ.credentials.rows.filter fun c => weight c.userId = weight userId && c.revokedAt.isNone

def updateRevokedAt (userId : String) : Sql Nat where
  claims _ iso σ :=
    (σ.credentials.rows.filter fun c => weight c.userId = weight userId).map fun c =>
      ⟨⟨.credential c.key, .exclusive⟩, iso = .repeatableRead || c.revokedAt.isNone⟩
  exec now σ :=
    ((unrevoked σ userId).length,
      (unrevoked σ userId).map fun c => .credential { c with revokedAt := some now })
  covered now iso σ w writes := by
    obtain ⟨c, member, rfl⟩ := List.mem_map.mp writes
    obtain ⟨stored, holds⟩ := List.mem_filter.mp member
    simp only [Bool.and_eq_true, decide_eq_true_eq] at holds
    refine List.mem_map.mpr ⟨c, List.mem_filter.mpr ⟨stored, by simp [holds.1]⟩, ?_⟩
    simp [holds.2, Write.res, Credential.key]

/-- Tombstone every live credential a user holds, under the exclusive lock on
the user row; `none` when there is no such row at all. -/
def revokeAll (userId : String) : Rpc (Option Nat) := do
  let user ← tx (selectUserForUpdate userId)
  if user then
    let done ← tx (updateRevokedAt userId)
    pure (some done)
  else
    pure none

/-- The enrolments of a user that are neither spent nor voided. -/
def unended (σ : Store) (userId : String) : List Enrolment :=
  σ.enrolments.rows.filter fun e =>
    weight e.userId = weight userId && e.spentAt.isNone && e.voidedAt.isNone

def updateVoidedAt (userId : String) : Sql Nat where
  claims _ iso σ :=
    (σ.enrolments.rows.filter fun e => weight e.userId = weight userId).map fun e =>
      ⟨⟨.enrolment e.key, .exclusive⟩,
        iso = .repeatableRead || e.spentAt.isNone && e.voidedAt.isNone⟩
  exec now σ :=
    ((unended σ userId).length,
      (unended σ userId).map fun e => .enrolment { e with voidedAt := some now })
  covered now iso σ w writes := by
    obtain ⟨e, member, rfl⟩ := List.mem_map.mp writes
    obtain ⟨stored, holds⟩ := List.mem_filter.mp member
    simp only [Bool.and_eq_true, decide_eq_true_eq, and_assoc] at holds
    refine List.mem_map.mpr ⟨e, List.mem_filter.mpr ⟨stored, by simp [holds.1]⟩, ?_⟩
    simp [holds.2.1, holds.2.2, Write.res, Enrolment.key]

/-- Void every enrolment of a user that is neither spent nor already voided,
and answer how many. -/
def voidEnrolments (userId : String) : Rpc Nat := do
  let done ← tx (updateVoidedAt userId)
  pure (saturated done)

end IamDb.Epoch
