import IamDb.Credential

/-! Reading a password hash, and setting one. Neither verifies anything. -/
namespace IamDb.Password
open Txn Schema Messages Service Epoch

variable [Engine]

/-- The hash and the epoch of a live user, in one statement. -/
def selectPasswordHash (blindIndex : Bytes) : Sql (Option GetPasswordHashResponse) where
  plain := true
  exec _ σ :=
    (((σ.users.rows.find? fun u => u.blindIndex = blindIndex).filter
        fun u => u.deletedAt.isNone).bind fun u =>
      (σ.passwords.find? u.key).map fun p => ⟨u.id, p.argon2idHash, u.credentialEpoch⟩, [])

/-- An empty response for an unknown user. -/
def passwordHash (r : GetPasswordHashRequest) : Rpc GetPasswordHashResponse := do
  let row ← conn (selectPasswordHash r.usernameBlindIndex)
  pure (row.getD ⟨"", "", 0⟩)

/-- The password upsert on the live user row its `SELECT` matches. -/
def insertPassword (userId hash : String) : Sql Nat where
  claims _ iso σ :=
    userRow .shared userId (fun u => u.deletedAt.isNone) iso σ ++
      match σ.liveUser? userId with
      | some u => [exclude (.password u.key)]
      | none => []
  exec _ σ :=
    match σ.liveUser? userId with
    | none => (0, [])
    | some u =>
      match σ.passwords.find? u.key with
      | some p => (1, [.password { p with argon2idHash := hash }])
      | none => (1, [.password ⟨u.id, hash⟩])
  covered now iso σ w writes := by
    split at writes
    · cases writes
    · rename_i u live
      split at writes
      · rename_i p found
        have same : weight p.userId = u.key := (Table.find?_eq_some.mp found).2
        obtain rfl := List.mem_singleton.mp writes
        simp [live, exclude, Write.res, Password.key, same]
      · obtain rfl := List.mem_singleton.mp writes
        simp [live, exclude, Write.res, Password.key, User.key]

def storePassword (r : SetPasswordRequest) : Rpc Unit := do
  .lift (fitsPasswordColumn r.argon2idHash)
  begin defaultIsolation
  let bumped ← bumpLive r.userId
  if bumped = 0 then liveUser tx r.userId
  let done ← tx (insertPassword r.userId r.argon2idHash)
  if done = 0 then liveUser tx r.userId
  commit

end IamDb.Password
