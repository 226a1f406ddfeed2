import IamDb.Password

/-! Who is an administrator by the column, and per-user rate limits. -/
namespace IamDb.Policy
open Txn Schema Messages Service

variable [Engine]

def updateIsAdmin (userId : String) (isAdmin : Bool) : Sql Nat where
  claims _ := userRow .exclusive userId fun u => u.deletedAt.isNone
  exec _ σ :=
    match σ.liveUser? userId with
    | some u => (1, [.user { u with isAdmin := isAdmin }])
    | none => (0, [])
  covered now iso σ w writes := by
    split at writes
    · rename_i u found
      obtain ⟨row, live⟩ := Store.liveUser?_eq_some.mp found
      obtain rfl := List.mem_singleton.mp writes
      show (⟨⟨.user u.key, .exclusive⟩, true⟩ : Claim Res) ∈ _
      exact mem_userRow row (by simp [live])
    · cases writes

def setAdmin (r : SetUserAdminRequest) : Rpc Unit := do
  let done ← conn (updateIsAdmin r.userId r.isAdmin)
  if done = 0 then liveUser conn r.userId else pure ()

/-- `READ`, `WRITE` and `GENERATE`, by their numbers. -/
def refuseUnstoredKind (kind : Int) : Except Status Unit :=
  if kind = 1 ∨ kind = 2 ∨ kind = 3 then .ok ()
  else .error ⟨.invalidArgument, "a rate-limit override must name READ, WRITE or GENERATE"⟩

/-- `iam_rate_limit_override.module` is `VARCHAR(255)`. -/
def maxModule : Nat := 255

/-- The upsert of a limit on the live user row its `SELECT` matches. -/
def upsertRateLimit (userId module : String) (kind : Int) (limit : RateLimit) :
    Sql (Except DbError Nat) where
  claims _ iso σ :=
    userRow .shared userId (fun u => u.deletedAt.isNone) iso σ ++
      match σ.liveUser? userId with
      | some u => [exclude (.rateLimit (u.key, weight module, kind))]
      | none => []
  exec _ σ :=
    match σ.liveUser? userId with
    | none => (.ok 0, [])
    | some u =>
      if !fits maxModule module then (.error .other, [])
      else
        match σ.rateLimits.find? (u.key, weight module, kind) with
        | some o => (.ok 1, [.rateLimit { o with rate := limit.rate, burst := limit.burst }])
        | none => (.ok 1, [.rateLimit ⟨u.id, module, kind, limit.rate, limit.burst⟩])
  covered now iso σ w writes := by
    split at writes
    · cases writes
    · rename_i u live
      split at writes
      · cases writes
      split at writes
      · rename_i o found
        have same := (Table.find?_eq_some.mp found).2
        obtain rfl := List.mem_singleton.mp writes
        simp only [RateLimitOverride.key] at same
        simp [live, exclude, Write.res, RateLimitOverride.key, same]
      · obtain rfl := List.mem_singleton.mp writes
        simp [live, exclude, Write.res, RateLimitOverride.key, User.key]

def deleteRateLimit (userId module : String) (kind : Int) : Sql Unit where
  claims _ _ σ :=
    let key := (weight userId, weight module, kind)
    [⟨⟨.rateLimit key, .exclusive⟩, (σ.rateLimits.find? key).isSome⟩]
  exec _ σ :=
    let key := (weight userId, weight module, kind)
    ((), if (σ.rateLimits.find? key).isSome then [.dropRateLimit key] else [])
  covered now iso σ w writes := by
    dsimp only at writes
    split at writes
    · rename_i found
      obtain rfl := List.mem_singleton.mp writes
      simp [found, Write.res]
    · cases writes

def setRateLimit (r : SetRateLimitOverrideRequest) : Rpc Unit := do
  .lift (refuseUnstoredKind r.kind)
  match r.limit with
  | some limit => do
    let written ← conn (upsertRateLimit r.userId r.module r.kind limit)
    let done ← orElse db written
    if done = 0 then liveUser conn r.userId else pure ()
  | none => do
    liveUser conn r.userId
    conn (deleteRateLimit r.userId r.module r.kind)

end IamDb.Policy
