import IamDb.Identity

/-! `SetInheritedSetting`: one level of one inheritable setting written per
call, in one READ COMMITTED transaction. A ledger row, inserted last, is what
makes a repeated key take effect once; a team's liveness rides in the write. -/
namespace IamDb.Setting
open Txn Schema Messages Service

variable [Engine]

inductive SettingScope where
  | org
  | team
  deriving DecidableEq, Repr

def invalid (message : String) : Except Status α := .error ⟨.invalidArgument, message⟩

/-- Every clause the contract declares, in its order. The scope number is open
on the wire; it answers the level the request names. -/
def checkInheritedSetting (r : SetInheritedSettingRequest) : Except Status SettingScope := do
  let scope ←
    if r.scope = 0 then
      invalid ("scope is required: a write addresses the organisation's level or one team's, and " ++
        "neither is the default")
    else if r.scope = 1 then
      if r.teamId.isSome then
        invalid ("a team id at organisation scope is a request that meant team scope; there is " ++
          "one organisation and it is not named")
      else if r.locked.isNone then
        invalid ("locked is required at organisation scope: it has no safe default, and an " ++
          "unstated lock is the permissive half of a policy nobody chose")
      else if r.clear then
        invalid ("the organisation's value cannot be cleared: it always holds one, and a " ++
          "deployment changes it by stating the other value")
      else .ok .org
    else if r.scope = 2 then
      if r.teamId.all fun t => t = "" then
        invalid "a team id is required at team scope: nothing else names the override to write"
      else if r.locked.isSome then
        invalid ("locked is meaningful at organisation scope only: a team cannot state whether " ++
          "teams may override")
      else .ok .team
    else
      invalid ("scope names no level this contract declares; there are two, an organisation and a " ++
        "team")
  if r.value = some 0 then
    invalid ("value was sent unspecified: that is what an unpopulated field looks like, and it is " ++
      "never read as a value or as a withdrawal")
  else if r.value.isNone && !r.clear then
    invalid ("value is required unless clear is set: a request that states neither says nothing at " ++
      "all")
  else if r.clear && r.value.isSome then
    invalid ("clear and value contradict each other: withdraw the override or state one, never " ++
      "both in the same request")
  else if r.name ≠ ownerReadsOwnRecord then
    invalid ("name is not a setting this contract declares; the vocabulary is closed and adding to " ++
      "it is a contract release")
  else .ok scope

/-! ### The ledger -/

/-- What a request asked for, under the key it carries. -/
structure Claim where
  key : String
  scope : Int
  teamId : Option String
  name : String
  value : Option Int
  locked : Option Bool
  clear : Bool
  deriving DecidableEq, Repr

/-- The empty string is not a key. -/
def Claim.of (r : SetInheritedSettingRequest) : Claim :=
  ⟨r.idempotency.getD "", r.scope, r.teamId, r.name, r.value, r.locked, r.clear⟩

/-- Refuse a key that already recorded a different request. -/
def Claim.agreesWith (c prior : Claim) : Except Status Unit :=
  if (c.scope, c.teamId, c.name, c.value, c.locked, c.clear) =
      (prior.scope, prior.teamId, prior.name, prior.value, prior.locked, prior.clear) then .ok ()
  else invalid ("this idempotency key was used with a different request; a repeated key carrying a " ++
    "different payload is refused rather than replayed")

def selectSettingWrite (key : String) (lock : Lock) : Sql (Option SettingWrite) where
  plain := lock = .no
  claims _ _ σ :=
    if lock = .no then []
    else [⟨⟨.settingWrite (weight key), .exclusive⟩,
      (σ.settingWrites.find? (weight key)).isSome⟩]
  exec _ σ := (σ.settingWrites.find? (weight key), [])

/-- The request a key already recorded. -/
def recorded (key : String) (lock : Lock) : Rpc (Option Claim) := do
  let row ← tx (selectSettingWrite key lock)
  pure (row.map fun w =>
    ⟨key, w.scope, w.teamId, w.name, w.value, w.locked, w.clearRequested⟩)

/-- Whether the key has already recorded this same request. -/
def Claim.alreadyRecorded (c : Claim) : Rpc Bool :=
  if c.key = "" then
    pure false
  else do
    let prior ← recorded c.key .no
    match prior with
    | none => pure false
    | some prior => do
      .lift (c.agreesWith prior)
      pure true

/-- `iam_inherited_setting_write.idempotency_key` is `VARCHAR(255)`, and its
`team_id` `VARCHAR(96)`. -/
def maxIdempotencyKey : Nat := 255

def maxTeamId : Nat := 96

/-- Whether the ledger's columns hold what a request asked for. -/
def Claim.fits (c : Claim) : Bool :=
  Schema.fits maxIdempotencyKey c.key && c.teamId.all (Schema.fits maxTeamId)

def insertSettingWrite (c : Claim) : Sql (Except DbError Unit) where
  claims _ _ σ :=
    if c.fits then
      [insertRow (.settingWrite (weight c.key)) (σ.settingWrites.find? (weight c.key)).isSome]
    else []
  exec _ σ :=
    if !c.fits then (.error .other, [])
    else if (σ.settingWrites.find? (weight c.key)).isSome then (.error (.duplicate true), [])
    else (.ok (), [.settingWrite ⟨c.key, c.scope, c.teamId, c.name, c.value, c.locked, c.clear⟩])
  covered now iso σ w writes := by
    split at writes
    · cases writes
    rename_i fit
    split at writes
    · cases writes
    · rename_i absent
      obtain rfl := List.mem_singleton.mp writes
      simp only [Bool.not_eq_true', Bool.not_eq_false] at fit
      simp [fit, insertRow, absent, exclude, Write.res, SettingWrite.key]

/-- The ledger row of a write, and the branch where a concurrent delivery
recorded one first. -/
def recordClaim (c : Claim) : Rpc Unit :=
  if c.key = "" then
    pure ()
  else do
    let done ← tx (insertSettingWrite c)
    match done with
    | .ok () => pure ()
    | .error e =>
      if !e.isUniqueViolation then
        refuse (db e)
      else do
        let prior ← recorded c.key .yes
        match prior with
        | none => refuse ⟨.unavailable, "storage unavailable"⟩
        | some prior => .lift (c.agreesWith prior)

/-! ### The write -/

/-- The `CHECK` on both value columns. -/
def storable (value : Int) : Bool := value = 1 || value = 2

def upsertOrgSetting (name : String) (value : Int) (locked : Bool) :
    Sql (Except DbError Nat) where
  claims _ _ _ := [exclude (.orgSetting (weight name))]
  exec _ σ :=
    if !storable value then (.error .other, [])
    else
      match σ.orgSettings.find? (weight name) with
      | some s => (.ok 1, [.orgSetting { s with value := value, locked := locked }])
      | none => (.ok 1, [.orgSetting ⟨name, value, locked⟩])
  covered now iso σ w writes := by
    split at writes
    · cases writes
    · split at writes
      · rename_i s found
        have same : weight s.name = weight name := (Table.find?_eq_some.mp found).2
        obtain rfl := List.mem_singleton.mp writes
        simp [exclude, Write.res, OrgSetting.key, same]
      · obtain rfl := List.mem_singleton.mp writes
        simp [exclude, Write.res, OrgSetting.key]

def deleteOverride (name teamId : String) : Sql (Except DbError Nat) where
  claims _ _ σ :=
    let key := (weight name, weight teamId)
    [⟨⟨.override key, .exclusive⟩, (σ.overrides.find? key).isSome⟩]
  exec _ σ :=
    let key := (weight name, weight teamId)
    if (σ.overrides.find? key).isSome then (.ok 1, [.dropOverride key]) else (.ok 0, [])
  covered now iso σ w writes := by
    dsimp only at writes
    split at writes
    · rename_i found
      obtain rfl := List.mem_singleton.mp writes
      simp [found, Write.res]
    · cases writes

/-- The upsert of an override on the live team row its `SELECT` matches. -/
def upsertOverride (name teamId : String) (value : Int) : Sql (Except DbError Nat) where
  claims _ iso σ :=
    teamRow .shared teamId (fun t => t.deletedAt.isNone) iso σ ++
      match σ.liveTeam? teamId with
      | some t => [exclude (.override (weight name, t.key))]
      | none => []
  exec _ σ :=
    match σ.liveTeam? teamId with
    | none => (.ok 0, [])
    | some t =>
      if !storable value then (.error .other, [])
      else
        match σ.overrides.find? (weight name, t.key) with
        | some o => (.ok 1, [.override { o with value := value }])
        | none => (.ok 1, [.override ⟨name, t.id, value⟩])
  covered now iso σ w writes := by
    split at writes
    · cases writes
    · rename_i t live
      split at writes
      · cases writes
      · split at writes
        · rename_i o found
          have same := (Table.find?_eq_some.mp found).2
          simp only [TeamSettingOverride.key] at same
          obtain rfl := List.mem_singleton.mp writes
          simp [live, exclude, Write.res, TeamSettingOverride.key, same]
        · obtain rfl := List.mem_singleton.mp writes
          simp [live, exclude, Write.res, TeamSettingOverride.key, Team.key]

/-- The team-scope set: the liveness predicate rides in the write, and the
re-read only names its zero. -/
def setTeamOverride (r : SetInheritedSettingRequest) : Rpc Nat := do
  let written ← tx (upsertOverride r.name (r.teamId.getD "") (r.value.getD 0))
  let done ← orElse db written
  if done = 0 then do
    liveTeam tx (r.teamId.getD "")
    pure done
  else
    pure done

/-- The write the validated scope names. The fields it unwraps are present:
`checkInheritedSetting` has refused every request without them. -/
def writeAtScope (r : SetInheritedSettingRequest) (scope : SettingScope) : Rpc Nat :=
  match scope, r.clear with
  | .org, _ => do
    let written ← tx (upsertOrgSetting r.name (r.value.getD 0) (r.locked.getD false))
    orElse db written
  | .team, true => do
    let written ← tx (deleteOverride r.name (r.teamId.getD ""))
    orElse db written
  | .team, false => setTeamOverride r

/-- The read-back of a write: the queries a resolve makes. -/
abbrev readInheritedSetting (name : String) : Rpc InheritedSetting := Credential.readSetting name

/-- The setting whole, read in the transaction that wrote it, and the end of
the call. -/
def answer (name : String) : Rpc InheritedSetting := do
  let setting ← readInheritedSetting name
  commit
  pure setting

def storeSetting (r : SetInheritedSettingRequest) : Rpc InheritedSetting := do
  let scope ← .lift (checkInheritedSetting r)
  begin .readCommitted
  let claim := Claim.of r
  let replayed ← claim.alreadyRecorded
  if replayed then
    answer r.name
  else do
    let _ ← writeAtScope r scope
    recordClaim claim
    answer r.name

end IamDb.Setting
