import IamDb.Service

/-! Teams and their members, declared whole by `SyncTeams` and written by
nothing else but the first administrator's bootstrap. -/
namespace IamDb.Team
open Txn Schema Messages Service

/-- The team whose live members are this installation's administrators. -/
def administrators : String := "yadgar:team:administrators"

def teamPrefix : String := "yadgar:team:"

def userPrefix : String := "yadgar:user:"

/-- `yadgar:user:` followed by a lower-case canonical uuidv7: the one rule for
a declared member and for a pre-minted user id. -/
def canonicalUserId (id : String) : Bool :=
  userPrefix.toList.isPrefixOf id.toList && canonicalUuid (id.toList.drop userPrefix.toList.length)

example : canonicalUserId "yadgar:user:0192f3c4-1a2b-7c3d-8e4f-0123456789ab" = true := by decide

example : canonicalUserId "yadgar:user:0192f3c4-1a2b-4c3d-8e4f-0123456789ab" = false := by decide

variable [Engine]

def selectAdministratorsForUpdate : Sql (Option Bool) where
  claims _ := teamRow .exclusive administrators fun _ => true
  exec _ σ := ((σ.team? administrators).map fun t => t.deletedAt.isNone, [])

/-- Lock the `administrators` row, and say whether it is live. The lock is
taken on the row whichever it is, so every caller serialises on it; an absent
row is not locked. -/
def lockAdministrators : Rpc (Option Bool) := tx selectAdministratorsForUpdate

/-- The member rows of a live team whose user row is live. -/
def liveMembers (σ : Store) (teamId : String) : List TeamMember :=
  σ.teamMembers.rows.filter fun m =>
    weight m.teamId = weight teamId && (σ.liveTeam? m.teamId).isSome &&
      (σ.liveUser? m.userId).isSome

def countLiveAdministrators : Sql Nat where
  plain := true
  exec _ σ := ((liveMembers σ administrators).length, [])

/-- How many live members `administrators` has. -/
def liveAdministrators : Rpc Nat := tx countLiveAdministrators

/-! ### Validation -/

/-- One declared team, validated. -/
structure Declared where
  id : String
  name : String
  members : List String
  deriving DecidableEq, Repr

/-- What a declared member id names in the store. -/
inductive Known where
  | absent
  | softDeleted
  | live
  deriving DecidableEq, Repr

/-- `^[a-z][a-z0-9-]{0,62}$` -/
def nameOk (name : String) : Bool :=
  name.toList.length ≤ 63 &&
    (match name.toList with
      | c :: _ => c.isLower
      | [] => false) &&
    name.toList.all fun c => c.isLower || c.isDigit || c = '-'

/-- A string of lower-case letters, digits, colons and dashes as the debug
formatter quotes it: it escapes none of them. -/
def quoted (s : String) : String := "\"" ++ s ++ "\""

def validateMembers (name : String) : Nat → List String → List String → Except Status Unit
  | _, _, [] => .ok ()
  | j, seen, m :: rest =>
    let field := "teams[" ++ name ++ "].member_user_ids[" ++ toString j ++ "]"
    if !canonicalUserId m then
      .error ⟨.invalidArgument, field ++
        " must be \"yadgar:user:\" followed by a lowercase canonical uuidv7"⟩
    else if m ∈ seen then
      .error ⟨.invalidArgument, field ++ " is declared twice"⟩
    else validateMembers name (j + 1) (m :: seen) rest

def validateFrom : Nat → List String → List DeclaredTeam → Except Status (List Declared)
  | _, _, [] => .ok []
  | i, names, t :: rest =>
    if !nameOk t.name then
      .error ⟨.invalidArgument, "teams[" ++ toString i ++
        "].name must match ^[a-z][a-z0-9-]\x7b0,62\x7d$"⟩
    else if t.name ∈ names then
      .error ⟨.invalidArgument, "teams[" ++ toString i ++ "].name " ++ quoted t.name ++
        " is declared twice"⟩
    else
      match validateMembers t.name 0 [] t.memberUserIds with
      | .error e => .error e
      | .ok () =>
        (validateFrom (i + 1) (t.name :: names) rest).map fun out =>
          ⟨teamPrefix ++ t.name, t.name, t.memberUserIds⟩ :: out

/-- Names well formed and unique, members canonical and unique within their
team. -/
def validate (teams : List DeclaredTeam) : Except Status (List Declared) := validateFrom 0 [] teams

/-! ### Statements -/

def selectSyncLockForUpdate : Sql (Except DbError Unit) where
  claims _ _ _ := [exclude .teamSyncLock]
  exec _ σ := (if σ.teamSyncLock then .ok () else .error .other, [])

def selectKnown (userId : String) : Sql Known where
  plain := true
  exec _ σ :=
    (match σ.user? userId with
      | none => .absent
      | some u => if u.deletedAt.isSome then .softDeleted else .live, [])

/-- Every team's id, and whether it is archived. -/
def selectTeams : Sql (List (String × Bool)) where
  plain := true
  exec _ σ := (σ.teams.rows.map fun t => (t.id, t.deletedAt.isSome), [])

def insertTeamRow (team : Declared) : Sql (Except DbError Unit) where
  claims _ _ σ :=
    [insertRow (.team (weight team.id)) (σ.team? team.id).isSome,
      insertRow (.teamName (weight team.name))
        (σ.teams.rows.any fun t => weight t.name = weight team.name)]
  exec _ σ :=
    if (σ.team? team.id).isSome then (.error (.duplicate true), [])
    else if σ.teams.rows.any fun t => weight t.name = weight team.name then
      (.error (.duplicate false), [])
    else (.ok (), [.team ⟨team.id, 1, team.name, none⟩])
  covered now iso σ w writes := by
    split at writes
    · simp at writes
    · rename_i absent
      split at writes
      · simp at writes
      · obtain rfl : w = .team ⟨team.id, 1, team.name, none⟩ := by simpa using writes
        simp [insertRow, absent, exclude, Write.res, Team.key]

/-- Set or clear a team's `deleted_at`, counting the version up. -/
def updateTeamDeletedAt (id : String) (deletedAt : Int → Option Int) : Sql Unit where
  claims _ := teamRow .exclusive id fun _ => true
  exec now σ :=
    ((), match σ.team? id with
      | some t => [.team { t with deletedAt := deletedAt now, version := t.version + 1 }]
      | none => [])
  covered now iso σ w writes := by
    split at writes
    · rename_i t found
      obtain rfl := List.mem_singleton.mp writes
      show (⟨⟨.team t.key, .exclusive⟩, true⟩ : Claim Res) ∈ _
      exact mem_teamRow found rfl
    · cases writes

def selectMembers (teamId : String) : Sql (List String) where
  plain := true
  exec _ σ :=
    ((σ.teamMembers.rows.filter fun m => weight m.teamId = weight teamId).map (·.userId), [])

def deleteMember (teamId userId : String) : Sql Unit where
  claims _ _ σ :=
    let key := (weight teamId, weight userId)
    [⟨⟨.teamMember key, .exclusive⟩, (σ.teamMembers.find? key).isSome⟩]
  exec _ σ :=
    let key := (weight teamId, weight userId)
    ((), if (σ.teamMembers.find? key).isSome then [.dropTeamMember key] else [])
  covered now iso σ w writes := by
    dsimp only at writes
    split at writes
    · rename_i found
      obtain rfl := List.mem_singleton.mp writes
      simp [found, Write.res]
    · cases writes

/-- The insert of a member row, with the foreign keys on the team and the user. -/
def insertMember (teamId userId : String) : Sql (Except DbError Unit) where
  claims _ _ σ :=
    let key := (weight teamId, weight userId)
    [insertRow (.teamMember key) (σ.teamMembers.find? key).isSome, share (.team (weight teamId)),
      share (.user (weight userId))]
  exec _ σ :=
    if (σ.teamMembers.find? (weight teamId, weight userId)).isSome then
      (.error (.duplicate true), [])
    else if (σ.team? teamId).isNone || (σ.user? userId).isNone then (.error .other, [])
    else (.ok (), [.teamMember ⟨teamId, userId⟩])
  covered now iso σ w writes := by
    split at writes
    · cases writes
    · rename_i absent
      split at writes
      · cases writes
      · obtain rfl := List.mem_singleton.mp writes
        simp [insertRow, absent, exclude, Write.res, TeamMember.key]

def deletePending (selected : PendingMember → Bool) : Sql Unit where
  claims _ _ σ := (σ.pendingMembers.rows.filter selected).map fun p => exclude (.pendingMember p.key)
  exec _ σ := ((), (σ.pendingMembers.rows.filter selected).map fun p => .dropPendingMember p.key)
  covered now iso σ w writes := by
    obtain ⟨p, member, rfl⟩ := List.mem_map.mp writes
    exact List.mem_map.mpr ⟨p, member, rfl⟩

def insertPending (teamId userId : String) : Sql (Except DbError Unit) where
  claims _ _ σ :=
    let key := (weight teamId, weight userId)
    [insertRow (.pendingMember key) (σ.pendingMembers.find? key).isSome,
      share (.team (weight teamId))]
  exec _ σ :=
    if (σ.pendingMembers.find? (weight teamId, weight userId)).isSome then
      (.error (.duplicate true), [])
    else if (σ.team? teamId).isNone then (.error .other, [])
    else (.ok (), [.pendingMember ⟨teamId, userId⟩])
  covered now iso σ w writes := by
    split at writes
    · cases writes
    · rename_i absent
      split at writes
      · cases writes
      · obtain rfl := List.mem_singleton.mp writes
        simp [insertRow, absent, exclude, Write.res, PendingMember.key]

/-! ### `SyncTeams` -/

/-- A map from strings, sorted by key, as a `BTreeMap` keeps it. -/
abbrev Map (α : Type) : Type := List (String × α)

/-- Store a value under a key, in place of the one already there. -/
def Map.insert (k : String) (v : α) : Map α → Map α
  | [] => [(k, v)]
  | (k', v') :: rest =>
    if k < k' then (k, v) :: (k', v') :: rest
    else if k = k' then (k, v) :: rest
    else (k', v') :: Map.insert k v rest

def Map.get? (m : Map α) (k : String) : Option α :=
  (m.find? fun e => e.1 = k).map (·.2)

def Map.collect (entries : List (String × α)) : Map α :=
  entries.foldl (fun m e => Map.insert e.1 e.2 m) []

/-- What every declared member id names in the store, one read each. -/
def knownUsers : List String → Map Known → Rpc (Map Known)
  | [], known => pure known
  | m :: rest, known =>
    if (known.get? m).isSome then knownUsers rest known
    else do
      let k ← tx (selectKnown m)
      knownUsers rest (Map.insert m k known)

/-- What `known` says of a declared member; every one of them is in it. -/
def knownAs (known : Map Known) (m : String) : Known := (known.get? m).getD .absent

/-- The answer under way, and the users whose live team set changed. -/
structure Progress where
  resp : SyncTeamsResponse
  changed : List String

def insertTeam (team : Declared) : Rpc Unit := do
  let done ← tx (insertTeamRow team)
  match done with
  | .ok () => pure ()
  | .error e =>
    refuse (if e.isUniqueViolation then
      ⟨.failedPrecondition, "a team named " ++ quoted team.name ++
        " exists under an id other than " ++ quoted team.id⟩
    else db e)

/-- Insert the new teams and reactivate the archived declared ones; answers the
ids reactivated. -/
def openTeams (stored : Map Bool) :
    List Declared → Progress → Rpc (List String × Progress)
  | [], progress => pure ([], progress)
  | team :: rest, progress =>
    match stored.get? team.id with
    | none => do
      insertTeam team
      let resp := progress.resp
      openTeams stored rest
        { progress with resp := { resp with teamsInserted := resp.teamsInserted + 1 } }
    | some true => do
      tx (updateTeamDeletedAt team.id fun _ => none)
      let resp := progress.resp
      let (reactivated, progress) ← openTeams stored rest
        { progress with resp := { resp with teamsReactivated := resp.teamsReactivated + 1 } }
      pure (insertSorted team.id reactivated, progress)
    | some false => openTeams stored rest progress

/-- Archive every live stored team the declaration omits. -/
def archiveTeams (declared : List Declared) : Map Bool → Progress → Rpc Progress
  | [], progress => pure progress
  | (id, archived) :: rest, progress =>
    if archived || declared.any (fun t => t.id = id) then archiveTeams declared rest progress
    else do
      tx (updateTeamDeletedAt id fun now => some now)
      let members ← tx (selectMembers id)
      let resp := progress.resp
      archiveTeams declared rest
        ⟨{ resp with teamsArchived := resp.teamsArchived + 1 },
          extendSorted progress.changed members⟩

def writeTeams (declared : List Declared) (progress : Progress) :
    Rpc (List String × Progress) := do
  let rows ← tx selectTeams
  let stored := Map.collect rows
  let (reactivated, progress) ← openTeams stored declared progress
  let progress ← archiveTeams declared stored progress
  pure (reactivated, progress)

def removeMembers (teamId : String) : List String → Progress → Rpc Progress
  | [], progress => pure progress
  | gone :: rest, progress => do
    tx (deleteMember teamId gone)
    let resp := progress.resp
    removeMembers teamId rest
      ⟨{ resp with membersRemoved := resp.membersRemoved + 1 }, insertSorted gone progress.changed⟩

def addMembers (teamId : String) : List String → Progress → Rpc Progress
  | [], progress => pure progress
  | new :: rest, progress => do
    let done ← tx (insertMember teamId new)
    orElse db done
    let resp := progress.resp
    addMembers teamId rest
      ⟨{ resp with membersAdded := resp.membersAdded + 1 }, insertSorted new progress.changed⟩

/-- Replace one declared team's member set with its declared members that have
a user row. -/
def writeMembers (known : Map Known) (reactivated : List String) (team : Declared)
    (progress : Progress) : Rpc Progress := do
  let members ← tx (selectMembers team.id)
  let current := extendSorted [] members
  let desired := extendSorted [] (team.members.filter fun m => knownAs known m ≠ .absent)
  let changed :=
    if team.id ∈ reactivated then extendSorted progress.changed desired else progress.changed
  let progress ← removeMembers team.id (current.filter fun c => c ∉ desired)
    { progress with changed := changed }
  addMembers team.id (desired.filter fun d => d ∉ current) progress

def writeAllMembers (known : Map Known) (reactivated : List String) :
    List Declared → Progress → Rpc Progress
  | [], progress => pure progress
  | team :: rest, progress => do
    let progress ← writeMembers known reactivated team progress
    writeAllMembers known reactivated rest progress

def insertAllPending : List String → Rpc Unit
  | [] => pure ()
  | p :: rest => do
    let done ← tx (insertPending administrators p)
    orElse db done
    insertAllPending rest

/-- The pending set, replaced wholesale. -/
def replacePending (pending : List String) : Rpc Unit := do
  tx (deletePending fun _ => true)
  insertAllPending pending

/-- The declared members that are neither known nor pending, each once. -/
def unknownMembers (known : Map Known) (pending : List String) (declared : List Declared) :
    List String :=
  declared.foldl (fun acc team =>
    team.members.foldl (fun acc m =>
      if knownAs known m = .absent && !(team.id = administrators && m ∈ pending) && m ∉ acc
      then acc ++ [m] else acc) acc) []

/-- The declared administrators that are live. -/
def liveAfter (known : Map Known) (admins : Option Declared) : Nat :=
  match admins with
  | none => 0
  | some t => (t.members.filter fun m => knownAs known m = .live).length

/-- The declared administrators with no user row, while none would be live. -/
def pendingAfter (known : Map Known) (admins : Option Declared) (live : Nat) : List String :=
  match admins, live with
  | some t, 0 => t.members.filter fun m => knownAs known m = .absent
  | _, _ => []

def syncTeams (r : SyncTeamsRequest) : Rpc SyncTeamsResponse := do
  let declared ← .lift (validate r.teams)
  begin .readCommitted
  let locked ← tx selectSyncLockForUpdate
  orElse db locked
  let _ ← lockAdministrators
  let liveBefore ← liveAdministrators
  let known ← knownUsers (declared.flatMap (·.members)) []
  let admins := declared.find? fun t => t.id = administrators
  let live := liveAfter known admins
  -- The lockout guard: live members are counted on both sides.
  if liveBefore > 0 ∧ live = 0 then
    refuse ⟨.failedPrecondition, "the declaration would leave administrators with no live member " ++
      "(ADR-0963 (6) lockout guard); nothing was written"⟩
  else do
    let pending := pendingAfter known admins live
    let resp : SyncTeamsResponse :=
      ⟨0, 0, 0, 0, 0, unknownMembers known pending declared, [], saturated live, []⟩
    let (reactivated, progress) ← writeTeams declared ⟨resp, []⟩
    let progress ← writeAllMembers known reactivated declared progress
    replacePending pending
    commit
    pure { progress.resp with
      pendingAdministratorUserIds := pending
      changedUserIds := progress.changed }

end IamDb.Team
