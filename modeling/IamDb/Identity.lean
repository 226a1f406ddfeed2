import IamDb.Policy

/-! Creating a user, with a minted id or, once, with the declared id of the
first administrator. Team membership is not written here: it is declared. -/
namespace IamDb.Identity
open Txn Schema Messages Service Team

variable [Engine]

/-- The ciphertext columns of `iam_user` are `VARBINARY(512)`. -/
def maxCiphertext : Nat := 512

/-- The insert of a user row. It announces itself on the range of ids and on
the gap its id falls in. -/
def insertUserRow (id : String) (r : CreateUserRequest) (isAdmin : Bool) :
    Sql (Except DbError Unit) where
  claims _ _ σ :=
    let blindIndex := (binary32 r.externalIdBlindIndex).getD r.externalIdBlindIndex
    [intend .users, intend (.userGap (weight id)),
      insertRow (.user (weight id)) (σ.user? id).isSome,
      insertRow (.blindIndex blindIndex) (σ.users.rows.any fun u => u.blindIndex = blindIndex)]
  exec now σ :=
    match binary32 r.externalIdBlindIndex with
    | none => (.error .other, [])
    | some blindIndex =>
      if r.externalIdCiphertext.length > maxCiphertext ∨
          r.displayNameCiphertext.length > maxCiphertext then (.error .other, [])
      else if (σ.user? id).isSome then (.error (.duplicate true), [])
      else if σ.users.rows.any fun u => u.blindIndex = blindIndex then
        (.error (.duplicate false), [])
      else (.ok (), [.user ⟨id, blindIndex, r.externalIdCiphertext, r.displayNameCiphertext,
        isAdmin, 0, now, none⟩])
  covered now iso σ w writes := by
    split at writes
    · cases writes
    · split at writes
      · cases writes
      split at writes
      · cases writes
      · rename_i absent
        split at writes
        · cases writes
        · obtain rfl := List.mem_singleton.mp writes
          simp [insertRow, absent, exclude, Write.res, User.key]

def userIdTaken : String := "that user id is taken"

def userConflict : DbError → Status
  | .duplicate true => ⟨.alreadyExists, userIdTaken⟩
  | .duplicate false => ⟨.alreadyExists, "a user with that name already exists"⟩
  | .other => db .other

/-! ### The bootstrap -/

/-- Which step of the predicate refused. -/
inductive Step where
  | noAdministratorsTeam
  | administratorExists
  | notDeclared
  deriving DecidableEq, Repr

def selectUserId (userId : String) : Sql Bool where
  plain := true
  exec _ σ := ((σ.user? userId).isSome, [])

def selectPending (userId : String) : Sql Bool where
  plain := true
  exec _ σ := ((σ.pendingMembers.find? (weight administrators, weight userId)).isSome, [])

/-- A live `administrators` row with no live member, an id nobody has, and a
pending row for it. -/
def predicate (userId : String) : Rpc (Except Step Unit) := do
  let live ← lockAdministrators
  if live ≠ some true then
    pure (.error .noAdministratorsTeam)
  else do
    let n ← liveAdministrators
    if n > 0 then
      pure (.error .administratorExists)
    else do
      let taken ← tx (selectUserId userId)
      if taken then
        refuse ⟨.alreadyExists, userIdTaken⟩
      else do
        let declared ← tx (selectPending userId)
        pure (if declared then .ok () else .error .notDeclared)

/-- The one sentence of every refusal of the predicate. -/
def refusal : String := "the bootstrap create-user predicate refused"

/-- The bootstrap `CreateUser`: the user with the column flag false whatever
the request carries, its member row, and the end of every pending row. -/
def insertDeclaredUser (r : CreateUserRequest) : Rpc CreateUserResponse :=
  if !canonicalUserId r.userId then
    refuse ⟨.invalidArgument,
      "user_id must be \"yadgar:user:\" followed by a lowercase canonical uuidv7"⟩
  else do
    begin .readCommitted
    let decided ← predicate r.userId
    match decided with
    | .error _ => refuse ⟨.permissionDenied, refusal⟩
    | .ok () => do
      let inserted ← tx (insertUserRow r.userId r false)
      orElse userConflict inserted
      let joined ← tx (insertMember administrators r.userId)
      orElse db joined
      tx (deletePending fun p => weight p.teamId = weight administrators)
      commit
      pure ⟨r.userId, 1⟩

/-- `CreateUser`. A user id in the request is the bootstrap's demand. -/
def insertUser (uuid : String) (r : CreateUserRequest) : Rpc CreateUserResponse :=
  if r.userId ≠ "" then
    insertDeclaredUser r
  else do
    let id := userPrefix ++ uuid
    let inserted ← conn (insertUserRow id r r.isAdmin)
    orElse userConflict inserted
    pure ⟨id, 1⟩

/-- `AddTeamMember` and `RemoveTeamMember` are retired. -/
def teamsAreDeclared : Status :=
  ⟨.failedPrecondition, "teams are declared in GitOps: SyncTeams is the one writer of team " ++
    "membership, and AddTeamMember and RemoveTeamMember are retired (ADR-0963 (7))"⟩

def addMember (_ : TeamMemberRequest) : Rpc Unit := refuse teamsAreDeclared

def removeMember (_ : TeamMemberRequest) : Rpc Unit := refuse teamsAreDeclared

end IamDb.Identity
