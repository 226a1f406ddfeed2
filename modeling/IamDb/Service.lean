import IamDb.Messages

/-! What the verbs share: how a statement reaches the engine and what its
failure becomes, the locks the row reads of `iam_user` and `iam_team` take, and
the liveness re-reads that turn a zero row count into a refusal. -/
namespace IamDb.Service
open Txn Schema Messages

variable [Engine]

abbrev Sql (ρ : Type) : Type := Statement Store Write Res ρ

abbrev Rpc (α : Type) : Type 1 := Prog Store Write Res Status α

/-! ### Running statements -/

/-- How the engine refuses a statement: a unique key is taken (the primary one
or another), or the row breaks another constraint. -/
inductive DbError where
  | duplicate (primary : Bool)
  | other
  deriving DecidableEq, Repr

def DbError.isUniqueViolation : DbError → Bool
  | .duplicate _ => true
  | .other => false

/-- Every engine error a handler does not name. -/
def db (_ : DbError) : Status := ⟨.unavailable, "storage unavailable"⟩

abbrev refuse (s : Status) : Rpc α := .fail s

/-- The level `Isolation::Default` leaves in force: the engine's own. -/
def defaultIsolation : Isolation := .repeatableRead

abbrev begin (iso : Isolation) : Rpc Unit := .start iso

abbrev commit : Rpc Unit := .finish

/-- A statement on the open transaction. -/
abbrev tx (s : Sql ρ) : Rpc ρ := .query s

/-- A statement on a connection with no transaction open. -/
abbrev conn (s : Sql ρ) : Rpc ρ := .single defaultIsolation s

/-- Go on with what a statement did, or answer for its error. -/
def orElse (e : DbError → Status) : Except DbError ρ → Rpc ρ
  | .ok r => .ret r
  | .error x => .fail (e x)

/-! ### Locks -/

def share (r : Res) : Claim Res := ⟨⟨r, .shared⟩, true⟩

def exclude (r : Res) : Claim Res := ⟨⟨r, .exclusive⟩, true⟩

def intend (r : Res) : Claim Res := ⟨⟨r, .intent⟩, true⟩

/-- The locks of a locking read or an update of the `iam_user` row an id names.
At READ COMMITTED a row the statement does not match is unlocked again; at
REPEATABLE READ it stays locked, and so does the gap an absent id falls in. -/
def userRow (mode : Mode) (id : String) (matched : User → Bool) (iso : Isolation) (σ : Store) :
    List (Claim Res) :=
  match σ.user? id with
  | some u => [⟨⟨.user (weight id), mode⟩, iso = .repeatableRead || matched u⟩]
  | none =>
    ⟨⟨.user (weight id), mode⟩, false⟩ ::
      if iso = .repeatableRead then [share (.userGap (weight id))] else []

/-- A row the statement matches stays locked. -/
theorem mem_userRow {σ : Store} (found : σ.user? userId = some u) (holds : matched u = true) :
    ⟨⟨.user u.key, mode⟩, true⟩ ∈ userRow mode userId matched iso σ := by
  simp [userRow, found, holds, (Store.user?_mem found).2]

/-- The locks of a locking read or an update of the `iam_team` row an id names. -/
def teamRow (mode : Mode) (id : String) (matched : Team → Bool) (iso : Isolation) (σ : Store) :
    List (Claim Res) :=
  match σ.team? id with
  | some t => [⟨⟨.team (weight id), mode⟩, iso = .repeatableRead || matched t⟩]
  | none => [⟨⟨.team (weight id), mode⟩, false⟩]

theorem mem_teamRow {σ : Store} (found : σ.team? teamId = some t) (holds : matched t = true) :
    ⟨⟨.team t.key, mode⟩, true⟩ ∈ teamRow mode teamId matched iso σ := by
  simp [teamRow, found, holds, (Store.team?_mem found).2]

/-- The locks of inserting a row under a key: the key alone, shared when it is
taken, since the refused insert has read the row that is there. -/
def insertRow (r : Res) (taken : Bool) : Claim Res := if taken then share r else exclude r

/-! ### Re-reads -/

def selectLiveUser (userId : String) : Sql Bool where
  plain := true
  exec _ σ := ((σ.liveUser? userId).isSome, [])

/-- Refuse to write against a user who does not exist or has been soft-deleted. -/
def liveUser (executor : Sql Bool → Rpc Bool) (userId : String) : Rpc Unit := do
  if ← executor (selectLiveUser userId) then
    pure ()
  else
    refuse ⟨.notFound, "no such live user"⟩

def selectLiveTeam (teamId : String) : Sql Bool where
  plain := true
  exec _ σ := ((σ.liveTeam? teamId).isSome, [])

/-- `liveUser`, for a team. -/
def liveTeam (executor : Sql Bool → Rpc Bool) (teamId : String) : Rpc Unit := do
  if ← executor (selectLiveTeam teamId) then
    pure ()
  else
    refuse ⟨.notFound, "no such live team"⟩

/-- Whether a ledger read must see the latest committed row or may use the
transaction's snapshot. -/
inductive Lock where
  | no
  | yes
  deriving DecidableEq, Repr

/-! ### Values -/

/-- `iam_password.argon2id_hash` is `VARCHAR(255)`, counted in characters. -/
def maxArgon2idHash : Nat := 255

/-- Refuse a hash the column cannot hold. -/
def fitsPasswordColumn (hash : String) : Except Status Unit :=
  if hash.length > maxArgon2idHash then
    .error ⟨.invalidArgument, "the argon2id hash is longer than the column can hold"⟩
  else .ok ()

def defaultPageSize : Int := 50

def maxPageSize : Int := 200

/-- The page size a request asks for, within the bounds of the contract. -/
def pageSize (asked : Int) : Nat :=
  if asked ≤ 0 then defaultPageSize.toNat else (min asked maxPageSize).toNat

omit [Engine] in
theorem pageSize_pos : 0 < pageSize asked := by
  unfold pageSize defaultPageSize maxPageSize
  split <;> omega

omit [Engine] in
theorem pageSize_le : pageSize asked ≤ 200 := by
  unfold pageSize defaultPageSize maxPageSize
  split <;> omega

/-- A row count as the `uint32` an answer carries. -/
def saturated (rows : Nat) : Nat := min rows 4294967295

/-- Insert into a sorted list without repeats, as a `BTreeSet` does. -/
def insertSorted (s : String) : List String → List String
  | [] => [s]
  | x :: rest => if s < x then s :: x :: rest else if s = x then x :: rest
    else x :: insertSorted s rest

def extendSorted (set : List String) (new : List String) : List String :=
  new.foldl (fun acc s => insertSorted s acc) set

/-- The one inheritable setting the contract declares. -/
def ownerReadsOwnRecord : String := "owner_reads_own_record"

end IamDb.Service
