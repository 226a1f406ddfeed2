import IamDb.Setting

/-! The key-identity marker: one row, written once, over an empty store or on
evidence that is exactly the oldest rows. The predicate rides in the insert,
and an insert that wrote nothing compares with the marker that is there. -/
namespace IamDb.KeyIdentity
open Txn Schema Messages Service

variable [Engine]

/-- `iam_key_identity.key_fingerprint` is `VARBINARY(255)`. -/
def maxKeyFingerprint : Nat := 255

/-- `iam_key_identity.idempotency_key` is `VARCHAR(255)`. -/
def maxIdempotencyKey : Nat := 255

/-- What a presented pair is against a stored marker. Fingerprints are not
compared across versions. -/
def comparedWith (stored : Schema.KeyIdentity) (fingerprint : Bytes) (version : Nat) :
    KeyIdentityOutcome :=
  if stored.derivationVersion = version then
    if stored.keyFingerprint = fingerprint then .match else .mismatch
  else .derivationSkew

/-- The presence rules, and what the column can hold. -/
def presented (fingerprint : Bytes) (version : Nat) : Except Status Unit :=
  if fingerprint.isEmpty then
    .error ⟨.invalidArgument,
      "key_fingerprint is empty; a marker with no key material would match itself for ever"⟩
  else if fingerprint.length > maxKeyFingerprint then
    .error ⟨.invalidArgument, "key_fingerprint is wider than the column can hold"⟩
  else if version = 0 then
    .error ⟨.invalidArgument, "derivation_version is zero; versions start at 1"⟩
  else .ok ()

/-- The singleton, found as the singleton. -/
def selectMarker (lock : Lock) : Sql (Option Schema.KeyIdentity) where
  plain := lock = .no
  claims _ iso σ :=
    if lock = .no then []
    else [⟨⟨.keyIdentity, .shared⟩,
      iso = .repeatableRead || (σ.keyIdentity.find? ()).isSome⟩]
  exec _ σ := (σ.keyIdentity.find? (), [])

/-- What a recording arm presents. -/
structure Presented where
  fingerprint : Bytes
  version : Nat
  key : String
  deriving DecidableEq, Repr

/-- The same key first, then the comparison. The empty string is not a key. -/
def replayedOrCompared (stored : Schema.KeyIdentity) (p : Presented) :
    Except Status KeyIdentityOutcome :=
  if p.key = "" ∨ p.key ≠ stored.idempotencyKey then
    .ok (comparedWith stored p.fingerprint p.version)
  else if stored.derivationVersion = p.version ∧ stored.keyFingerprint = p.fingerprint then
    .ok .recorded
  else .error ⟨.invalidArgument, "this idempotency key was used with a different key set or " ++
    "derivation; a repeated key carrying a different payload is refused rather than replayed"⟩

def keyIdentity (r : GetKeyIdentityRequest) : Rpc KeyIdentityOutcome := do
  .lift (presented r.keyFingerprint r.derivationVersion)
  let stored ← conn (selectMarker .no)
  match stored with
  | some stored => pure (comparedWith stored r.keyFingerprint r.derivationVersion)
  | none => pure .absent

/-- The insert of the marker where a predicate on `iam_user` holds, reading the
table under shared locks on its whole range and every row of it. -/
def insertMarker (p : Presented) (holds : Store → Bool) : Sql (Except DbError Nat) where
  claims _ _ σ :=
    share .users :: (σ.users.rows.map fun u => share (.user u.key)) ++
      if holds σ && fits maxIdempotencyKey p.key then
        [insertRow .keyIdentity (σ.keyIdentity.find? ()).isSome]
      else []
  exec _ σ :=
    if !holds σ then (.ok 0, [])
    else if !fits maxIdempotencyKey p.key then (.error .other, [])
    else if (σ.keyIdentity.find? ()).isSome then (.error (.duplicate true), [])
    else (.ok 1, [.keyIdentity ⟨p.version, p.fingerprint, p.key⟩])
  covered now iso σ w writes := by
    split at writes
    · cases writes
    · rename_i met
      split at writes
      · cases writes
      rename_i fit
      split at writes
      · cases writes
      · rename_i absent
        obtain rfl := List.mem_singleton.mp writes
        simp only [Bool.not_eq_true', Bool.not_eq_false] at met fit
        simp [met, fit, insertRow, absent, exclude, Write.res]

/-- Compare against the marker that is there, or say none is. -/
def againstTheStoredMarker (p : Presented) : Rpc (Option KeyIdentityOutcome) := do
  let stored ← tx (selectMarker .yes)
  match stored with
  | none => pure none
  | some stored => do
    let outcome ← .lift (replayedOrCompared stored p)
    pure (some outcome)

/-- What a recording arm's insert decided; none when it wrote nothing and no
marker is stored. -/
def outcomeOf (attempt : Except DbError Nat) (p : Presented) : Rpc (Option KeyIdentityOutcome) :=
  match attempt with
  | .ok 1 => pure (some .recorded)
  | .ok _ => againstTheStoredMarker p
  | .error e => if e.isUniqueViolation then againstTheStoredMarker p else refuse (db e)

/-- The transaction both recording arms run. -/
def record (p : Presented) (holds : Store → Bool) (refusal : Status) :
    Rpc KeyIdentityOutcome := do
  begin defaultIsolation
  let attempt ← tx (insertMarker p holds)
  let outcome ← outcomeOf attempt p
  match outcome with
  | none => refuse refusal
  | some outcome => do
    commit
    pure outcome

def noUsers (σ : Store) : Bool := σ.users.rows.isEmpty

def recordKeyIdentity (r : SetKeyIdentityRequest) : Rpc KeyIdentityOutcome := do
  .lift (presented r.keyFingerprint r.derivationVersion)
  record ⟨r.keyFingerprint, r.derivationVersion, r.idempotency.getD ""⟩ noUsers
    ⟨.failedPrecondition, "this store already holds rows and no marker; recording one now would " ++
      "assert a key identity about rows it cannot be derived from"⟩

/-! ### Adoption -/

/-- `ORDER BY created_at, id` -/
def olderOrSame (a b : User) : Bool :=
  a.createdAt < b.createdAt || a.createdAt = b.createdAt && a.key ≤ b.key

/-- Every user row, oldest first, soft-deleted rows included. -/
def oldestFirst (σ : Store) : List User := σ.users.rows.insertionSort fun a b => olderOrSame a b

/-- The most evidence one adoption carries. -/
def maxEvidence : Nat := 64

/-- The key under which two ids are taken to name the same row. -/
def sameRow (id : String) : String :=
  lowercase (String.ofList (id.toList.reverse.dropWhile (· = ' ')).reverse)

/-- The rules on the evidence that read no store. -/
def evidence (ids : List String) : Except Status Unit :=
  if ids.isEmpty then
    .error ⟨.invalidArgument,
      "evidence_user_ids is empty; an adoption with no evidence asserts a key identity on none"⟩
  else if ids.length > maxEvidence then
    .error ⟨.invalidArgument, "evidence_user_ids holds more than 64 ids"⟩
  else if (ids.map sameRow).Nodup then .ok ()
  else .error ⟨.invalidArgument, "evidence_user_ids repeats an id"⟩

/-- The count of the presented ids among the oldest rows equals their number. -/
def oldestAre (ids : List String) (σ : Store) : Bool :=
  (((oldestFirst σ).take ids.length).filter fun u => ids.any fun id => weight id = u.key).length =
    ids.length

def recordAdoption (r : AdoptKeyIdentityRequest) : Rpc KeyIdentityOutcome := do
  .lift (presented r.keyFingerprint r.derivationVersion)
  .lift (evidence r.evidenceUserIds)
  record ⟨r.keyFingerprint, r.derivationVersion, r.idempotency.getD ""⟩
    (oldestAre r.evidenceUserIds)
    ⟨.failedPrecondition, "no marker is stored and evidence_user_ids are not exactly the oldest " ++
      "rows of this store; an adoption is recorded only on its oldest rows"⟩

/-! ### Evidence -/

/-- A keyset position: the last `(created_at, id)` served. -/
structure Position where
  epoch : Int
  id : String
  deriving DecidableEq, Repr

/-- `<epoch>:<id>`; only the first colon separates. -/
def Position.token (p : Position) : String := toString p.epoch ++ ":" ++ p.id

/-- A decimal number with an optional sign, within 64 bits. -/
def parseI64 (s : List Char) : Option Int :=
  let digits (ds : List Char) : Option Nat :=
    if ds.isEmpty || !ds.all Char.isDigit then none
    else some (ds.foldl (fun n c => n * 10 + (c.toNat - '0'.toNat)) 0)
  let signed :=
    match s with
    | '-' :: rest => (digits rest).map fun n => -(n : Int)
    | '+' :: rest => (digits rest).map fun n => (n : Int)
    | ds => (digits ds).map fun n => (n : Int)
  signed.filter fun n => -9223372036854775808 ≤ n && n ≤ 9223372036854775807

def Position.parse (token : String) : Except Status Position :=
  let bad : Except Status Position :=
    .error ⟨.invalidArgument, "page_token is not one this service issued"⟩
  if token = "" then .ok ⟨-1, ""⟩
  else
    match token.toList.span (· ≠ ':') with
    | (_, []) => bad
    | (epoch, _ :: id) =>
      match parseI64 epoch with
      | some n => if 0 ≤ n then .ok ⟨n, String.ofList id⟩ else bad
      | none => bad

def selectEvidence (after : Position) (size : Nat) : Sql (List User) where
  plain := true
  exec _ σ :=
    (((oldestFirst σ).filter fun u =>
      after.epoch < u.createdAt || u.createdAt = after.epoch && weight after.id < u.key).take size,
      [])

/-- The key-bearing columns of `iam_user`, oldest first, paged by keyset. -/
def evidencePage (r : ListKeyIdentityEvidenceRequest) : Rpc ListKeyIdentityEvidenceResponse := do
  let after ← .lift (Position.parse r.pageToken)
  let rows ← conn (selectEvidence after (pageSize r.pageSize))
  let evidence := rows.map fun u => ⟨u.id, u.externalId, u.displayName, u.blindIndex⟩
  pure ⟨evidence, if evidence.length = pageSize r.pageSize then
    ((rows.getLast?).map fun u => Position.token ⟨u.createdAt, u.id⟩).getD "" else ""⟩

end IamDb.KeyIdentity
