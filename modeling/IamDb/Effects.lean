import IamDb.Handlers

/-! What the service does to the store, one commit at a time. Every commit of
every verb is one of a few operations on the tables, made where its call and
the store it is made on allow it. The verbs themselves are the modules below;
this is what they are for, and what every theorem about runs is proved from. -/
namespace IamDb.Effects
open Txn Schema Messages Service

/-! ### Operations on rows -/

/-- A user row with its epoch counted up. -/
def bumped (u : User) : User := { u with credentialEpoch := u.credentialEpoch + 1 }

@[simp] theorem bumped_id (u : User) : (bumped u).id = u.id := rfl
@[simp] theorem bumped_deletedAt (u : User) : (bumped u).deletedAt = u.deletedAt := rfl

@[simp] theorem bumped_credentialEpoch (u : User) :
    (bumped u).credentialEpoch = u.credentialEpoch + 1 := rfl

def revokedAt (now : Int) (c : Credential) : Credential := { c with revokedAt := some now }

def spentAt (now : Int) (e : Enrolment) : Enrolment := { e with spentAt := some now }

def voidedAt (now : Int) (e : Enrolment) : Enrolment := { e with voidedAt := some now }

/-- A user row as `CreateUser` writes it. -/
def newUser (id : String) (blindIndex : Bytes) (r : CreateUserRequest) (isAdmin : Bool)
    (now : Int) : User :=
  ⟨id, blindIndex, r.externalIdCiphertext, r.displayNameCiphertext, isAdmin, 0, now, none⟩

/-- The ledger row of a request. -/
def settingWrite (r : SetInheritedSettingRequest) : SettingWrite :=
  ⟨r.idempotency.getD "", r.scope, r.teamId, r.name, r.value, r.locked, r.clear⟩

/-- A ledger row records this same request, whatever key it was written with. -/
def SameRequest (r : SetInheritedSettingRequest) (w : SettingWrite) : Prop :=
  w = { settingWrite r with idempotencyKey := w.idempotencyKey }

variable [Engine]

/-- The override row a request names. -/
def overrideKey (r : SetInheritedSettingRequest) : String × String :=
  (weight r.name, weight (r.teamId.getD ""))

/-- The rate-limit row a request names. -/
def limitKey (r : SetRateLimitOverrideRequest) : String × String × Int :=
  (weight r.userId, weight r.module, r.kind)

/-- The row an upsert of a limit leaves: one that is there keeps its module as
it was first spelled. -/
def limited (r : SetRateLimitOverrideRequest) (limit : RateLimit) (σ : Store) (u : User) :
    RateLimitOverride :=
  ((σ.rateLimits.find? (u.key, weight r.module, r.kind)).map fun o =>
    { o with rate := limit.rate, burst := limit.burst }).getD
      ⟨u.id, r.module, r.kind, limit.rate, limit.burst⟩

theorem limited_key {r : SetRateLimitOverrideRequest} {limit : RateLimit} {σ : Store} {u : User} :
    (limited r limit σ u).key = (u.key, weight r.module, r.kind) := by
  unfold limited
  cases found : σ.rateLimits.find? (u.key, weight r.module, r.kind) with
  | none => rfl
  | some o => exact (Table.find?_eq_some.mp found).2

theorem limited_limit {r : SetRateLimitOverrideRequest} {limit : RateLimit} {σ : Store}
    {u : User} : (limited r limit σ u).rate = limit.rate ∧
      (limited r limit σ u).burst = limit.burst := by
  unfold limited
  cases σ.rateLimits.find? (u.key, weight r.module, r.kind) with
  | none => exact ⟨rfl, rfl⟩
  | some o => exact ⟨rfl, rfl⟩

theorem limited_module {r : SetRateLimitOverrideRequest} {limit : RateLimit} {σ : Store}
    {u : User} : (limited r limit σ u).module =
      ((σ.rateLimits.find? (u.key, weight r.module, r.kind)).map (·.module)).getD r.module := by
  unfold limited
  cases σ.rateLimits.find? (u.key, weight r.module, r.kind) with
  | none => rfl
  | some o => rfl

@[simp] theorem bumped_key (u : User) : (bumped u).key = u.key := rfl
@[simp] theorem revokedAt_key (c : Credential) : (revokedAt now c).key = c.key := rfl
@[simp] theorem spentAt_key (e : Enrolment) : (spentAt now e).key = e.key := rfl
@[simp] theorem voidedAt_key (e : Enrolment) : (voidedAt now e).key = e.key := rfl

/-- A credential of the user, not yet revoked. -/
def liveOf (user : String) (c : Credential) : Bool :=
  weight c.userId = user && c.revokedAt.isNone

/-- An enrolment of the user, neither spent nor voided. -/
def openOf (user : String) (e : Enrolment) : Bool :=
  weight e.userId = user && e.spentAt.isNone && e.voidedAt.isNone

/-! ### Effects -/

/-- What a settings write does to its level. -/
inductive Level where
  | keep
  | org (row : OrgSetting)
  | override (row : TeamSettingOverride)
  | clear (key : String × String)

inductive Effect where
  | nothing
  | createUser (u : User)
  | bootstrap (u : User)
  | redeem (e : Enrolment) (u : User) (p : Password) (ledger : Option Redemption)
      (spent revoked voided : Int)
  | revokeAll (u : User) (revoked voided : Int)
  | setPassword (u : User) (p : Password)
  | mintCredential (c : Credential)
  | revokeCredential (c : Credential) (now : Int)
  | mintEnrolment (e : Enrolment)
  | setAdmin (u : User) (isAdmin : Bool)
  | setRateLimit (o : RateLimitOverride)
  | clearRateLimit (key : String × String × Int)
  | setting (level : Level) (claim : Option SettingWrite)
  | sync (teams : Table Team.key) (members : Table TeamMember.key)
      (pending : Table PendingMember.key)
  | mark (row : KeyIdentity)

def Level.apply : Level → Store → Store
  | keep, σ => σ
  | org row, σ => { σ with orgSettings := σ.orgSettings.put row }
  | override row, σ => { σ with overrides := σ.overrides.put row }
  | clear key, σ => { σ with overrides := σ.overrides.erase key }

/-- The ledger row of a keyed call, if it has a key. -/
def record : Option SettingWrite → Store → Store
  | none, σ => σ
  | some w, σ => { σ with settingWrites := σ.settingWrites.put w }

def Effect.apply : Effect → Store → Store
  | nothing, σ => σ
  | createUser u, σ => { σ with users := σ.users.put u }
  | bootstrap u, σ =>
    { σ with
      users := σ.users.put u
      teamMembers := σ.teamMembers.put ⟨Team.administrators, u.id⟩
      pendingMembers := σ.pendingMembers.eraseAll
        ((σ.pendingMembers.rows.filter fun p => weight p.teamId = weight Team.administrators).map
          (·.key)) }
  | redeem e u p ledger spent revoked voided, σ =>
    { σ with
      users := σ.users.put (bumped u)
      enrolments :=
        if e.revokeExistingCredentials then
          (σ.enrolments.put (spentAt spent e)).update (openOf u.key) (voidedAt voided)
        else σ.enrolments.put (spentAt spent e)
      credentials :=
        if e.revokeExistingCredentials then
          σ.credentials.update (liveOf u.key) (revokedAt revoked)
        else σ.credentials
      passwords := σ.passwords.put p
      redemptions :=
        match ledger with
        | some row => σ.redemptions.put row
        | none => σ.redemptions }
  | revokeAll u revoked voided, σ =>
    { σ with
      users := σ.users.put (bumped u)
      credentials := σ.credentials.update (liveOf u.key) (revokedAt revoked)
      enrolments := σ.enrolments.update (openOf u.key) (voidedAt voided) }
  | setPassword u p, σ =>
    { σ with users := σ.users.put (bumped u), passwords := σ.passwords.put p }
  | mintCredential c, σ => { σ with credentials := σ.credentials.put c }
  | revokeCredential c now, σ => { σ with credentials := σ.credentials.put (revokedAt now c) }
  | mintEnrolment e, σ => { σ with enrolments := σ.enrolments.put e }
  | setAdmin u isAdmin, σ => { σ with users := σ.users.put { u with isAdmin := isAdmin } }
  | setRateLimit o, σ => { σ with rateLimits := σ.rateLimits.put o }
  | clearRateLimit key, σ => { σ with rateLimits := σ.rateLimits.erase key }
  | setting level claim, σ => record claim (level.apply σ)
  | sync teams members pending, σ =>
    { σ with teams := teams, teamMembers := members, pendingMembers := pending }
  | mark row, σ => { σ with keyIdentity := σ.keyIdentity.put row }

/-! ### What a call may do -/

abbrev Committed : Type := Commit Store Write Res Status Response

/-- What becomes of a team row: it stays, is inserted live, comes back or is
archived. -/
inductive Turned (declared : List Team.Declared) (teams : Table Team.key) (t : Schema.Team) :
    Prop where
  | same (stored : t ∈ teams)
  | inserted (member : d ∈ declared) (new : t = ⟨d.id, 1, d.name, none⟩)
      (absent : teams.find? (weight d.id) = none)
  | reactivated (stored : before ∈ teams) (archived : before.deletedAt ≠ none)
      (turned : t = { before with deletedAt := none, version := before.version + 1 })
  | archived (stored : before ∈ teams) (live : before.deletedAt = none)
      (turned : t = { before with deletedAt := some now, version := before.version + 1 })

/-- A team row keeps the id and the name it was declared with, or had. -/
theorem Turned.named {teams : Table Team.key} (turned : Turned declared teams t) :
    (∃ d ∈ declared, d.id = t.id ∧ d.name = t.name) ∨
      ∃ before ∈ teams, before.id = t.id ∧ before.name = t.name := by
  cases turned with
  | same stored => exact Or.inr ⟨t, stored, rfl, rfl⟩
  | inserted member new => exact Or.inl ⟨_, member, by rw [new], by rw [new]⟩
  | reactivated stored _ turned => exact Or.inr ⟨_, stored, by rw [turned], by rw [turned]⟩
  | archived stored _ turned => exact Or.inr ⟨_, stored, by rw [turned], by rw [turned]⟩

/-- What a declaration leaves of the people in it, by what was known of each when
the store was asked: who was there then is there still, and every member was. -/
structure Surveyed (declared : List Team.Declared) (σ : Store) (members : Table TeamMember.key)
    (pending : Table PendingMember.key) (known : Team.Map Team.Known) : Prop where
  someone : ∀ u, Team.knownAs known u ≠ .absent → (σ.user? u).isSome
  live : ∀ u, Team.knownAs known u ≠ .absent →
    (Team.knownAs known u = .live ↔ (σ.liveUser? u).isSome)
  already : ∀ m ∈ σ.teamMembers, ∀ d ∈ declared, m.userId ∈ d.members →
    Team.knownAs known m.userId ≠ .absent
  listed : ∀ d ∈ declared, ∀ u, (∃ m ∈ members, weight m.teamId = weight d.id ∧ m.userId = u) ↔
    u ∈ d.members ∧ Team.knownAs known u ≠ .absent
  awaited : ∀ p, p ∈ pending ↔ ∃ u ∈ Team.pendingAfter known
    (declared.find? fun d => d.id = Team.administrators)
    (Team.liveAfter known (declared.find? fun d => d.id = Team.administrators)),
      p = ⟨Team.administrators, u⟩

/-- The tables a declaration leaves. -/
structure Synced (declared : List Team.Declared) (σ : Store) (teams : Table Team.key)
    (members : Table TeamMember.key) (pending : Table PendingMember.key) : Prop where
  live : ∀ t ∈ teams, t.deletedAt = none ↔ ∃ d ∈ declared, d.id = t.id
  present : ∀ d ∈ declared, ∃ t ∈ teams, t.id = d.id
  turned : ∀ t ∈ teams, Turned declared σ.teams t
  kept : ∀ t ∈ σ.teams, ∃ after ∈ teams, after.id = t.id ∧ after.name = t.name
  listed : ∀ m ∈ members, (∃ d ∈ declared, weight m.teamId = weight d.id ∧
      m.userId ∈ d.members ∧ (σ.user? m.userId).isSome) ∨
    m ∈ σ.teamMembers ∧ ∀ d ∈ declared, weight m.teamId ≠ weight d.id
  origin : ∀ m ∈ members, m ∈ σ.teamMembers ∨ ∃ d ∈ declared, m.teamId = d.id
  guard : Team.liveMembers σ Team.administrators ≠ [] →
    Team.liveMembers { σ with teams := teams, teamMembers := members } Team.administrators ≠ []
  pendingDeclared : ∀ p ∈ pending, p.teamId = Team.administrators ∧
    ∃ d ∈ declared, d.id = Team.administrators ∧ p.userId ∈ d.members
  pendingAlone : pending.rows ≠ [] →
    Team.liveMembers { σ with teams := teams, teamMembers := members } Team.administrators = []
  stays : ∀ m ∈ σ.teamMembers, (∀ d ∈ declared, weight m.teamId = weight d.id →
    m.userId ∈ d.members) → m ∈ members
  surveyed : ∃ known, Surveyed declared σ members pending known

/-- The requests whose transactions may commit and have changed nothing. -/
def mayIdle : Request → Bool
  | .resolveCredential _ => true
  | .redeemEnrolment _ => true
  | .setKeyIdentity _ => true
  | .adoptKeyIdentity _ => true
  | _ => false

/-- What a settings call may do to its level. It leaves it where its key recorded
the same request, where there was no override to clear, and where the team it
names was not live; else it does what its request states, under the lock on the
row, and states an override only for a team that is live under a shared lock. -/
inductive Settles (r : SetInheritedSettingRequest) (k : Committed) : Level → Prop where
  | replayed (keyed : r.idempotency.getD "" ≠ "")
      (found : k.store.settingWrites.find? (weight (r.idempotency.getD "")) = some w)
      (same : SameRequest r w) : Settles r k .keep
  | absent (valid : Setting.checkInheritedSetting r = .ok .team) (clear : r.clear = true) :
    Settles r k .keep
  | passed (valid : Setting.checkInheritedSetting r = .ok .team) (set : r.clear = false)
      (team : (k.store.team? (r.teamId.getD "")).isSome) : Settles r k .keep
  | org (valid : Setting.checkInheritedSetting r = .ok .org) (key : row.key = weight r.name)
      (value : row.value = r.value.getD 0) (flag : row.locked = r.locked.getD false)
      (held : Holds k.under (.orgSetting (weight r.name)) .exclusive)
      (spelled : row.name =
        ((k.store.orgSettings.find? (weight r.name)).map (·.name)).getD r.name) :
    Settles r k (.org row)
  | override (valid : Setting.checkInheritedSetting r = .ok .team) (set : r.clear = false)
      (live : (k.store.liveTeam? (r.teamId.getD "")).isSome) (key : row.key = overrideKey r)
      (value : row.value = r.value.getD 0)
      (shared : Holds k.under (.team (weight (r.teamId.getD ""))) .shared)
      (held : Holds k.under (.override (overrideKey r)) .exclusive)
      (spelled : ∀ t, k.store.liveTeam? (r.teamId.getD "") = some t → (row.name, row.teamId) =
        ((k.store.overrides.find? (overrideKey r)).map fun o => (o.name, o.teamId)).getD
          (r.name, t.id)) :
    Settles r k (.override row)
  | clear (valid : Setting.checkInheritedSetting r = .ok .team) (clear : r.clear = true)
      (held : Holds k.under (.override (overrideKey r)) .exclusive) :
    Settles r k (.clear (overrideKey r))

/-- What a demanded enrolment is granted on: somebody flagged an administrator
who never held anything, or, where administrators are declared, a member of
their live team, under the lock on its row. -/
structure Granted (r : CreateEnrolmentRequest) (k : Committed) (u : User) (revoking : Bool) :
    Prop where
  newcomer : r.requireZeroCredentialAdmin = true → r.adminFromTeam = false →
    u.isAdmin = true ∧ k.store.passwords.find? u.key = none ∧
      (∀ row ∈ k.store.credentials, weight row.userId ≠ u.key) ∧ revoking = false
  declared : r.requireZeroCredentialAdmin = true → r.adminFromTeam = true →
    (k.store.liveTeam? Team.administrators).isSome ∧
      (k.store.teamMembers.find? (weight Team.administrators, u.key)).isSome ∧
      Holds k.under (.team (weight Team.administrators)) .exclusive

/-- The effects a call may have with a commit, and what is known of the store
it is made on, of the locks it is made under and of the answer. -/
inductive Allowed (c : Call) (k : Committed) : Effect → Prop where
  | nothing (request : mayIdle c.request = true)
      (answer : ∀ a, k.answer = some (.ok (.redeemEnrolment a)) → a.voidedEnrolments = 0) :
    Allowed c k .nothing
  | createUser (request : c.request = .createUser r) (minted : r.userId = "")
      (new : u = newUser (Team.userPrefix ++ c.uuid.text) blindIndex r r.isAdmin now)
      (absent : k.store.user? u.id = none) (range : Holds k.under .users .intent)
      (gap : Holds k.under (.userGap u.key) .intent)
      (stores : binary32 r.externalIdBlindIndex = some blindIndex)
      (since : ⟨⟨.userGap u.key, .intent⟩, now⟩ ∈ k.under) : Allowed c k (.createUser u)
  | bootstrap (request : c.request = .createUser r) (demanded : r.userId ≠ "")
      (canonical : Team.canonicalUserId r.userId = true)
      (new : u = newUser r.userId blindIndex r false now)
      (absent : k.store.user? u.id = none) (range : Holds k.under .users .intent)
      (gap : Holds k.under (.userGap u.key) .intent)
      (team : (k.store.liveTeam? Team.administrators).isSome)
      (nobody : Team.liveMembers k.store Team.administrators = [])
      (declared : (k.store.pendingMembers.find? (weight Team.administrators, u.key)).isSome)
      (locked : Holds k.under (.team (weight Team.administrators)) .exclusive)
      (stores : binary32 r.externalIdBlindIndex = some blindIndex)
      (since : ⟨⟨.userGap u.key, .intent⟩, now⟩ ∈ k.under) : Allowed c k (.bootstrap u)
  | redeem (request : c.request = .redeemEnrolment r) (enrolment : e ∈ k.store.enrolments)
      (secret : e.secretHash = r.secretHash) (unspent : e.spentAt = none)
      (unvoided : e.voidedAt = none) (unexpired : spent < e.expiresAt)
      (since : ⟨⟨.enrolment e.key, .exclusive⟩, spent⟩ ∈ k.under)
      (owner : k.store.user? e.userId = some u) (live : u.deletedAt = none)
      (password : p.key = u.key) (hash : p.argon2idHash = r.argon2idHash)
      (recorded : ledger = if r.idempotency.getD "" = "" then none
        else some ⟨r.idempotency.getD "", e.secretHash, e.id, e.userId, u.credentialEpoch + 1⟩)
      (fresh : ∀ row, ledger = some row → k.store.redemptions.find? row.key = none)
      (answer : k.answer = some (.ok (.redeemEnrolment ⟨.redeemed, e.userId, e.id, u.externalId,
        e.revokeExistingCredentials, u.credentialEpoch + 1, count⟩)))
      (held : r.idempotency.getD "" ≠ "" →
        fits Enrolment.maxIdempotencyKey (r.idempotency.getD "") = true)
      (spelled : p.userId = ((k.store.passwords.find? u.key).map (·.userId)).getD e.userId)
      (revokes : e.revokeExistingCredentials = true → ∀ row ∈ k.store.credentials,
        liveOf u.key row = true → ⟨⟨.credential row.key, .exclusive⟩, revoked⟩ ∈ k.under)
      (voids : e.revokeExistingCredentials = true → ∀ x ∈ k.store.enrolments,
        openOf u.key x = true → x.key ≠ e.key → ⟨⟨.enrolment x.key, .exclusive⟩, voided⟩ ∈ k.under)
      (counted : count = if e.revokeExistingCredentials then
        saturated (k.store.enrolments.rows.filter fun x => openOf u.key x && x.key ≠ e.key).length
        else 0) :
    Allowed c k (.redeem e u p ledger spent revoked voided)
  | revokeAll (request : c.request = .revokeAllCredentials r)
      (user : k.store.user? r.userId = some u)
      (revokes : ∀ row ∈ k.store.credentials, liveOf u.key row = true →
        ⟨⟨.credential row.key, .exclusive⟩, revoked⟩ ∈ k.under)
      (voids : ∀ x ∈ k.store.enrolments, openOf u.key x = true →
        ⟨⟨.enrolment x.key, .exclusive⟩, voided⟩ ∈ k.under) :
    Allowed c k (.revokeAll u revoked voided)
  | setPassword (request : c.request = .setPassword r) (user : k.store.user? r.userId = some u)
      (live : u.deletedAt = none) (password : p.key = u.key)
      (hash : p.argon2idHash = r.argon2idHash)
      (spelled : p.userId = ((k.store.passwords.find? u.key).map (·.userId)).getD u.id) :
    Allowed c k (.setPassword u p)
  | mintCredential (request : c.request = .createCredential r)
      (user : k.store.user? r.userId = some u)
      (mintable : Credential.mintable r.expectedCredentialEpoch u = true)
      (stores : binary32 r.tokenHash = some token)
      (new : row = ⟨"yadgar:credential:" ++ c.uuid.text, u.id, token, r.label, now,
        r.expiresAt.bind fromUnixtime, none⟩)
      (fresh : k.store.credentials.find? row.key = none)
      (unused : k.store.credential? token = none) (shared : Holds k.under (.user u.key) .shared)
      (label : fits Credential.maxLabel r.label = true)
      (since : ⟨⟨.user u.key, .shared⟩, now⟩ ∈ k.under) : Allowed c k (.mintCredential row)
  | revokeCredential (request : c.request = .revokeCredential r) (stored : row ∈ k.store.credentials)
      (named : row.key = weight r.credentialId) (owner : weight row.userId = weight r.userId)
      (unrevoked : row.revokedAt = none)
      (since : ⟨⟨.credential row.key, .exclusive⟩, now⟩ ∈ k.under) :
    Allowed c k (.revokeCredential row now)
  | mintEnrolment (request : c.request = .createEnrolment r)
      (user : k.store.user? r.userId = some u) (live : u.deletedAt = none)
      (stores : binary32 r.secretHash = some secret)
      (new : row = ⟨"yadgar:enrolment:" ++ c.uuid.text, u.id, secret, expiresAt, none, none,
        revoking⟩)
      (fresh : k.store.enrolments.find? row.key = none)
      (unused : k.store.enrolment? secret = none) (shared : Holds k.under (.user u.key) .shared)
      (reserved : Holds k.under (.secret secret) .exclusive) (granted : Granted r k u revoking)
      (expiry : r.expiresAt.bind fromUnixtime = some expiresAt)
      (instructed : revoking = r.revokeExistingCredentials) : Allowed c k (.mintEnrolment row)
  | setAdmin (request : c.request = .setUserAdmin r) (user : k.store.user? r.userId = some u)
      (live : u.deletedAt = none) : Allowed c k (.setAdmin u r.isAdmin)
  | setRateLimit (request : c.request = .setRateLimitOverride r) (asked : r.limit = some limit)
      (user : k.store.user? r.userId = some u) (live : u.deletedAt = none)
      (new : o = limited r limit k.store u) : Allowed c k (.setRateLimit o)
  | clearRateLimit (request : c.request = .setRateLimitOverride r) (asked : r.limit = none)
      (stored : (k.store.rateLimits.find? (limitKey r)).isSome) :
    Allowed c k (.clearRateLimit (limitKey r))
  | setting (request : c.request = .setInheritedSetting r) (settles : Settles r k level)
      (fresh : ∀ w, claim = some w → w = settingWrite r ∧ r.idempotency.getD "" ≠ "" ∧
        k.store.settingWrites.find? w.key = none)
      (held : claim ≠ none → (Setting.Claim.of r).fits = true)
      (known : claim = none → r.idempotency.getD "" = "" ∨
        ∃ w, k.store.settingWrites.find? (weight (r.idempotency.getD "")) = some w ∧
          SameRequest r w) : Allowed c k (.setting level claim)
  | sync (request : c.request = .syncTeams r) (valid : Team.validate r.teams = .ok declared)
      (synced : Synced declared k.store teams members pending)
      (locked : Holds k.under .teamSyncLock .exclusive)
      (serial : (k.store.team? Team.administrators).isSome →
        Holds k.under (.team (weight Team.administrators)) .exclusive)
      (since : ∀ t ∈ teams, t ∈ k.store.teams ∨ t.deletedAt = none ∨ ∃ now,
        t.deletedAt = some now ∧ ⟨⟨.team t.key, .exclusive⟩, now⟩ ∈ k.under) :
    Allowed c k (.sync teams members pending)
  | record (request : c.request = .setKeyIdentity r)
      (new : row = ⟨r.derivationVersion, r.keyFingerprint, r.idempotency.getD ""⟩)
      (empty : k.store.users.rows = []) (absent : k.store.keyIdentity.find? () = none)
      (range : Holds k.under .users .shared)
      (answer : k.answer = some (.ok (.setKeyIdentity .recorded)))
      (held : fits KeyIdentity.maxIdempotencyKey (r.idempotency.getD "") = true) :
    Allowed c k (.mark row)
  | adopt (request : c.request = .adoptKeyIdentity r)
      (new : row = ⟨r.derivationVersion, r.keyFingerprint, r.idempotency.getD ""⟩)
      (valid : KeyIdentity.evidence r.evidenceUserIds = .ok ())
      (oldest : KeyIdentity.oldestAre r.evidenceUserIds k.store = true)
      (absent : k.store.keyIdentity.find? () = none) (range : Holds k.under .users .shared)
      (answer : k.answer = some (.ok (.adoptKeyIdentity .recorded)))
      (held : fits KeyIdentity.maxIdempotencyKey (r.idempotency.getD "") = true) :
    Allowed c k (.mark row)

/-- A commit is one of the effects its call may have, and holds exclusively
every row it writes. -/
def Effective (c : Call) (k : Committed) : Prop :=
  k.Locked ∧ ∃ ef, Allowed c k ef ∧ k.result = ef.apply k.store

end IamDb.Effects
