import IamDb.Listing
import IamDb.Txn.Alone

/-! Whose rows a call touches. Eight verbs name one user, by id or by the secret
of an enrolment of theirs, and leave every row of everybody else alone; so what
the readers say of anybody else is what they said before. -/
namespace IamDb.Scopes
open Txn Schema Messages Service Effects Evolution Interference Handlers Runs

section
variable [Engine]

/-! ### Rows of one user -/

/-- Everything the service keeps of a user, and what it shows of them, is the
same in two stores. -/
structure Untouched (userId : String) (σ σ' : Store) : Prop where
  user : σ'.user? userId = σ.user? userId
  password : σ'.passwords.find? (weight userId) = σ.passwords.find? (weight userId)
  credentials : (σ'.credentials.rows.filter fun c => weight c.userId = weight userId) =
    σ.credentials.rows.filter fun c => weight c.userId = weight userId
  enrolments : (σ'.enrolments.rows.filter fun e => weight e.userId = weight userId) =
    σ.enrolments.rows.filter fun e => weight e.userId = weight userId
  rateLimits : (σ'.rateLimits.rows.filter fun o => weight o.userId = weight userId) =
    σ.rateLimits.rows.filter fun o => weight o.userId = weight userId
  username : ∀ index u, (σ.users.rows.find? fun u => u.blindIndex = index) = some u →
    u.key = weight userId → (σ'.users.rows.find? fun u => u.blindIndex = index) = some u
  token : ∀ token row, σ.credential? token = some row → weight row.userId = weight userId →
    σ'.credential? token = some row
  secret : ∀ secret e, σ.enrolment? secret = some e → weight e.userId = weight userId →
    σ'.enrolment? secret = some e
  teams : σ'.teams = σ.teams ∧ σ'.teamMembers = σ.teamMembers
  settings : σ'.orgSettings = σ.orgSettings ∧ σ'.overrides = σ.overrides

theorem Untouched.refl (userId : String) (σ : Store) : Untouched userId σ σ :=
  ⟨rfl, rfl, rfl, rfl, rfl, fun _ _ found _ => found, fun _ _ found _ => found,
    fun _ _ found _ => found, ⟨rfl, rfl⟩, ⟨rfl, rfl⟩⟩

theorem Untouched.trans (first : Untouched userId σ σ') (second : Untouched userId σ' σ'') :
    Untouched userId σ σ'' where
  user := second.user.trans first.user
  password := second.password.trans first.password
  credentials := second.credentials.trans first.credentials
  enrolments := second.enrolments.trans first.enrolments
  rateLimits := second.rateLimits.trans first.rateLimits
  username index u found own := second.username index u (first.username index u found own) own
  token token row found own := second.token token row (first.token token row found own) own
  secret secret e found own := second.secret secret e (first.secret secret e found own) own
  teams := ⟨second.teams.1.trans first.teams.1, second.teams.2.trans first.teams.2⟩
  settings := ⟨second.settings.1.trans first.settings.1, second.settings.2.trans first.settings.2⟩

/-- The verbs that act on one user. -/
def userScoped : Request → Bool
  | .createCredential _ | .revokeCredential _ | .revokeAllCredentials _ | .setPassword _
  | .setUserAdmin _ | .setRateLimitOverride _ | .createEnrolment _ | .redeemEnrolment _ => true
  | _ => false

/-- The user a request is about, by id or by a secret. -/
def Names (q : Request) (userId : String) (σ : Store) : Prop :=
  match q with
  | .createCredential r => weight r.userId = weight userId
  | .revokeCredential r => weight r.userId = weight userId
  | .revokeAllCredentials r => weight r.userId = weight userId
  | .setPassword r => weight r.userId = weight userId
  | .setUserAdmin r => weight r.userId = weight userId
  | .setRateLimitOverride r => weight r.userId = weight userId
  | .createEnrolment r => weight r.userId = weight userId
  | .redeemEnrolment r =>
    ∃ e ∈ σ.enrolments, e.secretHash = r.secretHash ∧ weight e.userId = weight userId
  | _ => False

instance (q : Request) (userId : String) (σ : Store) : Decidable (Names q userId σ) :=
  match q with
  | .createCredential r => inferInstanceAs (Decidable (weight r.userId = weight userId))
  | .revokeCredential r => inferInstanceAs (Decidable (weight r.userId = weight userId))
  | .revokeAllCredentials r => inferInstanceAs (Decidable (weight r.userId = weight userId))
  | .setPassword r => inferInstanceAs (Decidable (weight r.userId = weight userId))
  | .setUserAdmin r => inferInstanceAs (Decidable (weight r.userId = weight userId))
  | .setRateLimitOverride r => inferInstanceAs (Decidable (weight r.userId = weight userId))
  | .createEnrolment r => inferInstanceAs (Decidable (weight r.userId = weight userId))
  | .redeemEnrolment r => inferInstanceAs (Decidable (∃ e ∈ σ.enrolments.rows,
      e.secretHash = r.secretHash ∧ weight e.userId = weight userId))
  | .resolveCredential _ | .getPasswordHash _ | .listCredentials _ | .createUser _
  | .addTeamMember _ | .removeTeamMember _ | .setInheritedSetting _ | .getKeyIdentity _
  | .setKeyIdentity _ | .listKeyIdentityEvidence _ | .adoptKeyIdentity _ | .syncTeams _ =>
    inferInstanceAs (Decidable False)

/-! ### What an effect leaves alone -/

section
variable {σ : Store}

/-- Another user's row is written. -/
theorem untouched_user (u' : User) (stored : u ∈ σ.users) (key : u'.key = u.key)
    (index : u'.blindIndex = u.blindIndex) (other : u.key ≠ weight userId) :
    Untouched userId σ { σ with users := σ.users.put u' } :=
  { Untouched.refl userId σ with
    user := Table.find?_put_ne fun same => other (key.symm.trans same.symm)
    username := fun index' x found own => by
      refine Table.rows_find_put found
        (fun same => other (key.symm.trans (same.symm.trans own))) fun y member same => ?_
      rw [Table.eq_of_key member stored (same.trans key), index] }

/-- Another user's password is written. -/
theorem untouched_password (p : Password) (other : p.key ≠ weight userId) :
    Untouched userId σ { σ with passwords := σ.passwords.put p } :=
  { Untouched.refl userId σ with password := Table.find?_put_ne (Ne.symm other) }

/-- A credential of another user is written, new or in place of itself. -/
theorem untouched_credential (other : weight row.userId ≠ weight userId)
    (place : ∀ x ∈ σ.credentials, x.key = row.key →
      weight x.userId ≠ weight userId ∧ x.tokenHash = row.tokenHash) :
    Untouched userId σ { σ with credentials := σ.credentials.put row } :=
  { Untouched.refl userId σ with
    credentials := Table.filter_put (decide_eq_false other) fun x member same =>
      decide_eq_false (place x member same).1
    token := fun token x found own => by
      refine Table.rows_find_put found (fun same => ?_) fun y member same => ?_
      · exact (place x (List.mem_of_find?_eq_some found) same).1 own
      · rw [(place y member same).2] }

/-- All live credentials of another user are revoked. -/
theorem untouched_revoking (now : Int) (other : user ≠ weight userId) :
    Untouched userId σ { σ with
      credentials := σ.credentials.update (liveOf user) (revokedAt now) } :=
  { Untouched.refl userId σ with
    credentials := Table.filter_update fun x _ live => by
      simp only [liveOf, Bool.and_eq_true, decide_eq_true_eq] at live
      simp [revokedAt, live.1, other]
    token := fun token x found own => by
      refine Table.rows_find_update found ?_ fun _ => rfl
      simp [liveOf, own, Ne.symm other] }

/-- An enrolment of another user is written, new or in place of itself. -/
theorem untouched_enrolment (other : weight e.userId ≠ weight userId)
    (place : ∀ x ∈ σ.enrolments, x.key = e.key →
      weight x.userId ≠ weight userId ∧ x.secretHash = e.secretHash) :
    Untouched userId σ { σ with enrolments := σ.enrolments.put e } :=
  { Untouched.refl userId σ with
    enrolments := Table.filter_put (decide_eq_false other) fun x member same =>
      decide_eq_false (place x member same).1
    secret := fun secret x found own => by
      refine Table.rows_find_put found (fun same => ?_) fun y member same => ?_
      · exact (place x (List.mem_of_find?_eq_some found) same).1 own
      · rw [(place y member same).2] }

/-- All open enrolments of another user are voided. -/
theorem untouched_voiding (now : Int) (other : user ≠ weight userId) :
    Untouched userId σ { σ with enrolments := σ.enrolments.update (openOf user) (voidedAt now) } :=
  { Untouched.refl userId σ with
    enrolments := Table.filter_update fun x _ live => by
      simp only [openOf, Bool.and_eq_true, decide_eq_true_eq] at live
      simp [voidedAt, live.1.1, other]
    secret := fun secret x found own => by
      refine Table.rows_find_update found ?_ fun _ => rfl
      simp [openOf, own, Ne.symm other] }

/-- The ledger of redemptions is nobody's. -/
theorem untouched_ledger (redemptions : Table Redemption.key) :
    Untouched userId σ { σ with redemptions := redemptions } :=
  { Untouched.refl userId σ with }

/-- A limit of another user is written or removed. -/
theorem untouched_limit {w : Write} (row : w.res = .rateLimit (user, module, kind))
    (other : user ≠ weight userId) : Untouched userId σ (w.apply σ) := by
  cases w with
  | rateLimit o =>
    cases row
    exact { Untouched.refl userId σ with
      rateLimits := Table.filter_put (decide_eq_false other) fun x _ same =>
        decide_eq_false fun own => other ((congrArg (·.1) same).symm.trans own) }
  | dropRateLimit key =>
    cases row
    exact { Untouched.refl userId σ with
      rateLimits := Table.filter_erase fun x _ same =>
        decide_eq_false fun own => other ((congrArg (·.1) same).symm.trans own) }
  | _ => cases row

end

theorem untouched_limits (rows : ∀ w ∈ ws, Write.res w = .rateLimit (user, module, kind))
    (other : user ≠ weight userId) : Untouched userId σ (applyAll ws σ) := by
  induction ws generalizing σ with
  | nil => exact .refl _ _
  | cons w ws ih =>
    exact (untouched_limit (rows w List.mem_cons_self) other).trans
      (ih fun w member => rows w (List.mem_cons_of_mem _ member))

/-- What a call that acts on one user may do leaves everybody else alone. -/
theorem untouched_of_allowed {c : Call} {k : Committed} (allowed : Allowed c k ef)
    (acts : userScoped c.request = true) (apart : ¬Names c.request userId k.store)
    (limits : ∀ r, c.request ≠ .setRateLimitOverride r) :
    Untouched userId k.store (ef.apply k.store) := by
  cases allowed with
  | nothing => exact .refl _ _
  | @redeem r e spent u ledger count p revoked voided request enrolment secret _ _ _ _ owner _
      password =>
    rw [request] at apart
    have other : weight e.userId ≠ weight userId := fun own => apart ⟨e, enrolment, secret, own⟩
    obtain ⟨stored, here⟩ := Store.user?_mem owner
    have apart : u.key ≠ weight userId := here ▸ other
    have first := (untouched_user (bumped u) stored rfl rfl apart).trans
      (untouched_password p (password ▸ apart))
    have second := first.trans (untouched_enrolment (e := spentAt spent e) other
      fun x member same => by
        rw [Table.eq_of_key member enrolment same]
        exact ⟨other, rfl⟩)
    have third (rows : Table Redemption.key) := second.trans (untouched_ledger rows)
    cases flag : e.revokeExistingCredentials with
    | false =>
      simp only [Effect.apply, flag]
      exact third _
    | true =>
      simp only [Effect.apply, flag]
      exact (third _).trans ((untouched_voiding voided apart).trans
        (untouched_revoking revoked apart))
  | @revokeAll r u revoked voided request user =>
    rw [request] at apart
    obtain ⟨stored, here⟩ := Store.user?_mem user
    have apart : u.key ≠ weight userId := here ▸ apart
    exact (untouched_user (bumped u) stored rfl rfl apart).trans
      ((untouched_revoking revoked apart).trans (untouched_voiding voided apart))
  | @setPassword r u p request user _ password =>
    rw [request] at apart
    obtain ⟨stored, here⟩ := Store.user?_mem user
    have apart : u.key ≠ weight userId := here ▸ apart
    exact (untouched_user (bumped u) stored rfl rfl apart).trans
      (untouched_password p (password ▸ apart))
  | mintCredential request user _ _ new fresh =>
    rw [request] at apart
    subst new
    have here := (Store.user?_mem user).2
    exact untouched_credential (fun own => apart (here.symm.trans own)) fun x member same =>
      absurd same (Table.find?_eq_none.mp fresh x member)
  | revokeCredential request stored _ owner =>
    rw [request] at apart
    have other := fun own => apart (owner.symm.trans own)
    exact untouched_credential other fun x member same => by
      rw [Table.eq_of_key member stored same]
      exact ⟨other, rfl⟩
  | mintEnrolment request user _ _ new fresh =>
    rw [request] at apart
    subst new
    have here := (Store.user?_mem user).2
    exact untouched_enrolment (fun own => apart (here.symm.trans own)) fun x member same =>
      absurd same (Table.find?_eq_none.mp fresh x member)
  | setAdmin request user =>
    rw [request] at apart
    obtain ⟨stored, here⟩ := Store.user?_mem user
    exact untouched_user _ stored rfl rfl (here ▸ apart)
  | setRateLimit request => exact absurd request (limits _)
  | clearRateLimit request => exact absurd request (limits _)
  | _ request => rw [request] at acts; cases acts

/-- A commit of an override call writes the row its request names. -/
theorem limit_lands {S S' : Handlers.System} (reachable : Reachable S) (lands : Lands S i c k S')
    (request : c.request = .setRateLimitOverride r) : PolicyProofs.Named r k := by
  obtain ⟨σ, now, inv, before⟩ := reachable
  have watch : System.Watched service Integrity Others Effective (fun _ _ _ => True)
      (fun c => ∃ r, c.request = .setRateLimitOverride r) Others
      (fun c k => ∀ r, c.request = .setRateLimitOverride r → PolicyProofs.Named r k)
      (fun _ _ _ _ _ => True) := by
    refine System.watched_of_verified ServiceProofs.verified ?_
    rintro c ⟨r, request⟩ σ t inv
    refine ServiceProofs.wp_service (fun _ _ => trivial) fun _ => ?_
    rw [request]
    refine wp_map (wp_mono (PolicyProofs.wp_setRateLimit (c := c) (Q := fun _ _ _ _ => True)
      request (fun _ _ _ _ => trivial) (fun _ _ _ _ => trivial)
      (fun _ _ _ _ _ _ _ _ _ _ => trivial) fun _ _ _ _ _ _ _ _ => trivial)
      (fun _ _ _ _ h => h) (fun k guar r' same => ?_) fun _ _ _ _ _ => trivial)
    cases same
    exact guar.2
  have ready := before.ready_watched ServiceProofs.verified watch (System.sound_start inv) rfl
  exact lands.meets _ _ _ _ ready ⟨r, request⟩ r request

/-- A step taken by a call that acts on one user, another one, if it is a call's. -/
def Apart (userId : String) (S : Handlers.System) (a : Action Call) (_ : Handlers.System) : Prop :=
  ∀ (i : Nat) c ℓ p, a = .run i ∨ a = .lose i → S.sessions[i]? = some ⟨c, ℓ, .running p⟩ →
    userScoped c.request = true ∧ ¬Names c.request userId S.store

/-- `Apart`, to be evaluated. -/
def apartNow (userId : String) (S : Handlers.System) (a : Action Call) (_ : Handlers.System) :
    Bool :=
  match a with
  | .run i | .lose i =>
    match S.sessions[i]? with
    | some ⟨c, _, .running _⟩ => userScoped c.request && !decide (Names c.request userId S.store)
    | _ => true
  | _ => true

theorem apart_of_now {S : Handlers.System} (now : apartNow userId S a S' = true) :
    Apart userId S a S' := by
  intro i c ℓ p acts here
  have both : (userScoped c.request && !decide (Names c.request userId S.store)) = true := by
    rcases acts with rfl | rfl
    all_goals
      simp only [apartNow, here] at now
      exact now
  simpa using both

/-- It leaves the user's rows alone. -/
theorem untouched_step {S S' : Handlers.System} (reachable : Reachable S)
    (step : S.step service a = some S') (apart : Apart userId S a S') :
    Untouched userId S.store S'.store := by
  rcases reachable.lands step with ⟨same, _⟩ | ⟨i, c, k, lands⟩
  · rw [same]
    exact .refl _ _
  obtain ⟨ℓ, p, here⟩ := lands.running
  have acts : a = .run i ∨ a = .lose i := (lands.acts step).imp (·.1) id
  obtain ⟨acts, others⟩ := apart i c ℓ p acts here
  by_cases limit : ∃ r, c.request = .setRateLimitOverride r
  · obtain ⟨r, request⟩ := limit
    have named := limit_lands reachable lands request
    rw [lands.result, ← lands.commits.store, Commit.result]
    rw [request] at others
    exact untouched_limits named others
  · obtain ⟨ef, allowed, store, result⟩ := lands_effect lands
    rw [result, ← store]
    rw [← store] at others
    exact untouched_of_allowed allowed acts others fun r request => limit ⟨r, request⟩

/-! ### What the readers say -/

/-- The answer to a resolve on a store at a moment. -/
def resolved (r : ResolveCredentialRequest) (σ : Store) (now : Int) : ResolveCredentialResponse :=
  match ((Credential.selectCredential r.tokenHash).exec now σ).1 with
  | none => .default
  | some (c, columnAdmin) =>
    let teamIds := ((Credential.selectTeamIds c.userId).exec now σ).1
    ⟨c.userId, teamIds, c.id,
      if r.adminFromTeam then teamIds.any (· = Team.administrators) else columnAdmin,
      CredentialProofs.limits σ c.userId, some (CredentialProofs.setting σ ownerReadsOwnRecord),
      c.expiresAt⟩

theorem resolve_alone {c : Call} (request : c.request = .resolveCredential r)
    (caller : admitted c.caller = .ok ()) :
    (service c).alone .fresh σ now = (.ok (.resolveCredential (resolved r σ now)), σ) := by
  unfold service
  rw [request, caller]
  show (Credential.resolve r >>= fun answer => pure (.resolveCredential answer) :
    Rpc Response).alone .fresh σ now = _
  unfold Credential.resolve Credential.teamsAndAdmin Credential.ownerReadsOwnRecord Credential.readSetting
    resolved
  simp only [bind_assoc, pure_bind]
  show (tx (Credential.selectCredential r.tokenHash) >>= _ : Rpc Response).alone
    (Local.fresh.opened _) σ now = _
  have sees : (Local.fresh.opened Service.defaultIsolation : Local Store Write Res).Sees σ :=
    Local.sees_opened
  rw [alone_read sees]
  cases ((Credential.selectCredential r.tokenHash).exec now σ).1 with
  | none => rfl
  | some found =>
    obtain ⟨row, columnAdmin⟩ := found
    have sees₁ := sees.after (Credential.selectCredential r.tokenHash) now rfl
    have sees₂ := sees₁.after (Credential.selectTeamIds row.userId) now rfl
    have sees₃ := sees₂.after (Credential.selectRateLimits row.userId) now rfl
    have sees₄ := sees₃.after (Credential.selectOrgSetting ownerReadsOwnRecord) now rfl
    have sees₅ := sees₄.after (Credential.selectOverrides ownerReadsOwnRecord) now rfl
    simp only [bind_assoc]
    rw [alone_read sees₁, alone_read sees₂, alone_read sees₃, alone_read sees₄]
    show (Except.ok _, applyAll _ σ) = _
    rw [sees₅.pending, applyAll_nil]
    rfl

/-- A request that reads what the service keeps of a user. -/
def About (q : Request) (userId : String) (σ : Store) : Prop :=
  match q with
  | .resolveCredential r =>
    ∃ row, σ.credential? r.tokenHash = some row ∧ weight row.userId = weight userId
  | .getPasswordHash r =>
    ∃ u, (σ.users.rows.find? fun u => u.blindIndex = r.usernameBlindIndex) = some u ∧
      u.key = weight userId
  | .listCredentials r => weight r.userId = weight userId
  | _ => False

theorem Untouched.liveUser (same : Untouched userId σ σ') (own : weight owner = weight userId) :
    σ'.liveUser? owner = σ.liveUser? owner := by
  have user := same.user
  simp only [Store.liveUser?, Store.user?, own] at user ⊢
  rw [user]

theorem Untouched.resolved {r : ResolveCredentialRequest} (same : Untouched userId σ σ')
    (found : σ.credential? r.tokenHash = some row) (own : weight row.userId = weight userId)
    (now : Int) : resolved r σ' now = resolved r σ now := by
  have admits : Credential.resolves now σ' row = Credential.resolves now σ row := by
    rw [Credential.resolves, Credential.resolves, same.liveUser own]
  have user : σ'.user? row.userId = σ.user? row.userId := by
    have user := same.user
    simp only [Store.user?, own] at user ⊢
    exact user
  have selected : ((Credential.selectCredential r.tokenHash).exec now σ').1 =
      ((Credential.selectCredential r.tokenHash).exec now σ).1 := by
    simp only [Credential.selectCredential, same.token _ row found own, found, Option.filter_some,
      admits]
    split
    · simp only [Option.bind_some, user]
    · rfl
  have limits : CredentialProofs.limits σ' row.userId = CredentialProofs.limits σ row.userId := by
    have limits := same.rateLimits
    simp only [CredentialProofs.limits, own, limits]
  have setting : CredentialProofs.setting σ' = CredentialProofs.setting σ := by
    funext settingName
    rw [CredentialProofs.setting, CredentialProofs.setting, same.settings.1, same.settings.2]
  have teams (owner : String) : ((Credential.selectTeamIds owner).exec now σ').1 =
      ((Credential.selectTeamIds owner).exec now σ).1 := by
    simp only [Credential.selectTeamIds, Store.liveTeam?, Store.team?, same.teams.1, same.teams.2]
  unfold Scopes.resolved
  rw [selected]
  cases answer : ((Credential.selectCredential r.tokenHash).exec now σ).1 with
  | none => rfl
  | some found' =>
    obtain ⟨row', columnAdmin⟩ := found'
    have here : row' = row := by
      simp only [Credential.selectCredential, found, Option.filter_some] at answer
      split at answer
      · obtain ⟨u, _, pair⟩ := Option.map_eq_some_iff.mp answer
        cases pair
        rfl
      · cases answer
    subst here
    simp only [limits, setting, teams]

/-- A reader's answer about a user whose rows are the same is the same. -/
theorem Untouched.reads {c : Call} (same : Untouched userId σ σ')
    (about : About c.request userId σ) (now : Int) :
    ((service c).alone .fresh σ' now).1 = ((service c).alone .fresh σ now).1 := by
  cases caller : admitted c.caller with
  | error e =>
    unfold service
    rw [caller]
    rfl
  | ok _ =>
    cases request : c.request with
    | resolveCredential r =>
      rw [request] at about
      obtain ⟨row, found, own⟩ := about
      rw [resolve_alone request caller, resolve_alone request caller, same.resolved found own]
    | getPasswordHash r =>
      rw [request] at about
      obtain ⟨u, found, own⟩ := about
      have selected : (Password.selectPasswordHash r.usernameBlindIndex).exec now σ' =
          (Password.selectPasswordHash r.usernameBlindIndex).exec now σ := by
        have password := same.password
        simp only [Password.selectPasswordHash, found, same.username _ u found own,
          Option.filter_some]
        split
        · simp only [Option.bind_some, own, password]
        · rfl
      unfold service
      rw [request, caller]
      show (Except.ok (Response.getPasswordHash
        (((Password.selectPasswordHash r.usernameBlindIndex).exec now σ').1.getD _))) = _
      rw [selected]
      rfl
    | listCredentials r =>
      rw [request] at about
      have own : weight r.userId = weight userId := about
      have selected (size : Nat) : (Credential.selectPage r.userId r.pageToken size).exec now σ' =
          (Credential.selectPage r.userId r.pageToken size).exec now σ := by
        have rows (σ : Store) : (σ.credentials.rows.filter fun c =>
            weight c.userId = weight r.userId && c.revokedAt.isNone &&
              (σ.liveUser? c.userId).isSome && weight r.pageToken < c.key) =
            (σ.credentials.rows.filter fun c => weight c.userId = weight userId).filter fun c =>
              c.revokedAt.isNone && (σ.liveUser? userId).isSome && weight r.pageToken < c.key := by
          rw [List.filter_filter]
          refine List.filter_congr fun c _ => ?_
          by_cases here : weight c.userId = weight userId
          · have live : σ.liveUser? c.userId = σ.liveUser? userId := by
              simp only [Store.liveUser?, Store.user?, here]
            simp [own, here, live, Bool.and_comm]
          · simp [own, here]
        simp only [Credential.selectPage, rows, same.credentials, same.liveUser rfl]
      unfold service
      rw [request, caller]
      exact congrArg (fun page : List Schema.Credential × List Write =>
        ((Prog.ret page.1 >>= fun rows => do
          let credentials := rows.map fun c =>
            ⟨c.id, r.userId, c.label, some c.createdAt, c.expiresAt⟩
          pure (.listCredentials ⟨credentials,
            if credentials.length = pageSize r.pageSize then
              ((rows.getLast?).map (·.id)).getD "" else ""⟩) : Rpc Response).alone .fresh σ now).1)
        (selected (pageSize r.pageSize))
    | _ => rw [request] at about; exact about.elim

theorem resolve_unclaiming {c : Call} (request : c.request = .resolveCredential r) :
    (service c).Each Unclaiming := by
  refine Prog.Each.bind Prog.each_lift fun _ => ?_
  rw [request]
  refine Prog.Each.bind (Prog.each_query.mpr ⟨fun _ _ _ => rfl, fun row => ?_⟩) fun _ => trivial
  cases row with
  | none => trivial
  | some row =>
    refine Prog.Each.bind (Prog.each_query.mpr ⟨fun _ _ _ => rfl, fun _ => trivial⟩) fun _ => ?_
    refine Prog.each_query.mpr ⟨fun _ _ _ => rfl, fun _ => Prog.Each.bind ?_ fun _ => trivial⟩
    exact Prog.each_query.mpr ⟨fun _ _ _ => rfl, fun _ =>
      Prog.each_query.mpr ⟨fun _ _ _ => rfl, fun _ => trivial⟩⟩

/-- The readers wait for nobody. -/
theorem reads_unclaiming {c : Call} (about : About c.request userId σ) :
    (service c).Each Unclaiming := by
  cases request : c.request with
  | resolveCredential r => exact resolve_unclaiming request
  | getPasswordHash r =>
    refine Prog.Each.bind Prog.each_lift fun _ => ?_
    rw [request]
    exact ⟨fun _ _ _ => rfl, fun _ => trivial⟩
  | listCredentials r =>
    refine Prog.Each.bind Prog.each_lift fun _ => ?_
    rw [request]
    exact ⟨fun _ _ _ => rfl, fun _ => trivial⟩
  | _ => rw [request] at about; exact about.elim

/-- Asked at one moment about a user whose rows are the same in two states, a
reader answers the same. -/
theorem Untouched.answers {S S' : Handlers.System} {c : Call}
    (same : Untouched userId S.store S'.store) (about : About c.request userId S.store) (t : Int) :
    ∃ result, System.Answers service { S with clock := t } c result ∧
      System.Answers service { S' with clock := t } c result := by
  have each := reads_unclaiming about
  have before : System.Answers service { S with clock := t } c
      ((service c).alone .fresh S.store t).1 := System.answers_alone each
  have after : System.Answers service { S' with clock := t } c
      ((service c).alone .fresh S'.store t).1 := System.answers_alone each
  rw [same.reads about t] at after
  exact ⟨_, before, after⟩

/-- What can be redeemed of a user whose rows are the same is the same. -/
theorem Untouched.redeemable (same : Untouched userId σ σ') (inv : Integrity σ)
    (stored : e ∈ σ.enrolments) (own : weight e.userId = weight userId) :
    e ∈ σ'.enrolments ∧ σ'.enrolment? e.secretHash = some e ∧
      ∀ now, Enrolment.spendable now σ' e = Enrolment.spendable now σ e := by
  have found : σ.enrolment? e.secretHash = some e := by
    cases first : σ.enrolment? e.secretHash with
    | none =>
      have unnamed := List.find?_eq_none.mp first e stored
      exact absurd (decide_eq_true rfl) unnamed
    | some e' =>
      obtain ⟨stored', named⟩ := Store.enrolment?_mem first
      rw [inv.secrets e' stored' e stored named]
  have found' := same.secret _ e found own
  refine ⟨(Store.enrolment?_mem found').1, found', fun now => ?_⟩
  rw [Enrolment.spendable, Enrolment.spendable, same.liveUser own]

/-! ### A revoke that names somebody else -/

/-- How a revoke is refused that no credential answers to. -/
def refusal (c : Call) (r : RevokeCredentialRequest) : Status :=
  match admitted c.caller with
  | .error e => e
  | .ok _ => CredentialProofs.unrevoked r

/-- A revoke is refused, in one way, unless a credential answers to its id and
its user. -/
theorem revoke_refused {S : Handlers.System} (reachable : Reachable S) {i : Nat}
    (there : S.sessions[i]? = some ⟨c, ℓ, .answered result⟩)
    (request : c.request = .revokeCredential r)
    (foreign : ∀ row ∈ S.store.credentials, row.key = weight r.credentialId →
      weight row.userId ≠ weight r.userId) : result = .error (refusal c r) := by
  obtain ⟨T, _, reached, later, _, post⟩ := reachable.answered (Q := fun result _ σ _ =>
    (∀ row ∈ σ.credentials, row.key = weight r.credentialId →
      weight row.userId ≠ weight r.userId) → result = .error (refusal c r)) there
    fun σ t inv => by
      refine ServiceProofs.wp_service (fun e denied _ => by rw [refusal, denied]) fun caller => ?_
      rw [request]
      have refused : refusal c r = CredentialProofs.unrevoked r := by rw [refusal, caller]
      refine wp_map (wp_mono (CredentialProofs.wp_revoke (Q := fun result _ σ _ =>
        (∀ row ∈ σ.credentials, row.key = weight r.credentialId →
          weight row.userId ≠ weight r.userId) →
          result = .error (CredentialProofs.unrevoked r)) request (fun _ _ _ _ => rfl) ?_)
        (fun _ _ _ _ h => h) (fun _ _ => trivial) ?_)
      · intro ℓ' σ t row stored named owner foreign
        exact absurd owner (foreign row stored named)
      · intro result ℓ' σ t post foreign
        rw [post foreign, refused]
        rfl
  refine post fun row stored named owner => ?_
  obtain ⟨row', stored', key, later'⟩ := (Later.evolves later reached).credentials.mem stored
  exact foreign row' stored' (key.trans named) (later'.userId ▸ owner)

/-- The verbs that act on one user touch nobody else. A step of such a call
leaves everything kept of another user as it was; so over a run of them the
readers answer about that user what they answered before, asked at the same
moment, and the same enrolments can be redeemed. A revoke whose credential
belongs to somebody else changes nothing and is refused as one that names none. -/
theorem one_user_touched {S : Handlers.System} (reachable : Reachable S) :
    (∀ userId a S', S.step service a = some S' → Apart userId S a S' →
      Untouched userId S.store S'.store) ∧
    (∀ userId S', System.Reaches service (Apart userId) S S' →
      Untouched userId S.store S'.store ∧
      (∀ (c : Call) t, About c.request userId S.store → ∃ result,
        System.Answers service { S with clock := t } c result ∧
          System.Answers service { S' with clock := t } c result) ∧
      ∀ e ∈ S.store.enrolments, weight e.userId = weight userId → e ∈ S'.store.enrolments ∧
        S'.store.enrolment? e.secretHash = some e ∧
          ∀ t, Enrolment.spendable t S'.store e = Enrolment.spendable t S.store e) ∧
    ∀ (c : Call) r, c.request = .revokeCredential r →
      (∀ S' (i : Nat) ℓ p a S'', Later S S' → S'.sessions[i]? = some ⟨c, ℓ, .running p⟩ →
        (∃ row ∈ S.store.credentials, row.key = weight r.credentialId ∧
          weight row.userId ≠ weight r.userId) →
        S'.step service a = some S'' → a = .run i ∨ a = .lose i ∨ a = .drop i →
        S''.store = S'.store) ∧
      ∀ S' (i : Nat) ℓ result, Later S S' → S'.sessions[i]? = some ⟨c, ℓ, .answered result⟩ →
        (∃ row ∈ S.store.credentials, row.key = weight r.credentialId ∧
          weight row.userId ≠ weight r.userId) ∨
        (∀ row ∈ S'.store.credentials, row.key ≠ weight r.credentialId) →
        result = .error (refusal c r) := by
  refine ⟨fun userId a S' => untouched_step reachable, fun userId S' reached => ?_,
    fun c r request => ⟨?_, ?_⟩⟩
  · have same : Untouched userId S.store S'.store := by
      refine reached.invariant (P := fun T => Untouched userId S.store T.store) (.refl _ _) ?_
      intro T a T' before same step apart
      exact same.trans (untouched_step (reachable.later (before.mono fun _ _ _ _ => trivial)) step
        apart)
    exact ⟨same, fun c t about => same.answers about t,
      fun e stored own => same.redeemable reachable.inv stored own⟩
  · rintro S' i ℓ p a S'' later here ⟨row, stored, named, foreign⟩ step acts
    have reached := reachable.later later
    rcases reached.lands step with ⟨same, _⟩ | ⟨j, c', k, lands⟩
    · exact same
    obtain rfl : i = j := by
      rcases lands.acts step with ⟨run, _⟩ | lost
      · rcases acts with rfl | rfl | rfl <;> cases run
        rfl
      · rcases acts with rfl | rfl | rfl <;> cases lost
        rfl
    obtain ⟨ℓ', p', here'⟩ := lands.running
    cases Option.some.inj (here.symm.trans here')
    obtain ⟨ef, allowed, store, _⟩ := lands_effect lands
    obtain ⟨row', stored', key, later'⟩ := (later.evolves reachable).credentials.mem stored
    cases allowed with
    | nothing idle => rw [request] at idle; cases idle
    | revokeCredential request' stored'' named' owner =>
      cases request.symm.trans request'
      rw [store] at stored''
      obtain rfl := Table.eq_of_key stored' stored'' ((key.trans named).trans named'.symm)
      exact absurd (later'.userId ▸ owner) foreign
    | _ request' => cases request.symm.trans request'
  · intro S' i ℓ result later there cases
    refine revoke_refused (reachable.later later) there request ?_
    rcases cases with ⟨row, stored, named, foreign⟩ | absent
    · intro row' stored' named'
      obtain ⟨row'', stored'', key, later'⟩ := (later.evolves reachable).credentials.mem stored
      obtain rfl := Table.eq_of_key stored' stored'' (named'.trans (key.trans named).symm)
      rw [later'.userId]
      exact foreign
    · exact fun row stored named => absurd named (absent row stored)

end

/-! ### Two people -/

def anotherId : String := Team.userPrefix ++ secondUuid.text

def aToken : Bytes := List.replicate 32 5

/-- Two people, and a credential of the second. -/
def twoPeople : List (Action Call) :=
  calling firstUuid (.createUser ⟨[1], [2], [3], false, ""⟩) 0 1 ++
  calling secondUuid (.createUser ⟨[4], [5], [6], false, ""⟩) 1 1 ++
  calling firstUuid (.createCredential ⟨anotherId, aToken, "", none, none⟩) 2 1

/-- Every credential of the first is revoked. -/
def revokingFirst : List (Action Call) :=
  calling firstUuid (.revokeAllCredentials ⟨Team.userPrefix ++ firstUuid.text⟩) 3 6

/-- The second one's token is resolved. -/
def resolving : Call := ⟨some iamCaller, firstUuid, .resolveCredential ⟨aToken, false⟩⟩

open Bytewise in
theorem one_user_touched_revoking :
    (after (twoPeople ++ revokingFirst)).store ≠ (after twoPeople).store ∧ ∃ result,
      System.Answers service { after twoPeople with clock := 1 } resolving result ∧
      System.Answers service { after (twoPeople ++ revokingFirst) with clock := 1 } resolving
        result := by
  have changed : (after (twoPeople ++ revokingFirst)).store.users ≠
      (after twoPeople).store.users := by decide +kernel
  have reached : System.Reaches service (Apart anotherId) (after twoPeople)
      (after (twoPeople ++ revokingFirst)) :=
    reaches_more (apartNow anotherId) (fun _ _ _ => apart_of_now) (by decide +kernel)
      (by decide +kernel)
  have minted : (after twoPeople).store.credential? aToken =
      some ⟨"yadgar:credential:" ++ firstUuid.text, anotherId, aToken, "", 0, none, none⟩ := by
    decide +kernel
  have same := (one_user_touched (reachable_after twoPeople)).2.1 anotherId _ reached
  exact ⟨fun still => changed (congrArg Store.users still),
    same.2.1 resolving 1 ⟨_, minted, rfl⟩⟩

end IamDb.Scopes
