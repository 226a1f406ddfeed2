import IamDb.Enrolments
import IamDb.Scopes

/-! The life of a credential. A row is inserted by one `CreateCredential` and
withdrawn by a revoke of it, by a revoke of all of its user's or by a redemption
that revokes those; beside that, only its expiry ends it. So what a resolve
answers is told by the history of the calls. An expiry that the engine has no
time for is stored as none, and such a credential never expires. -/
namespace IamDb.Life
open Txn Schema Messages Service Effects Evolution Interference Handlers Runs Scopes

section
variable [Engine]

/-! ### The answer of a resolve -/

section
variable {q : ResolveCredentialRequest} {σ : Store} {now : Int}

theorem credential_mem (found : σ.credential? token = some row) :
    row ∈ σ.credentials ∧ row.tokenHash = token :=
  ⟨List.mem_of_find?_eq_some found, by simpa using List.find?_some found⟩

/-- A resolve answers with the row of its token, while that row resolves. -/
theorem resolved_row (found : σ.credential? q.tokenHash = some row)
    (admits : Credential.resolves now σ row = true) :
    (Scopes.resolved q σ now).userId = row.userId ∧ (Scopes.resolved q σ now).credentialId = row.id := by
  have live := admits
  simp only [Credential.resolves, Bool.and_eq_true] at live
  obtain ⟨u, owner⟩ := Option.isSome_iff_exists.mp live.2
  have selected : ((Credential.selectCredential q.tokenHash).exec now σ).1 =
      some (row, u.isAdmin) := by
    simp only [Credential.selectCredential, found, Option.filter_some, admits, if_true,
      Option.bind_some, (Store.liveUser?_eq_some.mp owner).1, Option.map_some]
  simp only [Scopes.resolved, selected, and_self]

/-- It answers with nothing where no row of the token resolves. -/
theorem resolved_default
    (unknown : ∀ row, σ.credential? q.tokenHash = some row → Credential.resolves now σ row = false) :
    Scopes.resolved q σ now = .default := by
  have selected : ((Credential.selectCredential q.tokenHash).exec now σ).1 = none := by
    cases found : σ.credential? q.tokenHash with
    | none => simp only [Credential.selectCredential, found, Option.filter_none, Option.bind_none]
    | some row =>
      simp [Credential.selectCredential, found, Option.filter_some, unknown row found]
  simp only [Scopes.resolved, selected]

end

/-! ### Mints -/

/-- A step inserts a row for a `CreateCredential`. -/
structure Mints (r : CreateCredentialRequest) (row : Schema.Credential) (S S' : Handlers.System) :
    Prop where
  lands : ∃ i c k, Lands S i c k S' ∧ c.request = .createCredential r
  absent : S.store.credentials.find? row.key = none
  stored : row ∈ S'.store.credentials

/-- What a `CreateCredential` inserts, and what it met. -/
structure Inserted (c : Call) (r : CreateCredentialRequest) (row : Schema.Credential)
    (u : User) (σ σ' : Store) : Prop where
  user : σ.user? r.userId = some u
  mintable : Credential.mintable r.expectedCredentialEpoch u = true
  token : binary32 r.tokenHash = some row.tokenHash
  id : row.id = "yadgar:credential:" ++ c.uuid.text
  owner : row.userId = u.id
  expiry : row.expiresAt = r.expiresAt.bind fromUnixtime
  unrevoked : row.revokedAt = none
  absent : σ.credentials.find? row.key = none
  unused : σ.credential? row.tokenHash = none
  stores : σ' = { σ with credentials := σ.credentials.put row }
  label : fits Credential.maxLabel r.label = true

section
variable {S S' : Handlers.System}

theorem inserted_lands (lands : Lands S i c k S') (request : c.request = .createCredential r) :
    ∃ row u, Inserted c r row u S.store S'.store := by
  obtain ⟨ef, allowed, store, result⟩ := lands_effect lands
  cases allowed with
  | nothing idle => simp [request, mayIdle] at idle
  | @mintCredential r' u token row now request' user mintable stores new fresh unused _ label =>
    obtain rfl : r' = r := by
      rw [request] at request'
      cases request'
      rfl
    rw [store] at user fresh unused
    subst new
    exact ⟨_, u, user, mintable, stores, rfl, rfl, rfl, rfl, fresh, unused, result, label⟩
  | _ => simp_all

/-- A row that is new after a step of a `CreateCredential` is minted by it. -/
theorem mints_of_new (reachable : Reachable S) (step : S.step service act = some S')
    (acts : act = .run i ∨ act = .lose i) (there : (S.sessions[i]?).map (·.call) = some c) (request : c.request = .createCredential r)
    (absent : S.store.credentials.find? row.key = none) (stored : row ∈ S'.store.credentials) :
    Mints r row S S' := by
  rcases reachable.lands step with ⟨same, _⟩ | ⟨j, c', k, lands⟩
  · exact absurd rfl (Table.find?_eq_none.mp absent row (same ▸ stored))
  obtain ⟨ℓ, p, here⟩ := lands.running
  obtain rfl : j = i := by
    rcases (lands.acts step).imp (·.1) id with rfl | rfl <;> rcases acts with same | same <;>
      cases same <;> rfl
  obtain rfl : c' = c := by
    rw [here] at there
    exact Option.some.inj there
  exact ⟨⟨j, c', k, lands, request⟩, absent, stored⟩

/-- A mint inserts the one row its call does. -/
theorem Mints.inserted (mints : Mints r row S S') :
    ∃ c u, Inserted c r row u S.store S'.store := by
  obtain ⟨i, c, k, lands, request⟩ := mints.lands
  obtain ⟨new, u, inserted⟩ := inserted_lands lands request
  have stored := mints.stored
  rw [inserted.stores] at stored
  rcases Table.mem_put.mp stored with rfl | ⟨old, _⟩
  · exact ⟨c, u, inserted⟩
  · exact absurd rfl (Table.find?_eq_none.mp mints.absent row old)

/-- Its token names the row it has inserted. -/
theorem Inserted.found (inserted : Inserted c r row u σ σ') :
    σ'.credential? row.tokenHash = some row := by
  have stored : row ∈ σ'.credentials := inserted.stores ▸ Table.mem_put_self
  cases first : σ'.credential? row.tokenHash with
  | none => exact absurd (decide_eq_true rfl) (List.find?_eq_none.mp first row stored)
  | some row' =>
    obtain ⟨stored', named⟩ := credential_mem first
    rw [inserted.stores] at stored'
    rcases Table.mem_put.mp stored' with rfl | ⟨old, _⟩
    · rfl
    · exact absurd (decide_eq_true named) (List.find?_eq_none.mp inserted.unused row' old)

/-- It is a live person's. -/
theorem Inserted.live (inserted : Inserted c r row u σ σ') :
    (σ'.liveUser? row.userId).isSome := by
  have mintable := inserted.mintable
  simp only [Credential.mintable, Bool.and_eq_true, Option.isNone_iff_eq_none] at mintable
  have here : σ'.user? row.userId = some u := by
    rw [inserted.owner, inserted.stores]
    exact Store.user?_self (Store.user?_mem inserted.user).1
  exact Option.isSome_iff_exists.mpr ⟨u, Store.liveUser?_eq_some.mpr ⟨here, mintable.1⟩⟩

/-! ### Expiry -/

/-- A resolve that has read nothing yet comes to answer with a credential. -/
def Admits (credentialId : String) (T : Handlers.System) : Prop :=
  ∃ (U : Handlers.System) (i : Nat) (c : Call) (ℓ : Local Store Write Res)
    (q : ResolveCredentialRequest) (a : ResolveCredentialResponse), Later T U ∧
    (∀ s, T.sessions[i]? = some s → s.loc.snapshot = none) ∧
    U.sessions[i]? = some ⟨c, ℓ, .answered (.ok (.resolveCredential a))⟩ ∧
    c.request = .resolveCredential q ∧ a.credentialId = credentialId

/-- A resolve answers with a row before its expiry only. -/
theorem Admits.unexpired (admits : Admits row.id S) (reachable : Reachable S)
    (stored : row ∈ S.store.credentials) (named : row.id ≠ "") (expiry : row.expiresAt = some s) :
    S.clock < s := by
  obtain ⟨U, i, c, ℓ, q, a, later, unread, there, request, same⟩ := admits
  obtain ⟨T, first, _, told⟩ := Runs.resolved reachable later there request unread
  rcases told with ⟨rfl, _⟩ | ⟨row', u, resolves⟩
  · exact absurd same.symm named
  · obtain ⟨kept, member, key, after⟩ := (Later.evolves first reachable).credentials.mem stored
    have here : row' = kept := by
      refine Table.eq_of_key (credential_mem resolves.token).1 member ?_
      rw [key, Credential.key, Credential.key, ← resolves.credentialId, same]
    have live := resolves.admits
    rw [here, Credential.resolves, after.expiresAt, expiry] at live
    simp only [Bool.and_eq_true, decide_eq_true_eq] at live
    exact Int.lt_of_le_of_lt first.clock_le live.1.2

/-- A step withdraws a row: a revoke of the pair of its id and its user, a revoke
of all of the user's, or the first redemption of an enrolment of the user's that
carries the flag. -/
inductive Withdraws (row : Schema.Credential) (S S' : Handlers.System) : Prop where
  | revoke (lands : Lands S i c k S') (request : c.request = .revokeCredential r)
      (credential : weight r.credentialId = row.key) (user : weight r.userId = weight row.userId)
  | revokeAll (lands : Lands S i c k S') (request : c.request = .revokeAllCredentials r)
      (user : weight r.userId = weight row.userId)
  | redeem (spends : Enrolments.Spends S S' e t) (user : weight e.userId = weight row.userId)
      (flag : e.revokeExistingCredentials = true)

/-- A row is stored and not revoked. -/
def Unrevoked (row : Schema.Credential) (S : Handlers.System) : Prop :=
  row ∈ S.store.credentials ∧ row.revokedAt = none

omit [Engine] in
theorem not_revoked (unrevoked : row.revokedAt = none) : row ≠ revokedAt now row' := by
  rintro rfl
  cases unrevoked

/-- A row that is not revoked is the same after a revoke of a user's, unless it is the
user's. -/
theorem mem_revoking {T : Table Credential.key} (unrevoked : row.revokedAt = none) :
    row ∈ T.update (liveOf user) (revokedAt now) ↔ row ∈ T ∧ weight row.userId ≠ user := by
  rw [Table.mem_update (f := revokedAt now) fun _ => rfl]
  constructor
  · rintro ⟨row', stored, same⟩
    split at same
    · exact absurd same (not_revoked unrevoked)
    · rename_i other
      subst same
      refine ⟨stored, fun own => other ?_⟩
      simp [liveOf, own, unrevoked]
  · rintro ⟨stored, other⟩
    refine ⟨row, stored, ?_⟩
    rw [if_neg (by simp [liveOf, other])]

theorem Withdraws.gone (withdraws : Withdraws row S S') (reachable : Reachable S)
    (step : S.step service act = some S') (held : Unrevoked row S) : row ∉ S'.store.credentials := by
  cases withdraws with
  | revoke lands request credential user =>
    obtain ⟨ef, allowed, store, result⟩ := lands_effect lands
    cases allowed with
    | nothing idle => simp [request, mayIdle] at idle
    | @revokeCredential r' row' now request' stored named owner unrevoked =>
      rw [request] at request'
      cases request'
      obtain rfl : row' = row :=
        Table.eq_of_key stored (store ▸ held.1) (named.trans credential)
      rw [result]
      intro there
      rcases Table.mem_put.mp there with same | ⟨_, other⟩
      · exact not_revoked held.2 same
      · exact other rfl
    | _ => simp_all
  | revokeAll lands request user =>
    obtain ⟨ef, allowed, store, result⟩ := lands_effect lands
    cases allowed with
    | nothing idle => simp [request, mayIdle] at idle
    | @revokeAll r' u revoked voided request' owner =>
      rw [request] at request'
      cases request'
      rw [result]
      intro there
      exact ((mem_revoking held.2).mp there).2 (user.symm.trans (Store.user?_mem owner).2.symm)
    | _ => simp_all
  | redeem spends user flag =>
    obtain ⟨i, c, k, u, p, ledger, revoked, voided, lands, store, allowed, result⟩ :=
      Enrolments.spend_effect reachable step spends
    cases allowed with
    | redeem _ _ _ _ _ _ _ owner =>
      rw [result]
      simp only [Effect.apply, flag, if_true]
      intro there
      exact ((mem_revoking held.2).mp there).2 (user.symm.trans (Store.user?_mem owner).2.symm)

/-- A row that is not revoked stays as it is, unless the step withdraws it. -/
theorem Unrevoked.stays (held : Unrevoked row S) (reachable : Reachable S)
    (step : S.step service act = some S') (kept : ¬Withdraws row S S') :
    row ∈ S'.store.credentials := by
  rcases reachable.lands step with ⟨same, _⟩ | ⟨i, c, k, lands⟩
  · rw [same]
    exact held.1
  obtain ⟨ef, allowed, store, result⟩ := lands_effect lands
  have commit := allowed
  rw [result]
  cases allowed with
  | redeem _ _ _ _ _ _ _ owner =>
    have spends := Enrolments.spends_of_redeem store commit result
    simp only [Effect.apply]
    split
    · rename_i flag
      refine (mem_revoking held.2).mpr ⟨held.1, fun own => kept (.redeem spends ?_ flag)⟩
      exact (Store.user?_mem owner).2.symm.trans own.symm
    · exact held.1
  | revokeAll request user =>
    refine (mem_revoking held.2).mpr ⟨held.1, fun own => kept (.revokeAll lands request ?_)⟩
    exact (Store.user?_mem user).2.symm.trans own.symm
  | mintCredential _ _ _ _ _ fresh =>
    rw [store] at fresh
    exact Table.mem_put.mpr (Or.inr ⟨held.1, fun same =>
      Table.find?_eq_none.mp fresh row held.1 same⟩)
  | @revokeCredential r row' now request stored named owner =>
    refine Table.mem_put.mpr (Or.inr ⟨held.1, fun same => ?_⟩)
    obtain rfl : row = row' := Table.eq_of_key held.1 (store ▸ stored) same
    exact kept (.revoke lands request named.symm owner.symm)
  | @setting _ level claim => cases level <;> cases claim <;> exact held.1
  | _ => exact held.1

/-- After a step a row is stored and not revoked when the step has minted it, or
it was so before and the step does not withdraw it. -/
theorem unrevoked_step (reachable : Reachable S) (step : S.step service act = some S') :
    Unrevoked row S' ↔ (∃ r, Mints r row S S') ∨ Unrevoked row S ∧ ¬Withdraws row S S' := by
  constructor
  · rintro ⟨stored, unrevoked⟩
    by_cases before : row ∈ S.store.credentials
    · exact Or.inr ⟨⟨before, unrevoked⟩, fun withdraws =>
        withdraws.gone reachable step ⟨before, unrevoked⟩ stored⟩
    · refine Or.inl ?_
      rcases reachable.lands step with ⟨same, _⟩ | ⟨i, c, k, lands⟩
      · exact absurd (same ▸ stored) before
      obtain ⟨ef, allowed, store, result⟩ := lands_effect lands
      have member := stored
      rw [result, ← store] at member
      rcases credential_origin allowed member with ⟨row', stored', later⟩ | rfl
      · exact absurd (store ▸ later.live unrevoked ▸ stored') before
      · cases allowed with
        | mintCredential request _ _ _ _ fresh =>
          exact ⟨_, ⟨i, c, k, lands, request⟩, store ▸ fresh, stored⟩
  · rintro (⟨r, mints⟩ | ⟨held, kept⟩)
    · obtain ⟨c, u, inserted⟩ := mints.inserted
      exact ⟨mints.stored, inserted.unrevoked⟩
    · exact ⟨held.stays reachable step kept, held.2⟩

/-- Tokens name one row each. -/
def Tokens (σ : Store) : Prop :=
  ∀ row ∈ σ.credentials, ∀ row' ∈ σ.credentials, row.tokenHash = row'.tokenHash → row = row'

theorem tokens_of_allowed {c : Call} {k : Committed} (allowed : Allowed c k ef)
    (tokens : Tokens k.store) : Tokens (ef.apply k.store) := by
  have alone {new old old' : Schema.Credential} (fresh : ef = .mintCredential new)
      (stored : old ∈ k.store.credentials) (later : CredentialLater old old') :
      new.tokenHash ≠ old'.tokenHash := by
    subst fresh
    cases allowed with
    | mintCredential _ _ _ _ new _ unused =>
      subst new
      intro same
      exact List.find?_eq_none.mp unused old stored
        (decide_eq_true (later.tokenHash.symm.trans same.symm))
  intro row stored row' stored' same
  rcases credential_origin allowed stored with ⟨old, before, later⟩ | new <;>
    rcases credential_origin allowed stored' with ⟨old', before', later'⟩ | new'
  · obtain rfl := tokens old before old' before'
      (later.tokenHash.symm.trans (same.trans later'.tokenHash))
    exact Table.eq_of_key stored stored' (by simp [Credential.key, later.id, later'.id])
  · exact absurd same.symm (alone new' before later)
  · exact absurd same (alone new before' later')
  · rw [new] at new'
    cases new'
    rfl

theorem tokens_reached (later : Later (fresh now) S) : Tokens S.store := by
  refine later.effects (P := fun σ σ' => Tokens σ → Tokens σ') (reachable_fresh now)
    (fun _ tokens => tokens) (fun _ _ _ first second => second ∘ first)
    (fun _ _ _ _ _ allowed => tokens_of_allowed allowed) ?_
  intro row stored
  cases stored

/-! ### The answers over a run -/

/-- A resolve, run by itself, answers a user and a credential. -/
def Identifies (c : Call) (S : Handlers.System) (userId credentialId : String) : Prop :=
  ∃ a, System.Answers service S c (.ok (.resolveCredential a)) ∧ a ≠ .default ∧
    a.userId = userId ∧ a.credentialId = credentialId

theorem answers_resolved {c : Call} (request : c.request = .resolveCredential q)
    (caller : admitted c.caller = .ok ()) : System.Answers service S c result ↔
      result = .ok (.resolveCredential (Scopes.resolved q S.store S.clock)) := by
  have answers := System.answers_alone (S := S) (resolve_unclaiming request)
  rw [resolve_alone request caller] at answers
  exact ⟨fun given => given.unique answers, fun same => same ▸ answers⟩

/-- A resolve answers with the rows of its token that are stored, not revoked,
not expired and a live person's. -/
theorem identifies_iff {c : Call} (request : c.request = .resolveCredential q)
    (caller : admitted c.caller = .ok ()) (tokens : Tokens S.store)
    (named : ∀ row ∈ S.store.credentials, row.id ≠ "") :
    Identifies c S userId credentialId ↔ ∃ row, Unrevoked row S ∧ row.id = credentialId ∧
      row.userId = userId ∧ row.tokenHash = q.tokenHash ∧ (S.store.liveUser? row.userId).isSome ∧
      ∀ t, row.expiresAt = some t → S.clock < t := by
  have resolves (row : Schema.Credential) : Credential.resolves S.clock S.store row = true ↔
      row.revokedAt = none ∧ (S.store.liveUser? row.userId).isSome ∧
        ∀ t, row.expiresAt = some t → S.clock < t := by
    cases expiry : row.expiresAt <;>
      simp [Credential.resolves, expiry, and_assoc, and_comm, and_left_comm]
  constructor
  · rintro ⟨a, answers, known, rfl, rfl⟩
    have same := (answers_resolved request caller).mp answers
    cases same
    by_cases some : ∃ row, S.store.credential? q.tokenHash = some row ∧
        Credential.resolves S.clock S.store row = true
    · obtain ⟨row, found, admits⟩ := some
      obtain ⟨user, credential⟩ := resolved_row found admits
      obtain ⟨stored, token⟩ := credential_mem found
      obtain ⟨unrevoked, live, unexpired⟩ := (resolves row).mp admits
      exact ⟨row, ⟨stored, unrevoked⟩, credential.symm, user.symm, token, live, unexpired⟩
    · refine absurd (resolved_default fun row found => ?_) known
      by_contra admits
      exact some ⟨row, found, by simpa using admits⟩
  · rintro ⟨row, ⟨stored, unrevoked⟩, rfl, rfl, token, live, unexpired⟩
    have found : S.store.credential? q.tokenHash = some row := by
      cases first : S.store.credential? q.tokenHash with
      | none => exact absurd (decide_eq_true token) (List.find?_eq_none.mp first row stored)
      | some row' =>
        obtain ⟨stored', token'⟩ := credential_mem first
        rw [tokens row' stored' row stored (token'.trans token.symm)]
    obtain ⟨user, credential⟩ :=
      resolved_row found ((resolves row).mpr ⟨unrevoked, live, unexpired⟩)
    refine ⟨_, (answers_resolved request caller).mpr rfl, fun unknown => ?_, user, credential⟩
    rw [unknown] at credential
    exact named row stored credential.symm

theorem named_reached (later : Later (fresh now) S) : ∀ row ∈ S.store.credentials, row.id ≠ "" := by
  refine later.effects (P := fun σ σ' => (∀ row ∈ σ.credentials, row.id ≠ "") →
    ∀ row ∈ σ'.credentials, row.id ≠ "") (reachable_fresh now) (fun _ named => named)
    (fun _ _ _ first second => second ∘ first) ?_ (fun _ stored => by cases stored)
  intro c k ef _ _ allowed named row stored
  rcases credential_origin allowed stored with ⟨old, before, later⟩ | rfl
  · exact later.id ▸ named old before
  · cases allowed with
    | mintCredential _ _ _ _ new =>
      subst new
      simp

/-- The credential a revoke names is revoked, if it is stored. -/
def Revoked (r : RevokeCredentialRequest) (σ : Store) : Prop :=
  ∀ row ∈ σ.credentials, row.key = weight r.credentialId → weight row.userId = weight r.userId →
    row.revokedAt ≠ none

/-- A revoke by itself that answers OK leaves the credential revoked. -/
theorem wp_revoke_alone {r : RevokeCredentialRequest} {ℓ : Local Store Write Res} :
    wp Rely.none (fun _ => True) (Credential.revoke r)
      (fun result _ σ' _ => ∀ owner, result = .ok owner → Revoked r σ') ℓ σ t := by
  unfold Credential.revoke
  split
  · rintro _ ⟨⟩
  rw [wp_single]
  intro σ₁ t₁ drift₁ _
  obtain rfl := drift₁.still
  refine ⟨fun _ => trivial, ?_⟩
  cases found : (σ₁.credentials.find? (weight r.credentialId)).filter fun c =>
      weight c.userId = weight r.userId && c.revokedAt.isNone with
  | none =>
    have revoked : Revoked r σ₁ := by
      intro row stored key own unrevoked
      have here : σ₁.credentials.find? (weight r.credentialId) = some row :=
        key ▸ Table.find?_of_mem stored
      rw [here, Option.filter_some, own, unrevoked] at found
      simp at found
    simp only [Credential.updateRevoked, found]
    rw [if_pos trivial]
    refine Rules.wp_conn (fun _ _ => rfl) fun ℓ₂ σ₂ t₂ drift₂ _ => ?_
    obtain rfl := drift₂.still
    split
    · exact fun _ _ => revoked
    · rintro _ ⟨⟩
  | some row =>
    obtain ⟨stored, _⟩ := Option.filter_eq_some_iff.mp found
    obtain ⟨_, named⟩ := Table.find?_eq_some.mp stored
    simp only [Credential.updateRevoked, found]
    intro _ _ row' there key _ unrevoked
    rcases Table.mem_put.mp there with rfl | ⟨_, other⟩
    · cases unrevoked
    · exact other (key.trans named.symm)

/-- What a call does by itself about the credential it revokes, if it is a
revoke. -/
def Revoking (c : Call) (_ : Store) (result : Except Status Response) (σ' : Store) : Prop :=
  match c.request with
  | .revokeCredential r => ∀ owner, result = .ok (.revokeCredential owner) → Revoked r σ'
  | _ => True

theorem wp_revoking {c : Call} : wp Rely.none (fun _ => True) (service c)
    (fun result _ σ' _ => Revoking c σ result σ') .fresh σ t := by
  unfold Revoking
  cases request : c.request with
  | revokeCredential r =>
    refine ServiceProofs.wp_service (fun _ _ => nofun) fun _ => ?_
    rw [request]
    refine wp_map (G := fun _ => True) (g := Response.revokeCredential) (wp_mono wp_revoke_alone
      (fun _ _ _ _ h => h) (fun _ _ => trivial) ?_)
    intro result ℓ' σ' t' post owner same
    cases result with
    | error e => cases same
    | ok owner' => exact post owner' rfl
  | _ => exact wp_trivial

/-- A resolve answers a user with a credential exactly when some step of the run
has inserted that row under the token, the user is live, the row's expiry is
none or ahead of the clock, and no later step has withdrawn the row. Any other
token is answered with one empty response, a row once revoked stays as it is,
and a revoke that is run by itself and answers OK leaves its credential revoked,
by that step or an earlier one. -/
theorem resolve_follows_history (ran : run (fresh now) actions = some S)
    (request : c.request = .resolveCredential q) (caller : admitted c.caller = .ok ()) :
    (∀ userId credentialId, Identifies c S userId credentialId ↔
      ∃ before T a T' after row, System.trace service (fresh now) actions =
          before ++ (T, a, T') :: after ∧ (∃ r, Mints r row T T') ∧ row.id = credentialId ∧
        row.userId = userId ∧ row.tokenHash = q.tokenHash ∧ (S.store.liveUser? userId).isSome ∧
        (∀ t, row.expiresAt = some t → S.clock < t) ∧ ∀ x ∈ after, ¬Withdraws row x.1 x.2.2) ∧
    ((∀ userId credentialId, ¬Identifies c S userId credentialId) → ∀ result,
      System.Answers service S c result → result = .ok (.resolveCredential .default)) ∧
    (∀ row ∈ S.store.credentials, row.revokedAt ≠ none →
      ∀ S', Later S S' → row ∈ S'.store.credentials) ∧
    ∀ S' d r owner, S.Idle → System.Reaches service System.Sequential S S' → S'.Idle →
      Spellings.since S S' = [(d, .ok (.revokeCredential owner))] →
      d.request = .revokeCredential r → Revoked r S'.store := by
  have later : Later (fresh now) S := .of_run ran
  have reachable : Reachable S := ⟨migrated, now, integrity_migrated, later⟩
  refine ⟨fun userId credentialId => ?_, fun unknown result answers => ?_, ?_, ?_⟩
  · have history (row : Schema.Credential) : Unrevoked row S ↔ ∃ before T a T' after,
        System.trace service (fresh now) actions = before ++ (T, a, T') :: after ∧
          (∃ r, Mints r row T T') ∧ ∀ x ∈ after, ¬Withdraws row x.1 x.2.2 :=
      System.holds_iff_trace (fun held => by cases held.1) (fun T a T' reached step =>
        unrevoked_step ((reachable_fresh now).later reached) step) ran
    rw [identifies_iff request caller (tokens_reached later) (named_reached later)]
    constructor
    · rintro ⟨row, held, rfl, rfl, token, live, unexpired⟩
      obtain ⟨before, T, a, T', after, split, minted, kept⟩ := (history row).mp held
      exact ⟨before, T, a, T', after, row, split, minted, rfl, rfl, token, live, unexpired, kept⟩
    · rintro ⟨before, T, a, T', after, row, split, minted, rfl, rfl, token, live, unexpired, kept⟩
      exact ⟨row, (history row).mpr ⟨before, T, a, T', after, split, minted, kept⟩, rfl, rfl, token,
        live, unexpired⟩
  · have same := (answers_resolved request caller).mp answers
    rw [same]
    by_contra known
    refine unknown _ _ ⟨_, (answers_resolved request caller).mpr rfl, fun none => known ?_, rfl, rfl⟩
    rw [none]
  · intro row stored revoked S' later'
    obtain ⟨row', stored', _, after⟩ := (Later.evolves later' reachable).credentials.mem stored
    exact after.revoked revoked ▸ stored'
  · intro S' d r owner rest reached idle one request
    have chain := Spellings.chain_since (Q := Revoking) reachable rest reached idle
      (fun _ _ _ met => met) fun T d T' _ _ => wp_revoking
    rw [one] at chain
    obtain ⟨σ₁, σ₂, before, ⟨revoking, _⟩, after⟩ := Chain.split (h := []) chain
    obtain rfl := after.nothing
    rw [Revoking, request] at revoking
    exact revoking owner rfl

end

end

open Bytewise in
theorem resolve_follows_history_credited : ∃ before T a T' after row,
    System.trace service (fresh 0) Spellings.crediting = before ++ (T, a, T') :: after ∧
      (∃ r, Mints r row T T') ∧ row.id = Spellings.credentialId ∧
      row.userId = Spellings.personId ∧ ∀ x ∈ after, ¬Withdraws row x.1 x.2.2 := by
  let c : Call := ⟨some iamCaller, firstUuid, .resolveCredential ⟨List.replicate 32 7, false⟩⟩
  have ran : run (fresh 0) Spellings.crediting = some (after Spellings.crediting) :=
    run_after (by decide +kernel)
  have history := resolve_follows_history (c := c) ran rfl (by decide +kernel)
  have identifies : Identifies c (after Spellings.crediting) Spellings.personId
      Spellings.credentialId :=
    ⟨_, (answers_resolved rfl (by decide +kernel)).mpr rfl, by decide +kernel, by decide +kernel,
      by decide +kernel⟩
  obtain ⟨before, T, a, T', after, row, split, minted, id, user, _, _, _, kept⟩ :=
    (history.1 _ _).mp identifies
  exact ⟨before, T, a, T', after, row, split, minted, id, user, kept⟩

/-- A credential is asked for with an expiry. -/
def expiringAt (seconds : Int) : CreateCredentialRequest :=
  ⟨Spellings.personId, List.replicate 32 7, "laptop", some seconds, none⟩

def asking (seconds : Int) : List (Action Call) :=
  calling firstUuid (.createUser ⟨[1], [2], [3], false, ""⟩) 0 1 ++
  calling firstUuid (.createCredential (expiringAt seconds)) 1 0

end IamDb.Life
