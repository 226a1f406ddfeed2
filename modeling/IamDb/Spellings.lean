import IamDb.Storable

/-! Names a call spells its own way. The engine finds a row under any spelling
its collation takes for the stored one, and two verbs go on as if it had been
sent the stored one: a revoke answers the user id of its request, and an
override keeps the module it was first set under. -/
namespace IamDb.Spellings
open Txn Schema Messages Service Effects Evolution Interference Handlers Runs Rules

section
variable [Engine]

/-! ### The owner of a revoked credential -/

/-- A revoke is answered OK for a credential that is stored under the id and the
user of its request, with the user id as the request spells it. -/
theorem revoked_owned {S : Handlers.System} (reachable : Reachable S) {i : Nat}
    (there : S.sessions[i]? = some ⟨c, ℓ, .answered (.ok (.revokeCredential owner))⟩)
    (request : c.request = .revokeCredential r) :
    owner = r.userId ∧ ∃ row ∈ S.store.credentials, row.key = weight r.credentialId ∧
      weight row.userId = weight r.userId := by
  obtain ⟨T, _, reached, later, _, post⟩ := reachable.answered (Q := fun result _ σ _ =>
    ∀ a, result = .ok (.revokeCredential a) → a = r.userId ∧ ∃ row ∈ σ.credentials,
      row.key = weight r.credentialId ∧ weight row.userId = weight r.userId) there
    fun σ t inv => by
      refine ServiceProofs.wp_service (fun _ _ _ => nofun) fun _ => ?_
      rw [request]
      refine wp_map (wp_mono (CredentialProofs.wp_revoke (Q := fun result _ σ _ =>
        ∀ a, result = .ok a → a = r.userId ∧ ∃ row ∈ σ.credentials,
          row.key = weight r.credentialId ∧ weight row.userId = weight r.userId) request
        (fun _ _ _ _ => nofun) ?_) (fun _ _ _ _ h => h) (fun _ _ => trivial) ?_)
      · rintro ℓ' σ t row stored named owner a same
        cases same
        exact ⟨rfl, row, stored, named, owner⟩
      · intro result ℓ' σ t post a same
        cases result with
        | error e => cases same
        | ok a' =>
          cases same
          exact post _ rfl
  obtain ⟨same, row, stored, named, owned⟩ := post owner rfl
  obtain ⟨row', stored', key, after⟩ := (Later.evolves later reached).credentials.mem stored
  exact ⟨same, row', stored', key.trans named, by rw [after.userId, owned]⟩

/-- A resolve names a credential that is stored, and its stored owner. -/
theorem resolved_owned {S : Handlers.System} (reachable : Reachable S) {i : Nat}
    (there : S.sessions[i]? = some ⟨c, ℓ, .answered (.ok (.resolveCredential a))⟩)
    (request : c.request = .resolveCredential r) (known : a ≠ .default) :
    ∃ row ∈ S.store.credentials, row.id = a.credentialId ∧ row.userId = a.userId := by
  obtain ⟨σ, now, inv, before⟩ := reachable
  obtain ⟨T, first, rest, told⟩ := resolved ⟨σ, now, inv, .refl⟩ before there request
    fun s here => by cases here
  rcases told with ⟨unknown, _⟩ | ⟨row, u, resolves⟩
  · exact absurd unknown known
  · have stored : row ∈ T.store.credentials := List.mem_of_find?_eq_some resolves.token
    obtain ⟨row', stored', _, after⟩ := (Later.evolves rest ⟨σ, now, inv, first⟩).credentials.mem
      stored
    exact ⟨row', stored', after.id.trans resolves.credentialId.symm,
      after.userId.trans resolves.userId.symm⟩

/-- A revoke that answers OK names the stored owner, as every resolve of the
credential does, exactly when its request spells the user id as it is stored. -/
theorem revoke_names_owner_iff {S : Handlers.System} (reachable : Reachable S) {i : Nat}
    (there : S.sessions[i]? = some ⟨c, ℓ, .answered (.ok (.revokeCredential owner))⟩)
    (request : c.request = .revokeCredential r) :
    ∃ row ∈ S.store.credentials, row.key = weight r.credentialId ∧
      ((owner = row.userId ∧ ∀ (j : Nat) c' ℓ' r' a, c'.request = .resolveCredential r' →
        S.sessions[j]? = some ⟨c', ℓ', .answered (.ok (.resolveCredential a))⟩ → a ≠ .default →
          a.credentialId = row.id → a.userId = owner) ↔ r.userId = row.userId) := by
  obtain ⟨rfl, row, stored, named, owned⟩ := revoked_owned reachable there request
  refine ⟨row, stored, named, fun names => names.1, fun spelled => ⟨spelled, ?_⟩⟩
  intro j c' ℓ' r' a asked answered known same
  obtain ⟨row', stored', id, user⟩ := resolved_owned reachable answered asked known
  have one : row' = row := Table.eq_of_key stored' stored (congrArg weight (id.trans same))
  rw [← user, one, spelled]

/-! ### The limits in force -/

/-- The overrides of a user set or cleared by the calls of a history that were
answered OK. -/
def overridings (userId : String) (h : List (Call × Except Status Response)) :
    List SetRateLimitOverrideRequest :=
  h.filterMap fun (c, result) =>
    match c.request, result with
    | .setRateLimitOverride q, .ok _ => if weight q.userId = weight userId then some q else none
    | _, _ => none

/-- The limit the last call on a module and a kind has set, if it set one. -/
def lastLimit (calls : List SetRateLimitOverrideRequest) (module : String) (kind : Int) :
    Option RateLimit :=
  (calls.findRev? fun q => q.module = module ∧ q.kind = kind).bind (·.limit)

omit [Engine] in
theorem lastLimit_concat (calls : List SetRateLimitOverrideRequest) :
    lastLimit (calls ++ [q]) module kind =
      if q.module = module ∧ q.kind = kind then q.limit else lastLimit calls module kind := by
  by_cases same : q.module = module ∧ q.kind = kind
  · simp [lastLimit, List.findRev?_eq_find?_reverse, same]
  · simp [lastLimit, List.findRev?_eq_find?_reverse, same]

/-- The limits stored for a user are those its calls believe in. -/
def InForce (userId : String) (calls : List SetRateLimitOverrideRequest) (σ : Store) : Prop :=
  ∀ module kind limit, (module, kind, limit) ∈ CredentialProofs.limits σ userId ↔
    lastLimit calls module kind = some limit

/-- The row of a call's bucket, if there is one, has the module as the call
spells it. -/
def Spelled (q : SetRateLimitOverrideRequest) (σ : Store) : Prop :=
  ∀ o ∈ σ.rateLimits, o.key = (weight q.userId, weight q.module, q.kind) → o.module = q.module

theorem mem_limits {σ : Store} : (module, kind, limit) ∈ CredentialProofs.limits σ userId ↔
    ∃ o ∈ σ.rateLimits, weight o.userId = weight userId ∧ o.module = module ∧ o.kind = kind ∧
      (⟨o.rate, o.burst⟩ : RateLimit) = limit := by
  simp [CredentialProofs.limits, Table.mem_def, and_assoc]

/-- What an override answered OK does to the rows: the one of its bucket is
gone or replaced, and a new one keeps the module as it was first spelled. -/
structure Overridden (q : SetRateLimitOverrideRequest) (σ σ' : Store)
    (new : Option RateLimitOverride) : Prop where
  rows : ∀ o, o ∈ σ'.rateLimits ↔ new = some o ∨
    o ∈ σ.rateLimits ∧ o.key ≠ (weight q.userId, weight q.module, q.kind)
  limit : q.limit = new.map fun o => ⟨o.rate, o.burst⟩
  key : ∀ o, new = some o → o.key = (weight q.userId, weight q.module, q.kind)
  module : ∀ o, new = some o → o.module = ((σ.rateLimits.find?
    (weight q.userId, weight q.module, q.kind)).map (·.module)).getD q.module

/-- The limit of the call's own bucket is in force under its module only if the
row that was there has that module. -/
theorem spelled_of_inForce (holds : InForce userId calls σ)
    (named : weight q.userId = weight userId) (overridden : Overridden q σ σ' new) (after : InForce userId (calls ++ [q]) σ') :
    Spelled q σ := by
  intro o stored key
  have owner : weight o.userId = weight userId := (congrArg Prod.fst key).trans named
  have bucket : (weight o.module, o.kind) = (weight q.module, q.kind) := congrArg Prod.snd key
  by_contra other
  cases set : new with
  | some o' =>
    -- The new row has the old spelling, so nothing is listed under the call's own.
    have listed := (after q.module q.kind ⟨o'.rate, o'.burst⟩).mpr (by
      rw [lastLimit_concat, if_pos ⟨rfl, rfl⟩, overridden.limit, set, Option.map_some])
    obtain ⟨x, member, user, module, kind, _⟩ := mem_limits.mp listed
    rcases (overridden.rows x).mp member with new | ⟨_, apart⟩
    · have first := overridden.module x new
      rw [Table.find?_eq_some.mpr ⟨stored, key⟩, Option.map_some, Option.getD_some] at first
      exact other (first.symm.trans module)
    · refine apart ?_
      rw [RateLimitOverride.key, user, module, kind, named]
  | none =>
    -- The old row is gone, though the calls still believe in it.
    have believed := (holds o.module o.kind ⟨o.rate, o.burst⟩).mp
      (mem_limits.mpr ⟨o, stored, owner, rfl, rfl, rfl⟩)
    have listed := (after o.module o.kind ⟨o.rate, o.burst⟩).mpr (by
      rw [lastLimit_concat, if_neg fun same => other same.1.symm, believed])
    obtain ⟨x, member, user, module, kind, _⟩ := mem_limits.mp listed
    rcases (overridden.rows x).mp member with new | ⟨_, apart⟩
    · rw [set] at new
      cases new
    · refine apart ?_
      rw [← key, RateLimitOverride.key, RateLimitOverride.key, user, module, kind, owner]

/-- One override call: what is stored is what the calls believe in, exactly if
the call spells its module as the row of its bucket does. -/
theorem inForce_step (holds : InForce userId calls σ) (named : weight q.userId = weight userId)
    (overridden : Overridden q σ σ' new) : InForce userId (calls ++ [q]) σ' ↔ Spelled q σ := by
  refine ⟨spelled_of_inForce holds named overridden, fun spelled module kind limit => ?_⟩
  have own : ∀ o, new = some o → o.module = q.module ∧ o.kind = q.kind ∧
      weight o.userId = weight userId := by
    intro o set
    have key := overridden.key o set
    refine ⟨?_, congrArg (·.2.2) key, (congrArg Prod.fst key).trans named⟩
    rw [overridden.module o set]
    cases found : σ.rateLimits.find? (weight q.userId, weight q.module, q.kind) with
    | none => rfl
    | some o' =>
      obtain ⟨stored, here⟩ := Table.find?_eq_some.mp found
      exact spelled o' stored here
  rw [mem_limits, lastLimit_concat]
  by_cases same : q.module = module ∧ q.kind = kind
  · rw [if_pos same, overridden.limit]
    obtain ⟨rfl, rfl⟩ := same
    constructor
    · rintro ⟨o, member, user, named', kind, rfl⟩
      rcases (overridden.rows o).mp member with set | ⟨_, apart⟩
      · rw [set, Option.map_some]
      · refine absurd ?_ apart
        rw [RateLimitOverride.key, user, named', kind, named]
    · intro limited
      obtain ⟨o, set, rfl⟩ := Option.map_eq_some_iff.mp limited
      obtain ⟨module, kind, user⟩ := own o set
      exact ⟨o, (overridden.rows o).mpr (Or.inl set), user, module, kind, rfl⟩
  · rw [if_neg same, ← holds module kind limit, mem_limits]
    constructor
    · rintro ⟨o, member, user, rfl, rfl, rfl⟩
      rcases (overridden.rows o).mp member with set | ⟨stored, _⟩
      · obtain ⟨module, kind, _⟩ := own o set
        exact absurd ⟨module.symm, kind.symm⟩ same
      · exact ⟨o, stored, user, rfl, rfl, rfl⟩
    · rintro ⟨o, stored, user, rfl, rfl, rfl⟩
      refine ⟨o, (overridden.rows o).mpr (Or.inr ⟨stored, fun key => same ?_⟩), user, rfl, rfl, rfl⟩
      exact ⟨(spelled o stored key).symm, (congrArg (·.2.2) key).symm⟩

/-- A call for another user changes none of this user's limits. -/
theorem inForce_other (holds : InForce userId calls σ) (other : weight q.userId ≠ weight userId)
    (overridden : Overridden q σ σ' new) : InForce userId calls σ' := by
  intro module kind limit
  rw [← holds module kind limit, mem_limits, mem_limits]
  refine exists_congr fun o => ⟨?_, ?_⟩
  · rintro ⟨member, user, rest⟩
    rcases (overridden.rows o).mp member with set | ⟨stored, _⟩
    · exact absurd ((congrArg Prod.fst (overridden.key o set)).symm.trans user) other
    · exact ⟨stored, user, rest⟩
  · rintro ⟨stored, user, rest⟩
    refine ⟨(overridden.rows o).mpr (Or.inr ⟨stored, fun key => other ?_⟩), user, rest⟩
    exact (congrArg Prod.fst key).symm.trans user

/-- No two limits of a user are of one module and kind. -/
theorem limits_distinct (σ : Store) (userId : String) :
    ((CredentialProofs.limits σ userId).map fun l => (l.1, l.2.1)).Nodup := by
  have keys := σ.rateLimits.filter_distinct fun o => weight o.userId = weight userId
  unfold CredentialProofs.limits
  rw [List.map_map]
  refine List.Nodup.of_map (fun l : String × Int => (weight userId, weight l.1, l.2)) ?_
  rw [List.map_map]
  refine (List.map_congr_left fun o selected => ?_).symm ▸ keys
  have user : weight o.userId = weight userId := by simpa using (List.mem_filter.mp selected).2
  rw [RateLimitOverride.key, user]
  rfl

/-! ### What the calls do by themselves -/

/-- An override by itself: refused and nothing changed, or the row of its bucket
replaced, created or gone. -/
theorem wp_setRateLimit_alone {ℓ : Local Store Write Res} :
    wp Rely.none (fun _ => True) (Policy.setRateLimit q) (fun result _ σ' _ =>
      (∀ e, result = .error e → σ' = σ) ∧ (result = .ok () → ∃ new, Overridden q σ σ' new))
      ℓ σ t := by
  unfold Policy.setRateLimit
  cases kind : Policy.refuseUnstoredKind q.kind with
  | error e => exact ⟨fun _ _ => rfl, by rintro ⟨⟩⟩
  | ok _ =>
    cases asked : q.limit with
    | some limit =>
      show wp _ _ (conn (Policy.upsertRateLimit q.userId q.module q.kind limit) >>= _) _ ℓ σ t
      rw [wp_single]
      intro σ₁ t₁ drift₁ _
      obtain rfl := drift₁.still
      refine ⟨fun _ => trivial, ?_⟩
      cases live : σ₁.liveUser? q.userId with
      | none =>
        simp only [Policy.upsertRateLimit, live, orElse, wp_ret_bind, if_true]
        rw [← bind_pure (liveUser conn q.userId)]
        refine wp_liveUser_conn (fun e ℓ' σ' t' drift₂ => ?_) fun ℓ₂ σ₂ t₂ drift₂ _ found => ?_
        · exact ⟨fun _ _ => drift₂.still, by rintro ⟨⟩⟩
        · obtain rfl := drift₂.still
          rw [live] at found
          cases found
      | some u =>
        have here : u.key = weight q.userId :=
          (Store.user?_mem (Store.liveUser?_eq_some.mp live).1).2
        have key : (limited q limit σ₁ u).key = (weight q.userId, weight q.module, q.kind) := by
          rw [limited_key, here]
        rw [PolicyProofs.upsertRateLimit_exec q limit t₁ σ₁ live]
        split
        case isFalse => exact ⟨fun _ _ => rfl, by rintro ⟨⟩⟩
        refine ⟨by rintro _ ⟨⟩, fun _ => ⟨some (limited q limit σ₁ u), ⟨fun x => ?_, ?_, ?_, ?_⟩⟩⟩
        · show x ∈ σ₁.rateLimits.put (limited q limit σ₁ u) ↔ _
          rw [Table.mem_put, key, Option.some.injEq, eq_comm]
        · rw [asked, Option.map_some, limited_limit.1, limited_limit.2]
        · rintro _ ⟨⟩
          exact key
        · rintro _ ⟨⟩
          rw [limited_module, here]
    | none =>
      show wp _ _ (liveUser conn q.userId >>= _) _ ℓ σ t
      refine wp_liveUser_conn (fun e ℓ' σ' t' drift₁ => ?_) fun ℓ₁ σ₁ t₁ drift₁ _ _ => ?_
      · exact ⟨fun _ _ => drift₁.still, by rintro ⟨⟩⟩
      · obtain rfl := drift₁.still
        intro σ₂ t₂ drift₂ _
        obtain rfl := drift₂.still
        refine ⟨fun _ => trivial, by rintro _ ⟨⟩, fun _ => ⟨none, ⟨fun x => ?_, ?_, ?_, ?_⟩⟩⟩
        · simp only [Policy.deleteRateLimit]
          split
          · show x ∈ σ₂.rateLimits.erase _ ↔ _
            rw [Table.mem_erase]
            simp
          · rename_i absent
            rw [applyAll_nil]
            have none := Option.not_isSome_iff_eq_none.mp absent
            simp only [reduceCtorEq, false_or, iff_self_and]
            exact fun stored => Table.find?_eq_none.mp none x stored
        · rw [asked, Option.map_none]
        · rintro _ ⟨⟩
        · rintro _ ⟨⟩

/-- What a call does by itself about limits, if it is one that sets or answers
them. -/
def Limiting (c : Call) (σ : Store) (result : Except Status Response) (σ' : Store) : Prop :=
  match c.request with
  | .setRateLimitOverride q =>
    (∀ e, result = .error e → σ' = σ) ∧ (∀ a, result = .ok a → ∃ new, Overridden q σ σ' new)
  | .resolveCredential _ =>
    ∀ a, result = .ok (.resolveCredential a) → a ≠ .default →
      a.rateLimitOverrides = CredentialProofs.limits σ a.userId
  | _ => True

theorem wp_limiting {c : Call} : wp Rely.none (fun _ => True) (service c)
    (fun result _ σ' _ => Limiting c σ result σ') .fresh σ t := by
  unfold Limiting
  cases request : c.request with
  | setRateLimitOverride q =>
    refine ServiceProofs.wp_service (fun _ _ => ⟨fun _ _ => rfl, nofun⟩) fun _ => ?_
    rw [request]
    refine wp_map (G := fun _ => True) (g := fun () => Response.setRateLimitOverride) (wp_mono
      (wp_setRateLimit_alone (q := q)) (fun _ _ _ _ h => h) (fun _ _ => trivial) ?_)
    rintro result ℓ' σ' t' ⟨refused, done⟩
    cases result with
    | error e => exact ⟨fun _ _ => refused e rfl, nofun⟩
    | ok _ => exact ⟨nofun, fun _ _ => done rfl⟩
  | resolveCredential r =>
    refine ServiceProofs.wp_service (fun _ _ => nofun) fun _ => ?_
    rw [request]
    refine wp_map (wp_mono (CredentialProofs.wp_resolve (Q := fun result _ _ _ => ∀ a,
      result = .ok a → a ≠ .default → a.rateLimitOverrides = CredentialProofs.limits σ a.userId)
      (fun _ _ _ _ none => none.elim) request ?_ ?_)
      (fun _ _ _ _ h => h) (fun _ _ => trivial) ?_)
    · rintro ℓ' σ' t' snap _ _ _ a same known
      cases same
      exact absurd rfl known
    · rintro ℓ' σ' t' snap row u a _ drifts resolves a' same _
      cases same
      rw [resolves.rateLimits, resolves.userId, drifts.still]
    · intro result ℓ' σ' t' post a same
      cases result with
      | error e => cases same
      | ok a' =>
        cases same
        exact post _ rfl
  | _ => exact wp_trivial

/-- Only the override calls change a limit. -/
theorem rateLimits_still {c : Call} (changes : System.Changes (Effective c) σ σ')
    (other : ∀ q, c.request ≠ .setRateLimitOverride q) : σ'.rateLimits = σ.rateLimits := by
  refine changes_effects (P := fun σ σ' => σ'.rateLimits = σ.rateLimits) changes (fun _ => rfl)
    (fun _ _ _ first second => second.trans first) fun k ef allowed => ?_
  cases allowed with
  | setRateLimit request => exact absurd request (other _)
  | clearRateLimit request => exact absurd request (other _)
  | @setting _ level claim => cases level <;> cases claim <;> rfl
  | _ => rfl

/-- What a call of a sequential run does about limits, its spelling included. -/
def Limited (userId : String) (c : Call) (σ : Store) (result : Except Status Response)
    (σ' : Store) : Prop :=
  Limiting c σ result σ' ∧ ∀ q, c.request = .setRateLimitOverride q →
    weight q.userId = weight userId → Spelled q σ

/-- What is stored is what the calls believe in, after every call. -/
theorem inForce_of_chain (chain : Chain (System.Solo Effective (Limited userId)) σ₀ h σ)
    (unset : InForce userId [] σ₀) : InForce userId (overridings userId h) σ := by
  induction chain with
  | nil => exact unset
  | @snoc h σ c result σ' before last ih =>
    obtain ⟨⟨limiting, spelled⟩, changes⟩ := last
    have history : overridings userId (h ++ [(c, result)]) =
        overridings userId h ++ overridings userId [(c, result)] := List.filterMap_append
    have other (request : ∀ q, c.request ≠ .setRateLimitOverride q) :
        InForce userId (overridings userId h ++ overridings userId [(c, result)]) σ' := by
      have nothing : overridings userId [(c, result)] = [] := by
        cases same : c.request with
        | setRateLimitOverride q => exact absurd same (request q)
        | _ => simp [overridings, same]
      have still := rateLimits_still changes request
      rw [nothing, List.append_nil]
      intro module kind limit
      rw [← ih module kind limit, CredentialProofs.limits, CredentialProofs.limits, still]
    rw [history]
    cases request : c.request with
    | setRateLimitOverride q =>
      rw [Limiting, request] at limiting
      cases result with
      | error e =>
        rw [limiting.1 e rfl]
        simpa [overridings, request] using ih
      | ok a =>
        obtain ⟨new, overridden⟩ := limiting.2 a rfl
        by_cases named : weight q.userId = weight userId
        · have one : overridings userId [(c, .ok a)] = [q] := by
            simp [overridings, request, named]
          rw [one]
          exact (inForce_step ih named overridden).mpr (spelled q request named)
        · have nothing : overridings userId [(c, .ok a)] = [] := by
            simp [overridings, request, named]
          rw [nothing, List.append_nil]
          exact inForce_other ih named overridden
    | _ => exact other (by simp [request])

/-- The answers given since a state. -/
def since (S₀ S : Handlers.System) : List (Call × Except Status Response) :=
  System.answers (S.sessions.drop S₀.sessions.length)

/-- A step of a sequential run whose overrides for a user are spelled as the
rows they fall on. -/
def Spelling (userId : String) (S : Handlers.System) (a : Action Call) (S' : Handlers.System) :
    Prop :=
  System.Sequential S a S' ∧ ∀ c q, a = .call c → c.request = .setRateLimitOverride q →
    weight q.userId = weight userId → Spelled q S.store

/-- The calls answered since a state at rest, and what each did. -/
theorem chain_since {cond : Handlers.System → Action Call → Handlers.System → Prop}
    {Q : Call → Store → Except Status Response → Store → Prop} {S₀ S : Handlers.System}
    (reachable : Reachable S₀) (rest : S₀.Idle) (reached : System.Reaches service cond S₀ S)
    (idle : S.Idle) (sequential : ∀ T a T', cond T a T' → System.Sequential T a T')
    (program : ∀ (T : Handlers.System) c T', Integrity T.store → cond T (.call c) T' →
      wp Rely.none (fun _ => True) (service c) (fun r _ σ' _ => Q c T.store r σ') .fresh T.store
        T.clock) :
    Chain (System.Solo Effective Q) S₀.store (since S₀ S) S.store := by
  obtain ⟨new, sessions, chain⟩ := chain_of_sequential reachable rest reached idle sequential program
  rw [since, sessions, List.drop_left]
  exact chain

/-- Among calls made one after the other, as long as every override of a user
spells its module as the row it falls on, the limits in force are those last
set and not cleared, byte for byte, at rest and in every answer of a resolve.
The next override keeps this exactly if it is spelled so too. -/
theorem overrides_in_force {S₀ S : Handlers.System} (reachable : Reachable S₀) (rest : S₀.Idle)
    (unset : ∀ o ∈ S₀.store.rateLimits, weight o.userId ≠ weight userId)
    (reached : System.Reaches service (Spelling userId) S₀ S) (idle : S.Idle) :
    InForce userId (overridings userId (since S₀ S)) S.store ∧
    (∀ h c r a rest, since S₀ S = h ++ (c, .ok (.resolveCredential a)) :: rest →
      c.request = .resolveCredential r → a ≠ .default → weight a.userId = weight userId →
      (∀ module kind limit, (module, kind, limit) ∈ a.rateLimitOverrides ↔
        lastLimit (overridings userId h) module kind = some limit) ∧
      (a.rateLimitOverrides.map fun l => (l.1, l.2.1)).Nodup) ∧
    ∀ T c a q, System.Reaches service System.Sequential S T → T.Idle → since S T = [(c, .ok a)] →
      c.request = .setRateLimitOverride q → weight q.userId = weight userId →
      (InForce userId (overridings userId (since S₀ S) ++ [q]) T.store ↔ Spelled q S.store) := by
  have chain := chain_since (Q := Limited userId) reachable rest reached idle
    (fun _ _ _ met => met.1) fun T c T' _ met => wp_mono wp_limiting (fun _ _ _ _ h => h)
      (fun _ h => h) fun _ _ _ _ limiting => ⟨limiting, fun q => met.2 c q rfl⟩
  have empty : InForce userId [] S₀.store := by
    intro module kind limit
    rw [mem_limits]
    constructor
    · rintro ⟨o, stored, owner, _⟩
      exact absurd owner (unset o stored)
    · nofun
  have holds := inForce_of_chain chain empty
  refine ⟨holds, fun h c r a rest split request known owner => ?_,
    fun T c a q more still last request named => ?_⟩
  · rw [split] at chain
    obtain ⟨σ₁, σ₂, before, one, _⟩ := chain.split
    have limiting := one.1.1
    rw [Limiting, request] at limiting
    have same : CredentialProofs.limits σ₁ a.userId = CredentialProofs.limits σ₁ userId := by
      rw [CredentialProofs.limits, owner, CredentialProofs.limits]
    rw [limiting a rfl known, same]
    exact ⟨inForce_of_chain before empty, limits_distinct σ₁ userId⟩
  · have one := chain_since (Q := Limiting) (reachable.later (reached.mono fun _ _ _ _ => trivial))
      idle more still (fun _ _ _ met => met) fun T c T' _ _ => wp_limiting
    rw [last] at one
    obtain ⟨σ₁, σ₂, before, ⟨limiting, _⟩, after⟩ := Chain.split (h := []) one
    obtain rfl := before.nothing
    obtain rfl := after.nothing
    rw [Limiting, request] at limiting
    obtain ⟨new, overridden⟩ := limiting.2 a rfl
    exact inForce_step holds named overridden

end

def personId : String := Team.userPrefix ++ firstUuid.text

def credentialId : String := "yadgar:credential:" ++ firstUuid.text

/-- Somebody is created and a credential minted for them. -/
def crediting : List (Action Call) :=
  calling firstUuid (.createUser ⟨[1], [2], [3], false, ""⟩) 0 1 ++
  calling firstUuid (.createCredential ⟨personId, List.replicate 32 7, "laptop", none, none⟩) 1 1

/-- The credential is revoked, under a spelling of the user id. -/
def revoking (userId : String) : List (Action Call) :=
  crediting ++ calling firstUuid (.revokeCredential ⟨credentialId, userId⟩) 2 1

open Folding in
/-- Under a collation that takes no notice of case, a revoke in capitals is
answered in capitals. -/
theorem revoke_renames_owner : ¬∀ (S : Handlers.System) (i : Nat) c ℓ owner r, Reachable S →
    S.sessions[i]? = some ⟨c, ℓ, .answered (.ok (.revokeCredential owner))⟩ →
    c.request = .revokeCredential r →
    ∃ row ∈ S.store.credentials, row.key = weight r.credentialId ∧ owner = row.userId := by
  intro names
  obtain ⟨ℓ, there⟩ : ∃ ℓ, (after (revoking personId.toUpper)).sessions[2]? =
      some ⟨⟨some iamCaller, firstUuid, .revokeCredential ⟨credentialId, personId.toUpper⟩⟩, ℓ,
        .answered (.ok (.revokeCredential personId.toUpper))⟩ := told_eq_some (by decide +kernel)
  obtain ⟨row, stored, _, owner⟩ := names _ 2 _ ℓ _ _ (reachable_after _) there rfl
  have rows : ∀ row ∈ (after (revoking personId.toUpper)).store.credentials.rows,
      row.userId ≠ personId.toUpper := by decide +kernel
  exact rows row stored owner.symm

open Bytewise in
theorem revoke_names_owner_iff_spelled : ∃ row ∈ (after (revoking personId)).store.credentials,
    row.key = weight credentialId := by
  obtain ⟨ℓ, there⟩ : ∃ ℓ, (after (revoking personId)).sessions[2]? =
      some ⟨⟨some iamCaller, firstUuid, .revokeCredential ⟨credentialId, personId⟩⟩, ℓ,
        .answered (.ok (.revokeCredential personId))⟩ := told_eq_some (by decide +kernel)
  obtain ⟨row, stored, named, _⟩ := revoke_names_owner_iff (reachable_after _) there rfl
  exact ⟨row, stored, named⟩

/-- A limit is set for the person under two spellings, and their credential
resolved. -/
def overriding (first second : String) : List (Action Call) :=
  crediting ++
  calling firstUuid (.setRateLimitOverride ⟨personId, first, 1, some ⟨5, 5⟩⟩) 2 1 ++
  calling firstUuid (.setRateLimitOverride ⟨personId, second, 1, some ⟨9, 9⟩⟩) 3 1 ++
  calling firstUuid (.resolveCredential ⟨List.replicate 32 7, false⟩) 4 7

open Bytewise in
theorem overrides_in_force_twice : InForce personId
    (overridings personId (since (fresh 0) (after (overriding "chat" "chat"))))
    (after (overriding "chat" "chat")).store := by
  have reached : System.Reaches service (Spelling personId) (fresh 0)
      (after (overriding "chat" "chat")) := by
    refine reaches_after System.sequentialNow (fun S a S' now => ?_) (by decide +kernel)
    exact ⟨System.sequential_of_now now, fun _ _ _ _ _ _ _ key => congrArg (·.2.1) key⟩
  have rest : (fresh 0).Idle := fun s none => by cases none
  have unset : ∀ o ∈ (fresh 0).store.rateLimits, weight o.userId ≠ weight personId :=
    fun o none => by cases none
  obtain ⟨holds, _⟩ := overrides_in_force (reachable_fresh 0) rest unset reached
    (System.idle_of_now (by decide +kernel))
  exact holds

open Folding in
/-- Under a collation that takes no notice of case, the second of two limits set
for `Chat` and `chat` is in force for `Chat`. -/
theorem override_keeps_first_spelling : ¬∀ (userId : String) (S : Handlers.System),
    System.Reaches service System.Sequential (fresh 0) S → S.Idle →
    ∀ h c r a rest, since (fresh 0) S = h ++ (c, .ok (.resolveCredential a)) :: rest →
      c.request = .resolveCredential r → a ≠ .default → weight a.userId = weight userId →
      ∀ module kind limit, (module, kind, limit) ∈ a.rateLimitOverrides ↔
        lastLimit (overridings userId h) module kind = some limit := by
  intro holds
  have split : since (fresh 0) (after (overriding "Chat" "chat")) =
      (since (fresh 0) (after (overriding "Chat" "chat"))).take 4 ++
        (⟨some iamCaller, firstUuid, .resolveCredential ⟨List.replicate 32 7, false⟩⟩,
          .ok (.resolveCredential ⟨personId, [], credentialId, false, [("Chat", 1, ⟨9, 9⟩)],
            some ⟨2, true, []⟩, none⟩)) :: [] := by decide +kernel
  have reached : System.Reaches service System.Sequential (fresh 0)
      (after (overriding "Chat" "chat")) :=
    reaches_after System.sequentialNow (fun _ _ _ now => System.sequential_of_now now)
      (by decide +kernel)
  have listed := (holds personId _ reached (System.idle_of_now (by decide +kernel)) _ _ _ _ _ split
    rfl (by decide) rfl "chat" 1 ⟨9, 9⟩).mpr (by decide +kernel)
  simp at listed

end IamDb.Spellings
