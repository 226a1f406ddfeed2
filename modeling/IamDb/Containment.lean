import IamDb.Deliveries
import IamDb.Epochs

/-! Containment. A revoke of everything a person holds, and a first redemption
that carries the flag, leave them no credential that is not revoked and no
enrolment that is open, and raise their epoch; so no credential, no enrolment
secret and no epoch from before leads back into the account. -/
namespace IamDb.Containment
open Txn Schema Messages Service Effects Evolution Interference Handlers Runs Life Enrolments
open Deliveries Epochs

section
variable [Engine]

/-- A step withdraws all a user holds. -/
inductive Contains (userId : String) (S S' : Handlers.System) : Prop where
  | revokeAll (lands : Lands S i c k S') (request : c.request = .revokeAllCredentials r)
      (user : weight r.userId = weight userId)
  | redeem (spends : Spends S S' e t) (user : weight e.userId = weight userId)
      (flag : e.revokeExistingCredentials = true)

section
variable {S S' T U : Handlers.System}

theorem Contains.bumps (contains : Contains userId S S') : Bumps userId S S' := by
  cases contains with
  | revokeAll lands request user => exact .revokeAll lands request user
  | redeem spends user => exact .redeem spends user

/-- Right after it every credential of the user's is revoked, and every
enrolment has ended. -/
structure Withdrawn (userId : String) (σ : Store) : Prop where
  credentials : ∀ row ∈ σ.credentials, weight row.userId = weight userId → row.revokedAt ≠ none
  enrolments : ∀ e ∈ σ.enrolments, weight e.userId = weight userId →
    e.spentAt ≠ none ∨ e.voidedAt ≠ none

omit [Engine] in
theorem Withdrawn.of_update [Engine] {σ : Store} {credentials : Table Schema.Credential.key}
    {enrolments : Table Enrolment.key} (user : key = weight userId)
    (revoked : σ.credentials = credentials.update (liveOf key) (revokedAt now))
    (voided : σ.enrolments = enrolments.update (openOf key) (voidedAt now')) :
    Withdrawn userId σ := by
  subst user
  constructor
  · intro row stored owner unrevoked
    rw [revoked] at stored
    exact ((mem_revoking unrevoked).mp stored).2 owner
  · intro e stored owner
    rw [voided] at stored
    obtain ⟨old, _, same⟩ := (Table.mem_update (f := voidedAt now') fun _ => rfl).mp stored
    split at same
    · subst same
      exact Or.inr nofun
    · rename_i closed
      subst same
      by_contra ended
      simp only [not_or, not_not] at ended
      simp [openOf, owner, ended.1, ended.2] at closed

theorem Contains.withdrawn (contains : Contains userId S S') (reachable : Reachable S)
    (step : S.step service act = some S') : Withdrawn userId S'.store := by
  cases contains with
  | revokeAll lands request user =>
    obtain ⟨ef, allowed, store, result⟩ := lands_effect lands
    cases allowed with
    | nothing idle => simp [request, mayIdle] at idle
    | revokeAll request' owner =>
      rw [request] at request'
      cases request'
      exact .of_update ((Store.user?_mem owner).2.trans user) (by rw [result]; rfl)
        (by rw [result]; rfl)
    | _ => simp_all
  | @redeem e t spends user flag =>
    obtain ⟨i, c, k, u, p, ledger, revoked, voided, _, store, allowed, result⟩ :=
      spend_effect reachable step spends
    cases allowed with
    | redeem _ _ _ _ _ _ _ owner =>
      have withdrawing : S'.store.credentials =
            S.store.credentials.update (liveOf u.key) (revokedAt revoked) ∧
          S'.store.enrolments =
            (S.store.enrolments.put (spentAt t e)).update (openOf u.key) (voidedAt voided) := by
        rw [result]
        simp only [Effect.apply, flag, if_true, and_self]
      exact .of_update ((Store.user?_mem owner).2.trans user) withdrawing.1 withdrawing.2

/-! ### Credentials and enrolments -/

/-- A resolve that starts to read later answers with none of the credentials. -/
theorem no_credential_back (withdrawn : Withdrawn userId S.store) (reachable : Reachable S)
    (stored : row ∈ S.store.credentials) (owner : weight row.userId = weight userId)
    (later : Later S T) {i : Nat}
    (unread : ∀ s, S.sessions[i]? = some s → s.loc.snapshot = none)
    (there : T.sessions[i]? = some ⟨c, ℓ, .answered (.ok (.resolveCredential a))⟩)
    (request : c.request = .resolveCredential q) (known : a ≠ .default) :
    weight a.credentialId ≠ row.key := by
  obtain ⟨U, first, _, told⟩ := Runs.resolved reachable later there request unread
  intro same
  rcases told with ⟨unknown, _⟩ | ⟨row', u, resolves⟩
  · exact known unknown
  obtain ⟨kept, member, key, after⟩ := (Later.evolves first reachable).credentials.mem stored
  have here : row' = kept := by
    refine Table.eq_of_key (credential_mem resolves.token).1 member ?_
    rw [key, ← same, resolves.credentialId]
    rfl
  have revoked := withdrawn.credentials row stored owner
  have live := resolves.admits
  rw [here, after.revoked revoked, Credential.resolves] at live
  simp only [Bool.and_eq_true, Option.isNone_iff_eq_none] at live
  exact revoked live.1.1

/-- A redemption of the secret of an ended enrolment changes nothing. -/
theorem no_enrolment_back (reachable : Reachable S) (stored : e ∈ S.store.enrolments)
    (ended : e.spentAt ≠ none ∨ e.voidedAt ≠ none) {i : Nat}
    (here : S.sessions[i]? = some ⟨c, ℓ, .running p⟩) (request : c.request = .redeemEnrolment r)
    (secret : r.secretHash = e.secretHash) (step : S.step service act = some S')
    (acts : act = .run i ∨ act = .lose i) : S'.store = S.store := by
  by_contra changed
  rcases reachable.lands step with ⟨same, _⟩ | ⟨j, c', k, lands⟩
  · exact changed same
  obtain ⟨ℓ', p', there⟩ := lands.running
  obtain rfl : j = i := by
    rcases (lands.acts step).imp (·.1) id with rfl | rfl <;> rcases acts with same | same <;>
      cases same <;> rfl
  cases Option.some.inj (here.symm.trans there)
  obtain ⟨ef, allowed, store, result⟩ := lands_effect lands
  cases allowed with
  | nothing => exact changed result
  | redeem request' enrolment named unspent unvoided =>
    rw [request] at request'
    cases request'
    obtain rfl := reachable.inv.secrets _ (store ▸ enrolment) e stored (named.trans secret)
    exact ended.elim (fun spent => spent unspent) fun voided => voided unvoided
  | _ => simp_all

/-! ### Epochs -/

/-- What a redeeming answer under a key says the ledger says. -/
theorem redeemed_row (reachable : Reachable S) {i : Nat}
    (there : S.sessions[i]? = some ⟨c, ℓ, .answered (.ok (.redeemEnrolment a))⟩)
    (delivers : Delivers c r key) (redeemed : a.outcome = .redeemed) :
    ∃ row, RedemptionProofs.Agrees key r.secretHash a row S.store := by
  obtain ⟨T, ℓ₀, reached, later, _, post⟩ := reachable.answered
    (Q := fun result _ σ _ => ∀ a, result = .ok (.redeemEnrolment a) → a.outcome = .redeemed →
      ∃ row, RedemptionProofs.Agrees (r.idempotency.getD "") r.secretHash a row σ)
    there fun σ t inv => by
      refine ServiceProofs.wp_service (fun _ _ => nofun) fun _ => ?_
      rw [delivers.request]
      refine wp_map (wp_mono (RedemptionProofs.wp_redeem quiet_others delivers.request inv)
        (fun _ _ _ _ h => h) (fun _ _ => trivial) ?_)
      intro result ℓ σ t post a same redeemed
      cases result with
      | error e => cases same
      | ok a' =>
        cases same
        exact (post delivers.keyed).resolve_right fun fails => fails.1 redeemed
  obtain ⟨row, agrees⟩ := post a rfl redeemed
  have agrees := agrees.later (later.evolves reached)
  exact ⟨row, { agrees with keyed := agrees.keyed.trans delivers.same }⟩

/-- A step is the first delivery of a redemption: the session's commit, that
changes something. -/
structure Delivered (j : Nat) (c : Call) (r : RedeemEnrolmentRequest) (W W' : Handlers.System) :
    Prop where
  reachable : Reachable W
  step : ∃ act, W.step service act = some W'
  lands : ∃ k, Lands W j c k W'
  request : c.request = .redeemEnrolment r
  changed : W'.store ≠ W.store

/-- Session `i` is the first delivery itself, or one under its key. -/
def Repeats (j : Nat) (r : RedeemEnrolmentRequest) (i : Nat) (c : Call) : Prop :=
  i = j ∨ r.idempotency.getD "" ≠ "" ∧ ∃ r', Delivers c r' (r.idempotency.getD "")

/-- Every answer of a redemption, first or replayed, carries the epoch its first
delivery left. -/
theorem repeated_epoch (delivered : Delivered j c₀ r W W') (later : Later W' U) {i : Nat}
    (there : U.sessions[i]? = some ⟨c, ℓ, .answered (.ok (.redeemEnrolment a))⟩)
    (redeemed : a.outcome = .redeemed) (repeats : Repeats j r i c) :
    ∃ u, W'.store.user? a.userId = some u ∧ u.credentialEpoch = a.credentialEpoch := by
  obtain ⟨act, step⟩ := delivered.step
  obtain ⟨k, lands⟩ := delivered.lands
  obtain ⟨ef, allowed, store, result⟩ := lands_effect lands
  have request := delivered.request
  cases allowed with
  | nothing => exact absurd result delivered.changed
  | @redeem r' e _ u ledger _ _ _ _ request' _ secret _ _ _ _ owner _ _ _ recorded _ answer =>
    rw [request] at request'
    cases request'
    have here : W'.store.user? e.userId = some (bumped u) := by
      rw [result]
      simp only [Effect.apply, Store.user?, ← (Store.user?_mem owner).2]
      exact Table.find?_put_self
    rcases repeats with rfl | ⟨keyed, r', delivers⟩
    · obtain ⟨a₀, ℓ₀, told, given | lost⟩ := lands.answer
      · cases Option.some.inj ((later.ended given (by simp)).symm.trans there)
        rw [answer] at told
        cases told
        exact ⟨_, here, rfl⟩
      · cases Option.some.inj ((later.ended lost (by simp)).symm.trans there)
    · rw [if_neg keyed] at recorded
      subst recorded
      have reached := (delivered.reachable.step step).later later
      obtain ⟨row, agrees⟩ := redeemed_row reached there delivers redeemed
      obtain ⟨row', stored, key, same⟩ :=
        (later.evolves (delivered.reachable.step step)).redemptions.mem
          (r := ⟨r.idempotency.getD "", e.secretHash, e.id, e.userId, u.credentialEpoch + 1⟩)
          (by rw [result]; exact Table.mem_put_self)
      cases same
      obtain rfl := Table.eq_of_key agrees.stored stored agrees.keyed
      refine ⟨_, by rw [agrees.userId]; exact here, ?_⟩
      rw [agrees.credentialEpoch]
      rfl
  | _ => simp_all

/-- An epoch of a user's that somebody was told before a step: read with their
password hash, or in an answer, at any time, of a redemption first delivered by
then. -/
inductive Told (userId : String) (epoch : Nat) (S : Handlers.System) : Prop where
  | read {i : Nat}
      (there : S.sessions[i]? = some ⟨c, ℓ, .answered (.ok (.getPasswordHash a))⟩)
      (request : c.request = .getPasswordHash r) (known : a ≠ ⟨"", "", 0⟩)
      (user : weight a.userId = weight userId) (same : a.credentialEpoch = epoch)
  | redeemed {U : Handlers.System} {i : Nat} (delivered : Delivered j c₀ r W W') (before : Later W' S)
      (later : Later W' U)
      (there : U.sessions[i]? = some ⟨c, ℓ, .answered (.ok (.redeemEnrolment a))⟩)
      (redeemed : a.outcome = .redeemed) (repeats : Repeats j r i c)
      (user : weight a.userId = weight userId) (same : a.credentialEpoch = epoch)

/-- It is no later than the epoch of that moment. -/
theorem Told.reached (told : Told userId epoch S) (reachable : Reachable S) :
    ∃ u, S.store.user? userId = some u ∧ epoch ≤ u.credentialEpoch := by
  have grown {W : Handlers.System} {user : String} {u₀} (before : Later W S)
      (reached : Reachable W) (there : W.store.user? user = some u₀)
      (same : weight user = weight userId) (epoch₀ : u₀.credentialEpoch = epoch) :
      ∃ u, S.store.user? userId = some u ∧ epoch ≤ u.credentialEpoch := by
    rw [Store.user?, same] at there
    obtain ⟨u, found, grown, _⟩ := epoch_since before reached there
    exact ⟨u, found, epoch₀ ▸ grown⟩
  cases told with
  | read there request known user same =>
    obtain ⟨T, u₀, p, reached, before, reads⟩ := answered_reads reachable there request known
    exact grown before reached reads.user user (reads.epoch.trans same)
  | redeemed delivered before later there redeemed repeats user same =>
    obtain ⟨act, step⟩ := delivered.step
    obtain ⟨u₀, found₀, epoch₀⟩ := repeated_epoch delivered later there redeemed repeats
    exact grown before (delivered.reachable.step step) found₀ user (epoch₀.trans same)

/-- After a step that withdraws all a user holds, no resolve that has read
nothing yet answers with one of their credentials from before; no step spends
one of their enrolments from before, and no redemption of its secret changes
anything, whatever its key; and a mint for them under an epoch that somebody was
told before, or ever in an answer of a redemption first delivered before, inserts
no row and does not answer OK. -/
theorem withdrawn_for_good (reachable : Reachable S) (step : S.step service act = some S')
    (contains : Contains userId S S') :
    (∀ row ∈ S.store.credentials, weight row.userId = weight userId →
      ∀ T (i : Nat) c ℓ q a, Later S' T →
        (∀ s, S'.sessions[i]? = some s → s.loc.snapshot = none) →
        T.sessions[i]? = some ⟨c, ℓ, .answered (.ok (.resolveCredential a))⟩ →
        c.request = .resolveCredential q → a ≠ .default → weight a.credentialId ≠ row.key) ∧
    (∀ e ∈ S.store.enrolments, weight e.userId = weight userId → ∀ T act T', Later S' T →
      T.step service act = some T' → (∀ x t, x.key = e.key → ¬Spends T T' x t) ∧
        ∀ (i : Nat) c ℓ p r, T.sessions[i]? = some ⟨c, ℓ, .running p⟩ →
          c.request = .redeemEnrolment r → r.secretHash = e.secretHash →
          act = .run i ∨ act = .lose i → T'.store = T.store) ∧
    ∀ epoch c r, Told userId epoch S → Asks userId epoch c r → ∀ T, Later S' T →
      (∀ i k T', ¬Lands T i c k T') ∧
      ∀ (i : Nat) ℓ a, T.sessions[i]? = some ⟨c, ℓ, .answered (.ok a)⟩ →
        S'.sessions[i]? = some ⟨c, ℓ, .answered (.ok a)⟩ := by
  have reached := reachable.step step
  have withdrawn := contains.withdrawn reachable step
  have evolves : Evolves S.store S'.store :=
    Later.evolves (.step .refl step trivial) reachable
  refine ⟨?_, ?_, ?_⟩
  · intro row stored owner T i c ℓ q a later unread there request known
    obtain ⟨row', stored', key, after⟩ := evolves.credentials.mem stored
    rw [← key]
    exact no_credential_back withdrawn reached stored' (after.userId ▸ owner) later unread there
      request known
  · intro e stored owner T act T' later step'
    obtain ⟨e', stored', key, after⟩ := evolves.enrolments.mem stored
    have ended := withdrawn.enrolments e' stored' (after.userId ▸ owner)
    obtain ⟨e₁, stored₁, key₁, after₁⟩ := (later.evolves reached).enrolments.mem stored'
    obtain rfl := after₁.ended ended
    refine ⟨fun x t same spends => ?_, fun i c ℓ p r here request secret acts => ?_⟩
    · obtain rfl := Table.eq_of_key spends.1 stored₁ (same.trans key.symm)
      obtain ⟨j, k, spend⟩ := spend_lands (reached.later later) step' spends
      obtain ⟨_, _, _, _, _, unvoided, _⟩ := spend.moment
      exact ended.elim (fun spent => spent spends.2.1) fun voided => voided unvoided
    · exact no_enrolment_back (reached.later later) stored₁ ended here request
        (secret.trans after.secretHash.symm) step' acts
  · intro epoch c r told asks T later
    have never {V i k V'} (before : Later S' V) (lands : Lands V i c k V') : False := by
      obtain ⟨u, found, known⟩ := told.reached reachable
      obtain ⟨u₁, found₁, ⟨_, raised⟩ | ⟨still, _⟩⟩ := epoch_step reachable step found
      · obtain ⟨u₂, found₂, grown, _⟩ := epoch_since before reached found₁
        have same := (minted_under lands asks found₂).2.1
        omega
      · exact still contains.bumps
    refine ⟨fun i k T' => never later, fun i ℓ a there => ?_⟩
    by_contra new
    obtain ⟨V, k, V', before, lands, _⟩ := asks_lands reached later asks there new
    exact never before lands

end

end

/-! ### A run -/

/-- A person is enrolled, and all they hold is to be revoked next. -/
def revoking : List (Action Call) :=
  calling firstUuid (.createUser ⟨[1], [2], [3], true, ""⟩) 0 1 ++
  calling firstUuid (.createEnrolment ⟨enrolledId, aSecret, some 100, false, false, false⟩) 1 1 ++
  calling firstUuid (.revokeAllCredentials ⟨enrolledId⟩) 2 5

open Bytewise in
theorem withdrawn_for_good_revoked : (after revoking).store.enrolments.rows ≠ [] ∧
    ∀ e ∈ (after revoking).store.enrolments, weight e.userId = weight enrolledId →
      ∀ T act T', Later (after (revoking ++ [.run 2])) T → T.step service act = some T' →
        ∀ x t, x.key = e.key → ¬Spends T T' x t := by
  have step : (after revoking).step service (.run 2) = some (after (revoking ++ [.run 2])) :=
    step_after (by decide +kernel)
  have changed : (after (revoking ++ [.run 2])).store ≠ (after revoking).store := by
    intro same
    have ends : (after (revoking ++ [.run 2])).store.enrolments.rows.map (·.voidedAt) ≠
        (after revoking).store.enrolments.rows.map (·.voidedAt) := by decide +kernel
    rw [same] at ends
    exact ends rfl
  obtain ⟨c, k, a, ℓ, lands, _⟩ := (reachable_after revoking).changes step changed
  have call : ((after revoking).sessions[2]?).map (·.call) =
      some ⟨some iamCaller, firstUuid, .revokeAllCredentials ⟨enrolledId⟩⟩ := by decide +kernel
  obtain ⟨ℓ', p, here⟩ := lands.running
  rw [here] at call
  have contains : Contains enrolledId (after revoking) (after (revoking ++ [.run 2])) :=
    .revokeAll lands (congrArg (·.request) (Option.some.inj call)) rfl
  refine ⟨by decide +kernel, fun e stored owner T act T' later step' => ?_⟩
  exact ((withdrawn_for_good (reachable_after revoking) step contains).2.1 e stored owner T act T'
    later step').1

end IamDb.Containment
