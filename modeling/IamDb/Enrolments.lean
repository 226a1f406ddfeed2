import IamDb.Marker

/-! Enrolments over a run. A demanded enrolment is granted only to somebody who
never held anything, or to a member of the live administrators; an enrolment
ends once, spent or voided, and a password changes only with a spend or by
`SetPassword`. -/
namespace IamDb.Enrolments
open Txn Schema Messages Service Effects Evolution Interference Handlers Runs

section
variable [Engine]

/-! ### The bootstrap grant -/

/-- A call for an enrolment that demands an administrator without credentials;
`fromTeam` says how administrators are told. -/
def Demands (fromTeam : Bool) (userId : String) (c : Call) : Prop :=
  ∃ r, c.request = .createEnrolment r ∧ r.requireZeroCredentialAdmin = true ∧
    r.adminFromTeam = fromTeam ∧ weight r.userId = weight userId

/-- Somebody who has a password, or a credential whether it is live or not. -/
def Established (σ : Store) (userId : String) : Prop :=
  (σ.passwords.find? (weight userId)).isSome ∨
    ∃ row ∈ σ.credentials, weight row.userId = weight userId

/-- What a demanded enrolment rests on, at the commit that inserts it. -/
structure Grounds (fromTeam : Bool) (userId : String) (k : Committed) (σ : Store) (u : User)
    (e : Enrolment) : Prop where
  live : σ.liveUser? userId = some u
  owner : e.userId = u.id
  newcomer : fromTeam = false → u.isAdmin = true ∧ ¬Established σ userId ∧
    e.revokeExistingCredentials = false
  declared : fromTeam = true → (σ.liveTeam? Team.administrators).isSome ∧
    (σ.teamMembers.find? (weight Team.administrators, weight userId)).isSome ∧
    Holds k.under (.team (weight Team.administrators)) .exclusive

theorem Established.later (evolves : Evolves σ σ') (held : Established σ userId) :
    Established σ' userId := by
  rcases held with password | ⟨row, stored, same⟩
  · obtain ⟨p, found⟩ := Option.isSome_iff_exists.mp password
    obtain ⟨p', found', _⟩ := evolves.passwords _ _ found
    exact Or.inl (by simp [found'])
  · obtain ⟨row', stored', _, later⟩ := evolves.credentials.mem stored
    exact Or.inr ⟨row', stored', later.userId ▸ same⟩

/-- All a demanding call commits is an enrolment with its grounds. -/
theorem demanded_effect {c : Call} {k : Committed} (allowed : Allowed c k ef)
    (demands : Demands fromTeam userId c) :
    ∃ u e, ef = .mintEnrolment e ∧ Grounds fromTeam userId k k.store u e := by
  obtain ⟨r, request, demand, from_team, same⟩ := demands
  cases allowed with
  | nothing idle => simp [request, mayIdle] at idle
  | @mintEnrolment r' u secret row expiresAt revoking request' user live _ new _ _ _ _ granted =>
    obtain rfl : r' = r := by
      rw [request] at request'
      cases request'
      rfl
    have key : u.key = weight userId := (Store.user?_mem user).2.trans same
    refine ⟨u, row, rfl, ?_, by rw [new], fun unset => ?_, fun set => ?_⟩
    · exact Store.liveUser?_eq_some.mpr ⟨by rwa [Store.user?, ← same], live⟩
    · obtain ⟨admin, password, credentials, unflagged⟩ :=
        granted.newcomer demand (from_team.trans unset)
      refine ⟨admin, ?_, by rw [new]; exact unflagged⟩
      rintro (some | ⟨row, stored, owner⟩)
      · rw [← key, password] at some
        cases some
      · exact credentials row stored (owner.trans key.symm)
    · rw [← key]
      exact granted.declared demand (from_team.trans set)
  | _ => simp_all

theorem earned_demanded (demands : Demands fromTeam userId c) : (service c).Earned := by
  obtain ⟨r, request, demand, _⟩ := demands
  refine Endings.earned_lift fun _ => ?_
  rw [request]
  exact Prog.Earned.map _ (Endings.earned_mintEnrolment demand)

theorem demanded_lands {S S' : Handlers.System} (lands : Lands S i c k S')
    (demands : Demands fromTeam userId c) : ∃ u e, Grounds fromTeam userId k S.store u e ∧
      S'.store = { S.store with enrolments := S.store.enrolments.put e } := by
  obtain ⟨ef, allowed, store, result⟩ := lands_effect lands
  obtain ⟨u, e, rfl, grounds⟩ := demanded_effect allowed demands
  exact ⟨u, e, store ▸ grounds, result⟩

/-- A demanded enrolment is inserted only on its grounds; and for somebody who
once had a password or a credential, no demand by flag ever commits anything or
answers OK again. -/
theorem demand_granted {S : Handlers.System} (reachable : Reachable S) :
    (∀ S' i c k fromTeam userId, Lands S i c k S' → Demands fromTeam userId c →
      ∃ u e, Grounds fromTeam userId k S.store u e ∧
        S'.store = { S.store with enrolments := S.store.enrolments.put e }) ∧
    ∀ userId, Established S.store userId → ∀ S', Later S S' →
      (∀ i c k S'', Demands false userId c → ¬Lands S' i c k S'') ∧
      ∀ (i : Nat) c ℓ a, Demands false userId c →
        S'.sessions[i]? = some ⟨c, ℓ, .answered (.ok a)⟩ →
        S.sessions[i]? = some ⟨c, ℓ, .answered (.ok a)⟩ := by
  refine ⟨fun _ _ _ _ _ _ => demanded_lands, fun userId held S' later => ?_⟩
  have never {T i c k T'} (before : Later S T) (demands : Demands false userId c) :
      ¬Lands T i c k T' := by
    intro lands
    obtain ⟨u, e, grounds, _⟩ := demanded_lands lands demands
    exact (grounds.newcomer rfl).2.1 (held.later (before.evolves reachable))
  refine ⟨fun i c k S'' demands => never later demands, fun i c ℓ a demands there => ?_⟩
  induction later with
  | refl => exact there
  | @step T act T' before step _ ih =>
    refine ih ?_
    by_contra new
    obtain ⟨k, lands, _⟩ := answered_commits (reachable.later before) step
      (earned_demanded demands) there new
    exact never before demands lands

/-! ### Ends -/

/-- A row that is spent after a commit was so before, or the commit is its
redemption. -/
theorem spent_row {c : Call} {k : Committed} (allowed : Allowed c k ef)
    (member : e' ∈ (ef.apply k.store).enrolments) (spent : e'.spentAt = some t) :
    e' ∈ k.store.enrolments ∨ ∃ e u p ledger revoked voided,
      ef = .redeem e u p ledger t revoked voided ∧ e' = spentAt t e := by
  have unvoided {table : Table Enrolment.key} {user now}
      (there : e' ∈ table.update (openOf user) (voidedAt now)) : e' ∈ table := by
    obtain ⟨e, stored, rfl⟩ := (Table.mem_update (f := voidedAt now) fun _ => rfl).mp there
    split at spent
    · rename_i selected
      simp only [openOf, Bool.and_eq_true, Option.isNone_iff_eq_none] at selected
      rw [voidedAt, selected.1.2] at spent
      cases spent
    · rename_i other
      rwa [if_neg other]
  cases allowed with
  | @redeem r e spentTime u p ledger =>
    have put : e' ∈ k.store.enrolments.put (spentAt spentTime e) := by
      simp only [Effect.apply] at member
      split at member
      · exact unvoided member
      · exact member
    rcases Table.mem_put.mp put with rfl | ⟨before, _⟩
    · cases spent
      exact Or.inr ⟨_, _, _, _, _, _, rfl, rfl⟩
    · exact Or.inl before
  | revokeAll => exact Or.inl (unvoided member)
  | mintEnrolment _ _ _ _ new =>
    rcases Table.mem_put.mp member with rfl | ⟨before, _⟩
    · rw [new] at spent
      cases spent
    · exact Or.inl before
  | @setting _ level claim => cases level <;> cases claim <;> exact Or.inl member
  | _ => exact Or.inl member

/-- A password changes with a spend of its owner's, or by `SetPassword`. -/
theorem password_changed {c : Call} {k : Committed} (allowed : Allowed c k ef)
    (changed : (ef.apply k.store).passwords.find? user ≠ k.store.passwords.find? user) :
    (∃ r, c.request = .setPassword r ∧ weight r.userId = user) ∨
      ∃ r e t, c.request = .redeemEnrolment r ∧ e ∈ k.store.enrolments ∧ e.spentAt = none ∧
        weight e.userId = user ∧ spentAt t e ∈ (ef.apply k.store).enrolments := by
  have here {p : Password} (put : (k.store.passwords.put p).find? user ≠ k.store.passwords.find? user) :
      p.key = user := by
    by_contra other
    exact put (Table.find?_put_ne (Ne.symm other))
  cases allowed with
  | @redeem r e spent _ _ _ _ _ _ request enrolment _ unspent _ _ _ owner _ password =>
    refine Or.inr ⟨r, e, spent, request, enrolment, unspent, ?_, ?_⟩
    · rw [← here changed, password, (Store.user?_mem owner).2]
    · simp only [Effect.apply]
      split
      · exact (Table.mem_update (f := voidedAt _) fun _ => rfl).mpr
          ⟨_, Table.mem_put_self, by simp [openOf, spentAt]⟩
      · exact Table.mem_put_self
  | setPassword request owner _ password =>
    refine Or.inl ⟨_, request, ?_⟩
    rw [← here changed, password, (Store.user?_mem owner).2]
  | @setting _ level claim => cases level <;> cases claim <;> exact absurd rfl changed
  | _ => exact absurd rfl changed

/-- A step spends an enrolment, by the store's clock of some moment. -/
def Spends (S S' : Handlers.System) (e : Enrolment) (t : Int) : Prop :=
  e ∈ S.store.enrolments ∧ e.spentAt = none ∧
    ∃ e' ∈ S'.store.enrolments, e'.id = e.id ∧ e'.spentAt = some t

/-- The redemption a spend is, and the moment of the run its statement ran at. -/
structure Spend (S : Handlers.System) (i : Nat) (e : Enrolment) (t : Int) (k : Committed)
    (S' : Handlers.System) : Prop where
  commit : ∃ c r, Lands S i c k S' ∧ c.request = .redeemEnrolment r ∧ r.secretHash = e.secretHash
  moment : ∃ T, Reachable T ∧ Later T S ∧ T.clock = t ∧ e ∈ T.store.enrolments ∧
    e.voidedAt = none ∧ t < e.expiresAt ∧ (T.store.liveUser? e.userId).isSome

/-- A redemption spends its enrolment. -/
theorem spends_of_redeem {S S' : Handlers.System} (store : k.store = S.store)
    (allowed : Allowed c k (.redeem e u p ledger t revoked voided))
    (result : S'.store = (Effect.redeem e u p ledger t revoked voided).apply S.store) :
    Spends S S' e t := by
  cases allowed with
  | redeem _ enrolment _ unspent =>
    refine ⟨store ▸ enrolment, unspent, spentAt t e, ?_, rfl, rfl⟩
    rw [result]
    simp only [Effect.apply]
    split
    · exact (Table.mem_update (f := voidedAt voided) fun _ => rfl).mpr
        ⟨_, Table.mem_put_self, by simp [openOf, spentAt]⟩
    · exact Table.mem_put_self

/-- A step that spends an enrolment has the effect of its redemption. -/
theorem spend_effect {S S' : Handlers.System} (reachable : Reachable S)
    (step : S.step service a = some S') (spends : Spends S S' e t) :
    ∃ i c k u p ledger revoked voided, Lands S i c k S' ∧ k.store = S.store ∧
      Allowed c k (.redeem e u p ledger t revoked voided) ∧
      S'.store = (Effect.redeem e u p ledger t revoked voided).apply S.store := by
  obtain ⟨stored, unspent, e', stored', id, spent⟩ := spends
  have here (old : e' ∈ S.store.enrolments) : False := by
    rw [Table.eq_of_key old stored (by rw [Enrolment.key, Enrolment.key, id]), unspent] at spent
    cases spent
  rcases reachable.lands step with ⟨same, _⟩ | ⟨i, c, k, lands⟩
  · exact (here (same ▸ stored')).elim
  · obtain ⟨ef, allowed, store, result⟩ := lands_effect lands
    rw [result, ← store] at stored'
    rcases spent_row allowed stored' spent with old | ⟨e₀, u, p, ledger, revoked, voided, rfl, rfl⟩
    · exact (here (store ▸ old)).elim
    have enrolment : e₀ ∈ k.store.enrolments := by
      cases allowed with
      | redeem _ enrolment => exact enrolment
    obtain rfl : e₀ = e := Table.eq_of_key (store ▸ enrolment) stored
      (by rw [Enrolment.key, Enrolment.key, ← id]; rfl)
    exact ⟨i, c, k, u, p, ledger, revoked, voided, lands, store, allowed, result⟩

theorem spend_lands {S S' : Handlers.System} (reachable : Reachable S)
    (step : S.step service a = some S') (spends : Spends S S' e t) :
    ∃ i k, Spend S i e t k S' := by
  obtain ⟨i, c, k, u, p, ledger, revoked, voided, lands, store, allowed, _⟩ :=
    spend_effect reachable step spends
  cases allowed with
  | redeem request enrolment secret _ unvoided unexpired since owner live =>
    rw [store] at owner
    refine ⟨i, k, ⟨c, _, lands, request, secret.symm⟩, ?_⟩
    obtain ⟨T, reached, rest, clock, row⟩ := lands_since
      (f := fun σ => σ.enrolments.find? e.key) reachable lands since fun _ => enrolments_outside
    have there : e ∈ T.store.enrolments := by
      rw [← store, Table.find?_of_mem enrolment] at row
      exact (Table.find?_eq_some.mp row).1
    refine ⟨T, reached, rest, clock, there, unvoided, unexpired, ?_⟩
    obtain ⟨u₀, found⟩ := Option.isSome_iff_exists.mp (reached.inv.enrolmentOwner e there)
    obtain ⟨u', found', later⟩ := (rest.evolves reached).user? found
    obtain rfl := Option.some.inj (owner.symm.trans found')
    have alive : T.store.liveUser? e.userId = some u₀ :=
      Store.liveUser?_eq_some.mpr ⟨found, later.deletedAt.symm.trans live⟩
    simp [alive]

/-- An enrolment ends once and one way: no row is both spent and voided, a row
that has ended stays as it is, so no second step spends it, and a step that
spends it is a redemption whose spend found it unvoided, unexpired by the clock
of that moment and its owner live; a password changes only in a step that
spends an enrolment of its owner, or by `SetPassword`. -/
theorem enrolment_ends_once {S : Handlers.System} (reachable : Reachable S) :
    (∀ e ∈ S.store.enrolments, e.spentAt = none ∨ e.voidedAt = none) ∧
    (∀ S', Later S S' → ∀ e ∈ S.store.enrolments, e.spentAt ≠ none ∨ e.voidedAt ≠ none →
      e ∈ S'.store.enrolments ∧ (∀ a S'' x t, S'.step service a = some S'' → x.id = e.id →
        ¬Spends S' S'' x t)) ∧
    (∀ a S' e t, S.step service a = some S' → Spends S S' e t → ∃ i k, Spend S i e t k S') ∧
    ∀ a S' userId, S.step service a = some S' →
      S'.store.passwords.find? (weight userId) ≠ S.store.passwords.find? (weight userId) →
      (∃ i c k r, Lands S i c k S' ∧ c.request = .setPassword r ∧
        weight r.userId = weight userId) ∨
      ∃ i e t k, weight e.userId = weight userId ∧ Spends S S' e t ∧ Spend S i e t k S' := by
  refine ⟨reachable.inv.oneEnd, ?_, fun _ _ _ _ => spend_lands reachable, ?_⟩
  · intro S' later e stored ended
    have still : e ∈ S'.store.enrolments := by
      obtain ⟨e', stored', _, after⟩ := (later.evolves reachable).enrolments.mem stored
      exact after.ended ended ▸ stored'
    refine ⟨still, fun a S'' x t step id spends => ?_⟩
    obtain ⟨i, k, spend⟩ := spend_lands (reachable.later later) step spends
    obtain ⟨_, _, _, _, _, unvoided, _⟩ := spend.moment
    obtain rfl : x = e := Table.eq_of_key spends.1 still (by rw [Enrolment.key, Enrolment.key, id])
    exact ended.elim (fun spent => spent spends.2.1) fun voided => voided unvoided
  · intro a S' userId step changed
    rcases reachable.lands step with ⟨same, _⟩ | ⟨i, c, k, lands⟩
    · rw [same] at changed
      exact absurd rfl changed
    · obtain ⟨ef, allowed, store, result⟩ := lands_effect lands
      rw [result, ← store] at changed
      rcases password_changed allowed changed with ⟨r, request, owner⟩ |
        ⟨r, e, t, _, stored, unspent, owner, spent⟩
      · exact Or.inl ⟨i, c, k, r, lands, request, owner⟩
      · have spends : Spends S S' e t :=
          ⟨store ▸ stored, unspent, spentAt t e, by rw [result, ← store]; exact spent, rfl, rfl⟩
        obtain ⟨j, k', spend⟩ := spend_lands reachable step spends
        exact Or.inr ⟨j, e, t, k', owner, spends, spend⟩

end

/-! ### A run -/

def enrolledId : String := Team.userPrefix ++ firstUuid.text

def aSecret : Bytes := List.replicate 32 7

/-- An administrator is created, enrolled on a demand and redeems. -/
def enrolling : List (Action Call) :=
  calling firstUuid (.createUser ⟨[1], [2], [3], true, ""⟩) 0 1 ++
  calling firstUuid (.createEnrolment ⟨enrolledId, aSecret, some 100, true, false, false⟩) 1 1 ++
  calling firstUuid (.redeemEnrolment ⟨some "key", aSecret, "$argon2id$"⟩) 2 11

open Bytewise in
theorem demand_granted_enrolled : (after enrolling).store.enrolments.rows ≠ [] ∧
    ∀ i c k S'', Demands false enrolledId c → ¬Lands (after enrolling) i c k S'' :=
  ⟨by decide +kernel, ((demand_granted (reachable_after enrolling)).2 enrolledId
    (Or.inl (by decide +kernel)) _ .refl).1⟩

open Bytewise in
theorem enrolment_ends_once_enrolled : (after enrolling).store.enrolments.rows ≠ [] ∧
    ∀ e ∈ (after enrolling).store.enrolments, e.spentAt = none ∨ e.voidedAt = none :=
  ⟨by decide +kernel, (enrolment_ends_once (reachable_after enrolling)).1⟩

end IamDb.Enrolments
