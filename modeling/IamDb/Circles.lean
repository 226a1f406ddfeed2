import IamDb.LockOrder

/-! No circle of waiting transactions. Each verb is followed through its
statements, and at every one of them its session has its place in the order.
What breaks the order is a redemption that finds no enrolment when it looks for
the owner, and one to spend a statement later. -/
namespace IamDb.Circles
open Txn Schema Messages Service Effects Evolution Interference Handlers Runs LockOrder

section
variable [Engine]

section
variable {ℓ : Local Store Write Res}

/-! ### `RevokeAllCredentials` and `SetPassword` -/

theorem inOrder_revokeAllCredentials :
    InOrder (Credential.revokeAllCredentials r) Anyhow .fresh σ := by
  unfold Credential.revokeAllCredentials Epoch.revokeAll
  refine along_start.mpr fun σ₁ _ => ⟨⟨0, .still rfl⟩, ?_⟩
  rw [bind_assoc]
  refine along_query.mpr fun σ₂ now _ => ⟨⟨0, .free rfl⟩, fun _ => ?_⟩
  rw [Local.view_current rfl, Local.opened_pending, applyAll_nil]
  cases found : (σ₂.user? r.userId).isSome with
  | false =>
    simp only [Epoch.selectUserForUpdate, found]
    trivial
  | true =>
    have claims : (Epoch.selectUserForUpdate r.userId).claims now defaultIsolation σ₂ =
        [⟨⟨.user (weight r.userId), .exclusive⟩, true⟩] := by
      obtain ⟨u, there⟩ := Option.isSome_iff_exists.mp found
      simp [Epoch.selectUserForUpdate, userRow, there]
    have owning := owning_locked (ℓ := Local.opened .fresh defaultIsolation) rfl rfl rfl found
      claims (by simp [Epoch.selectUserForUpdate])
    simp only [Epoch.selectUserForUpdate, found]
    refine inOrder_updateRevokedAt owning fun _ ℓ₁ σ₃ _ owning₁ _ => ?_
    refine inOrder_bump owning₁ fun _ ℓ₂ σ₄ _ owning₂ _ => ?_
    exact inOrder_voidEnrolments owning₂ fun _ _ _ _ _ _ => inOrder_silent trivial

/-- A session that has just looked for a live user and found none: its lock on
what it looked at keeps it so. -/
theorem not_live (dead : σ.liveUser? userId = none)
    (calm : Calm ((Local.opened .fresh .repeatableRead).after
      (Epoch.updateEpoch userId fun u => u.deletedAt.isNone) σ now) σ σ') :
    σ'.liveUser? userId = none := by
  have claimed (claim : Claim Res) (kept : claim.kept = true)
      (member : claim ∈ userRow .exclusive userId (fun u => u.deletedAt.isNone) .repeatableRead σ) :
      Holds ((Local.opened .fresh .repeatableRead).after
        (Epoch.updateEpoch userId fun u => u.deletedAt.isNone) σ now).held claim.lock.res
        claim.lock.mode :=
    ⟨now, List.mem_append_right _ (mem_granted.mpr
      ⟨claim, List.mem_filter.mpr ⟨member, kept⟩, rfl, rfl⟩)⟩
  cases found : σ.user? userId with
  | none =>
    have gap := claimed (share (.userGap (weight userId))) rfl (by simp [userRow, found])
    simp [Store.liveUser?, calm.absent_user gap found]
  | some u =>
    have row := claimed ⟨⟨.user (weight userId), .exclusive⟩, true⟩ rfl (by simp [userRow, found])
    rw [Store.liveUser?, Store.user?, calm.user_row row]
    exact dead

theorem inOrder_storePassword : InOrder (Password.storePassword r) Anyhow .fresh σ := by
  unfold Password.storePassword
  refine along_lift fun _ => along_start.mpr fun σ₁ _ => ⟨⟨0, .still rfl⟩, ?_⟩
  refine along_query.mpr fun σ₂ now _ => ⟨⟨0, .free rfl⟩, fun _ => ?_⟩
  rw [Local.view_current rfl, Local.opened_pending, applyAll_nil]
  cases live : σ₂.liveUser? r.userId with
  | none =>
    have bumped : (Epoch.updateEpoch r.userId fun u => u.deletedAt.isNone).exec now σ₂ = (0, []) := by
      unfold Store.liveUser? at live
      simp only [Epoch.updateEpoch, live]
    rw [bumped]
    unfold liveUser
    simp only [bind_assoc, if_true]
    refine along_query.mpr fun σ₃ now' drift => ⟨⟨0, .still rfl⟩, fun _ => ?_⟩
    -- The re-read is the first plain one, so it sees the latest store.
    have view : ((Local.opened .fresh defaultIsolation).after
        (Epoch.updateEpoch r.userId fun u => u.deletedAt.isNone) σ₂ now).view
        (selectLiveUser r.userId) σ₃ = σ₃ := by
      show applyAll ((Epoch.updateEpoch r.userId fun u => u.deletedAt.isNone).exec now σ₂).2 σ₃ = σ₃
      rw [bumped, applyAll_nil]
    rw [view]
    simp only [selectLiveUser, not_live live (calm_of_drift quiet_others drift)]
    trivial
  | some u =>
    have found := (Store.liveUser?_eq_some.mp live).1
    have bumped : (Epoch.updateEpoch r.userId fun u => u.deletedAt.isNone).exec now σ₂ =
        (1, [.user { u with credentialEpoch := u.credentialEpoch + 1 }]) := by
      unfold Store.liveUser? at live
      simp only [Epoch.updateEpoch, live]
    have claims : (Epoch.updateEpoch r.userId fun u => u.deletedAt.isNone).claims now
        defaultIsolation σ₂ = [⟨⟨.user (weight r.userId), .exclusive⟩, true⟩] := by
      simp [Epoch.updateEpoch, userRow, found, defaultIsolation]
    have leaves : ∀ w ∈ ((Epoch.updateEpoch r.userId fun u => u.deletedAt.isNone).exec now σ₂).2,
        Leaves σ₂ w := by
      rw [bumped]
      intro w write
      obtain rfl := List.mem_singleton.mp write
      trivial
    have owning := owning_locked (ℓ := Local.opened .fresh defaultIsolation) rfl rfl rfl
      (by rw [found]; rfl) claims leaves
    rw [bumped]
    simp only [Nat.one_ne_zero, if_false]
    refine inOrder_owning owning (Or.inl rfl) (fun _ _ there => below_insertPassword
      (known_pending there.pending there.known)) fun done _ _ _ _ _ => inOrder_silent ?_
    split
    · exact unclaiming_liveUser.bind fun _ => trivial
    · trivial

end

/-! ### `RedeemEnrolment` -/

section
variable {ℓ : Local Store Write Res} {Q : α → Local Store Write Res → Store → Prop}

/-- Plain reads at READ COMMITTED leave the session as it was. -/
theorem inOrder_reads {p : Rpc β} {k : β → Rpc α} (iso : ℓ.iso = .readCommitted)
    (inner : p.Inner) (each : p.Each Unclaiming)
    (rest : ∀ b σ', Calm ℓ σ σ' → InOrder (k b) Q ℓ σ') : InOrder (p >>= k) Q ℓ σ := by
  refine along_bind (along_inner (D := fun ℓ' σ' => ℓ' = ℓ ∧ Calm ℓ σ σ') inner each
    ⟨rfl, .refl _ _⟩ ?_ ?_ ?_)
  · rintro _ n σ₁ σ₂ ⟨rfl, before⟩ drift
    exact ⟨rfl, before.trans (calm_of_drift quiet_others drift)⟩
  · rintro ρ s _ σ₁ now silent ⟨rfl, before⟩
    exact ⟨⟨0, .still (silent _ _ _)⟩, Local.after_read iso silent.reads silent, before⟩
  · rintro b _ σ₁ ⟨rfl, before⟩
    exact rest b σ₁ before

/-- A redemption at its spend, or past a spend in vain: it holds nothing yet, or
its enrolment's owner. -/
def Placed (secret : Bytes) (ℓ : Local Store Write Res) (σ : Store) : Prop :=
  ℓ.held = [] ∨ ∃ user, Owning user ℓ σ ∧ Hangs user σ (.secret secret)

theorem Placed.calm (placed : Placed secret ℓ σ) (calm : Calm ℓ σ σ') : Placed secret ℓ σ' :=
  placed.imp_right fun ⟨user, owning, hangs⟩ =>
    ⟨user, owning.calm calm, hangs.kept (keeps_of_evolves calm.evolves)⟩

theorem Placed.stands (placed : Placed secret ℓ σ) (claims : List (Claim Res))
    (below : ∀ user, Hangs user σ (.secret secret) → ∀ k ∈ claims,
      Hangs user σ k.lock.res ∨ ∃ key, k.lock.res = .redemption key) :
    ∃ n, Stands ℓ σ claims n := by
  rcases placed with none | ⟨user, owning, hangs⟩
  · exact ⟨0, .free none⟩
  · exact ⟨3, .owning owning (below user hangs)⟩

theorem below_updateSpentAt {σ : Store} (inv : Integrity σ) (hangs : Hangs user σ (.secret secret)) :
    Below user (Enrolment.updateSpentAt secret) now iso σ where
  claims k claim := by
    simp only [Enrolment.updateSpentAt] at claim
    split at claim
    · rename_i e found
      obtain ⟨stored, named⟩ := Store.enrolment?_mem found
      obtain ⟨e', stored', named', owner⟩ := hangs
      obtain rfl := inv.secrets e stored e' stored' (named.trans named'.symm)
      simp only [List.mem_cons, List.not_mem_nil, or_false] at claim
      rcases claim with rfl | rfl
      · exact ⟨e, stored, named, owner⟩
      · exact ⟨e, stored, rfl, owner⟩
    · obtain rfl := List.mem_singleton.mp claim
      exact hangs
  writes w write := by
    simp only [Enrolment.updateSpentAt] at write
    split at write
    · rename_i e found
      obtain rfl := List.mem_singleton.mp write
      exact ⟨e, (Store.enrolment?_mem (Option.filter_eq_some_iff.mp found).1).1, rfl, rfl, rfl⟩
    · cases write

/-- Past its first statement a replay claims nothing. -/
theorem unclaiming_replayed (prior : Option Redemption) :
    (Reasons.replayed secret prior).Each Unclaiming := by
  cases prior with
  | none => trivial
  | some prior =>
    rw [Reasons.replayed]
    split
    · trivial
    · have username : Unclaiming _ (Enrolment.selectExternalId prior.userId) := fun _ _ _ => rfl
      have flag : Unclaiming _ (Enrolment.selectRevoking prior.enrolmentId) := fun _ _ _ => rfl
      exact ⟨username, fun _ => unclaiming_orElse.bind fun _ =>
        ⟨flag, fun _ => unclaiming_orElse.bind fun _ => trivial⟩⟩

theorem unclaiming_replay : (Enrolment.replay key secret .no).Each Unclaiming := by
  have silent : Unclaiming _ (Enrolment.selectRedemption key .no) := fun _ _ _ => rfl
  exact Prog.each_query.mpr ⟨silent, unclaiming_replayed⟩

theorem unclaiming_unredeemable : (Enrolment.unredeemable secret).Each Unclaiming := by
  refine Prog.each_query.mpr ⟨fun _ _ _ => rfl, fun row => ?_⟩
  match row with
  | none => trivial
  | some (true, _) => trivial
  | some (false, true) => trivial
  | some (false, false) => trivial

theorem inOrder_unspent (placed : Placed secret ℓ σ) :
    InOrder (Enrolment.unspent key r) Anyhow ℓ σ := by
  have failed : (do
      let outcome ← Enrolment.unredeemable r.secretHash
      commit
      pure ⟨outcome, "", "", [], false, 0, 0⟩ : Rpc RedeemEnrolmentResponse).Each Unclaiming :=
    unclaiming_unredeemable.bind fun _ => trivial
  unfold Enrolment.unspent
  split
  · exact inOrder_silent failed
  · unfold Enrolment.replay
    rw [bind_assoc]
    refine along_query.mpr fun σ₁ now drift => ⟨?_, fun _ => ?_⟩
    · refine (placed.calm (calm_of_drift quiet_others drift)).stands _ fun _ _ k claim => Or.inr ?_
      obtain rfl := List.mem_singleton.mp claim
      exact ⟨_, rfl⟩
    · refine inOrder_silent ((unclaiming_replayed _).bind fun replayed => ?_)
      cases replayed with
      | none => exact failed
      | some a => trivial

theorem unclaiming_current : (Epoch.current userId).Each Unclaiming :=
  Prog.each_query.mpr ⟨fun _ _ _ => rfl, fun _ => unclaiming_orElse⟩

omit [Engine] in
@[simp] theorem insertRow_res (r : Res) (taken : Bool) : (insertRow r taken).lock.res = r := by
  cases taken <;> rfl

/-- The end of a redemption: the password and the ledger row. -/
theorem inOrder_stored (key : String) (epoch : Nat) (externalId : Bytes) (revoking : Bool)
    (voided : Nat) (r : RedeemEnrolmentRequest) (owning : Owning (weight userId) ℓ σ)
    (hangs : Hangs (weight userId) σ (.enrolment (weight enrolmentId))) :
    InOrder (do
      let stored ← tx (Enrolment.upsertPassword userId r.argon2idHash)
      orElse db stored
      if key = "" then pure () else do
        let recorded ← tx (Enrolment.insertRedemption ⟨key, r.secretHash, enrolmentId, userId, epoch⟩)
        orElse db recorded
      commit
      pure ⟨.redeemed, userId, enrolmentId, externalId, revoking, epoch, voided⟩ :
        Rpc RedeemEnrolmentResponse) Anyhow ℓ σ := by
  refine inOrder_owning owning (Or.inl rfl) (fun _ _ _ => below_upsertPassword)
    fun stored ℓ₁ σ₁ first owning₁ _ => ?_
  cases stored with
  | error e => trivial
  | ok _ =>
    show InOrder (_ >>= fun _ => _) Anyhow ℓ₁ σ₁
    split
    · exact inOrder_silent trivial
    · show InOrder (tx (Enrolment.insertRedemption _) >>= _) Anyhow ℓ₁ σ₁
      refine along_query.mpr fun σ₂ now drift => ?_
      have calm : Calm ℓ₁ σ₁ σ₂ := calm_of_drift quiet_others drift
      refine ⟨⟨3, .owning (owning₁.calm calm) fun k claim => ?_⟩,
        fun _ => inOrder_silent (unclaiming_orElse.bind fun _ => trivial)⟩
      simp only [Enrolment.insertRedemption] at claim
      split at claim
      case isFalse => cases claim
      simp only [List.mem_cons, List.not_mem_nil, or_false] at claim
      rcases claim with rfl | rfl
      · exact Or.inr ⟨weight key, insertRow_res _ _⟩
      · exact Or.inl (hangs.kept (keeps_of_evolves (first.trans calm.evolves)))

theorem inOrder_redeemed (inv : Integrity σ) (iso : ℓ.iso = .readCommitted)
    (owning : Owning user ℓ σ) (hangs : Hangs user σ (.secret r.secretHash)) :
    InOrder (Enrolment.redeemed key r) Anyhow ℓ σ := by
  unfold Enrolment.redeemed
  refine inOrder_read iso (fun _ _ => rfl) (fun _ _ _ => rfl) fun σ₁ now calm => ?_
  have inv := calm.integrity inv
  have owning := owning.calm calm
  have hangs := hangs.kept (keeps_of_evolves calm.evolves)
  have keeps : Keeps (applyAll ℓ.pending σ₁) σ₁ := keeps_pending owning.pending (.refl σ₁)
  cases found : (applyAll ℓ.pending σ₁).enrolment? r.secretHash with
  | none =>
    simp only [Enrolment.selectRedeemed, found]
    trivial
  | some e =>
    cases known : (applyAll ℓ.pending σ₁).user? e.userId with
    | none =>
      simp only [Enrolment.selectRedeemed, found, Option.bind_some, known]
      trivial
    | some u =>
      simp only [Enrolment.selectRedeemed, found, Option.bind_some, known]
      obtain ⟨stored, named⟩ := Store.enrolment?_mem found
      have mine : Hangs (weight e.userId) (applyAll ℓ.pending σ₁) (.secret r.secretHash) :=
        ⟨e, stored, named, rfl⟩
      obtain rfl := hangs.unique inv (mine.kept keeps)
      have row : Hangs (weight e.userId) (applyAll ℓ.pending σ₁) (.enrolment (weight e.id)) :=
        ⟨e, stored, rfl, rfl⟩
      have row := row.kept keeps
      -- From here on the session owns the row it is about to count up.
      refine inOrder_bump owning fun _ ℓ₁ σ₂ first owning₁ iso₁ => ?_
      refine inOrder_reads (iso₁.trans iso) Endings.inner_current unclaiming_current
        fun epoch σ₃ calm₂ => ?_
      have done (voided : Nat) {ℓ' : Local Store Write Res} {σ' : Store}
          (evolves : Evolves σ₃ σ') (owning : Owning (weight e.userId) ℓ' σ') :=
        inOrder_stored key epoch u.externalId e.revokeExistingCredentials voided r owning
          (row.kept (keeps_of_evolves ((first.trans calm₂.evolves).trans evolves)))
      split
      · refine inOrder_revokeAll (owning₁.calm calm₂) fun _ ℓ₂ σ₄ second owning₂ _ => ?_
        refine inOrder_voidEnrolments owning₂ fun voided ℓ₃ σ₅ third owning₃ _ => ?_
        exact done voided (second.trans third) owning₃
      · exact done 0 (.refl _) (owning₁.calm calm₂)

/-- A spend in vain keeps no lock. -/
theorem kept_of_vain {σ : Store}
    (vain : (σ.enrolment? secret).filter (Enrolment.spendable now σ) = none)
    (committed : iso = .readCommitted) :
    ((Enrolment.updateSpentAt secret).claims now iso σ).filter (·.kept) = [] := by
  subst committed
  cases found : σ.enrolment? secret with
  | none => simp [Enrolment.updateSpentAt, found]
  | some e =>
    rw [found, Option.filter_some] at vain
    have unmatched : Enrolment.spendable now σ e = false := by
      by_contra matched
      rw [if_pos (by simpa using matched)] at vain
      cases vain
    simp [Enrolment.updateSpentAt, found, unmatched]

theorem inOrder_spend (inv : Integrity σ) (clean : Reasons.Clean ℓ)
    (placed : Placed r.secretHash ℓ σ) : InOrder (do
      let spent ← Enrolment.spend r
      if spent = 0 then Enrolment.unspent key r else Enrolment.redeemed key r) Anyhow ℓ σ := by
  refine along_query.mpr fun σ₁ now drift => ?_
  have calm : Calm ℓ σ σ₁ := calm_of_drift quiet_others drift
  have inv := calm.integrity inv
  have placed := placed.calm calm
  refine ⟨placed.stands _ fun user hangs k claim => Or.inl ?_, fun guarded => ?_⟩
  · rw [clean.view] at claim
    exact (below_updateSpentAt inv hangs).claims k claim
  have spent (user : String) (owning : Owning user ℓ σ₁)
      (hangs : Hangs user σ₁ (.secret r.secretHash)) :
      Owning user (ℓ.after (Enrolment.updateSpentAt r.secretHash) σ₁ now) σ₁ := by
    refine (owning.after (Or.inl rfl) ?_).1
    rw [clean.pending]
    exact below_updateSpentAt inv hangs
  cases vain : (σ₁.enrolment? r.secretHash).filter (Enrolment.spendable now σ₁) with
  | none =>
    have nothing : (Enrolment.updateSpentAt r.secretHash).exec now σ₁ = (0, []) := by
      simp only [Enrolment.updateSpentAt, vain]
    rw [clean.view, nothing]
    have unspent : Placed r.secretHash (ℓ.after (Enrolment.updateSpentAt r.secretHash) σ₁ now)
        σ₁ := by
      rcases placed with none | ⟨user, owning, hangs⟩
      · left
        rw [Local.after_held, clean.view, none, kept_of_vain vain clean.iso]
        rfl
      · exact Or.inr ⟨user, spent user owning hangs, hangs⟩
    exact inOrder_unspent unspent
  | some e =>
    have something : ((Enrolment.updateSpentAt r.secretHash).exec now σ₁).1 = 1 := by
      simp only [Enrolment.updateSpentAt, vain]
    rw [clean.view, something]
    rcases placed with none | ⟨user, owning, hangs⟩
    · obtain ⟨_, held⟩ := guarded r.secretHash e rfl (by rw [clean.view]; exact vain)
      rw [none] at held
      cases held
    · exact inOrder_redeemed inv clean.iso (spent user owning hangs) hangs

theorem inOrder_redeemFresh (inv : Integrity σ) (clean : Reasons.Clean ℓ) (none : ℓ.held = []) :
    InOrder (Enrolment.redeemFresh key r) Anyhow ℓ σ := by
  unfold Enrolment.redeemFresh Enrolment.lockOwner
  refine along_lift fun _ => ?_
  rw [bind_assoc]
  refine inOrder_read clean.iso (fun _ _ => rfl) (fun _ _ _ => rfl) fun σ₁ now calm => ?_
  have inv := calm.integrity inv
  rw [clean.pending, applyAll_nil]
  cases found : σ₁.enrolment? r.secretHash with
  | none =>
    simp only [Enrolment.selectOwner, found]
    exact inOrder_spend inv clean (Or.inl none)
  | some e =>
    simp only [Enrolment.selectOwner, found]
    obtain ⟨stored, named⟩ := Store.enrolment?_mem found
    refine along_query.mpr fun σ₂ now' drift => ⟨⟨0, .free none⟩, fun _ => ?_⟩
    have calm₂ : Calm ℓ σ₁ σ₂ := calm_of_drift quiet_others drift
    have known := calm₂.evolves.user?_isSome (inv.enrolmentOwner e stored)
    obtain ⟨u, there⟩ := Option.isSome_iff_exists.mp known
    have owning : Owning (weight e.userId)
        (ℓ.after (Epoch.selectUserForUpdate e.userId) σ₂ now') σ₂ :=
      owning_locked none clean.pending rfl known
        (by simp [Epoch.selectUserForUpdate, userRow, there]) (by simp [Epoch.selectUserForUpdate])
    have hangs : Hangs (weight e.userId) σ₁ (.secret r.secretHash) := ⟨e, stored, named, rfl⟩
    exact inOrder_spend (calm₂.integrity inv) (clean.after rfl)
      (Or.inr ⟨_, owning, hangs.kept (keeps_of_evolves calm₂.evolves)⟩)

theorem inOrder_redeem (inv : Integrity σ) : InOrder (Enrolment.redeem r) Anyhow .fresh σ := by
  unfold Enrolment.redeem
  refine along_start.mpr fun σ₁ drift => ⟨⟨0, .still rfl⟩, ?_⟩
  have inv := (calm_of_drift quiet_others drift).integrity inv
  dsimp only
  split
  · exact inOrder_redeemFresh inv ⟨rfl, rfl⟩ rfl
  · refine inOrder_reads rfl Endings.inner_replay unclaiming_replay fun replayed σ₂ calm => ?_
    cases replayed with
    | none => exact inOrder_redeemFresh (calm.integrity inv) ⟨rfl, rfl⟩ rfl
    | some a => exact inOrder_silent trivial

end

/-! ### The verbs under the `administrators` row -/

section
variable {ℓ : Local Store Write Res} {Q : α → Local Store Write Res → Store → Prop}

/-- A statement that claims no row below a user row, and not the sync lock. -/
def Sideways (ρ : Type) (s : Sql ρ) : Prop :=
  ∀ now iso σ, ∀ k ∈ s.claims now iso σ, Beside k.lock.res ∧ k.lock.res ≠ .teamSyncLock

theorem Sideways.held {s : Sql ρ} (sideways : Sideways ρ s)
    (held : ∀ g ∈ ℓ.held, Beside g.lock.res) : ∀ g ∈ (ℓ.after s σ now).held, Beside g.lock.res := by
  intro g mine
  rcases List.mem_append.mp mine with old | new
  · exact held g old
  · obtain ⟨k, member, same, _⟩ := mem_granted.mp new
    exact same ▸ (sideways _ _ _ k (List.mem_filter.mp member).1).1

theorem sideways_of_unclaiming {s : Sql ρ} (silent : Unclaiming ρ s) : Sideways ρ s := by
  intro now iso σ k claim
  rw [silent] at claim
  cases claim

theorem sideways_userRow (claim : k ∈ userRow mode userId matched iso σ) :
    Beside k.lock.res ∧ k.lock.res ≠ .teamSyncLock := by
  unfold userRow at claim
  split at claim
  · obtain rfl := List.mem_singleton.mp claim
    simp [Beside]
  · split at claim
    · simp only [List.mem_cons, List.not_mem_nil, or_false] at claim
      rcases claim with rfl | rfl <;> simp [share, Beside]
    · obtain rfl := List.mem_singleton.mp claim
      simp [Beside]

theorem sideways_teamRow (claim : k ∈ teamRow mode teamId matched iso σ) :
    Beside k.lock.res ∧ k.lock.res ≠ .teamSyncLock := by
  unfold teamRow at claim
  split at claim <;> (obtain rfl := List.mem_singleton.mp claim; simp [Beside])

/-- A statement under the `administrators` row. -/
theorem inOrder_writing {p : Rpc β} {k : β → Rpc α} (inner : p.Inner) (each : p.Each Sideways)
    (writing : Writing ℓ σ) (rest : ∀ b ℓ' σ', Writing ℓ' σ' → InOrder (k b) Q ℓ' σ') :
    InOrder (p >>= k) Q ℓ σ := by
  refine along_bind (along_inner inner each writing
    (fun ℓ n σ σ' writing drift => writing.calm (calm_of_drift quiet_others drift)) ?_ rest)
  intro ρ s ℓ σ now sideways writing
  exact ⟨⟨2, .writing writing fun k claim => (sideways _ _ _ k claim).2⟩,
    Local.holds_after writing.team, writing.there, sideways.held writing.held⟩

theorem inOrder_declaring {p : Rpc β} {k : β → Rpc α} (inner : p.Inner) (each : p.Each Sideways)
    (declaring : Declaring ℓ σ) (rest : ∀ b ℓ' σ', Declaring ℓ' σ' → InOrder (k b) Q ℓ' σ') :
    InOrder (p >>= k) Q ℓ σ := by
  refine along_bind (along_inner inner each declaring
    (fun ℓ n σ σ' declaring drift => declaring.calm (calm_of_drift quiet_others drift)) ?_ rest)
  intro ρ s ℓ σ now sideways declaring
  exact ⟨⟨2, .declaring declaring⟩, Local.holds_after declaring.synced,
    fun there => Local.holds_after (declaring.team there), sideways.held declaring.held⟩

/-- A session that has locked the `administrators` row and found it. -/
theorem writing_locked (none : ℓ.held = []) (clean : ℓ.pending = [])
    (there : (σ.team? Team.administrators).isSome) :
    Writing (ℓ.after Team.selectAdministratorsForUpdate σ now) σ := by
  obtain ⟨t, found⟩ := Option.isSome_iff_exists.mp there
  have view : ℓ.view Team.selectAdministratorsForUpdate σ = σ := by
    rw [Local.view_current rfl, clean, applyAll_nil]
  have claims : Team.selectAdministratorsForUpdate.claims now ℓ.iso σ =
      [⟨⟨.team (weight Team.administrators), .exclusive⟩, true⟩] := by
    simp [Team.selectAdministratorsForUpdate, teamRow, found]
  have held : (ℓ.after Team.selectAdministratorsForUpdate σ now).held =
      [⟨⟨.team (weight Team.administrators), .exclusive⟩, now⟩] := by
    rw [Local.after_held, view, claims, none]
    rfl
  refine ⟨⟨now, by rw [held]; exact List.mem_cons_self⟩, there, fun g mine => ?_⟩
  rw [held] at mine
  obtain rfl := List.mem_singleton.mp mine
  trivial

/-- What begins under the lock on a live `administrators` row. -/
theorem inOrder_administrators {k : Option Bool → Rpc α} (none : ℓ.held = [])
    (clean : ℓ.pending = []) (refused : ∀ live ℓ' σ', live ≠ some true → InOrder (k live) Q ℓ' σ')
    (rest : ∀ ℓ' σ', Writing ℓ' σ' → InOrder (k (some true)) Q ℓ' σ') :
    InOrder (Team.lockAdministrators >>= k) Q ℓ σ := by
  refine along_query.mpr fun σ₁ now _ => ⟨⟨0, .free none⟩, fun _ => ?_⟩
  rw [Local.view_current rfl, clean, applyAll_nil]
  by_cases live : (Team.selectAdministratorsForUpdate.exec now σ₁).1 = some true
  · rw [live]
    refine rest _ _ (writing_locked none clean ?_)
    have live : (σ₁.team? Team.administrators).map (fun t => t.deletedAt.isNone) = some true := live
    rw [← Option.isSome_map (f := fun t : Team => t.deletedAt.isNone), live]
    rfl
  · exact refused _ _ _ live

end

section
variable {ℓ : Local Store Write Res}

theorem sideways_selectAdministratorsForUpdate :
    Sideways _ Team.selectAdministratorsForUpdate := fun _ _ _ _ => sideways_teamRow

theorem sideways_demand : (Enrolment.predicate userId).Each Sideways := by
  unfold Enrolment.predicate
  refine Prog.each_query.mpr ⟨sideways_selectAdministratorsForUpdate, fun live => ?_⟩
  split
  · trivial
  · refine Prog.each_query.mpr ⟨fun _ _ _ _ => sideways_userRow, fun found => ?_⟩
    split
    · trivial
    · refine Prog.each_query.mpr ⟨sideways_of_unclaiming fun _ _ _ => rfl, fun member => ?_⟩
      split
      · trivial
      · exact ⟨sideways_of_unclaiming fun _ _ _ => rfl, fun _ => trivial⟩

theorem aside_insertEnrolment (claim : k ∈ (Enrolment.insertEnrolment enrolmentId secret seconds
    userId revoking matched fun _ => []).claims now iso σ) : k.lock.res ≠ .teamSyncLock := by
  simp only [Enrolment.insertEnrolment, List.append_nil, List.mem_append] at claim
  rcases claim with user | row
  · exact (sideways_userRow user).2
  · split at row
    · simp only [List.mem_cons, List.not_mem_nil, or_false] at row
      rcases row with rfl | rfl <;> simp
    · cases row

theorem inOrder_issue : InOrder (Enrolment.issue enrolmentId r seconds) Anyhow .fresh σ := by
  unfold Enrolment.issue Enrolment.predicate
  refine along_start.mpr fun σ₁ _ => ⟨⟨0, .still rfl⟩, ?_⟩
  rw [bind_assoc]
  refine inOrder_administrators rfl rfl (fun live ℓ' σ' absent => ?_) fun ℓ₁ σ₂ writing => ?_
  · rw [if_pos absent]
    trivial
  · refine inOrder_writing (Endings.inner_demand (some true)) (sideways_demand.2 (some true)) writing
      fun decided ℓ₂ σ₃ writing => ?_
    cases decided with
    | error e => trivial
    | ok n =>
      refine along_query.mpr fun σ₄ now drift => ⟨⟨2, .writing
        (writing.calm (calm_of_drift quiet_others drift)) fun k claim => ?_⟩,
        fun _ => inOrder_silent (unclaiming_orElse.bind fun _ => trivial)⟩
      split at claim <;> exact aside_insertEnrolment claim

theorem sideways_deletePending : Sideways _ (Team.deletePending selected) := by
  intro now iso σ k claim
  obtain ⟨p, _, rfl⟩ := List.mem_map.mp claim
  simp [exclude, Beside]

theorem sideways_insertMember : Sideways _ (Team.insertMember teamId userId) := by
  intro now iso σ k claim
  simp only [Team.insertMember, List.mem_cons, List.not_mem_nil, or_false] at claim
  rcases claim with rfl | rfl | rfl <;> simp [share, Beside]

theorem sideways_insertUserRow : Sideways _ (Identity.insertUserRow userId r isAdmin) := by
  intro now iso σ k claim
  simp only [Identity.insertUserRow, List.mem_cons, List.not_mem_nil, or_false] at claim
  rcases claim with rfl | rfl | rfl | rfl <;> simp [intend, Beside]

theorem sideways_predicate : (Identity.predicate userId).Each Sideways := by
  unfold Identity.predicate
  refine Prog.each_query.mpr ⟨sideways_selectAdministratorsForUpdate, fun live => ?_⟩
  split
  · trivial
  · refine Prog.each_query.mpr ⟨sideways_of_unclaiming fun _ _ _ => rfl, fun n => ?_⟩
    split
    · trivial
    · refine Prog.each_query.mpr ⟨sideways_of_unclaiming fun _ _ _ => rfl, fun taken => ?_⟩
      split
      · trivial
      · exact ⟨sideways_of_unclaiming fun _ _ _ => rfl, fun _ => trivial⟩

theorem sideways_orElse {d : Except DbError ρ} : (orElse e d : Rpc ρ).Each Sideways := by
  cases d <;> trivial

theorem inOrder_insertDeclaredUser :
    InOrder (Identity.insertDeclaredUser r) Anyhow .fresh σ := by
  unfold Identity.insertDeclaredUser
  split
  · trivial
  · unfold Identity.predicate
    refine along_start.mpr fun σ₁ _ => ⟨⟨0, .still rfl⟩, ?_⟩
    rw [bind_assoc]
    refine inOrder_administrators rfl rfl (fun live ℓ' σ' absent => ?_) fun ℓ₁ σ₂ writing => ?_
    · rw [if_pos absent]
      trivial
    · refine inOrder_writing (Endings.inner_predicate (some true))
        (sideways_predicate.2 (some true)) writing fun decided ℓ₂ σ₃ writing => ?_
      cases decided with
      | error e => trivial
      | ok _ =>
        refine inOrder_writing Prog.inner_query_only
          (Prog.each_query_only.mpr sideways_insertUserRow) writing fun done ℓ₃ σ₄ writing => ?_
        refine inOrder_writing Endings.inner_orElse sideways_orElse writing
          fun _ ℓ₄ σ₅ writing => ?_
        refine inOrder_writing Prog.inner_query_only
          (Prog.each_query_only.mpr sideways_insertMember) writing fun joined ℓ₅ σ₆ writing => ?_
        refine inOrder_writing Endings.inner_orElse sideways_orElse writing
          fun _ ℓ₆ σ₇ writing => ?_
        exact inOrder_writing Prog.inner_query_only
          (Prog.each_query_only.mpr sideways_deletePending) writing
          fun _ _ _ _ => inOrder_silent trivial

/-! ### `SyncTeams` -/

theorem sideways_knownUsers : (Team.knownUsers members known).Each Sideways := by
  induction members generalizing known with
  | nil => trivial
  | cons m rest ih =>
    rw [Team.knownUsers]
    split
    · exact ih
    · exact ⟨sideways_of_unclaiming fun _ _ _ => rfl, fun _ => ih⟩

theorem sideways_updateTeamDeletedAt : Sideways _ (Team.updateTeamDeletedAt teamId deletedAt) :=
  fun _ _ _ _ => sideways_teamRow

theorem sideways_openTeams : (Team.openTeams stored declared progress).Each Sideways := by
  induction declared generalizing progress with
  | nil => trivial
  | cons team rest ih =>
    have row : Sideways _ (Team.insertTeamRow team) := by
      intro now iso σ k claim
      simp only [Team.insertTeamRow, List.mem_cons, List.not_mem_nil, or_false] at claim
      rcases claim with rfl | rfl <;> simp [Beside]
    rw [Team.openTeams]
    split
    · refine Prog.Each.bind ?_ fun _ => ih
      unfold Team.insertTeam
      refine Prog.each_query.mpr ⟨row, fun done => ?_⟩
      cases done <;> trivial
    · exact ⟨sideways_updateTeamDeletedAt, fun _ => ih.bind fun _ => trivial⟩
    · exact ih

theorem sideways_archiveTeams : (Team.archiveTeams declared stored progress).Each Sideways := by
  induction stored generalizing progress with
  | nil => trivial
  | cons entry rest ih =>
    rw [Team.archiveTeams]
    split
    · exact ih
    · exact ⟨sideways_updateTeamDeletedAt, fun _ =>
        ⟨sideways_of_unclaiming fun _ _ _ => rfl, fun _ => ih⟩⟩

theorem sideways_removeMembers : (Team.removeMembers teamId gone progress).Each Sideways := by
  induction gone generalizing progress with
  | nil => trivial
  | cons m rest ih =>
    have row : Sideways _ (Team.deleteMember teamId m) := by
      intro now iso σ k claim
      obtain rfl := List.mem_singleton.mp claim
      simp [Beside]
    rw [Team.removeMembers]
    exact ⟨row, fun _ => ih⟩

theorem sideways_addMembers : (Team.addMembers teamId new progress).Each Sideways := by
  induction new generalizing progress with
  | nil => trivial
  | cons m rest ih =>
    rw [Team.addMembers]
    exact ⟨sideways_insertMember, fun _ => sideways_orElse.bind fun _ => ih⟩

theorem sideways_writeAllMembers :
    (Team.writeAllMembers known reactivated declared progress).Each Sideways := by
  induction declared generalizing progress with
  | nil => trivial
  | cons team rest ih =>
    rw [Team.writeAllMembers]
    refine Prog.Each.bind ?_ fun _ => ih
    unfold Team.writeMembers
    exact ⟨sideways_of_unclaiming fun _ _ _ => rfl,
      fun _ => sideways_removeMembers.bind fun _ => sideways_addMembers⟩

theorem sideways_replacePending : (Team.replacePending pending).Each Sideways := by
  unfold Team.replacePending
  refine Prog.each_query.mpr ⟨sideways_deletePending, fun _ => ?_⟩
  induction pending with
  | nil => trivial
  | cons p rest ih =>
    have row : Sideways _ (Team.insertPending Team.administrators p) := by
      intro now iso σ k claim
      simp only [Team.insertPending, List.mem_cons, List.not_mem_nil, or_false] at claim
      rcases claim with rfl | rfl <;> simp [share, Beside]
    rw [Team.insertAllPending]
    exact ⟨row, fun _ => sideways_orElse.bind fun _ => ih⟩

theorem inner_writeTeams : (Team.writeTeams declared progress).Inner := by
  unfold Team.writeTeams
  exact fun rows => Endings.inner_openTeams.bind fun _ =>
    Endings.inner_archiveTeams.bind fun _ => trivial

theorem sideways_writeTeams : (Team.writeTeams declared progress).Each Sideways := by
  unfold Team.writeTeams
  exact ⟨sideways_of_unclaiming fun _ _ _ => rfl, fun rows => sideways_openTeams.bind fun _ =>
    sideways_archiveTeams.bind fun _ => trivial⟩

/-- A session that holds the sync lock and has then locked the `administrators`
row, if there is one. -/
theorem declaring_locked (synced : Holds ℓ.held .teamSyncLock .exclusive)
    (only : ∀ g ∈ ℓ.held, g.lock.res = .teamSyncLock) (clean : ℓ.pending = []) :
    Declaring (ℓ.after Team.selectAdministratorsForUpdate σ now) σ := by
  refine ⟨Local.holds_after synced, fun there => ?_, sideways_selectAdministratorsForUpdate.held
    fun g mine => only g mine ▸ trivial⟩
  obtain ⟨t, found⟩ := Option.isSome_iff_exists.mp there
  refine Local.holds_claimed ?_
  rw [Local.view_current rfl, clean, applyAll_nil]
  simp [Team.selectAdministratorsForUpdate, teamRow, found]

theorem inOrder_syncTeams : InOrder (Team.syncTeams r) Anyhow .fresh σ := by
  unfold Team.syncTeams
  refine along_lift fun declared => along_start.mpr fun σ₁ _ => ⟨⟨0, .still rfl⟩, ?_⟩
  refine along_query.mpr fun σ₂ now _ => ⟨⟨0, .free rfl⟩, fun _ => ?_⟩
  cases (Team.selectSyncLockForUpdate.exec now ((Local.opened .fresh .readCommitted).view
    Team.selectSyncLockForUpdate σ₂)).1 with
  | error e => trivial
  | ok _ =>
    have only : ∀ g ∈ ((Local.opened .fresh .readCommitted).after Team.selectSyncLockForUpdate
        σ₂ now).held, g = ⟨⟨.teamSyncLock, .exclusive⟩, now⟩ := fun g mine =>
      List.mem_singleton.mp mine
    have synced : Holds ((Local.opened .fresh .readCommitted).after Team.selectSyncLockForUpdate
        σ₂ now).held .teamSyncLock .exclusive := ⟨now, List.mem_singleton.mpr rfl⟩
    refine along_query.mpr fun σ₃ now' _ => ⟨⟨1, .syncing synced fun g mine => ?_⟩, fun _ => ?_⟩
    · rw [only g mine]
    · refine inOrder_declaring Prog.inner_query_only (Prog.each_query_only.mpr
        (sideways_of_unclaiming fun _ _ _ => rfl)) (declaring_locked synced
          (fun g mine => by rw [only g mine]) rfl) fun liveBefore ℓ₃ σ₄ declaring => ?_
      refine inOrder_declaring Endings.inner_knownUsers sideways_knownUsers declaring
        fun known ℓ₄ σ₅ declaring => ?_
      dsimp only
      split
      · trivial
      · refine inOrder_declaring inner_writeTeams sideways_writeTeams declaring
          fun written ℓ₅ σ₆ declaring => ?_
        refine inOrder_declaring Endings.inner_writeAllMembers sideways_writeAllMembers declaring
          fun progress ℓ₆ σ₇ declaring => ?_
        exact inOrder_declaring Endings.inner_replacePending sideways_replacePending declaring
          fun _ _ _ _ => inOrder_silent trivial

end

/-! ### Every verb -/

/-- The verbs whose transactions keep to the order: all but the writers of the
settings and of the key's marker. -/
def listed : Request → Bool
  | .setInheritedSetting _ => false
  | .setKeyIdentity _ => false
  | .adoptKeyIdentity _ => false
  | _ => true

theorem inOrder_loose {p : Rpc α} (loose : p.Loose) : InOrder p Anyhow .fresh σ :=
  along_loose (fun _ _ _ none => ⟨0, .free none⟩) loose rfl fun _ _ _ _ => trivial

theorem inOrder_mintEnrolment : InOrder (Enrolment.mintEnrolment uuid r) Anyhow .fresh σ := by
  unfold Enrolment.mintEnrolment
  split
  · trivial
  · dsimp only
    split
    · exact inOrder_issue
    · refine inOrder_loose (Prog.Loose.bind Prog.loose_lift fun _ => ?_)
      refine Prog.loose_single.mpr fun inserted => Prog.Loose.bind Endings.loose_orElse fun n => ?_
      split
      · refine Prog.Loose.bind Endings.loose_liveUser fun _ => ?_
        split
        · exact fun _ => trivial
        · trivial
      · trivial

theorem loose_revoke : (Credential.revoke r).Loose := by
  unfold Credential.revoke
  split
  · trivial
  · refine Prog.loose_single.mpr fun rows => ?_
    split
    · refine Prog.loose_single.mpr fun owned => ?_
      split <;> trivial
    · trivial

theorem loose_setAdmin : (Policy.setAdmin r).Loose := by
  unfold Policy.setAdmin
  refine Prog.loose_single.mpr fun done => ?_
  split
  · exact Endings.loose_liveUser
  · trivial

theorem loose_setRateLimit : (Policy.setRateLimit r).Loose := by
  unfold Policy.setRateLimit
  refine Prog.Loose.bind Prog.loose_lift fun _ => ?_
  split
  · refine Prog.loose_single.mpr fun written => ?_
    refine Prog.Loose.bind Endings.loose_orElse fun done => ?_
    split
    · exact Endings.loose_liveUser
    · trivial
  · exact Prog.Loose.bind Endings.loose_liveUser fun _ _ => trivial

theorem inOrder_insertUser : InOrder (Identity.insertUser uuid r) Anyhow .fresh σ := by
  unfold Identity.insertUser
  split
  · exact inOrder_insertDeclaredUser
  · exact inOrder_loose (Prog.loose_single.mpr fun _ => Prog.Loose.bind Endings.loose_orElse
      fun _ => trivial)

theorem unclaiming_resolve : (Credential.resolve r).Each Unclaiming := by
  refine Prog.each_query.mpr ⟨fun _ _ _ => rfl, fun row => ?_⟩
  cases row with
  | none => trivial
  | some row =>
    refine Prog.Each.bind (Prog.each_query.mpr ⟨fun _ _ _ => rfl, fun _ => trivial⟩) fun _ => ?_
    refine Prog.each_query.mpr ⟨fun _ _ _ => rfl, fun _ => Prog.Each.bind ?_ fun _ => trivial⟩
    exact Prog.each_query.mpr ⟨fun _ _ _ => rfl, fun _ =>
      Prog.each_query.mpr ⟨fun _ _ _ => rfl, fun _ => trivial⟩⟩

theorem loose_keyIdentity : (KeyIdentity.keyIdentity r).Loose := by
  unfold KeyIdentity.keyIdentity
  refine Prog.Loose.bind Prog.loose_lift fun _ => Prog.loose_single.mpr fun stored => ?_
  split <;> trivial

theorem loose_evidencePage : (KeyIdentity.evidencePage r).Loose := by
  unfold KeyIdentity.evidencePage
  exact Prog.Loose.bind Prog.loose_lift fun _ _ => trivial

theorem inOrder_verb (inv : Integrity σ) (known : listed request = true) :
    InOrder (verb uuid request) Anyhow .fresh σ := by
  cases request with
  | resolveCredential r => exact along_bind (inOrder_silent unclaiming_resolve)
  | getPasswordHash r => exact inOrder_loose fun _ => trivial
  | setPassword r => exact along_bind inOrder_storePassword
  | createEnrolment r => exact along_bind inOrder_mintEnrolment
  | redeemEnrolment r => exact along_bind (inOrder_redeem inv)
  | createCredential r => exact along_bind (inOrder_loose Endings.loose_mintCredential)
  | revokeCredential r => exact along_bind (inOrder_loose loose_revoke)
  | revokeAllCredentials r => exact along_bind inOrder_revokeAllCredentials
  | listCredentials r => exact inOrder_loose fun _ => trivial
  | createUser r => exact along_bind inOrder_insertUser
  | setUserAdmin r => exact along_bind (inOrder_loose loose_setAdmin)
  | setRateLimitOverride r => exact along_bind (inOrder_loose loose_setRateLimit)
  | addTeamMember r => trivial
  | removeTeamMember r => trivial
  | setInheritedSetting r => cases known
  | getKeyIdentity r => exact along_bind (inOrder_loose loose_keyIdentity)
  | setKeyIdentity r => cases known
  | listKeyIdentityEvidence r => exact along_bind (inOrder_loose loose_evidencePage)
  | adoptKeyIdentity r => cases known
  | syncTeams r => exact along_bind inOrder_syncTeams

/-- A step of a run of such calls, in which a redemption that spends an
enrolment holds its owner's row. -/
structure Ruled (S : Handlers.System) (a : Action Call) (_ : Handlers.System) : Prop where
  listed : ∀ c, a = .call c → listed c.request = true
  guarded : ∀ (i : Nat) c ℓ p, a = .run i → S.sessions[i]? = some ⟨c, ℓ, .running p⟩ →
    Guarded ℓ p.upcoming S.store S.clock

/-- The lock order admits no circle. In a run of any number of calls, the
writers of the settings and of the key's marker apart, in which a redemption
spends an enrolment only while it holds its owner's row, no state has a circle
of transactions each waiting for a lock the next one holds. -/
theorem no_circle {S : Handlers.System} (reached : ReachableWhile Ruled S) (i : Nat) :
    ¬S.Circular i := by
  have reachable := reached.reachable
  obtain ⟨σ, now, inv, steps⟩ := reached
  let rank (n : Nat) : Stance Store Write Res := fun ℓ σ claims => Stands ℓ σ claims n
  refine reachable.sound.ordered.not_circular (R := rank) ?_ ?_
  · intro i c ℓ p m there moves
    have stands := steps.along ServiceProofs.verified (System.sound_start inv) rfl
      (W := fun c => listed c.request = true)
      (fun c σ known inv => along_lift fun _ => inOrder_verb inv known)
      (fun _ c _ met => met.listed c rfl)
      (fun _ i _ c ℓ p m met advances => met.guarded i c ℓ p rfl advances.here) there
    exact (along_move stands.2 moves).1
  · intro n n' ℓ ℓ' claims claims' k g stands stands' room claim held row waits
    exact stands.rises reachable.inv stands' room claim held row waits

/-! ### Runs that keep to the order, and one that breaks it -/

/-- A check that a step meets the condition. -/
def ruledNow (S : Handlers.System) (a : Action Call) (_ : Handlers.System) : Bool :=
  match a with
  | .call c => listed c.request
  | .run i =>
    match S.sessions[i]? with
    | some ⟨_, ℓ, .running p⟩ =>
      match p.move S.clock S.store ℓ with
      | some m => m.loc.pending.length = ℓ.pending.length ||
        (applyAll ℓ.pending S.store).enrolments.rows.all fun e =>
          !Enrolment.spendable S.clock (applyAll ℓ.pending S.store) e ||
            ℓ.held.any fun g => g.lock = ⟨.user (weight e.userId), .exclusive⟩
      | none => true
    | _ => true
  | _ => true

theorem ruled_of_now {S : Handlers.System} (now : ruledNow S a S' = true) : Ruled S a S' := by
  constructor
  · rintro c rfl
    exact now
  · rintro i c ℓ p rfl here secret e spends found
    obtain ⟨k, rfl⟩ : ∃ k, p = .stmt (Enrolment.updateSpentAt secret) k := by
      cases p with
      | stmt s k =>
        cases spends
        exact ⟨k, rfl⟩
      | _ => cases spends
    rw [Local.view_current rfl] at found
    obtain ⟨row, matched⟩ := Option.filter_eq_some_iff.mp found
    have grown : (ℓ.after (Enrolment.updateSpentAt secret) S.store S.clock).pending.length ≠
        ℓ.pending.length := by
      rw [Local.after_pending, Local.view_current rfl]
      simp [Enrolment.updateSpentAt, found]
    simp only [ruledNow, here, Prog.move, grown, decide_false, Bool.false_or, List.all_eq_true,
      Bool.or_eq_true, Bool.not_eq_true', List.any_eq_true, decide_eq_true_eq] at now
    rcases now e (Store.enrolment?_mem row).1 with other | ⟨g, held, same⟩
    · rw [matched] at other
      cases other
    · exact ⟨g.since, by rw [← same]; exact held⟩

end

/-- A redemption has spent, and a revoke of everything waits for the user row. -/
def racing : List (Action Call) :=
  calling firstUuid (.createUser ⟨[1], [2], [3], false, ""⟩) 0 1 ++
  calling firstUuid (.createEnrolment ⟨Enrolments.enrolledId, Enrolments.aSecret, some 100, false,
    false, false⟩) 1 1 ++
  calling firstUuid (.redeemEnrolment Reasons.redeeming) 2 4 ++
  calling firstUuid (.revokeAllCredentials ⟨Enrolments.enrolledId⟩) 3 1

/-- The redemption that looked for the owner before the enrolment was there: it
has spent, the revoke of everything holds the user row. -/
def closing : List (Action Call) :=
  calling firstUuid (.createUser ⟨[1], [2], [3], false, ""⟩) 0 1 ++
  calling firstUuid (.redeemEnrolment Reasons.redeeming) 1 2 ++
  calling firstUuid (.createEnrolment ⟨Enrolments.enrolledId, Enrolments.aSecret, some 100, false,
    false, false⟩) 2 1 ++
  [.run 1] ++
  calling firstUuid (.revokeAllCredentials ⟨Enrolments.enrolledId⟩) 3 4 ++ [.run 1]

open Bytewise in
theorem no_circle_racing : (after racing).waits 3 2 (.user Enrolments.enrolledId) = true ∧
    ¬(after racing).Circular 3 :=
  ⟨by decide +kernel, no_circle ⟨migrated, 0, integrity_migrated,
    reaches_after ruledNow (fun _ _ _ => ruled_of_now) (by decide +kernel)⟩ 3⟩

open Bytewise in
/-- The redemption waits for the user row, and the revoke for the enrolment. -/
theorem no_circle_not : ¬∀ (S : Handlers.System) (i : Nat),
    System.Reaches service (fun _ a _ => ∀ c, a = .call c → listed c.request = true) (fresh 0) S →
      ¬S.Circular i := by
  intro orderly
  refine orderly (after closing) 1 (reaches_after
    (fun _ a _ => match a with
      | .call c => listed c.request
      | _ => true) ?_ (by decide +kernel)) ?_
  · rintro _ a _ now c rfl
    exact now
  · have redemption : (after closing).waits 1 3 (.user Enrolments.enrolledId) = true := by
      decide +kernel
    have revoke : (after closing).waits 3 1
        (.enrolment "yadgar:enrolment:0192f3c4-1a2b-7c3d-8e4f-0123456789ab") = true := by
      decide +kernel
    exact .tail (.single ⟨_, redemption⟩) ⟨_, revoke⟩

end IamDb.Circles
