import IamDb.EnrolmentProofs

/-! Redeeming an enrolment. The first ledger read takes no lock, and a spend
that matched nothing is explained by a second one. What the spend in vain saw
lasts: a spent or voided enrolment stays so, and one it found expired nobody
can spend any more, since the spend waited for the lock on it. -/
namespace IamDb.RedemptionProofs
open Txn Schema Messages Service Effects Evolution Interference Rules EpochProofs

variable [Engine]

/-! ### What a spend in vain saw -/

/-- Nobody can spend the enrolment any more, as a session that waited for it
knows. -/
def Dead (ℓ : Local Store Write Res) (σ : Store) (e : Enrolment) : Prop :=
  e.spentAt ≠ none ∨ e.voidedAt ≠ none ∨ σ.liveUser? e.userId = none ∨
    ∃ t, ⟨⟨.enrolment e.key, .exclusive⟩, t⟩ ∈ ℓ.seen ∧ e.expiresAt ≤ t

/-- No ledger row of the key names the secret. -/
def Unrecorded (key : String) (secret : Bytes) (σ : Store) : Prop :=
  ∀ row ∈ σ.redemptions, row.key = weight key → row.secretHash ≠ secret

/-- The secret names an enrolment nobody can spend any more, and the key did
not. -/
structure Doomed (ℓ : Local Store Write Res) (key : String) (secret : Bytes) (σ : Store) :
    Prop where
  dead : ∃ e ∈ σ.enrolments, e.secretHash = secret ∧ Dead ℓ σ e
  unrecorded : Unrecorded key secret σ

section
variable {ℓ ℓ' : Local Store Write Res}

theorem Dead.within (dead : Dead ℓ σ e) (within : ℓ.Within ℓ') : Dead ℓ' σ e :=
  dead.imp id (Or.imp id (Or.imp id fun ⟨t, seen, past⟩ => ⟨t, within.seen _ seen, past⟩))

/-- A person who is not live stays so. -/
theorem not_live_later {σ σ' : Store} (evolves : Evolves σ σ') (known : (σ.user? userId).isSome)
    (gone : σ.liveUser? userId = none) : σ'.liveUser? userId = none := by
  obtain ⟨u, found⟩ := Option.isSome_iff_exists.mp known
  obtain ⟨u', found', later⟩ := evolves.user? found
  rw [Store.liveUser?, found, Option.filter_some] at gone
  rw [Store.liveUser?, found', Option.filter_some, later.deletedAt]
  split at gone
  · cases gone
  · rename_i dead
    simp [dead]

theorem Dead.later {σ σ' : Store} (dead : Dead ℓ σ e) (inv : Integrity σ) (member : e ∈ σ.enrolments)
    (evolves : Evolves σ σ') (later : EnrolmentLater e e') : Dead ℓ σ' e' := by
  rcases dead with spent | voided | gone | ⟨t, seen, past⟩
  · exact Or.inl (later.ended (Or.inl spent) ▸ spent)
  · exact Or.inr (Or.inl (later.ended (Or.inr voided) ▸ voided))
  · refine Or.inr (Or.inr (Or.inl ?_))
    rw [later.userId]
    exact not_live_later evolves (inv.enrolmentOwner e member) gone
  · refine Or.inr (Or.inr (Or.inr ⟨t, ?_, later.expiresAt ▸ past⟩))
    rwa [Enrolment.key, later.id]

theorem Doomed.within (doomed : Doomed ℓ key secret σ) (within : ℓ.Within ℓ') :
    Doomed ℓ' key secret σ :=
  ⟨doomed.dead.imp fun _ ⟨member, named, dead⟩ => ⟨member, named, dead.within within⟩,
    doomed.unrecorded⟩

/-- The end of the transaction takes none of it back. -/
theorem Doomed.closed (doomed : Doomed ℓ key secret σ) : Doomed ℓ.closed key secret σ :=
  ⟨doomed.dead, doomed.unrecorded⟩

/-- A commit by another session cannot redeem a doomed enrolment. -/
theorem Doomed.effect {k : Committed} (doomed : Doomed ℓ key secret k.store)
    (inv : Integrity k.store) (room : ℓ.admits k.under) (allowed : Allowed c k ef) :
    Doomed ℓ key secret (ef.apply k.store) := by
  have evolves := evolves_of_allowed allowed
  obtain ⟨e, member, named, dead⟩ := doomed.dead
  obtain ⟨e', member', _, later⟩ := evolves.enrolments.mem member
  refine ⟨⟨e', member', later.secretHash.trans named, dead.later inv member evolves later⟩, ?_⟩
  intro row stored key' secret'
  rcases redemption_origin allowed stored with before | ⟨e₁, u, p, spent, revoked, voided, rfl⟩
  · exact doomed.unrecorded row before key' secret'
  · cases allowed with
    | redeem _ enrolment _ unspent unvoided unexpired since owner live _ _ recorded =>
      -- The row names the enrolment it was written with, which is the dead one.
      split at recorded
      · cases recorded
      · cases recorded
        obtain rfl := inv.secrets e₁ enrolment e member (secret'.trans named.symm)
        rcases dead with spent | voided | gone | ⟨t, seen, past⟩
        · exact spent unspent
        · exact voided unvoided
        · rw [Store.liveUser?_eq_some.mpr ⟨owner, live⟩] at gone
          cases gone
        · have ordered := room.2 _ seen _ since (by simp [Lock.conflicts, Mode.conflicts])
          have ordered : t ≤ spent := ordered
          omega

theorem Doomed.calm (doomed : Doomed ℓ key secret σ) (calm : Calm ℓ σ σ') :
    Doomed ℓ key secret σ' := by
  refine calm.effects (P := fun σ σ' => Doomed ℓ key secret σ → Doomed ℓ key secret σ')
    (fun _ doomed => doomed) (fun _ _ _ first second => second ∘ first) ?_ doomed
  intro c k ef inv room _ allowed _ doomed
  exact doomed.effect inv room allowed

end

/-! ### Answers -/

/-- An answer that says what the ledger row says. -/
structure Agrees (key : String) (secret : Bytes) (a : RedeemEnrolmentResponse) (row : Redemption)
    (σ : Store) : Prop where
  stored : row ∈ σ.redemptions
  keyed : row.key = weight key
  redeems : row.secretHash = secret
  outcome : a.outcome = .redeemed
  userId : a.userId = row.userId
  enrolmentId : a.enrolmentId = row.enrolmentId
  credentialEpoch : a.credentialEpoch = row.credentialEpoch
  externalId : ∃ u, σ.user? row.userId = some u ∧ a.externalIdCiphertext = u.externalId
  revoked : ∃ e ∈ σ.enrolments, e.id = row.enrolmentId ∧
    a.revokedExistingCredentials = e.revokeExistingCredentials

/-- What an answered redemption says, and why there is no first answer, if
`kept` says that no enrolment with its secret turned up behind its spend. -/
def Answered (kept : Prop) (key : String) (secret : Bytes) (ℓ : Local Store Write Res)
    (σ : Store) : Except Status RedeemEnrolmentResponse → Prop
  | .error _ => Unrecorded key secret σ
  | .ok a => (∃ row, Agrees key secret a row σ) ∨ a.outcome ≠ .redeemed ∧ (kept →
      a.outcome = .notFound ∧ σ.enrolment? secret = none ∨ Doomed ℓ key secret σ)

/-- A session that has run its spend. -/
def HasSpent (ℓ : Local Store Write Res) (secret : Bytes) : Prop :=
  ∃ t, ⟨⟨.secret secret, .exclusive⟩, t⟩ ∈ ℓ.seen

theorem HasSpent.within {ℓ ℓ' : Local Store Write Res} (ran : HasSpent ℓ secret)
    (within : ℓ.Within ℓ') : HasSpent ℓ' secret :=
  ran.imp fun _ member => within.seen _ member

/-- A rely under which a secret that named nothing at a spend names nothing
behind it. -/
def Keeps (R : Rely Store Write Res) (secret : Bytes) : Prop :=
  ∀ ℓ n (σ σ' : Store), R ℓ n σ σ' → HasSpent ℓ secret → σ.enrolment? secret = none →
    σ'.enrolment? secret = none

theorem Keeps.drift {R : Rely Store Write Res} {ℓ : Local Store Write Res} (keeps : Keeps R secret)
    (ran : HasSpent ℓ secret) (drift : Drift R ℓ n σ σ') (absent : σ.enrolment? secret = none) :
    σ'.enrolment? secret = none :=
  Drift.preserves (P := fun σ : Store => σ.enrolment? secret = none) drift absent
    fun σ σ' change absent => keeps ℓ n σ σ' change ran absent

theorem Unrecorded.of_other {σ σ' : Store} (evolves : Evolves σ σ')
    (stored : σ.redemptions.find? (weight key) = some row) (other : row.secretHash ≠ secret) :
    Unrecorded key secret σ' := by
  obtain ⟨row', found, same⟩ := evolves.redemptions _ _ stored
  cases same
  intro row' member keyed
  rw [← keyed, Table.find?_of_mem member] at found
  cases found
  exact other

/-- What an answer agrees with it agrees with later. -/
theorem Agrees.later {σ σ' : Store} (agrees : Agrees key secret a row σ) (evolves : Evolves σ σ') :
    Agrees key secret a row σ' := by
  obtain ⟨row', stored, _, same⟩ := evolves.redemptions.mem agrees.stored
  cases same
  obtain ⟨u, found, externalId⟩ := agrees.externalId
  obtain ⟨u', found', later⟩ := evolves.user? found
  obtain ⟨e, member, named, revoked⟩ := agrees.revoked
  obtain ⟨e', member', _, later'⟩ := evolves.enrolments.mem member
  exact { agrees with
    stored := stored
    externalId := ⟨u', found', externalId.trans later.externalId.symm⟩
    revoked := ⟨e', member', later'.id.trans named, revoked.trans later'.flag.symm⟩ }

/-! ### The ledger reads -/

section
variable {R : Rely Store Write Res} {G : Guar Store Write Res Status α}
  {Q : Post Store Write Res Status α} {ℓ : Local Store Write Res}

/-- A ledger read of a transaction that has written nothing finds no row, or
one of another secret, or the first answer. -/
theorem wp_replay {k : Option RedeemEnrolmentResponse → Rpc α} (quiet : Quiet R)
    (iso : ℓ.iso = .readCommitted) (pending : ℓ.pending = []) (inv : Integrity σ)
    (absent : ∀ ℓ' σ' t' s, Drift R ℓ (.stmt (s : Sql (Option Redemption))) σ σ' →
      Passes ℓ σ [] ℓ' σ' → Unrecorded key presented σ' → wp R G (k none) Q ℓ' σ' t')
    (other : ∀ e ℓ' σ' t', Unrecorded key presented σ' → Q (.error e) ℓ' σ' t')
    (found : ∀ ℓ' σ' t' a row, Passes ℓ σ [] ℓ' σ' → Agrees key presented a row σ' →
      a.voidedEnrolments = 0 → wp R G (k (some a)) Q ℓ' σ' t') :
    wp R G (Enrolment.replay key presented lock >>= k) Q ℓ σ t := by
  unfold Enrolment.replay
  simp only [bind_assoc]
  refine wp_drifting quiet (Or.inr iso) fun ℓ₁ σ₁ t₁ drift₁ pass₁ _ _ => ?_
  have pass₁ : Passes ℓ σ [] ℓ₁ σ₁ := pass₁
  have inv₁ := pass₁.calm.integrity inv
  simp only [Enrolment.selectRedemption, pending, applyAll_nil]
  cases prior : σ₁.redemptions.find? (weight key) with
  | none =>
    refine absent ℓ₁ σ₁ t₁ _ drift₁ pass₁ fun row member keyed => ?_
    exact absurd keyed (Table.find?_eq_none.mp prior row member)
  | some row =>
    obtain ⟨stored, keyed⟩ := Table.find?_eq_some.mp prior
    dsimp only
    split
    · rename_i mismatch
      exact other _ _ _ _ (.of_other (.refl σ₁) prior mismatch)
    · rename_i same
      have pending₁ : ℓ₁.pending = [] := by simpa [pending] using pass₁.pending
      simp only [bind_assoc]
      refine wp_statement quiet (Or.inr (pass₁.iso.trans iso)) fun ℓ₂ σ₂ t₂ pass₂ _ _ => ?_
      have pass₂ : Passes ℓ₁ σ₁ [] ℓ₂ σ₂ := pass₂
      obtain ⟨u, owner, _⟩ := inv₁.epoch row stored
      obtain ⟨u₂, owner₂, _⟩ := pass₂.calm.evolves.user? owner
      simp only [Enrolment.selectExternalId, pending₁, applyAll_nil, owner₂, orElse, wp_ret_bind]
      have pending₂ : ℓ₂.pending = [] := by simpa [pending₁] using pass₂.pending
      refine wp_statement quiet (Or.inr (pass₂.iso.trans (pass₁.iso.trans iso)))
        fun ℓ₃ σ₃ t₃ pass₃ _ _ => ?_
      have pass₃ : Passes ℓ₂ σ₂ [] ℓ₃ σ₃ := pass₃
      have later := pass₂.calm.evolves.trans pass₃.calm.evolves
      obtain ⟨e, enrolled, named, _⟩ := inv₁.redeemed row stored
      obtain ⟨e₃, enrolled₃, _, later₃⟩ := later.enrolments.mem enrolled
      have flag : σ₃.enrolments.find? (weight row.enrolmentId) = some e₃ := by
        rw [← named, ← later₃.id]
        exact Table.find?_of_mem enrolled₃
      simp only [Enrolment.selectRevoking, pending₂, applyAll_nil, flag, wp_ret_bind, pure_bind]
      obtain ⟨u₃, owner₃, same₃⟩ := pass₃.calm.evolves.user? owner₂
      obtain ⟨row', stored₃, _, rfl⟩ := later.redemptions.mem stored
      refine found ℓ₃ σ₃ t₃ _ row ((pass₁.trans pass₂).trans pass₃) ?_ rfl
      exact ⟨stored₃, keyed, by simpa using same, rfl, rfl, rfl, rfl,
        ⟨u₃, owner₃, same₃.externalId.symm⟩, ⟨e₃, enrolled₃, later₃.id.trans named, rfl⟩⟩

/-- The lock on the owner's row, if the secret names anybody. -/
theorem wp_lockOwner {k : Unit → Rpc α} (quiet : Quiet R) (iso : ℓ.iso = .readCommitted)
    (rest : ∀ ℓ' σ' t', Passes ℓ σ [] ℓ' σ' → wp R G (k ()) Q ℓ' σ' t') :
    wp R G (Enrolment.lockOwner secret >>= k) Q ℓ σ t := by
  unfold Enrolment.lockOwner
  simp only [bind_assoc]
  refine wp_statement quiet (Or.inr iso) fun ℓ₁ σ₁ t₁ pass₁ _ _ => ?_
  have pass₁ : Passes ℓ σ [] ℓ₁ σ₁ := pass₁
  split
  · exact rest ℓ₁ σ₁ t₁ pass₁
  · simp only [bind_assoc, pure_bind]
    refine wp_statement quiet (Or.inl rfl) fun ℓ₂ σ₂ t₂ pass₂ _ _ => ?_
    exact rest ℓ₂ σ₂ t₂ (pass₁.trans pass₂)

/-- The spend finds nothing under the secret, or an enrolment nobody can spend,
or spends. -/
theorem wp_spend {k : Nat → Rpc α} (quiet : Quiet R) (pending : ℓ.pending = [])
    (absent : ∀ ℓ' σ' t', Passes ℓ σ [] ℓ' σ' → HasSpent ℓ' r.secretHash →
      σ'.enrolment? r.secretHash = none → wp R G (k 0) Q ℓ' σ' t')
    (vain : ∀ ℓ' σ' t' e, Passes ℓ σ [] ℓ' σ' → HasSpent ℓ' r.secretHash →
      σ'.enrolment? r.secretHash = some e → Dead ℓ' σ' e → wp R G (k 0) Q ℓ' σ' t')
    (done : ∀ ℓ' σ' t' e, Passes ℓ σ [.enrolment (spentAt t' e)] ℓ' σ' →
      σ'.enrolment? r.secretHash = some e → Enrolment.spendable t' σ' e = true →
      ⟨⟨.enrolment e.key, .exclusive⟩, t'⟩ ∈ ℓ'.held → wp R G (k 1) Q ℓ' σ' t') :
    wp R G (Enrolment.spend r >>= k) Q ℓ σ t := by
  unfold Enrolment.spend
  refine wp_statement quiet (Or.inl rfl) fun ℓ' σ' t' pass _ claimed => ?_
  rw [pending, applyAll_nil] at pass ⊢
  have held := claimed.held
  have seen := claimed.seen
  rw [pending, applyAll_nil] at held seen
  cases named : σ'.enrolment? r.secretHash with
  | none =>
    simp only [Enrolment.updateSpentAt, named, Option.filter_none] at pass seen ⊢
    exact absent ℓ' σ' t' pass ⟨t', seen _ List.mem_cons_self⟩ named
  | some e =>
    have ran : HasSpent ℓ' r.secretHash :=
      ⟨t', seen ⟨⟨.secret r.secretHash, .exclusive⟩, _⟩ (by simp [Enrolment.updateSpentAt, named]; rfl)⟩
    cases spends : Enrolment.spendable t' σ' e with
    | true =>
      simp only [Enrolment.updateSpentAt, named, Option.filter_some, spends, if_true] at pass held ⊢
      refine done ℓ' σ' t' e pass named spends (held _ _ ?_)
      simp
    | false =>
      simp only [Enrolment.updateSpentAt, named, Option.filter_some, spends, Bool.false_eq_true,
        if_false] at pass seen ⊢
      refine vain ℓ' σ' t' e pass ran named ?_
      have waited := seen ⟨⟨.enrolment e.key, .exclusive⟩, _⟩
        (List.mem_cons_of_mem _ List.mem_cons_self)
      by_cases unspent : e.spentAt = none
      · by_cases unvoided : e.voidedAt = none
        · cases live : σ'.liveUser? e.userId with
          | none => exact Or.inr (Or.inr (Or.inl live))
          | some u =>
            refine Or.inr (Or.inr (Or.inr ⟨t', waited, ?_⟩))
            simpa [Enrolment.spendable, unspent, unvoided, live] using spends
        · exact Or.inr (Or.inl unvoided)
      · exact Or.inl unspent

end

/-! ### A spend in vain -/

/-- What an answered redemption says, and more under a rely that keeps an unused
secret unused. -/
def Redeems (R : Rely Store Write Res) (key : String) (secret : Bytes) :
    Post Store Write Res Status RedeemEnrolmentResponse := fun result ℓ σ _ =>
  key ≠ "" → Answered (Keeps R secret) key secret ℓ σ result

section
variable {R : Rely Store Write Res} {c : Call} {ℓ : Local Store Write Res}

/-- Why the redemption did not happen, and the end of it. -/
private theorem wp_explained (quiet : Quiet R) (request : c.request = .redeemEnrolment r)
    (iso : ℓ.iso = .readCommitted) (pending : ℓ.pending = []) (ran : HasSpent ℓ r.secretHash)
    (why : Keeps R r.secretHash → key ≠ "" →
      σ.enrolment? r.secretHash = none ∨ Doomed ℓ key r.secretHash σ) :
    wp R (Does c .redeemEnrolment) (do
      let outcome ← Enrolment.unredeemable r.secretHash
      commit
      pure ⟨outcome, "", "", [], false, 0, 0⟩) (Redeems R key r.secretHash) ℓ σ t := by
  unfold Enrolment.unredeemable
  simp only [bind_assoc]
  refine wp_read iso (fun _ _ => rfl) (fun _ _ _ => rfl) fun σ₁ t₁ drift₁ _ => ?_
  rw [pending, applyAll_nil]
  have doomed₁ (doomed : Doomed ℓ key r.secretHash σ) : Doomed ℓ key r.secretHash σ₁ :=
    doomed.calm (calm_of_drift quiet drift₁)
  have ends (outcome : RedeemOutcome) (fails : outcome ≠ .redeemed)
      (known : σ₁.enrolment? r.secretHash = none → outcome = .notFound) :
      wp R (Does c .redeemEnrolment) (do
        commit
        pure ⟨outcome, "", "", [], false, 0, 0⟩) (Redeems R key r.secretHash) ℓ σ₁ t₁ := by
    rw [wp_finish]
    intro σ₂ t₂ drift₂ _
    rw [pending]
    refine ⟨⟨.nothing, .nothing (by simp [request, mayIdle]) ?_, rfl⟩, fun keyed => ?_⟩
    · rintro a same
      cases same
      rfl
    · refine Or.inr ⟨fails, fun keeps => ?_⟩
      rcases why keeps keyed with absent | doomed
      · have absent₁ := keeps.drift ran drift₁ absent
        exact Or.inl ⟨known absent₁, keeps.drift ran drift₂ absent₁⟩
      · have doomed₂ := (doomed₁ doomed).calm (calm_of_drift quiet drift₂)
        exact Or.inr doomed₂.closed
  cases row : (Enrolment.selectUnredeemable r.secretHash).exec t₁ σ₁ with
  | mk answer writes =>
    have read : answer = ((σ₁.enrolment? r.secretHash).filter fun e =>
        (σ₁.liveUser? e.userId).isSome).map fun e => (e.spentAt.isSome, e.voidedAt.isSome) := by
      cases row
      rfl
    rcases answer with _ | ⟨_ | _, _ | _⟩
    · exact ends .notFound (by simp) fun _ => rfl
    · exact ends .expired (by simp) fun absent => by simp [absent] at read
    · exact ends .voided (by simp) fun absent => by simp [absent] at read
    · exact ends .spent (by simp) fun absent => by simp [absent] at read
    · exact ends .spent (by simp) fun absent => by simp [absent] at read

/-- A spend in vain answers the first answer, or why there is none. -/
theorem wp_unspent (quiet : Quiet R) (request : c.request = .redeemEnrolment r)
    (iso : ℓ.iso = .readCommitted) (pending : ℓ.pending = []) (inv : Integrity σ)
    (ran : HasSpent ℓ r.secretHash)
    (why : σ.enrolment? r.secretHash = none ∨
      ∃ e, σ.enrolment? r.secretHash = some e ∧ Dead ℓ σ e) :
    wp R (Does c .redeemEnrolment) (Enrolment.unspent key r) (Redeems R key r.secretHash)
      ℓ σ t := by
  unfold Enrolment.unspent
  split
  · rename_i unkeyed
    rw [pure_bind]
    exact wp_explained quiet request iso pending ran fun _ keyed => absurd unkeyed keyed
  refine wp_replay quiet iso pending inv ?_ ?_ ?_
  · intro ℓ₁ σ₁ t₁ s drift₁ pass₁ unrecorded
    have pending₁ : ℓ₁.pending = [] := by simpa [pending] using pass₁.pending
    refine wp_explained quiet request (pass₁.iso.trans iso) pending₁ (ran.within pass₁.within) ?_
    intro keeps _
    rcases why with absent | ⟨e, named, dead⟩
    · exact Or.inl (keeps.drift ran drift₁ absent)
    · have evolves := pass₁.calm.evolves
      obtain ⟨member, secret⟩ := Store.enrolment?_mem named
      obtain ⟨e₁, member₁, _, later⟩ := evolves.enrolments.mem member
      exact Or.inr ⟨⟨e₁, member₁, later.secretHash.trans secret,
        (dead.later inv member evolves later).within pass₁.within⟩, unrecorded⟩
  · exact fun _ _ _ _ unrecorded _ => unrecorded
  · intro ℓ₁ σ₁ t₁ a row pass₁ agrees first
    have pending₁ : ℓ₁.pending = [] := by simpa [pending] using pass₁.pending
    rw [wp_finish]
    intro σ₂ t₂ drift₂ _
    rw [pending₁]
    refine ⟨⟨.nothing, .nothing (by simp [request, mayIdle]) ?_, rfl⟩, fun _ => ?_⟩
    · rintro a' same
      cases same
      exact first
    · exact Or.inl ⟨row, agrees.later (calm_of_drift quiet drift₂).evolves⟩

end

/-! ### A spend that matched -/

/-- A redemption that has spent its enrolment, and holds it. -/
structure Spent (ℓ : Local Store Write Res) (σ : Store) (secret : Bytes) (spent : Int)
    (e : Enrolment) : Prop where
  iso : ℓ.iso = .readCommitted
  inv : Integrity σ
  enrolment : e ∈ σ.enrolments
  named : e.secretHash = secret
  unspent : e.spentAt = none
  unvoided : e.voidedAt = none
  unexpired : spent < e.expiresAt
  live : (σ.liveUser? e.userId).isSome
  since : ⟨⟨.enrolment e.key, .exclusive⟩, spent⟩ ∈ ℓ.held

/-- The enrolment is held, so it stays. -/
theorem Spent.pass {ℓ ℓ' : Local Store Write Res} (state : Spent ℓ σ secret spent e)
    (pass : Passes ℓ σ ws ℓ' σ') : Spent ℓ' σ' secret spent e := by
  have found := pass.calm.enrolment_row ⟨spent, state.since⟩
  rw [Table.find?_of_mem state.enrolment] at found
  obtain ⟨u, live⟩ := Option.isSome_iff_exists.mp state.live
  obtain ⟨row, alive⟩ := Store.liveUser?_eq_some.mp live
  obtain ⟨u', row', later⟩ := pass.calm.evolves.user? row
  exact { state with
    iso := pass.iso.trans state.iso
    inv := pass.calm.integrity state.inv
    enrolment := (Table.find?_eq_some.mp found).1
    live := by
      rw [Store.liveUser?_eq_some.mpr ⟨row', later.deletedAt.trans alive⟩]
      rfl
    since := pass.within.held _ state.since }

/-- The enrolment as the transaction's own statements see it. -/
theorem Spent.sees {ℓ : Local Store Write Res} (state : Spent ℓ σ secret spent e) :
    (applyAll [Write.enrolment (spentAt spent e)] σ).enrolment? secret = some (spentAt spent e) := by
  have only : ∀ x ∈ σ.enrolments.put (spentAt spent e), x.secretHash = secret →
      x = spentAt spent e := by
    intro x member named
    rcases Table.mem_put.mp member with same | ⟨stored, other⟩
    · exact same
    · have same := state.inv.secrets x stored e state.enrolment (named.trans state.named.symm)
      exact absurd (same ▸ rfl) other
  simp only [applyAll_cons, applyAll_nil, Writes.apply, Write.apply, Store.enrolment?]
  cases found : (σ.enrolments.put (spentAt spent e)).rows.find? fun x => x.secretHash = secret with
  | none =>
    have unnamed := List.find?_eq_none.mp found (spentAt spent e) Table.mem_put_self
    exact absurd (decide_eq_true state.named) unnamed
  | some x =>
    exact congrArg some
      (only x (List.mem_of_find?_eq_some found) (by simpa using List.find?_some found))

/-- A redemption that has bumped the owner's epoch, and withdrawn what the
enrolment tells it to. -/
structure Withdrawn (ℓ : Local Store Write Res) (σ : Store) (secret : Bytes)
    (spent revoked voided : Int) (e : Enrolment) (u : User) (creds : List Credential)
    (ends : List Enrolment) : Prop where
  state : Spent ℓ σ secret spent e
  row : σ.user? e.userId = some u
  owner : Holds ℓ.held (.user (weight e.userId)) .exclusive
  kept : e.revokeExistingCredentials = false → creds = [] ∧ ends = []
  revoking : e.revokeExistingCredentials = true → Revoking ℓ σ u.key revoked creds
  voiding : e.revokeExistingCredentials = true →
    Voiding ℓ σ u.key voided (fun x => x.key = e.key) ends

theorem Withdrawn.pass {ℓ ℓ' : Local Store Write Res}
    (state : Withdrawn ℓ σ secret spent revoked voided e u creds ends)
    (pass : Passes ℓ σ ws ℓ' σ') :
    Withdrawn ℓ' σ' secret spent revoked voided e u creds ends where
  state := state.state.pass pass
  row := (pass.calm.user_row state.owner).trans state.row
  owner := pass.within.holds state.owner
  kept := state.kept
  revoking flag := ((state.revoking flag).calm pass.calm).within pass.within
  voiding flag := ((state.voiding flag).calm pass.calm).within pass.within

/-- The writes of the withdrawal. -/
def withdrawing (spent revoked voided : Int) (e : Enrolment) (u : User) (creds : List Credential)
    (ends : List Enrolment) : List Write :=
  [.enrolment (spentAt spent e), .user (bumped u)] ++
    (creds.map fun c => .credential (revokedAt revoked c)) ++
    ends.map fun x => .enrolment (voidedAt voided x)

theorem applyAll_withdrawing (σ : Store) :
    applyAll (withdrawing spent revoked voided e u creds ends) σ =
      { σ with
        users := σ.users.put (bumped u)
        enrolments := (σ.enrolments.put (spentAt spent e)).putAll (ends.map (voidedAt voided))
        credentials := σ.credentials.putAll (creds.map (revokedAt revoked)) } := by
  simp only [withdrawing, applyAll_append, applyAll_voided, applyAll_revoked, applyAll_cons,
    applyAll_nil, Writes.apply, Write.apply]

section
variable {ℓ : Local Store Write Res}

theorem Withdrawn.user (state : Withdrawn ℓ σ secret spent revoked voided e u creds ends) :
    (applyAll (withdrawing spent revoked voided e u creds ends) σ).user? e.userId =
      some (bumped u) := by
  have here : weight e.userId = (bumped u).key := (Store.user?_mem state.row).2.symm
  rw [applyAll_withdrawing, Store.user?, here]
  exact Table.find?_put_self

/-- The tables the withdrawal leaves are those of the effect. -/
theorem Withdrawn.enrolments (state : Withdrawn ℓ σ secret spent revoked voided e u creds ends) :
    (σ.enrolments.put (spentAt spent e)).putAll (ends.map (voidedAt voided)) =
      if e.revokeExistingCredentials then
        (σ.enrolments.put (spentAt spent e)).update (openOf u.key) (voidedAt voided)
      else σ.enrolments.put (spentAt spent e) := by
  cases flag : e.revokeExistingCredentials with
  | false =>
    rw [(state.kept flag).2]
    rfl
  | true =>
    have voiding := state.voiding flag
    refine Table.putAll_eq_update (fun _ => rfl) (fun x => ?_) voiding.distinct
    rw [voiding.all, Table.mem_put]
    constructor
    · rintro ⟨stored, isOpen, other⟩
      exact ⟨Or.inr ⟨stored, by simpa using other⟩, isOpen⟩
    · rintro ⟨rfl | ⟨stored, other⟩, isOpen⟩
      · simp [openOf, spentAt] at isOpen
      · exact ⟨stored, isOpen, by simpa using other⟩

theorem Withdrawn.credentials (state : Withdrawn ℓ σ secret spent revoked voided e u creds ends) :
    σ.credentials.putAll (creds.map (revokedAt revoked)) =
      if e.revokeExistingCredentials then
        σ.credentials.update (liveOf u.key) (revokedAt revoked)
      else σ.credentials := by
  cases flag : e.revokeExistingCredentials with
  | false =>
    rw [(state.kept flag).1]
    rfl
  | true => exact (state.revoking flag).update

/-- As many enrolments are voided as the owner has open, but for the one that is
spent. -/
theorem Withdrawn.counted (state : Withdrawn ℓ σ secret spent revoked voided e u creds ends)
    (flag : e.revokeExistingCredentials = true) :
    ends.length = (σ.enrolments.rows.filter fun x => openOf u.key x && x.key ≠ e.key).length := by
  have voiding := state.voiding flag
  have same (x : Enrolment) :
      x ∈ ends ↔ x ∈ σ.enrolments.rows.filter fun x => openOf u.key x && x.key ≠ e.key := by
    simp [voiding.all, Table.mem_def]
  have apart : (σ.enrolments.rows.filter fun x => openOf u.key x && x.key ≠ e.key).Nodup :=
    (Table.filter_distinct _ _).of_map Enrolment.key
  exact ((List.perm_ext_iff_of_nodup (voiding.distinct.of_map Enrolment.key) apart).mpr
    same).length_eq

/-- The ledger row of a redemption. -/
def ledger (key : String) (e : Enrolment) (u : User) : Option Redemption :=
  if key = "" then none
  else some ⟨key, e.secretHash, e.id, e.userId, u.credentialEpoch + 1⟩

def recording : Option Redemption → List Write
  | some row => [.redemption row]
  | none => []

/-- Everything a redemption leaves pending is its effect. -/
theorem Withdrawn.effect (state : Withdrawn ℓ σ secret spent revoked voided e u creds ends)
    (row : Option Redemption) :
    applyAll (withdrawing spent revoked voided e u creds ends ++ [.password p] ++ recording row) σ =
      (Effect.redeem e u p row spent revoked voided).apply σ := by
  rw [applyAll_append, applyAll_append, applyAll_withdrawing, state.enrolments,
    state.credentials]
  cases row <;> rfl

end

section
variable {R : Rely Store Write Res} {c : Call} {ℓ : Local Store Write Res}

/-- The redemption from the commit on. -/
private theorem wp_committed (quiet : Quiet R) (request : c.request = .redeemEnrolment r)
    (state : Withdrawn ℓ σ r.secretHash spent revoked voided e u creds ends)
    (pending : ℓ.pending = withdrawing spent revoked voided e u creds ends ++ [.password p] ++
      recording (ledger (r.idempotency.getD "") e u))
    (counted : count = if e.revokeExistingCredentials then saturated ends.length else 0)
    (password : Hashing ℓ σ u e.userId r.argon2idHash p)
    (fresh : ∀ row, ledger (r.idempotency.getD "") e u = some row →
      σ.redemptions.find? row.key = none ∧ Holds ℓ.held (.redemption row.key) .exclusive)
    (width : r.idempotency.getD "" ≠ "" →
      fits Enrolment.maxIdempotencyKey (r.idempotency.getD "") = true) :
    wp R (Does c .redeemEnrolment) (do
      commit
      pure ⟨.redeemed, e.userId, e.id, u.externalId, e.revokeExistingCredentials,
        u.credentialEpoch + 1, count⟩) (Redeems R (r.idempotency.getD "") r.secretHash) ℓ σ t := by
  rw [wp_finish]
  intro σ₁ t₁ drift _
  have calm := calm_of_drift quiet drift
  have still : Passes ℓ σ [] ℓ σ₁ := ⟨calm, .refl ℓ, rfl, (List.append_nil _).symm⟩
  have held := state.pass still
  have hashing := password.pass still
  obtain ⟨u', live⟩ := Option.isSome_iff_exists.mp held.state.live
  obtain ⟨row, alive⟩ := Store.liveUser?_eq_some.mp live
  obtain rfl := Option.some.inj (held.row.symm.trans row)
  refine ⟨⟨.redeem e u p (ledger (r.idempotency.getD "") e u) spent revoked voided,
    .redeem request held.state.enrolment held.state.named held.state.unspent held.state.unvoided
      held.state.unexpired held.state.since held.row alive hashing.key hashing.hash rfl ?_ rfl width
      hashing.spelled ?_ ?_ ?_, ?_⟩, ?_⟩
  · intro row recorded
    obtain ⟨absent, locked⟩ := fresh row recorded
    exact (calm.redemption_row locked).trans absent
  · intro flag c stored live
    exact (held.revoking flag).locked c (((held.revoking flag).all c).mpr ⟨stored, live⟩)
  · intro flag x stored isOpen other
    exact (held.voiding flag).locked x
      (((held.voiding flag).all x).mpr ⟨stored, isOpen, by simpa using other⟩)
  · rw [counted]
    split
    · rename_i flag
      exact congrArg saturated (held.counted flag)
    · rfl
  · rw [Commit.result, pending]
    exact held.effect _
  · intro keyed
    have recorded : ledger (r.idempotency.getD "") e u =
        some ⟨r.idempotency.getD "", e.secretHash, e.id, e.userId, u.credentialEpoch + 1⟩ :=
      if_neg keyed
    rw [pending, held.effect, recorded]
    refine Or.inl ⟨_, Table.mem_put_self, rfl, held.state.named, rfl, rfl, rfl, rfl,
      ⟨bumped u, ?_, rfl⟩, spentAt spent e, ?_, rfl, rfl⟩
    · have here : weight e.userId = (bumped u).key := (Store.user?_mem held.row).2.symm
      simp only [Effect.apply, Store.user?, here, Table.find?_put_self]
    · simp only [Effect.apply]
      split
      · exact (Table.mem_update (f := voidedAt voided) fun _ => rfl).mpr
          ⟨_, Table.mem_put_self, by simp [openOf, spentAt]⟩
      · exact Table.mem_put_self

/-- The redemption from the ledger row on. -/
private theorem wp_recorded (quiet : Quiet R) (request : c.request = .redeemEnrolment r)
    (state : Withdrawn ℓ σ r.secretHash spent revoked voided e u creds ends)
    (pending : ℓ.pending = withdrawing spent revoked voided e u creds ends ++ [.password p])
    (counted : count = if e.revokeExistingCredentials then saturated ends.length else 0)
    (password : Hashing ℓ σ u e.userId r.argon2idHash p) :
    wp R (Does c .redeemEnrolment) (do
      if r.idempotency.getD "" = "" then pure () else do
        let recorded ← tx (Enrolment.insertRedemption ⟨r.idempotency.getD "", r.secretHash, e.id,
          e.userId, u.credentialEpoch + 1⟩)
        orElse db recorded
      commit
      pure ⟨.redeemed, e.userId, e.id, u.externalId, e.revokeExistingCredentials,
        u.credentialEpoch + 1, count⟩) (Redeems R (r.idempotency.getD "") r.secretHash) ℓ σ t := by
  split
  · rename_i unkeyed
    have none : ledger (r.idempotency.getD "") e u = .none := if_pos unkeyed
    have pending₀ : ℓ.pending = withdrawing spent revoked voided e u creds ends ++ [.password p] ++
        recording (ledger (r.idempotency.getD "") e u) := by
      rw [none, pending]
      exact (List.append_nil _).symm
    exact wp_committed quiet request state pending₀ counted password (by simp [none])
      fun keyed => absurd unkeyed keyed
  rename_i keyed
  refine wp_statement quiet (Or.inl rfl) fun ℓ₁ σ₁ t₁ pass₁ _ claimed₁ => ?_
  have state₁ := state.pass pass₁
  have password₁ := password.pass pass₁
  have width : e.secretHash.length = 32 := state₁.state.inv.width e state₁.state.enrolment
  have stores : binary32 r.secretHash = some r.secretHash :=
    binary32_of_length (state₁.state.named ▸ width)
  have there : (((σ₁.enrolments.put (spentAt spent e)).putAll (ends.map (voidedAt voided))).find?
      (weight e.id)).isSome := by
    rw [state₁.enrolments]
    refine Table.find?_isSome.mpr ?_
    split
    · exact ⟨spentAt spent e, (Table.mem_update (f := voidedAt voided) fun _ => rfl).mpr
        ⟨_, Table.mem_put_self, by simp [openOf, spentAt]⟩, rfl⟩
    · exact ⟨_, Table.mem_put_self, rfl⟩
  -- A row of this secret would have been left by a spend of this enrolment.
  have unrecorded : Unrecorded (r.idempotency.getD "") r.secretHash σ₁ := by
    intro row stored _ same
    obtain ⟨e', member, _, named, _, ended⟩ := state₁.state.inv.redeemed row stored
    obtain rfl := state₁.state.inv.secrets e' member e state₁.state.enrolment
      (named.trans (same.trans state₁.state.named.symm))
    exact ended state₁.state.unspent
  have held₁ := claimed₁.held
  rw [pending] at pass₁ held₁ ⊢
  simp only [applyAll_append, applyAll_withdrawing, applyAll_cons, applyAll_nil, Writes.apply,
    Write.apply, Enrolment.insertRedemption] at pass₁ held₁ ⊢
  by_cases fit : fits Enrolment.maxIdempotencyKey (r.idempotency.getD "") = true
  case neg =>
    simp only [fit, Bool.not_false, if_true, orElse, wp_fail_bind]
    exact fun _ => unrecorded
  simp only [fit, Bool.not_true, Bool.false_eq_true, if_false] at pass₁ ⊢
  cases prior : σ₁.redemptions.find? (weight (r.idempotency.getD "")) with
  | some row =>
    simp only [Redemption.key, prior, Option.isSome_some, if_true, orElse, wp_fail_bind]
    exact fun _ => unrecorded
  | none =>
    obtain ⟨_, found⟩ := Option.isSome_iff_exists.mp there
    simp only [Redemption.key, prior, Option.isSome_none, Bool.false_eq_true, if_false, found,
      Option.isNone_some, stores] at pass₁ held₁ ⊢
    have recorded : ledger (r.idempotency.getD "") e u =
        some ⟨r.idempotency.getD "", e.secretHash, e.id, e.userId, u.credentialEpoch + 1⟩ :=
      if_neg keyed
    have pending₁ : ℓ₁.pending = withdrawing spent revoked voided e u creds ends ++
        [.password p] ++ recording (ledger (r.idempotency.getD "") e u) := by
      rw [pass₁.pending, pending, recorded, state₁.state.named]
      rfl
    refine wp_committed quiet request state₁ pending₁ counted password₁ ?_ fun _ => fit
    · intro row same
      rw [recorded] at same
      cases same
      exact ⟨prior, t₁, held₁ _ _ (by simp [fit, insertRow, exclude, Redemption.key])⟩

/-- The redemption from the password on. -/
private theorem wp_stored (count : Nat) (t : Int) (quiet : Quiet R)
    (request : c.request = .redeemEnrolment r)
    (state : Withdrawn ℓ σ r.secretHash spent revoked voided e u creds ends)
    (pending : ℓ.pending = withdrawing spent revoked voided e u creds ends)
    (counted : count = if e.revokeExistingCredentials then saturated ends.length else 0) :
    wp R (Does c .redeemEnrolment) (do
      let stored ← tx (Enrolment.upsertPassword e.userId r.argon2idHash)
      orElse db stored
      if r.idempotency.getD "" = "" then pure () else do
        let recorded ← tx (Enrolment.insertRedemption ⟨r.idempotency.getD "", r.secretHash, e.id,
          e.userId, u.credentialEpoch + 1⟩)
        orElse db recorded
      commit
      pure ⟨.redeemed, e.userId, e.id, u.externalId, e.revokeExistingCredentials,
        u.credentialEpoch + 1, count⟩) (Redeems R (r.idempotency.getD "") r.secretHash) ℓ σ t := by
  refine wp_statement quiet (Or.inl rfl) fun ℓ₁ σ₁ t₁ pass₁ _ claimed₁ => ?_
  have state₁ := state.pass pass₁
  have here : u.key = weight e.userId := (Store.user?_mem state₁.row).2
  have user := state₁.user
  have locked : Holds ℓ₁.held (.password u.key) .exclusive :=
    claimed₁.holds (by simp [Enrolment.upsertPassword, exclude, here])
  have passwords : (applyAll ℓ.pending σ₁).passwords = σ₁.passwords := by
    rw [pending, applyAll_withdrawing]
  rw [← pending] at user
  cases found : σ₁.passwords.find? (weight e.userId) with
  | some p =>
    simp only [Enrolment.upsertPassword, passwords, found, orElse, wp_ret_bind] at pass₁ ⊢
    have pending₁ : ℓ₁.pending = withdrawing spent revoked voided e u creds ends ++
        [.password { p with argon2idHash := r.argon2idHash }] := by rw [pass₁.pending, pending]
    exact wp_recorded quiet request state₁ pending₁ counted
      ⟨(Table.find?_eq_some.mp found).2.trans here.symm, rfl, by rw [here, found]; rfl, locked⟩
  | none =>
    simp only [Enrolment.upsertPassword, passwords, found, user, Option.isNone_some,
      Bool.false_eq_true, if_false, orElse, wp_ret_bind] at pass₁ ⊢
    have pending₁ : ℓ₁.pending = withdrawing spent revoked voided e u creds ends ++
        [.password ⟨e.userId, r.argon2idHash⟩] := by rw [pass₁.pending, pending]
    exact wp_recorded quiet request state₁ pending₁ counted
      ⟨here.symm, rfl, by rw [here, found]; rfl, locked⟩

/-- A redemption that has spent its enrolment goes on to its commit, or another
secret holds its key. -/
theorem wp_redeemed (quiet : Quiet R) (request : c.request = .redeemEnrolment r)
    (state : Spent ℓ σ r.secretHash spent e)
    (pending : ℓ.pending = [.enrolment (spentAt spent e)]) :
    wp R (Does c .redeemEnrolment) (Enrolment.redeemed (r.idempotency.getD "") r)
      (Redeems R (r.idempotency.getD "") r.secretHash) ℓ σ t := by
  unfold Enrolment.redeemed Epoch.bump Epoch.current Epoch.revokeAll Epoch.voidEnrolments
  simp only [bind_assoc]
  refine wp_statement quiet (Or.inr state.iso) fun ℓ₁ σ₁ t₁ pass₁ _ _ => ?_
  have state₁ := state.pass pass₁
  obtain ⟨u₁, live₁⟩ := Option.isSome_iff_exists.mp state₁.live
  have row₁ := (Store.liveUser?_eq_some.mp live₁).1
  have sees₁ := state₁.sees
  have user₁ : (applyAll [Write.enrolment (spentAt spent e)] σ₁).user? (spentAt spent e).userId =
      some u₁ := row₁
  simp only [Enrolment.selectRedeemed, pending, sees₁, Option.bind_some, user₁, Option.map_some,
    orElse, wp_ret_bind]
  have pending₁ : ℓ₁.pending = [.enrolment (spentAt spent e)] := by
    simpa [Enrolment.selectRedeemed, pending] using pass₁.pending
  have users (σ : Store) : (applyAll ℓ₁.pending σ).user? e.userId = σ.user? e.userId := by
    rw [pending₁]
    rfl
  refine wp_updateEpoch quiet ?_ ?_
  · intro ℓ₂ σ₂ t₂ pass₂ _ gone _
    obtain ⟨u₂, row₂, _⟩ := pass₂.calm.evolves.user? row₁
    have row₂ : (applyAll ℓ₁.pending σ₂).user? e.userId = some u₂ := (users σ₂).trans row₂
    have gone : ((applyAll ℓ₁.pending σ₂).user? e.userId).filter (fun _ => true) = none := gone
    rw [row₂] at gone
    cases gone
  intro ℓ₂ σ₂ t₂ u pass₂ _ row₂ _ owner₂
  have row₂ : σ₂.user? e.userId = some u := (users σ₂).symm.trans row₂
  have state₂ := state₁.pass pass₂
  have pending₂ : ℓ₂.pending = [.enrolment (spentAt spent e), .user (bumped u)] := by
    rw [pass₂.pending, pending₁]
    rfl
  have externalId : u₁.externalId = u.externalId := by
    obtain ⟨u', row', later⟩ := pass₂.calm.evolves.user? row₁
    obtain rfl := Option.some.inj (row₂.symm.trans row')
    exact later.externalId.symm
  rw [externalId]
  refine wp_statement quiet (Or.inr state₂.iso) fun ℓ₃ σ₃ t₃ pass₃ _ _ => ?_
  have pass₃ : Passes ℓ₂ σ₂ [] ℓ₃ σ₃ := pass₃
  have state₃ := state₂.pass pass₃
  have owner₃ := pass₃.within.holds owner₂
  have row₃ : σ₃.user? e.userId = some u := (pass₃.calm.user_row owner₂).trans row₂
  have pending₃ : ℓ₃.pending = [.enrolment (spentAt spent e), .user (bumped u)] := by
    rw [pass₃.pending, pending₂]
    rfl
  have sees (σ : Store) (row : σ.user? e.userId = some u) :
      (applyAll [Write.enrolment (spentAt spent e), .user (bumped u)] σ).user? e.userId =
        some (bumped u) := user?_bumped row
  have sees₃ := sees σ₃ row₃
  have read : (Epoch.selectEpoch e.userId).exec t₃ (applyAll ℓ₂.pending σ₃) =
      (.ok (u.credentialEpoch + 1), []) := by
    simp only [Epoch.selectEpoch, pending₂, sees₃, bumped_credentialEpoch]
  have spends : (spentAt spent e).userId = e.userId := rfl
  rw [spends, read]
  simp only [wp_ret_bind]
  have here : weight e.userId = u.key := (Store.user?_mem row₃).2.symm
  cases flag : e.revokeExistingCredentials with
  | false =>
    have flag' : (spentAt spent e).revokeExistingCredentials = false := flag
    simp only [flag', Bool.false_eq_true, if_false, pure_bind]
    have pending : ℓ₃.pending = withdrawing spent 0 0 e u [] [] := pending₃
    have stored := wp_stored 0 t₃ quiet request
      ⟨state₃, row₃, owner₃, fun _ => ⟨rfl, rfl⟩, by simp [flag], by simp [flag]⟩ pending
      (by simp [flag])
    rw [flag] at stored
    exact stored
  | true =>
    have flag' : (spentAt spent e).revokeExistingCredentials = true := flag
    simp only [flag', if_true]
    refine wp_selectUserForUpdate quiet ?_ ?_
    · intro ℓ₄ σ₄ t₄ pass₄ _ gone
      have row₄ := (pass₄.calm.user_row owner₃).trans row₃
      have sees₄ := sees σ₄ row₄
      rw [pending₃, sees₄] at gone
      cases gone
    intro ℓ₄ σ₄ t₄ _ pass₄ _ _ owner₄
    have pending₄ : ℓ₄.pending = [.enrolment (spentAt spent e), .user (bumped u)] := by
      rw [pass₄.pending, pending₃]
      rfl
    simp only [if_true, bind_assoc, pure_bind]
    refine wp_updateRevokedAt quiet (fun σ => by rw [pending₄]; rfl) owner₄ ?_
    intro ℓ₅ σ₅ t₅ creds pass₅ _ revoking₅
    have pending₅ : ℓ₅.pending = withdrawing spent t₅ 0 e u creds [] := by
      rw [pass₅.pending, pending₄]
      simp [withdrawing]
    have owner₅ := pass₅.within.holds owner₄
    refine wp_updateVoidedAt quiet (p := fun x => x.key = e.key) ?_ owner₅ ?_
    · intro σ x
      rw [pending₅, applyAll_withdrawing, List.map_nil, Table.putAll_nil, Table.mem_put]
      constructor
      · rintro ⟨rfl | ⟨stored, other⟩, isOpen⟩
        · simp [openOf, spentAt] at isOpen
        · exact ⟨stored, isOpen, by simpa using other⟩
      · rintro ⟨stored, isOpen, other⟩
        exact ⟨Or.inr ⟨stored, by simpa using other⟩, isOpen⟩
    intro ℓ₆ σ₆ t₆ ends pass₆ _ voiding₆
    have pass₄₆ := (pass₄.trans pass₅).trans pass₆
    have state₆ := state₃.pass pass₄₆
    have row₆ : σ₆.user? e.userId = some u := (pass₄₆.calm.user_row owner₃).trans row₃
    have revoking₆ := (revoking₅.calm pass₆.calm).within pass₆.within
    have pending₆ : ℓ₆.pending = withdrawing spent t₅ t₆ e u creds ends := by
      rw [pass₆.pending, pending₅]
      simp [withdrawing]
    have stored := wp_stored (saturated ends.length) t₆ quiet request
      ⟨state₆, row₆, pass₄₆.within.holds owner₃, by simp [flag], fun _ => here ▸ revoking₆,
        fun _ => here ▸ voiding₆⟩ pending₆ (by simp [flag])
    rw [flag] at stored
    exact stored

/-- A redemption keeps to its effect, and answers what the ledger says. -/
theorem wp_redeem (quiet : Quiet R) (request : c.request = .redeemEnrolment r)
    (inv : Integrity σ) :
    wp R (Does c .redeemEnrolment) (Enrolment.redeem r)
      (Redeems R (r.idempotency.getD "") r.secretHash) ℓ σ t := by
  have fresh : ∀ ℓ (σ : Store) t, ℓ.iso = .readCommitted → ℓ.pending = [] → Integrity σ →
      (r.idempotency.getD "" ≠ "" → Unrecorded (r.idempotency.getD "") r.secretHash σ) →
      wp R (Does c .redeemEnrolment) (Enrolment.redeemFresh (r.idempotency.getD "") r)
        (Redeems R (r.idempotency.getD "") r.secretHash) ℓ σ t := by
    intro ℓ σ t iso pending inv unrecorded
    unfold Enrolment.redeemFresh
    cases fits : fitsPasswordColumn r.argon2idHash with
    | error e => exact fun keyed => unrecorded keyed
    | ok _ =>
      show wp R _ (Enrolment.lockOwner r.secretHash >>= _) _ ℓ σ t
      refine wp_lockOwner quiet iso fun ℓ₁ σ₁ t₁ pass₁ => ?_
      have pending₁ : ℓ₁.pending = [] := by simpa [pending] using pass₁.pending
      have inv₁ := pass₁.calm.integrity inv
      have iso₁ := pass₁.iso.trans iso
      refine wp_spend quiet pending₁ ?_ ?_ ?_
      · intro ℓ₂ σ₂ t₂ pass₂ ran absent
        rw [if_pos rfl]
        exact wp_unspent quiet request (pass₂.iso.trans iso₁) (by simpa [pending₁] using pass₂.pending)
          (pass₂.calm.integrity inv₁) ran (Or.inl absent)
      · intro ℓ₂ σ₂ t₂ e pass₂ ran named dead
        rw [if_pos rfl]
        exact wp_unspent quiet request (pass₂.iso.trans iso₁) (by simpa [pending₁] using pass₂.pending)
          (pass₂.calm.integrity inv₁) ran (Or.inr ⟨e, named, dead⟩)
      · intro ℓ₂ σ₂ t₂ e pass₂ named spends since
        rw [if_neg (by decide)]
        obtain ⟨member, secret⟩ := Store.enrolment?_mem named
        simp only [Enrolment.spendable, Bool.and_eq_true, Option.isNone_iff_eq_none,
          decide_eq_true_eq] at spends
        obtain ⟨⟨⟨unspent, unexpired⟩, unvoided⟩, live⟩ := spends
        exact wp_redeemed quiet request ⟨pass₂.iso.trans iso₁, pass₂.calm.integrity inv₁, member,
          secret, unspent, unvoided, unexpired, live, since⟩ (by simpa [pending₁] using pass₂.pending)
  unfold Enrolment.redeem
  rw [wp_start]
  intro σ₀ t₀ drift₀ _
  have inv₀ := (calm_of_drift quiet drift₀).integrity inv
  dsimp only
  split
  · rename_i unkeyed
    rw [pure_bind]
    exact fresh _ σ₀ t₀ rfl rfl inv₀ fun keyed => absurd unkeyed keyed
  refine wp_replay quiet rfl rfl inv₀ ?_ ?_ ?_
  · intro ℓ₁ σ₁ t₁ s _ pass₁ unrecorded
    exact fresh _ σ₁ t₁ pass₁.iso pass₁.pending (pass₁.calm.integrity inv₀) fun _ => unrecorded
  · exact fun _ _ _ _ unrecorded _ => unrecorded
  · intro ℓ₁ σ₁ t₁ a row pass₁ agrees first
    have pending₁ : ℓ₁.pending = [] := pass₁.pending
    rw [wp_finish]
    intro σ₂ t₂ drift₂ _
    rw [pending₁]
    refine ⟨⟨.nothing, .nothing (by simp [request, mayIdle]) ?_, rfl⟩, fun _ => ?_⟩
    · rintro a' same
      cases same
      exact first
    · exact Or.inl ⟨row, agrees.later (calm_of_drift quiet drift₂).evolves⟩

end

end IamDb.RedemptionProofs
