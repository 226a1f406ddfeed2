import IamDb.Rules

/-! Withdrawing what a person holds: under the exclusive lock on the user row
the credentials revoked and the enrolments voided by two statements are, at the
commit, all there are. -/
namespace IamDb.EpochProofs
open Txn Schema Messages Service Epoch Effects Evolution Interference Rules

variable [Engine]

/-! ### Rows matched by an earlier statement -/

/-- Locked rows that are all the live credentials of a user whose row is held. -/
structure Revoking (ℓ : Local Store Write Res) (σ : Store) (user : String) (now : Int)
    (rows : List Credential) : Prop where
  owner : Holds ℓ.held (.user user) .exclusive
  distinct : (rows.map Credential.key).Nodup
  all : ∀ c, c ∈ rows ↔ c ∈ σ.credentials ∧ liveOf user c = true
  locked : ∀ c ∈ rows, ⟨⟨.credential c.key, .exclusive⟩, now⟩ ∈ ℓ.held

/-- Locked rows that are all the open enrolments of a user whose row is held,
but for one the transaction has itself spent. -/
structure Voiding (ℓ : Local Store Write Res) (σ : Store) (user : String) (now : Int)
    (out : Enrolment → Bool) (rows : List Enrolment) : Prop where
  owner : Holds ℓ.held (.user user) .exclusive
  distinct : (rows.map Enrolment.key).Nodup
  all : ∀ e, e ∈ rows ↔ e ∈ σ.enrolments ∧ openOf user e = true ∧ out e = false
  locked : ∀ e ∈ rows, ⟨⟨.enrolment e.key, .exclusive⟩, now⟩ ∈ ℓ.held

/-- The password row of an upsert, on a row that is held. -/
structure Hashing (ℓ : Local Store Write Res) (σ : Store) (u : User) (userId new : String)
    (p : Password) : Prop where
  key : p.key = u.key
  hash : p.argon2idHash = new
  spelled : p.userId = ((σ.passwords.find? u.key).map (·.userId)).getD userId
  held : Holds ℓ.held (.password u.key) .exclusive

section
variable {ℓ ℓ' : Local Store Write Res}

theorem Revoking.within (revoking : Revoking ℓ σ user now rows) (within : ℓ.Within ℓ') :
    Revoking ℓ' σ user now rows :=
  ⟨within.holds revoking.owner, revoking.distinct, revoking.all,
    fun c member => within.held _ (revoking.locked c member)⟩

/-- The rows stay all there are while others commit. -/
theorem Revoking.calm (revoking : Revoking ℓ σ user now rows) (calm : Calm ℓ σ σ') :
    Revoking ℓ σ' user now rows := by
  refine ⟨revoking.owner, revoking.distinct, fun c => ?_, revoking.locked⟩
  constructor
  · intro member
    obtain ⟨stored, live⟩ := (revoking.all c).mp member
    have found := calm.credential_row ⟨now, revoking.locked c member⟩
    rw [Table.find?_of_mem stored] at found
    exact ⟨(Table.find?_eq_some.mp found).1, live⟩
  · rintro ⟨stored, live⟩
    exact (revoking.all c).mpr ⟨calm.no_new_credential revoking.owner stored live, live⟩

theorem Voiding.within (voiding : Voiding ℓ σ user now out rows) (within : ℓ.Within ℓ') :
    Voiding ℓ' σ user now out rows :=
  ⟨within.holds voiding.owner, voiding.distinct, voiding.all,
    fun e member => within.held _ (voiding.locked e member)⟩

theorem Voiding.calm (voiding : Voiding ℓ σ user now out rows) (calm : Calm ℓ σ σ') :
    Voiding ℓ σ' user now out rows := by
  refine ⟨voiding.owner, voiding.distinct, fun e => ?_, voiding.locked⟩
  constructor
  · intro member
    obtain ⟨stored, live, kept⟩ := (voiding.all e).mp member
    have found := calm.enrolment_row ⟨now, voiding.locked e member⟩
    rw [Table.find?_of_mem stored] at found
    exact ⟨(Table.find?_eq_some.mp found).1, live, kept⟩
  · rintro ⟨stored, live, kept⟩
    exact (voiding.all e).mpr ⟨calm.no_new_enrolment voiding.owner stored live, live, kept⟩

theorem Hashing.pass (hashing : Hashing ℓ σ u userId new p) (pass : Passes ℓ σ ws ℓ' σ') :
    Hashing ℓ' σ' u userId new p :=
  ⟨hashing.key, hashing.hash, pass.calm.password_row hashing.held ▸ hashing.spelled,
    pass.within.holds hashing.held⟩

/-- Writing the rows back revoked is the update of the whole table. -/
theorem Revoking.update (revoking : Revoking ℓ σ user now rows) :
    σ.credentials.putAll (rows.map (revokedAt now)) =
      σ.credentials.update (liveOf user) (revokedAt now) :=
  Table.putAll_eq_update (fun _ => rfl) revoking.all revoking.distinct

end

/-- Pending revocations touch one table. -/
theorem applyAll_revoked (rows : List Credential) (σ : Store) :
    applyAll (rows.map fun c => Write.credential (revokedAt now c)) σ =
      { σ with credentials := σ.credentials.putAll (rows.map (revokedAt now)) } := by
  induction rows generalizing σ with
  | nil => rfl
  | cons c rows ih => exact ih _

/-- Pending voids touch one table. -/
theorem applyAll_voided (rows : List Enrolment) (σ : Store) :
    applyAll (rows.map fun e => Write.enrolment (voidedAt now e)) σ =
      { σ with enrolments := σ.enrolments.putAll (rows.map (voidedAt now)) } := by
  induction rows generalizing σ with
  | nil => rfl
  | cons e rows ih => exact ih _

theorem Voiding.update (voiding : Voiding ℓ σ user now (fun _ => false) rows) :
    σ.enrolments.putAll (rows.map (voidedAt now)) =
      σ.enrolments.update (openOf user) (voidedAt now) :=
  Table.putAll_eq_update (fun _ => rfl) (fun e => by simp [voiding.all]) voiding.distinct

/-! ### The statements -/

section
variable {R : Rely Store Write Res} {G : Guar Store Write Res Status α}
  {Q : Post Store Write Res Status α} {ℓ : Local Store Write Res}

/-- The lock on a user row. -/
theorem wp_selectUserForUpdate {k : Bool → Rpc α} (quiet : Quiet R)
    (absent : ∀ ℓ' σ' t', Passes ℓ σ [] ℓ' σ' → t ≤ t' →
      (applyAll ℓ.pending σ').user? userId = none → wp R G (k false) Q ℓ' σ' t')
    (present : ∀ ℓ' σ' t' u, Passes ℓ σ [] ℓ' σ' → t ≤ t' →
      (applyAll ℓ.pending σ').user? userId = some u →
      Holds ℓ'.held (.user (weight userId)) .exclusive → wp R G (k true) Q ℓ' σ' t') :
    wp R G (tx (selectUserForUpdate userId) >>= k) Q ℓ σ t := by
  refine wp_statement quiet (Or.inl rfl) fun ℓ' σ' t' pass later claimed => ?_
  cases found : (applyAll ℓ.pending σ').user? userId with
  | none =>
    simp only [selectUserForUpdate, found]
    exact absent ℓ' σ' t' pass later found
  | some u =>
    simp only [selectUserForUpdate, found]
    refine present ℓ' σ' t' u pass later found (claimed.holds ?_)
    simp [selectUserForUpdate, userRow, found]

/-- The count of an epoch, on a row that is there. -/
theorem wp_updateEpoch {k : Nat → Rpc α} (quiet : Quiet R)
    (unmatched : ∀ ℓ' σ' t', Passes ℓ σ [] ℓ' σ' → t ≤ t' →
      ((applyAll ℓ.pending σ').user? userId).filter matched = none →
      Claimed (updateEpoch userId matched) ℓ σ' t' ℓ' → wp R G (k 0) Q ℓ' σ' t')
    (done : ∀ ℓ' σ' t' u, Passes ℓ σ [.user (bumped u)] ℓ' σ' → t ≤ t' →
      (applyAll ℓ.pending σ').user? userId = some u → matched u = true →
      Holds ℓ'.held (.user (weight userId)) .exclusive → wp R G (k 1) Q ℓ' σ' t') :
    wp R G (tx (updateEpoch userId matched) >>= k) Q ℓ σ t := by
  refine wp_statement quiet (Or.inl rfl) fun ℓ' σ' t' pass later claimed => ?_
  cases found : ((applyAll ℓ.pending σ').user? userId).filter matched with
  | none =>
    simp only [updateEpoch, found] at pass ⊢
    exact unmatched ℓ' σ' t' pass later found claimed
  | some u =>
    obtain ⟨row, holds⟩ := Option.filter_eq_some_iff.mp found
    simp only [updateEpoch, found] at pass ⊢
    refine done ℓ' σ' t' u pass later row holds (claimed.holds ?_)
    simp [updateEpoch, userRow, row, holds]

/-- The tombstones. -/
theorem wp_updateRevokedAt {k : Nat → Rpc α} (quiet : Quiet R)
    (untouched : ∀ σ : Store, (applyAll ℓ.pending σ).credentials = σ.credentials)
    (owner : Holds ℓ.held (.user (weight userId)) .exclusive)
    (rest : ∀ ℓ' σ' t' rows,
      Passes ℓ σ (rows.map fun c => Write.credential (revokedAt t' c)) ℓ' σ' → t ≤ t' →
      Revoking ℓ' σ' (weight userId) t' rows → wp R G (k rows.length) Q ℓ' σ' t') :
    wp R G (tx (updateRevokedAt userId) >>= k) Q ℓ σ t := by
  refine wp_statement quiet (Or.inl rfl) fun ℓ' σ' t' pass later claimed => ?_
  refine rest ℓ' σ' t' (Epoch.unrevoked (applyAll ℓ.pending σ') userId) pass later ?_
  have seen : Epoch.unrevoked (applyAll ℓ.pending σ') userId =
      σ'.credentials.rows.filter (liveOf (weight userId)) := by
    rw [Epoch.unrevoked, untouched]
    rfl
  rw [seen]
  refine ⟨pass.within.holds owner, Table.filter_distinct _ _, fun c => List.mem_filter, ?_⟩
  intro c member
  obtain ⟨stored, live⟩ := List.mem_filter.mp member
  simp only [liveOf, Bool.and_eq_true, decide_eq_true_eq] at live
  refine claimed.held _ _ (List.mem_map.mpr ⟨c, List.mem_filter.mpr ⟨?_, ?_⟩, ?_⟩)
  · rw [untouched]
    exact stored
  · simpa using live.1
  · simp [live.2]

/-- The voids. -/
theorem wp_updateVoidedAt {k : Nat → Rpc α} (quiet : Quiet R)
    (seen : ∀ (σ : Store) e, e ∈ (applyAll ℓ.pending σ).enrolments ∧ openOf (weight userId) e = true ↔
      e ∈ σ.enrolments ∧ openOf (weight userId) e = true ∧ p e = false)
    (owner : Holds ℓ.held (.user (weight userId)) .exclusive)
    (rest : ∀ ℓ' σ' t' rows,
      Passes ℓ σ (rows.map fun e => Write.enrolment (voidedAt t' e)) ℓ' σ' → t ≤ t' →
      Voiding ℓ' σ' (weight userId) t' p rows → wp R G (k rows.length) Q ℓ' σ' t') :
    wp R G (tx (updateVoidedAt userId) >>= k) Q ℓ σ t := by
  refine wp_statement quiet (Or.inl rfl) fun ℓ' σ' t' pass later claimed => ?_
  refine rest ℓ' σ' t' (Epoch.unended (applyAll ℓ.pending σ') userId) pass later ?_
  have matched (e : Enrolment) : e ∈ Epoch.unended (applyAll ℓ.pending σ') userId ↔
      e ∈ (applyAll ℓ.pending σ').enrolments ∧ openOf (weight userId) e = true := List.mem_filter
  refine ⟨pass.within.holds owner, Table.filter_distinct _ _,
    fun e => (matched e).trans (seen σ' e), ?_⟩
  intro e member
  obtain ⟨stored, live⟩ := (matched e).mp member
  simp only [openOf, Bool.and_eq_true, decide_eq_true_eq] at live
  refine claimed.held _ _ (List.mem_map.mpr ⟨e, List.mem_filter.mpr ⟨stored, ?_⟩, ?_⟩)
  · simpa using live.1.1
  · simp [live.1.2, live.2]

end

/-- A transaction that has bumped a row sees it bumped. -/
theorem user?_bumped {σ : Store} (row : σ.user? userId = some u) :
    (applyAll [Write.user (bumped u)] σ).user? userId = some (bumped u) := by
  have here : weight userId = (bumped u).key := (Store.user?_mem row).2.symm
  simp only [applyAll_cons, applyAll_nil, Writes.apply, Write.apply, Store.user?, here,
    Table.find?_put_self]

/-! ### The verbs -/

section
variable {R : Rely Store Write Res} {c : Call} {ℓ : Local Store Write Res}

theorem wp_revokeAllCredentials (quiet : Quiet R)
    (request : c.request = .revokeAllCredentials r) :
    wp R (Does c .revokeAllCredentials) (Credential.revokeAllCredentials r)
      (fun _ _ _ _ => True) ℓ σ t := by
  unfold Credential.revokeAllCredentials Epoch.revokeAll Epoch.bump Epoch.voidEnrolments
  simp only [bind_assoc, pure_bind]
  rw [wp_start]
  intro σ₀ t₀ _ _
  refine wp_selectUserForUpdate quiet ?_ ?_
  · intro ℓ₁ σ₁ t₁ _ _ _
    trivial
  intro ℓ₁ σ₁ t₁ u pass₁ _ row₁ locked₁
  have pending₁ : ℓ₁.pending = [] := by simpa using pass₁.pending
  simp only [if_true, bind_assoc, pure_bind]
  refine wp_updateRevokedAt quiet (by simp [pending₁]) locked₁ ?_
  intro ℓ₂ σ₂ t₂ rows pass₂ _ revoking₂
  have pending₂ : ℓ₂.pending = rows.map fun c => Write.credential (revokedAt t₂ c) := by
    simpa [pending₁] using pass₂.pending
  have sees₂ (σ : Store) : (applyAll ℓ₂.pending σ).users = σ.users := by
    rw [pending₂, applyAll_revoked]
  refine wp_updateEpoch quiet ?_ ?_
  · intro ℓ₃ σ₃ t₃ pass₃ _ gone _
    have kept := (pass₂.calm.trans (pass₃.calm.within pass₂.within)).user_row locked₁
    have row₁ : σ₁.users.find? (weight r.userId) = some u := row₁
    rw [Store.user?, sees₂, kept, row₁] at gone
    cases gone
  intro ℓ₃ σ₃ t₃ u₃ pass₃ _ row₃ _ locked₃
  have revoking₃ := (revoking₂.calm pass₃.calm).within pass₃.within
  have pending₃ := pass₃.pending
  rw [pending₂] at pending₃
  refine wp_updateVoidedAt quiet (p := fun _ => false) ?_ locked₃ ?_
  · intro σ e
    simp [pending₃, applyAll_revoked, Writes.apply, Write.apply]
  intro ℓ₄ σ₄ t₄ ends pass₄ _ voiding₄
  rw [wp_finish]
  intro σ₅ t₅ drift₅ _
  have calm₅ := calm_of_drift quiet drift₅
  have revoking₅ := ((revoking₃.calm pass₄.calm).within pass₄.within).calm calm₅
  have voiding₅ := voiding₄.calm calm₅
  have row₅ : σ₅.user? r.userId = some u₃ := by
    have kept := (pass₄.calm.trans (calm₅.within pass₄.within)).user_row locked₃
    rw [Store.user?, sees₂] at row₃
    rw [Store.user?, kept, row₃]
  have here : u₃.key = weight r.userId := (Store.user?_mem row₅).2
  refine ⟨⟨.revokeAll u₃ t₂ t₄, .revokeAll request row₅ ?_ ?_, ?_⟩, trivial⟩
  · intro c stored live
    exact revoking₅.locked c ((revoking₅.all c).mpr ⟨stored, here ▸ live⟩)
  · intro e stored isOpen
    exact voiding₅.locked e ((voiding₅.all e).mpr ⟨stored, here ▸ isOpen, rfl⟩)
  rw [Commit.result, pass₄.pending, pending₃]
  simp only [applyAll_append, applyAll_revoked, applyAll_voided, applyAll_cons, applyAll_nil,
    Writes.apply, Write.apply, Effect.apply, here]
  rw [revoking₅.update, voiding₅.update]

/-- A re-read that is the transaction's first sees that nobody is alive. -/
theorem wp_liveUser_gone {G : Guar Store Write Res Status α} {Q : Post Store Write Res Status α}
    {k : Unit → Rpc α} (quiet : Quiet R) (early : ℓ.snapshot = none)
    (repeatable : ℓ.iso = .repeatableRead) (failed : ∀ e ℓ' σ t, Q (.error e) ℓ' σ t)
    (gone : ∀ σ', Calm ℓ σ σ' → (applyAll ℓ.pending σ').liveUser? userId = none) :
    wp R G (liveUser tx userId >>= k) Q ℓ σ t := by
  unfold liveUser
  rw [bind_assoc]
  refine wp_first quiet early repeatable rfl (fun _ _ => rfl) fun ℓ' σ' t' _ pass _ _ => ?_
  simp only [selectLiveUser, gone σ' pass.calm]
  exact failed _ _ _ _

/-- The upsert on the live row it selects. -/
theorem wp_insertPassword {G : Guar Store Write Res Status α} {Q : Post Store Write Res Status α}
    {k : Nat → Rpc α} (quiet : Quiet R)
    (unmatched : ∀ ℓ' σ' t', Passes ℓ σ [] ℓ' σ' → t ≤ t' →
      (applyAll ℓ.pending σ').liveUser? userId = none → wp R G (k 0) Q ℓ' σ' t')
    (untouched : ∀ σ : Store, (applyAll ℓ.pending σ).passwords = σ.passwords)
    (done : ∀ ℓ' σ' t' u p, Passes ℓ σ [.password p] ℓ' σ' → t ≤ t' →
      (applyAll ℓ.pending σ').liveUser? userId = some u → Hashing ℓ' σ' u u.id new p →
      wp R G (k 1) Q ℓ' σ' t') :
    wp R G (tx (Password.insertPassword userId new) >>= k) Q ℓ σ t := by
  refine wp_statement quiet (Or.inl rfl) fun ℓ' σ' t' pass later claimed => ?_
  cases live : (applyAll ℓ.pending σ').liveUser? userId with
  | none =>
    simp only [Password.insertPassword, live] at pass ⊢
    exact unmatched ℓ' σ' t' pass later live
  | some u =>
    have locked : Holds ℓ'.held (.password u.key) .exclusive :=
      claimed.holds (by simp [Password.insertPassword, live, exclude])
    cases found : (applyAll ℓ.pending σ').passwords.find? u.key with
    | none =>
      simp only [Password.insertPassword, live, found] at pass ⊢
      refine done ℓ' σ' t' u _ pass later live ⟨rfl, rfl, ?_, locked⟩
      rw [← untouched, found]
      rfl
    | some p =>
      simp only [Password.insertPassword, live, found] at pass ⊢
      refine done ℓ' σ' t' u _ pass later live
        ⟨(Table.find?_eq_some.mp found).2, rfl, ?_, locked⟩
      rw [← untouched, found]
      rfl

/-- A person the bump did not find alive the upsert does not find alive
either. -/
private theorem still_not_live {ℓ' : Local Store Write Res} (calm : Calm ℓ' σ σ')
    (unmatched : (σ.user? userId).filter (fun u => u.deletedAt.isNone) = none)
    (held : ∀ r mode, ⟨⟨r, mode⟩, true⟩ ∈
      userRow .exclusive userId (fun u => u.deletedAt.isNone) .repeatableRead σ →
      ⟨⟨r, mode⟩, t⟩ ∈ ℓ'.held) : σ'.liveUser? userId = none := by
  cases found : σ.user? userId with
  | none =>
    have gap : Holds ℓ'.held (.userGap (weight userId)) .shared :=
      ⟨t, held _ _ (by simp [userRow, found, share])⟩
    simp [Store.liveUser?, calm.absent_user gap found]
  | some u =>
    have locked : Holds ℓ'.held (.user (weight userId)) .exclusive :=
      ⟨t, held _ _ (by simp [userRow, found])⟩
    have same : σ'.user? userId = σ.user? userId := calm.user_row locked
    rw [Store.liveUser?, same]
    exact unmatched

theorem wp_storePassword {Q : Post Store Write Res Status Unit} (quiet : Quiet R)
    (request : c.request = .setPassword r) (failed : ∀ e ℓ' σ t, Q (.error e) ℓ' σ t)
    (done : ∀ ℓ' (σ : Store) t u p, σ.user? r.userId = some (bumped u) → u.deletedAt = none →
      p ∈ σ.passwords → p.key = u.key → p.argon2idHash = r.argon2idHash → Q (.ok ()) ℓ' σ t) :
    wp R (Does c fun () => .setPassword) (Password.storePassword r) Q ℓ σ t := by
  unfold Password.storePassword Epoch.bumpLive
  cases fits : fitsPasswordColumn r.argon2idHash with
  | error e => exact failed _ _ _ _
  | ok _ =>
    show wp R _ (begin defaultIsolation >>= _) _ ℓ σ t
    rw [wp_start]
    intro σ₀ t₀ _ _
    refine wp_updateEpoch quiet ?_ ?_
    · intro ℓ₁ σ₁ t₁ pass₁ _ unmatched claimed
      have pending₁ : ℓ₁.pending = [] := by simpa using pass₁.pending
      rw [if_pos rfl]
      refine wp_liveUser_gone quiet (claimed.snapshot rfl) pass₁.iso failed fun σ' calm => ?_
      rw [pending₁]
      exact still_not_live calm unmatched claimed.held
    · intro ℓ₁ σ₁ t₁ u pass₁ _ row₁ live locked₁
      have live : u.deletedAt = none := by simpa using live
      have pending₁ : ℓ₁.pending = [.user (bumped u)] := by simpa using pass₁.pending
      rw [if_neg (by decide)]
      -- The row is locked, so every later statement sees it, bumped and live.
      have row (σ' : Store) (calm : Calm ℓ₁ σ₁ σ') : σ'.user? r.userId = some u :=
        (calm.user_row locked₁).trans row₁
      have sees (σ' : Store) (calm : Calm ℓ₁ σ₁ σ') :
          (applyAll ℓ₁.pending σ').liveUser? r.userId = some (bumped u) := by
        rw [pending₁]
        exact Store.liveUser?_eq_some.mpr ⟨user?_bumped (row σ' calm), live⟩
      refine wp_insertPassword quiet ?_ (fun σ => by rw [pending₁]; rfl) ?_
      · intro ℓ₂ σ₂ t₂ pass₂ _ gone
        rw [sees σ₂ pass₂.calm] at gone
        cases gone
      · intro ℓ₂ σ₂ t₂ u₂ p pass₂ _ live₂ hashing₂
        obtain rfl : bumped u = u₂ := Option.some.inj ((sees σ₂ pass₂.calm).symm.trans live₂)
        rw [if_neg (by decide)]
        intro σ₃ t₃ drift₃ _
        have calm₃ := calm_of_drift quiet drift₃
        have row₃ := row σ₃ (pass₂.calm.trans (calm₃.within pass₂.within))
        have spelled₃ := calm₃.password_row hashing₂.held ▸ hashing₂.spelled
        have pending₂ : ℓ₂.pending = [.user (bumped u), .password p] := by
          rw [pass₂.pending, pending₁]
          rfl
        refine ⟨⟨.setPassword u p, .setPassword request row₃ live hashing₂.key hashing₂.hash
          spelled₃, ?_⟩, ?_⟩
        · rw [Commit.result, pending₂]
          rfl
        · rw [pending₂]
          exact done _ _ _ u p (user?_bumped row₃) live Table.mem_put_self hashing₂.key
            hashing₂.hash

end

end IamDb.EpochProofs
