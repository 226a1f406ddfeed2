import IamDb.PolicyProofs

/-! Minting an enrolment. Three arms insert in one statement on the user row
they match; the declared arm decides first, in one transaction, and its shared
lock on the person keeps that true until the insert. -/
namespace IamDb.EnrolmentProofs
open Txn Schema Messages Service Effects Evolution Interference Rules

variable [Engine]

/-- What the insert of an enrolment claims, answers and writes. -/
inductive InsertsEnrolment (id : String) (secretHash : Bytes) (seconds : Int) (userId : String)
    (revoking : Bool) (matched : Store → User → Bool) (σ : Store) (claims : List (Claim Res)) :
    Except DbError Nat × List Write → Prop where
  | unmatched (gone : (σ.user? userId).filter (matched σ) = none) :
    InsertsEnrolment id secretHash seconds userId revoking matched σ claims (.ok 0, [])
  | refused : InsertsEnrolment id secretHash seconds userId revoking matched σ claims (.error e, [])
  | done (user : σ.user? userId = some u) (holds : matched σ u = true)
      (stores : binary32 secretHash = some secret) (time : fromUnixtime seconds = some expiresAt)
      (fresh : σ.enrolments.find? (weight id) = none) (unused : σ.enrolment? secret = none)
      (shared : share (.user u.key) ∈ claims) (row : exclude (.enrolment (weight id)) ∈ claims)
      (reserved : exclude (.secret secret) ∈ claims) :
    InsertsEnrolment id secretHash seconds userId revoking matched σ claims
      (.ok 1, [.enrolment ⟨id, u.id, secret, expiresAt, none, none, revoking⟩])

theorem insertEnrolment_exec (id : String) (secretHash : Bytes) (seconds : Int) (userId : String)
    (revoking : Bool) (matched : Store → User → Bool) (looks : Store → List (Claim Res))
    (now : Int) (iso : Isolation) (σ : Store) :
    InsertsEnrolment id secretHash seconds userId revoking matched σ
      ((Enrolment.insertEnrolment id secretHash seconds userId revoking matched looks).claims
        now iso σ)
      ((Enrolment.insertEnrolment id secretHash seconds userId revoking matched looks).exec
        now σ) := by
  simp only [Enrolment.insertEnrolment]
  cases found : (σ.user? userId).filter (matched σ) with
  | none => exact .unmatched found
  | some u =>
    obtain ⟨user, holds⟩ := Option.filter_eq_some_iff.mp found
    cases stores : binary32 secretHash with
    | none => exact .refused
    | some secret =>
      cases time : fromUnixtime seconds with
      | none => exact .refused
      | some expiresAt =>
        dsimp only
        split
        · exact .refused
        · rename_i fresh
          split
          · exact .refused
          · rename_i unused
            refine .done user holds stores time (by simpa using fresh) (by simpa using unused)
              (List.mem_append_left _ (List.mem_append_left _ (mem_userRow user holds))) ?_ ?_
            · simp [insertRow, fresh]
            · simp [insertRow, unused]

/-- The three arms differ in the flag, the predicate and what they look at;
every predicate asks for a live person. -/
theorem statement_eq (id : String) (r : CreateEnrolmentRequest) (seconds : Int) :
    ∃ revoking matched looks, Enrolment.statement id r seconds =
      Enrolment.insertEnrolment id r.secretHash seconds r.userId revoking matched looks ∧
      (∀ σ u, matched σ u = true → u.deletedAt = none) ∧
      (r.requireZeroCredentialAdmin = false →
        matched = Enrolment.isLive ∧ revoking = r.revokeExistingCredentials) ∧
      (r.requireZeroCredentialAdmin = true → matched = Enrolment.demanded ∧ revoking = false) := by
  have demanded (σ : Store) (u : User) (holds : Enrolment.demanded σ u = true) :
      u.deletedAt = none := by
    simp only [Enrolment.demanded, Bool.and_eq_true, Option.isNone_iff_eq_none] at holds
    exact holds.1.1.1
  have live (σ : Store) (u : User) (holds : Enrolment.isLive σ u = true) : u.deletedAt = none := by
    simpa [Enrolment.isLive] using holds
  unfold Enrolment.statement
  cases r.requireZeroCredentialAdmin with
  | true => exact ⟨_, _, _, rfl, demanded, nofun, fun _ => ⟨rfl, rfl⟩⟩
  | false =>
    cases r.revokeExistingCredentials with
    | true => exact ⟨_, _, _, rfl, live, fun _ => ⟨rfl, rfl⟩, nofun⟩
    | false => exact ⟨_, _, _, rfl, live, fun _ => ⟨rfl, rfl⟩, nofun⟩

/-- The demand's predicate, conjunct by conjunct. -/
theorem demanded_iff {σ : Store} : Enrolment.demanded σ u = true ↔
    u.deletedAt = none ∧ u.isAdmin = true ∧ σ.passwords.find? u.key = none ∧
      ∀ row ∈ σ.credentials, weight row.userId ≠ u.key := by
  simp [Enrolment.demanded, and_assoc, Table.mem_def]

section
variable {R : Rely Store Write Res} {c : Call} {ℓ : Local Store Write Res}

/-- The declared arm. -/
theorem wp_issue {Q : Post Store Write Res Status String} (quiet : Quiet R)
    (request : c.request = .createEnrolment r) (fromTeam : r.adminFromTeam = true)
    (expiry : r.expiresAt = some seconds) (failed : ∀ e ℓ' σ t, Q (.error e) ℓ' σ t)
    (done : ∀ ℓ' (σ : Store) t e, e ∈ σ.enrolments → e.id = "yadgar:enrolment:" ++ c.uuid.text →
      Q (.ok ("yadgar:enrolment:" ++ c.uuid.text)) ℓ' σ t) :
    wp R (Does c .createEnrolment)
      (Enrolment.issue ("yadgar:enrolment:" ++ c.uuid.text) r seconds) Q ℓ σ t := by
  unfold Enrolment.issue Enrolment.predicate Team.lockAdministrators
  simp only [bind_assoc]
  rw [wp_start]
  intro σ₀ t₀ _ _
  refine wp_statement quiet (Or.inr rfl) fun ℓ₁ σ₁ t₁ pass₁ _ claimed₁ => ?_
  have pending₁ : ℓ₁.pending = [] := by
    simpa [Team.selectAdministratorsForUpdate] using pass₁.pending
  split
  · exact failed _ _ _ _
  rename_i listed
  obtain ⟨team, found, undeleted⟩ : ∃ t, σ₁.team? Team.administrators = some t ∧ t.deletedAt = none := by
    simpa [Team.selectAdministratorsForUpdate] using listed
  have lock₁ : Holds ℓ₁.held (.team (weight Team.administrators)) .exclusive :=
    claimed₁.holds (by simp [Team.selectAdministratorsForUpdate, teamRow, found])
  have there₁ : (σ₁.team? Team.administrators).isSome := by simp [found]
  rw [bind_assoc]
  refine wp_statement quiet (Or.inr pass₁.iso) fun ℓ₂ σ₂ t₂ pass₂ _ claimed₂ => ?_
  have pending₂ : ℓ₂.pending = [] := by
    simpa [Enrolment.selectLiveUserShared, pending₁] using pass₂.pending
  simp only [Enrolment.selectLiveUserShared, pending₁, applyAll_nil]
  cases live : σ₂.liveUser? r.userId with
  | none => exact failed _ _ _ _
  | some u =>
    obtain ⟨row₂, alive⟩ := Store.liveUser?_eq_some.mp live
    have shared : Holds ℓ₂.held (.user (weight r.userId)) .shared := by
      refine claimed₂.holds ?_
      rw [pending₁, ← (Store.user?_mem row₂).2]
      exact mem_userRow row₂ (by simp [alive])
    simp only [Option.isSome_some, Bool.not_true, Bool.false_eq_true, if_false, bind_assoc]
    refine wp_statement quiet (Or.inr (pass₂.iso.trans pass₁.iso)) fun ℓ₃ σ₃ t₃ pass₃ _ _ => ?_
    rw [pending₂, applyAll_nil]
    cases member : ((Enrolment.selectAdministrator r.userId).exec t₃ σ₃).1 with
    | false => exact failed _ _ _ _
    | true =>
      simp only [Bool.not_true, Bool.false_eq_true, if_false, bind_assoc, pure_bind]
      refine wp_any quiet (fun _ _ => rfl) fun n ℓ₄ σ₄ t₄ pass₄ _ => ?_
      have pending₄ : ℓ₄.pending = [] := by rw [pass₄.pending, pass₃.pending, pending₂]; rfl
      have within₄ := pass₃.within.trans pass₄.within
      have arm : (if r.revokeExistingCredentials = true then
            Enrolment.revoking ("yadgar:enrolment:" ++ c.uuid.text) r seconds
          else Enrolment.ordinary ("yadgar:enrolment:" ++ c.uuid.text) r seconds) =
          Enrolment.insertEnrolment ("yadgar:enrolment:" ++ c.uuid.text) r.secretHash seconds
            r.userId r.revokeExistingCredentials Enrolment.isLive fun _ => [] := by
        cases r.revokeExistingCredentials with
        | true => rfl
        | false => rfl
      rw [arm]
      refine wp_statement quiet (Or.inl rfl) fun ℓ₅ σ₅ t₅ pass₅ _ claimed₅ => ?_
      rw [pending₄, applyAll_nil] at pass₅ ⊢
      -- The person is as the predicate found them, under the shared lock.
      have row₅ : σ₅.user? r.userId = some u :=
        ((pass₃.calm.trans ((pass₄.calm.within pass₃.within).trans
          (pass₅.calm.within within₄))).user_row shared).trans row₂
      have inserts := insertEnrolment_exec ("yadgar:enrolment:" ++ c.uuid.text) r.secretHash
        seconds r.userId r.revokeExistingCredentials Enrolment.isLive (fun _ => []) t₅ ℓ₄.iso σ₅
      have held₅ := claimed₅.held
      rw [pending₄, applyAll_nil] at held₅
      generalize (Enrolment.insertEnrolment ("yadgar:enrolment:" ++ c.uuid.text) r.secretHash
        seconds r.userId r.revokeExistingCredentials Enrolment.isLive fun _ => []).exec t₅ σ₅ =
          outcome at inserts pass₅ ⊢
      cases inserts with
      | unmatched gone => simp [row₅, Enrolment.isLive, alive] at gone
      | refused => exact failed _ _ _ _
      | @done u' secret expiresAt user _ stores time fresh unused owner row reserved =>
        have reserved : Holds ℓ₅.held (.secret secret) .exclusive := ⟨t₅, held₅ _ _ reserved⟩
        have row : Holds ℓ₅.held (.enrolment (weight ("yadgar:enrolment:" ++ c.uuid.text)))
          .exclusive := ⟨t₅, held₅ _ _ row⟩
        have owner : Holds ℓ₅.held (.user u'.key) .shared := ⟨t₅, held₅ _ _ owner⟩
        simp only [orElse, wp_ret_bind]
        rw [wp_finish]
        intro σ₆ t₆ drift₆ _
        have calm₆ := calm_of_drift quiet drift₆
        obtain rfl : u = u' := Option.some.inj (row₅.symm.trans user)
        have row₆ : σ₆.user? r.userId = some u :=
          (calm₆.user_row ((Store.user?_mem user).2 ▸ owner)).trans user
        have pending₅ := pass₅.pending
        simp only [pending₄, List.nil_append] at pending₅
        -- The team and the member row are as the predicate found them, under its lock.
        have calm₃ := (pass₂.calm.trans (pass₃.calm.within pass₂.within))
        have kept₃ := calm₃.roster_administrators lock₁ there₁
        have within₃ := pass₂.within.trans pass₃.within
        have calm₅₆ := pass₄.calm.trans ((pass₅.calm.within pass₄.within).trans
          (calm₆.within (pass₄.within.trans pass₅.within)))
        have kept₆ := kept₃.trans (calm₅₆.roster_administrators (within₃.holds lock₁)
          (by rwa [Store.team?, kept₃.1]))
        have granted : Granted r ⟨ℓ₅.held, ℓ₅.seen, ℓ₅.pending, σ₆, some (.ok
            (.createEnrolment ("yadgar:enrolment:" ++ c.uuid.text)))⟩ u
            r.revokeExistingCredentials := by
          refine ⟨fun _ unset => absurd fromTeam (by simp [unset]), fun _ _ => ⟨?_, ?_, ?_⟩⟩
          · show (σ₆.liveTeam? _).isSome
            rw [Store.liveTeam?, Store.team?, kept₆.1]
            have live := Store.liveTeam?_eq_some.mpr ⟨found, undeleted⟩
            exact Option.isSome_of_eq_some live
          · show (σ₆.teamMembers.find? _).isSome
            rw [kept₆.2.1, ← kept₃.2.1, (Store.user?_mem user).2]
            exact member
          · exact (within₃.trans (pass₄.within.trans pass₅.within)).holds lock₁
        rw [pending₅] at granted ⊢
        have expires : r.expiresAt.bind fromUnixtime = some expiresAt := by rw [expiry]; exact time
        exact ⟨⟨.mintEnrolment _, .mintEnrolment request row₆ alive stores rfl
          ((calm₆.enrolment_row row).trans fresh) (calm₆.absent_secret reserved unused) owner
          reserved granted expires rfl, rfl⟩, done _ _ _ _ Table.mem_put_self rfl⟩

/-- An enrolment is inserted in one statement, or answered without one. -/
theorem wp_mintEnrolment {Q : Post Store Write Res Status String} (quiet : Quiet R)
    (request : c.request = .createEnrolment r) (failed : ∀ e ℓ' σ t, Q (.error e) ℓ' σ t)
    (done : ∀ ℓ' (σ : Store) t e, e ∈ σ.enrolments → e.id = "yadgar:enrolment:" ++ c.uuid.text →
      Q (.ok ("yadgar:enrolment:" ++ c.uuid.text)) ℓ' σ t)
    (passed : ∀ ℓ₁ ℓ₂ (σ₁ σ₂ : Store) t₂, r.requireZeroCredentialAdmin = false →
      σ₁.liveUser? r.userId = none →
      Drift R ℓ₁ (.auto (selectLiveUser r.userId)) σ₁ σ₂ → (σ₂.liveUser? r.userId).isSome →
      Q (.ok ("yadgar:enrolment:" ++ c.uuid.text)) ℓ₂ σ₂ t₂) :
    wp R (Does c .createEnrolment) (Enrolment.mintEnrolment c.uuid.text r) Q ℓ σ t := by
  unfold Enrolment.mintEnrolment
  cases expiry : r.expiresAt with
  | none => exact failed _ _ _ _
  | some seconds =>
    dsimp only
    split
    · rename_i demand
      exact wp_issue quiet request (Bool.and_eq_true_iff.mp demand).2 expiry failed done
    rename_i arm
    cases compatible : Enrolment.compatible r with
    | error e => exact failed _ _ _ _
    | ok _ =>
      show wp R _ (conn (Enrolment.statement ("yadgar:enrolment:" ++ c.uuid.text) r seconds) >>= _)
        Q ℓ σ t
      obtain ⟨flag, matched, looks, same, living, ordinary, demanded⟩ :=
        statement_eq ("yadgar:enrolment:" ++ c.uuid.text) r seconds
      rw [same, wp_single]
      intro σ₁ t₁ _ _
      have inserts := insertEnrolment_exec ("yadgar:enrolment:" ++ c.uuid.text) r.secretHash
        seconds r.userId flag matched looks t₁ defaultIsolation σ₁
      generalize (Enrolment.insertEnrolment ("yadgar:enrolment:" ++ c.uuid.text) r.secretHash
        seconds r.userId flag matched looks).exec t₁ σ₁ = outcome at inserts ⊢
      cases inserts with
      | unmatched gone =>
        refine ⟨fun writes => absurd rfl writes, ?_⟩
        simp only [orElse, wp_ret_bind, if_true]
        refine wp_liveUser_conn (fun _ _ _ _ _ => failed _ _ _ _) fun ℓ₂ σ₂ t₂ drift _ live => ?_
        split
        · unfold Enrolment.refuseDemand
          exact wp_conn (fun _ _ => rfl) fun ℓ₃ σ₃ t₃ _ _ => failed _ _ _ _
        · rename_i unconditional
          refine passed _ ℓ₂ σ₁ σ₂ t₂ (by simpa using unconditional) ?_ drift live
          rw [(ordinary (by simpa using unconditional)).1] at gone
          exact gone
      | refused => exact ⟨fun writes => absurd rfl writes, failed _ _ _ _⟩
      | @done u secret expiresAt user holds stores time fresh unused owner _ reserved =>
        have expires : r.expiresAt.bind fromUnixtime = some expiresAt := by rw [expiry]; exact time
        have instructed : flag = r.revokeExistingCredentials := by
          cases demand : r.requireZeroCredentialAdmin with
          | false => exact (ordinary demand).2
          | true =>
            have unset : r.revokeExistingCredentials = false := by
              cases set : r.revokeExistingCredentials with
              | false => rfl
              | true => simp [Enrolment.compatible, demand, set] at compatible
            rw [unset]
            exact (demanded demand).2
        refine ⟨fun _ => ⟨.mintEnrolment _, .mintEnrolment request user (living _ _ holds) stores
          rfl fresh unused ⟨t₁, mem_granted.mpr ⟨_, owner, rfl, rfl⟩⟩
          ⟨t₁, mem_granted.mpr ⟨_, reserved, rfl, rfl⟩⟩ ⟨fun demand _ => ?_, fun demand set => ?_⟩
          expires instructed, rfl⟩, ?_⟩
        · obtain ⟨rfl, unflagged⟩ := demanded demand
          obtain ⟨_, admin, password, credentials⟩ := demanded_iff.mp holds
          exact ⟨admin, password, credentials, unflagged⟩
        · simp [demand, set] at arm
        exact done _ _ t₁ _ Table.mem_put_self rfl

end

end IamDb.EnrolmentProofs
