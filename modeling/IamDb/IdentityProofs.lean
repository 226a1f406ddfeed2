import IamDb.RedemptionProofs

/-! Creating a user. The minted form is one statement; the bootstrap decides
under the lock on the `administrators` row, which keeps what it decided on as
it is until the commit. -/
namespace IamDb.IdentityProofs
open Txn Schema Messages Service Effects Evolution Interference Rules

variable [Engine]

/-- What the insert of a user claims, answers and writes. -/
inductive InsertsUser (id : String) (r : CreateUserRequest) (isAdmin : Bool) (now : Int)
    (σ : Store) (claims : List (Claim Res)) : Except DbError Unit × List Write → Prop where
  | refused : InsertsUser id r isAdmin now σ claims (.error e, [])
  | done (stores : binary32 r.externalIdBlindIndex = some blindIndex)
      (absent : σ.user? id = none) (range : intend .users ∈ claims)
      (gap : intend (.userGap (weight id)) ∈ claims) (row : exclude (.user (weight id)) ∈ claims) :
    InsertsUser id r isAdmin now σ claims (.ok (), [.user (newUser id blindIndex r isAdmin now)])

theorem insertUserRow_exec (id : String) (r : CreateUserRequest) (isAdmin : Bool) (now : Int)
    (iso : Isolation) (σ : Store) :
    InsertsUser id r isAdmin now σ ((Identity.insertUserRow id r isAdmin).claims now iso σ)
      ((Identity.insertUserRow id r isAdmin).exec now σ) := by
  simp only [Identity.insertUserRow]
  split
  · exact .refused
  rename_i stores
  split
  · exact .refused
  split
  · exact .refused
  rename_i absent
  split
  · exact .refused
  · exact .done stores (by simpa using absent) (by simp) (by simp) (by simp [insertRow, absent])

/-- The end of every pending row is one erasure. -/
theorem applyAll_dropPending (rows : List PendingMember) (σ : Store) :
    applyAll (rows.map fun p => Write.dropPendingMember p.key) σ =
      { σ with pendingMembers := σ.pendingMembers.eraseAll (rows.map (·.key)) } := by
  induction rows generalizing σ with
  | nil => rfl
  | cons p rows ih => exact ih _

/-- An insert of a member that was done. -/
theorem insertMember_done {σ : Store}
    (done : ((Team.insertMember teamId userId).exec now σ).1 = .ok ()) :
    ((Team.insertMember teamId userId).exec now σ).2 = [.teamMember ⟨teamId, userId⟩] ∧
      σ.teamMembers.find? (weight teamId, weight userId) = none ∧ (σ.user? userId).isSome := by
  simp only [Team.insertMember] at done ⊢
  by_cases taken : (σ.teamMembers.find? (weight teamId, weight userId)).isSome
  · simp [taken] at done
  · by_cases parents : ((σ.team? teamId).isNone || (σ.user? userId).isNone) = true
    · simp [taken, parents] at done
    · simp only [Bool.or_eq_true, not_or, Option.isNone_iff_eq_none] at parents
      rw [if_neg taken]
      simp only [Bool.not_eq_true, Option.isSome_eq_false_iff, Option.isNone_iff_eq_none] at taken
      simp [parents, taken, Option.isSome_iff_ne_none]

section
variable {R : Rely Store Write Res} {c : Call} {ℓ : Local Store Write Res}

/-- What the bootstrap has decided on, under the lock. -/
structure Decided (ℓ : Local Store Write Res) (σ : Store) (userId : String) : Prop where
  inv : Integrity σ
  locked : Holds ℓ.held (.team (weight Team.administrators)) .exclusive
  team : (σ.liveTeam? Team.administrators).isSome
  nobody : Team.liveMembers σ Team.administrators = []
  declared : (σ.pendingMembers.find? (weight Team.administrators, weight userId)).isSome

/-- Under the lock the roster stays. -/
theorem roster_live {σ σ' : Store} (calm : Calm ℓ σ σ')
    (locked : Holds ℓ.held (.team (weight Team.administrators)) .exclusive)
    (team : (σ.liveTeam? Team.administrators).isSome) :
    Roster σ σ' ∧ (σ'.liveTeam? Team.administrators).isSome := by
  obtain ⟨t, live⟩ := Option.isSome_iff_exists.mp team
  have there := (Store.liveTeam?_eq_some.mp live).1
  have kept := calm.roster_administrators locked (by simp [there])
  refine ⟨kept, ?_⟩
  rwa [Store.liveTeam?, Store.team?, kept.1]

theorem Decided.pass {ℓ' : Local Store Write Res} (decided : Decided ℓ σ userId)
    (pass : Passes ℓ σ ws ℓ' σ') : Decided ℓ' σ' userId := by
  obtain ⟨kept, team⟩ := roster_live pass.calm decided.locked decided.team
  exact ⟨pass.calm.integrity decided.inv, pass.within.holds decided.locked, team,
    (pass.calm.live_members decided.inv kept _).trans decided.nobody,
    by rw [kept.2.2]; exact decided.declared⟩

/-- The bootstrap from its insert on. -/
private theorem wp_declared (quiet : Quiet R) (request : c.request = .createUser r)
    (demanded : r.userId ≠ "") (canonical : Team.canonicalUserId r.userId = true)
    (pending : ℓ.pending = []) (decided : Decided ℓ σ r.userId) :
    wp R (Does c .createUser) (do
      let inserted ← tx (Identity.insertUserRow r.userId r false)
      orElse Identity.userConflict inserted
      let joined ← tx (Team.insertMember Team.administrators r.userId)
      orElse db joined
      tx (Team.deletePending fun p => weight p.teamId = weight Team.administrators)
      commit
      pure (⟨r.userId, 1⟩ : CreateUserResponse)) (fun _ _ _ _ => True) ℓ σ t := by
  refine wp_statement quiet (Or.inl rfl) fun ℓ₁ σ₁ t₁ pass₁ _ claimed₁ => ?_
  have decided₁ := decided.pass pass₁
  have inserts := insertUserRow_exec r.userId r false t₁ ℓ.iso σ₁
  have held₁ := claimed₁.held
  rw [pending, applyAll_nil] at pass₁ held₁ ⊢
  generalize (Identity.insertUserRow r.userId r false).exec t₁ σ₁ = outcome at inserts pass₁ ⊢
  cases inserts with
  | refused => trivial
  | @done blindIndex stores absent range gap row =>
    have range : Holds ℓ₁.held .users .intent := ⟨t₁, held₁ _ _ range⟩
    have since : ⟨⟨.userGap (weight r.userId), .intent⟩, t₁⟩ ∈ ℓ₁.held := held₁ _ _ gap
    have gap : Holds ℓ₁.held (.userGap (weight r.userId)) .intent := ⟨t₁, since⟩
    have row : Holds ℓ₁.held (.user (weight r.userId)) .exclusive := ⟨t₁, held₁ _ _ row⟩
    have pending₁ : ℓ₁.pending = [.user (newUser r.userId blindIndex r false t₁)] := by
      simpa [pending] using pass₁.pending
    simp only [orElse, wp_ret_bind]
    refine wp_statement quiet (Or.inl rfl) fun ℓ₂ σ₂ t₂ pass₂ _ _ => ?_
    have decided₂ := decided₁.pass pass₂
    cases joined : ((Team.insertMember Team.administrators r.userId).exec t₂
        (applyAll ℓ₁.pending σ₂)).1 with
    | error e => trivial
    | ok _ =>
      simp only [wp_ret_bind]
      have pending₂ : ℓ₂.pending = [.user (newUser r.userId blindIndex r false t₁),
          .teamMember ⟨Team.administrators, r.userId⟩] := by
        rw [pass₂.pending, (insertMember_done joined).1, pending₁]
        rfl
      refine wp_statement quiet (Or.inl rfl) fun ℓ₃ σ₃ t₃ pass₃ _ _ => ?_
      have decided₃ := decided₂.pass pass₃
      have pending₃ := pass₃.pending
      rw [wp_finish]
      intro σ₄ t₄ drift₄ _
      have calm₄ := calm_of_drift quiet drift₄
      have decided₄ := decided₃.pass ⟨calm₄, .refl ℓ₃, rfl, (List.append_nil _).symm⟩
      have after₁ := pass₂.calm.trans ((pass₃.trans
        ⟨calm₄, .refl ℓ₃, rfl, (List.append_nil _).symm⟩).calm.within pass₂.within)
      have within₁ := pass₂.within.trans pass₃.within
      have absent₄ : σ₄.user? r.userId = none := (after₁.user_row row).trans absent
      have kept₄ := (roster_live calm₄ decided₃.locked decided₃.team).1
      refine ⟨⟨.bootstrap (newUser r.userId blindIndex r false t₁), .bootstrap request demanded
        canonical rfl absent₄ (within₁.holds range) (within₁.holds gap) decided₄.team
        decided₄.nobody decided₄.declared decided₄.locked stores (within₁.held _ since), ?_⟩,
        trivial⟩
      have rows : (applyAll ℓ₂.pending σ₃).pendingMembers = σ₄.pendingMembers := by
        rw [pending₂, kept₄.2.2]
        rfl
      have deletes : ((Team.deletePending fun p => weight p.teamId = weight Team.administrators).exec
          t₃ (applyAll ℓ₂.pending σ₃)).2 = (σ₄.pendingMembers.rows.filter fun p =>
            weight p.teamId = weight Team.administrators).map fun p => .dropPendingMember p.key := by
        rw [← rows]
        rfl
      rw [Commit.result, pending₃, deletes, pending₂, applyAll_append, applyAll_dropPending]
      rfl

/-- The bootstrap writes what it decided on, or nothing. -/
theorem wp_insertDeclaredUser (quiet : Quiet R) (request : c.request = .createUser r)
    (demanded : r.userId ≠ "") (inv : Integrity σ) :
    wp R (Does c .createUser) (Identity.insertDeclaredUser r) (fun _ _ _ _ => True) ℓ σ t := by
  unfold Identity.insertDeclaredUser
  split
  · trivial
  rename_i canonical
  unfold Identity.predicate Team.lockAdministrators Team.liveAdministrators
  simp only [bind_assoc]
  rw [wp_start]
  intro σ₀ t₀ drift₀ _
  have inv₀ := (calm_of_drift quiet drift₀).integrity inv
  refine wp_statement quiet (Or.inl rfl) fun ℓ₁ σ₁ t₁ pass₁ _ claimed₁ => ?_
  have pending₁ : ℓ₁.pending = [] := pass₁.pending
  have iso₁ : ℓ₁.iso = .readCommitted := pass₁.iso
  have inv₁ := pass₁.calm.integrity inv₀
  have held₁ := claimed₁.held
  simp only [Local.opened_pending, applyAll_nil] at held₁ ⊢
  by_cases live : (Team.selectAdministratorsForUpdate.exec t₁ σ₁).1 = some true
  case neg =>
    simp only [ne_eq, live, not_false_eq_true, if_true]
    trivial
  simp only [ne_eq, live, not_true_eq_false, if_false, bind_assoc]
  -- The row is there and live, and stays so under the lock.
  have live : (σ₁.team? Team.administrators).map (fun t => t.deletedAt.isNone) = some true := live
  obtain ⟨t₁', found, alive⟩ := Option.map_eq_some_iff.mp live
  have team₁ : (σ₁.liveTeam? Team.administrators).isSome := by
    rw [Store.liveTeam?_eq_some.mpr ⟨found, by simpa using alive⟩]
    rfl
  have locked₁ : Holds ℓ₁.held (.team (weight Team.administrators)) .exclusive := by
    refine ⟨t₁, held₁ _ _ ?_⟩
    rw [← (Store.team?_mem found).2]
    exact mem_teamRow found rfl
  refine wp_read iso₁ (fun _ _ => rfl) (fun _ _ _ => rfl) fun σ₂ t₂ drift₂ _ => ?_
  have calm₂ := calm_of_drift quiet drift₂
  obtain ⟨_, team₂⟩ := roster_live calm₂ locked₁ team₁
  rw [pending₁, applyAll_nil]
  have inv₂ := calm₂.integrity inv₁
  by_cases nobody : Team.liveMembers σ₂ Team.administrators = []
  case neg =>
    have some : (Team.countLiveAdministrators.exec t₂ σ₂).1 > 0 := List.length_pos_of_ne_nil nobody
    rw [if_pos some]
    trivial
  have none : ¬(Team.countLiveAdministrators.exec t₂ σ₂).1 > 0 := by
    simp [Team.countLiveAdministrators, nobody]
  rw [if_neg none, bind_assoc]
  refine wp_read iso₁ (fun _ _ => rfl) (fun _ _ _ => rfl) fun σ₃ t₃ drift₃ _ => ?_
  have calm₃ := calm_of_drift quiet drift₃
  obtain ⟨kept₃, team₃⟩ := roster_live calm₃ locked₁ team₂
  have nobody₃ := (calm₃.live_members inv₂ kept₃ Team.administrators).trans nobody
  cases taken : ((Identity.selectUserId r.userId).exec t₃ (applyAll ℓ₁.pending σ₃)).1 with
  | true => trivial
  | false =>
    simp only [Bool.false_eq_true, if_false, bind_assoc, pure_bind]
    refine wp_read iso₁ (fun _ _ => rfl) (fun _ _ _ => rfl) fun σ₄ t₄ drift₄ _ => ?_
    have calm₄ := calm_of_drift quiet drift₄
    have inv₃ := calm₃.integrity inv₂
    obtain ⟨kept₄, team₄⟩ := roster_live calm₄ locked₁ team₃
    have nobody₄ := (calm₄.live_members inv₃ kept₄ Team.administrators).trans nobody₃
    rw [pending₁, applyAll_nil]
    cases declared : (σ₄.pendingMembers.find?
        (weight Team.administrators, weight r.userId)).isSome with
    | false =>
      simp only [Identity.selectPending, declared]
      trivial
    | true =>
      simp only [Identity.selectPending, declared, if_true]
      exact wp_declared quiet request demanded (by simpa using canonical) pending₁
        ⟨calm₄.integrity inv₃, locked₁, team₄, nobody₄, declared⟩

theorem wp_insertUser (quiet : Quiet R) (request : c.request = .createUser r)
    (inv : Integrity σ) :
    wp R (Does c .createUser) (Identity.insertUser c.uuid.text r) (fun _ _ _ _ => True)
      ℓ σ t := by
  unfold Identity.insertUser
  split
  · rename_i demanded
    exact wp_insertDeclaredUser quiet request demanded inv
  rename_i minted
  dsimp only
  rw [wp_single]
  intro σ₁ t₁ _ _
  have inserts := insertUserRow_exec (Team.userPrefix ++ c.uuid.text) r r.isAdmin t₁
    defaultIsolation σ₁
  generalize (Identity.insertUserRow (Team.userPrefix ++ c.uuid.text) r r.isAdmin).exec t₁ σ₁ =
    outcome at inserts ⊢
  cases inserts with
  | refused => exact ⟨fun writes => absurd rfl writes, trivial⟩
  | @done blindIndex stores absent range gap =>
    refine ⟨fun _ => ⟨.createUser _, .createUser request (by simpa using minted) rfl absent
      ⟨t₁, mem_granted.mpr ⟨_, range, rfl, rfl⟩⟩ ⟨t₁, mem_granted.mpr ⟨_, gap, rfl, rfl⟩⟩ stores
      (mem_granted.mpr ⟨_, gap, rfl, rfl⟩), rfl⟩, trivial⟩

end

end IamDb.IdentityProofs
