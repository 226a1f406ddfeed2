import IamDb.Administrators

/-! What an OK answer promises. A write that matched no live person is followed
by a read that explains the zero, and by an OK answer when that read finds the
person after all. A declared user who is created between the two is found, and
nothing was written. As long as none is, every OK answer has its row. -/
namespace IamDb.Fulfilled
open Txn Schema Messages Service Effects Evolution Interference Handlers Runs

section
variable [Engine]

/-- The calls that write on a live person or read again, and the person. -/
inductive Asks : Request → String → Prop where
  | credential (unchecked : r.expectedCredentialEpoch = none) : Asks (.createCredential r) r.userId
  | enrolment (undemanded : r.requireZeroCredentialAdmin = false) :
    Asks (.createEnrolment r) r.userId
  | admin : Asks (.setUserAdmin r) r.userId
  | rateLimit (limited : r.limit = some limit) : Asks (.setRateLimitOverride r) r.userId

/-- What such a call leaves when it answers OK. -/
inductive Leaves (σ : Store) : Request → Response → Prop where
  | credential (user : σ.user? r.userId = some u)
      (stored : CredentialProofs.minted credentialId r u token now ∈ σ.credentials) :
    Leaves σ (.createCredential r) (.createCredential credentialId)
  | enrolment (stored : e ∈ σ.enrolments) (same : e.id = enrolmentId) :
    Leaves σ (.createEnrolment r) (.createEnrolment enrolmentId)
  | admin (user : σ.user? r.userId = some u) (flag : u.isAdmin = r.isAdmin) :
    Leaves σ (.setUserAdmin r) .setUserAdmin
  | rateLimit (limited : r.limit = some limit) (stored : o ∈ σ.rateLimits)
      (key : o.key = (weight r.userId, weight r.module, r.kind)) (rate : o.rate = limit.rate)
      (burst : o.burst = limit.burst) :
    Leaves σ (.setRateLimitOverride r) .setRateLimitOverride

/-- The read that explains a write that matched no live person. -/
def rereading (userId : String) : Next Store Write Res := .auto (selectLiveUser userId)

/-- A person comes to be live while a call that matched none is about to read
why. -/
def Enlivened (S S' : Handlers.System) : Prop :=
  ∃ (i : Nat) (c : Call) (ℓ : Local Store Write Res) (p : Rpc Response) (userId : String),
    S.sessions[i]? = some ⟨c, ℓ, .running p⟩ ∧ Asks c.request userId ∧
      p.upcoming = rereading userId ∧ S.store.liveUser? userId = none ∧
      (S'.store.liveUser? userId).isSome

/-- The runs in which none does. -/
abbrev Unenlivened (S : Handlers.System) (_ : Action Call) (S' : Handlers.System) : Prop :=
  ¬Enlivened S S'

/-- The commits of the other calls, none of which brings the person to life
behind a write that did not match them. -/
def Sparing (userId : String) : Rely Store Write Res := fun ℓ n σ σ' =>
  Others ℓ n σ σ' ∧
    (n = rereading userId → σ.liveUser? userId = none → σ'.liveUser? userId = none)

/-- A second read that finds the person was enlivened. -/
theorem never_passed {ℓ : Local Store Write Res} (gone : σ.liveUser? userId = none)
    (drift : Drift (Sparing userId) ℓ (.auto (selectLiveUser userId)) σ σ') :
    ¬(σ'.liveUser? userId).isSome := by
  have still := drift.preserves (P := fun σ => σ.liveUser? userId = none) gone
    fun _ _ change => change.2 rfl
  rw [still]
  exact nofun

theorem wp_fulfilled (asks : Asks c.request userId) :
    wp (Sparing userId) (fun _ => True) (service c)
      (fun result _ σ _ => ∀ a, result = .ok a → Leaves σ c.request a) .fresh σ t := by
  have quiet : Quiet (Sparing userId) := fun _ _ _ _ change => change.1
  suffices wp (Sparing userId) (fun k => ∃ ef, Allowed c k ef ∧ k.result = ef.apply k.store)
      (service c) (fun result _ σ _ => ∀ a, result = .ok a → Leaves σ c.request a) .fresh σ t
    from wp_mono this (fun _ _ _ _ h => h) (fun _ _ => trivial) fun _ _ _ _ h => h
  refine ServiceProofs.wp_service (fun _ _ => nofun) fun _ => ?_
  generalize request : c.request = asked at asks ⊢
  cases asks with
  | @credential r unchecked =>
    refine wp_map (CredentialProofs.wp_mintCredential request (fun _ _ _ _ => nofun) ?_ ?_)
    · rintro ℓ' σ' t' u token user _ stored a ⟨⟩
      exact .credential user stored
    · intro ℓ₁ ℓ₂ σ₁ σ₂ t₂ _ gone drift live
      exact absurd live (never_passed gone drift)
  | @enrolment r undemanded =>
    refine wp_map (EnrolmentProofs.wp_mintEnrolment quiet request (fun _ _ _ _ => nofun) ?_ ?_)
    · rintro ℓ' σ' t' e stored id a ⟨⟩
      exact .enrolment stored id
    · intro ℓ₁ ℓ₂ σ₁ σ₂ t₂ _ gone drift live
      exact absurd live (never_passed gone drift)
  | @admin r =>
    refine wp_map (PolicyProofs.wp_setAdmin request (fun _ _ _ _ => nofun) ?_ ?_)
    · rintro ℓ' σ' t' u user flag a ⟨⟩
      exact .admin user flag
    · intro ℓ₁ ℓ₂ σ₁ σ₂ t₂ gone drift live
      exact absurd live (never_passed gone drift)
  | @rateLimit limit r limited =>
    refine wp_map (wp_mono (PolicyProofs.wp_setRateLimit (Q := fun result _ σ _ => ∀ a,
      result.map (fun () => Response.setRateLimitOverride) = .ok a →
        Leaves σ (.setRateLimitOverride r) a) request (fun _ _ _ _ => nofun) ?_ ?_ ?_)
      (fun _ _ _ _ h => h) (fun _ guar => guar.1) fun _ _ _ _ h => h)
    · intro ℓ' σ' t' cleared
      cases limited.symm.trans cleared
    · rintro ℓ' σ' t' limit' o limited' stored key rate burst a ⟨⟩
      exact .rateLimit limited' stored key rate burst
    · intro ℓ₁ ℓ₂ σ₁ σ₂ t₂ gone drift live
      exact absurd live (never_passed gone drift)

theorem watched_fulfilled (userId : String) :
    System.Watched service Integrity Others Effective Unenlivened (Asks ·.request userId)
      (Sparing userId) (fun _ _ => True)
      (fun c result _ σ _ => ∀ a, result = .ok a → Leaves σ c.request a) := by
  constructor
  · intro c asks σ t _
    exact wp_fulfilled asks
  · intro S a S' i j c c' ℓ' p' k sound step unenlivened there asks _ _ store room commits _
    have others : Others ℓ' p'.upcoming S.store S'.store :=
      ⟨c, k, commits.store ▸ commits.inv, room, commits.guar, commits.store, store.symm⟩
    refine ⟨others, fun reads gone => ?_⟩
    by_contra alive
    exact unenlivened ⟨j, c', ℓ', p', userId, there, asks, reads, gone,
      Option.isSome_iff_ne_none.mpr alive⟩

/-- In the runs in which no person comes to be live behind a write that matched
none, the writes of a call that answers OK are in the store with its answer; and
a password is set there, and its epoch bumped with it, in every run. -/
theorem answers_fulfilled {S S' : Handlers.System} (reached : ReachableWhile Unenlivened S)
    (step : S.step service act = some S') {i : Nat}
    (there : S'.sessions[i]? = some ⟨c, ℓ, .answered (.ok a)⟩)
    (new : S.sessions[i]? ≠ some ⟨c, ℓ, .answered (.ok a)⟩) :
    (∀ userId, Asks c.request userId → Leaves S'.store c.request a) ∧
    ∀ r, c.request = .setPassword r → ∃ u p, S.store.user? r.userId = some u ∧
      u.deletedAt = none ∧ S'.store.user? r.userId = some (bumped u) ∧ p ∈ S'.store.passwords ∧
      p.key = u.key ∧ p.argon2idHash = r.argon2idHash := by
  refine ⟨fun userId asks => ?_, fun r request => ?_⟩
  · obtain ⟨_, _, fulfilled⟩ := reached.answer (watched_fulfilled userId) step there new asks
    exact fulfilled a rfl
  · have earned : (service c).Earned := Endings.earned_lift fun _ => by
      rw [request]
      exact Prog.Earned.map _ Endings.atomic_storePassword.earned
    obtain ⟨k, lands, _⟩ := answered_commits reached.reachable step earned there new
    obtain ⟨ef, allowed, store, result⟩ := lands_effect lands
    cases allowed with
    | nothing idle => simp [request, mayIdle] at idle
    | @setPassword r' u p request' user live key hash =>
      rw [request] at request'
      cases request'
      rw [store] at user
      rw [result]
      exact ⟨u, p, user, live, EpochProofs.user?_bumped user, Table.mem_put_self, key, hash⟩
    | _ => simp_all

end

/-! ### Runs -/

/-- A check that nothing but creations of users is under way when one is. -/
def unenlivenedNow [Engine] (S : Handlers.System) (_ : Action Call) (S' : Handlers.System) : Bool :=
  S.store.users = S'.store.users ||
    S.sessions.all fun s => match s.phase, s.call.request with
      | .running _, .createUser _ => true
      | .running _, _ => false
      | _, _ => true

theorem unenlivened_of_now [Engine] {S S' : Handlers.System}
    (now : unenlivenedNow S act S' = true) : Unenlivened S act S' := by
  rintro ⟨i, c, ℓ, p, userId, there, asks, _, gone, alive⟩
  rcases Bool.or_eq_true_iff.mp now with same | idle
  · have same : S.store.users = S'.store.users := of_decide_eq_true same
    rw [Store.liveUser?, Store.user?, ← same, ← Store.user?, ← Store.liveUser?, gone] at alive
    cases alive
  · have none := List.all_eq_true.mp idle _ (List.mem_of_getElem? there)
    generalize request : c.request = asked at asks none
    cases asks <;> cases none

/-- Who is declared an administrator, and to be created. -/
def declaredId : String := Team.userPrefix ++ firstUuid.text

/-- A credential for them. -/
def minting : CreateCredentialRequest := ⟨declaredId, List.replicate 32 7, "laptop", none, none⟩

def mintingCall : Call := ⟨some iamCaller, secondUuid, .createCredential minting⟩

/-- A credential is to be minted after they are created. -/
def minted : List (Action Call) :=
  Administrators.founding ++ [.call mintingCall]

/-- They are created behind the insert of the credential. -/
def overtaken : List (Action Call) :=
  calling firstUuid (.syncTeams ⟨[⟨"administrators", [declaredId]⟩]⟩) 0 11 ++
  calling secondUuid (.createCredential minting) 1 1 ++
  calling firstUuid (.createUser ⟨[1], [2], [3], false, declaredId⟩) 2 9

open Bytewise in
theorem answers_fulfilled_minted : ∃ credentialId,
    told (after (minted ++ [.run 2])) 2 =
      some (mintingCall, .ok (.createCredential credentialId)) ∧
    Leaves (after (minted ++ [.run 2])).store (.createCredential minting)
      (.createCredential credentialId) := by
  have reached : ReachableWhile Unenlivened (after minted) :=
    ⟨migrated, 0, integrity_migrated, reaches_after unenlivenedNow
      (fun _ _ _ => unenlivened_of_now) (by decide +kernel)⟩
  have step : (after minted).step service (.run 2) = some (after (minted ++ [.run 2])) :=
    step_after (by decide +kernel)
  have answered : told (after (minted ++ [.run 2])) 2 = some (mintingCall,
      .ok (.createCredential ("yadgar:credential:" ++ secondUuid.text))) := by decide +kernel
  obtain ⟨ℓ, there⟩ := told_eq_some answered
  have silent : told (after minted) 2 = none := by decide +kernel
  have new : (after minted).sessions[2]? ≠ some ⟨mintingCall, ℓ,
      .answered (.ok (.createCredential ("yadgar:credential:" ++ secondUuid.text)))⟩ := by
    intro there
    rw [told, there] at silent
    cases silent
  exact ⟨_, answered, (answers_fulfilled reached step there new).1 declaredId (.credential rfl)⟩

open Bytewise in
/-- The mint answers OK with an id that no credential has. -/
theorem answered_unwritten : ¬∀ (S S' : Handlers.System) act (i : Nat) c ℓ r credentialId,
    Reachable S → S.step service act = some S' → c.request = .createCredential r →
    r.expectedCredentialEpoch = none →
    S'.sessions[i]? = some ⟨c, ℓ, .answered (.ok (.createCredential credentialId))⟩ →
    S.sessions[i]? ≠ some ⟨c, ℓ, .answered (.ok (.createCredential credentialId))⟩ →
    ∃ row ∈ S'.store.credentials.rows, row.id = credentialId := by
  intro written
  have step : (after overtaken).step service (.run 1) = some (after (overtaken ++ [.run 1])) :=
    step_after (by decide +kernel)
  have answered : told (after (overtaken ++ [.run 1])) 1 = some (mintingCall,
      .ok (.createCredential ("yadgar:credential:" ++ secondUuid.text))) := by decide +kernel
  obtain ⟨ℓ, there⟩ := told_eq_some answered
  have silent : told (after overtaken) 1 = none := by decide +kernel
  have new : (after overtaken).sessions[1]? ≠ some ⟨mintingCall, ℓ,
      .answered (.ok (.createCredential ("yadgar:credential:" ++ secondUuid.text)))⟩ := by
    intro there
    rw [told, there] at silent
    cases silent
  have none : (after (overtaken ++ [.run 1])).store.credentials.rows = [] := by decide +kernel
  obtain ⟨row, stored, _⟩ := written _ _ _ _ _ _ minting _ (reachable_after overtaken) step rfl rfl
    there new
  rw [none] at stored
  cases stored

end IamDb.Fulfilled
