import IamDb.Losers

/-! Which settings the tables take. The check of a settings request knows the
clauses of the contract; the constraint on the value is in the schema alone. A
request that passes the one and breaks the other is answered as if the storage
had failed, and is so again however often it is sent. -/
namespace IamDb.Storable
open Txn Schema Messages Service Setting Effects Evolution Interference Handlers Runs
  SettingProofs

section
variable [Engine]

/-- A request that can never succeed is never answered as retryable: what the
check passes the table takes, whatever it holds, so that no call of it is
answered for a failure of the storage; and the check refuses exactly what
breaks a clause of the contract, before any statement. -/
structure NeverRetryable (r : SetInheritedSettingRequest) : Prop where
  taken : ∀ scope, checkInheritedSetting r = .ok scope →
    ∀ now σ, ∃ n, ((writing r scope).exec now σ).1 = .ok n
  answered : ∀ S (i : Nat) c ℓ e, Reachable S →
    S.sessions[i]? = some ⟨c, ℓ, .answered (.error e)⟩ → c.request = .setInheritedSetting r →
    e.code ≠ .unavailable
  refused : ¬(Addressed r ∧ Stated r) → ∃ m, ∀ c, c.caller = some iamCaller →
    c.request = .setInheritedSetting r → service c = .fail ⟨.invalidArgument, m⟩
  passed : Addressed r ∧ Stated r → ∃ scope, checkInheritedSetting r = .ok scope

omit [Engine] in
theorem storable_iff : storable v = true ↔ v = 1 ∨ v = 2 := by simp [storable]

/-- The tables take a value the constraint allows. -/
theorem writing_taken (valid : checkInheritedSetting r = .ok scope)
    (stores : r.clear = false → storable (r.value.getD 0) = true) (now : Int) (σ : Store) :
    ∃ n, ((writing r scope).exec now σ).1 = .ok n := by
  cases scope with
  | org =>
    simp only [writing, upsertOrgSetting, stores (kept_of_org valid)]
    cases σ.orgSettings.find? (weight r.name) <;> exact ⟨_, rfl⟩
  | team =>
    cases clear : r.clear with
    | true =>
      simp only [writing, clear, if_true, deleteOverride]
      split <;> exact ⟨_, rfl⟩
    | false =>
      simp only [writing, clear, Bool.false_eq_true, if_false, upsertOverride, stores clear]
      cases live : σ.liveTeam? (r.teamId.getD "") with
      | none => exact ⟨_, rfl⟩
      | some t =>
        dsimp only
        cases σ.overrides.find? (weight r.name, t.key) <;> exact ⟨_, rfl⟩

/-- A value the constraint does not allow is refused by the table as soon as
there is a row to write. -/
theorem writing_refused (valid : checkInheritedSetting r = .ok scope) (set : r.clear = false)
    (untaken : storable (r.value.getD 0) = false) :
    ∃ σ, ∀ now n, ((writing r scope).exec now σ).1 ≠ .ok n := by
  cases scope with
  | org =>
    refine ⟨migrated, fun now n => ?_⟩
    simp [writing, upsertOrgSetting, untaken]
  | team =>
    let team : Schema.Team := ⟨r.teamId.getD "", 1, "", none⟩
    refine ⟨{ migrated with teams := Table.empty.put team }, fun now n => ?_⟩
    have live : Store.liveTeam? { migrated with teams := Table.empty.put team }
        (r.teamId.getD "") = some team :=
      Store.liveTeam?_eq_some.mpr ⟨Table.find?_put_self, rfl⟩
    simp [writing, set, upsertOverride, live, untaken]

/-- A settings call answers for a failure of the storage only when it was
validated and its value is one no table takes, or when the ledger does not hold
its key. -/
theorem answered_refused (reachable : Reachable S) {i : Nat}
    (there : S.sessions[i]? = some ⟨c, ℓ, .answered (.error e)⟩)
    (request : c.request = .setInheritedSetting r) : Refused r e := by
  obtain ⟨_, _, _, _, _, post⟩ := reachable.answered (Q := fun result _ _ _ =>
    ∀ e, result = .error e → Refused r e) there fun σ t inv => by
      refine ServiceProofs.wp_service (fun e denied e' same => ?_) fun _ => ?_
      · cases same
        unfold admitted at denied
        split at denied <;> cases denied
        exact nofun
      rw [request]
      refine wp_map (wp_mono (wp_storeSetting (Q := fun result _ _ _ => ∀ e, result = .error e →
        Refused r e) (G := fun _ => True) quiet_others ?_ ?_ ?_) (fun _ _ _ _ h => h)
        (fun _ _ => trivial) ?_)
      · rintro e ℓ σ t refused e' same
        cases same
        exact refused
      · intros
        exact ⟨trivial, nofun⟩
      · intros
        exact ⟨trivial, nofun⟩
      · intro result ℓ σ t post e same
        cases result with
        | error e' =>
          cases same
          exact post _ rfl
        | ok _ => cases same
  exact post e rfl

/-- A settings request that its ledger's columns hold is never answered as
retryable exactly when, meeting every clause of the contract, it states no value
but the two the tables take. -/
theorem never_retryable_iff (r : SetInheritedSettingRequest)
    (held : r.idempotency.getD "" ≠ "" → (Claim.of r).fits = true) :
    NeverRetryable r ↔ (Addressed r ∧ Stated r → ∀ v, r.value = some v → v = 1 ∨ v = 2) := by
  constructor
  · intro never meets v value
    obtain ⟨scope, valid⟩ := never.passed meets
    by_contra other
    have set : r.clear = false := by
      cases clear : r.clear with
      | false => rfl
      | true => cases value.symm.trans (meets.2.consistent clear)
    have untaken : storable (r.value.getD 0) = false := by
      rw [value, Option.getD_some, Bool.eq_false_iff]
      exact fun stores => other (storable_iff.mp stores)
    obtain ⟨σ, refuses⟩ := writing_refused valid set untaken
    obtain ⟨n, takes⟩ := never.taken scope valid 0 σ
    exact refuses 0 n takes
  · intro values
    have stores (meets : Addressed r ∧ Stated r) (set : r.clear = false) :
        storable (r.value.getD 0) = true := by
      cases value : r.value with
      | none => cases (meets.2.stated value).symm.trans set
      | some v => exact storable_iff.mpr (values meets v value)
    refine ⟨fun scope valid now σ => ?_, fun S i c ℓ e reachable there request code => ?_,
      fun broken => ?_, fun meets => ?_⟩
    · exact writing_taken valid (stores (checkInheritedSetting_ok valid).2) now σ
    · rcases answered_refused reachable there request code with
        ⟨⟨scope, valid⟩, set, untaken⟩ | ⟨keyed, long⟩
      · rw [stores (checkInheritedSetting_ok valid).2 set] at untaken
        cases untaken
      · cases long.symm.trans (held keyed)
    · rcases checkInheritedSetting_decides r with ⟨_, meets⟩ | ⟨⟨m, clause⟩, _⟩
      · exact absurd meets broken
      · refine ⟨m, fun c caller request => ?_⟩
        simp only [service, admitted, caller, if_true, request, verb, storeSetting, clause]
        rfl
    · rcases checkInheritedSetting_decides r with ⟨⟨scope, valid, _⟩, _⟩ | ⟨_, broken⟩
      · exact ⟨scope, valid⟩
      · exact absurd meets broken

end

open Bytewise in
/-- The organisation's value set to a number the contract names. -/
theorem never_retryable_named : NeverRetryable
    ⟨some "key", 1, none, ownerReadsOwnRecord, some 2, some true, false⟩ := by
  refine (never_retryable_iff _ fun _ => by decide).mpr ?_
  rintro _ v ⟨⟩
  exact Or.inr rfl

/-! ### A value no table takes -/

/-- The organisation's value set to a number the contract does not name. -/
def thirdValue : SetInheritedSettingRequest :=
  ⟨some "key", 1, none, ownerReadsOwnRecord, some 3, some true, false⟩

open Bytewise in
/-- It meets every clause of the contract, and is answered as retryable. -/
theorem third_value_retryable : ¬∀ r, NeverRetryable r := by
  intro never
  obtain ⟨ℓ, there⟩ : ∃ ℓ, (after (calling firstUuid (.setInheritedSetting thirdValue) 0
      3)).sessions[0]? = some ⟨⟨some iamCaller, firstUuid, .setInheritedSetting thirdValue⟩, ℓ,
        .answered (.error ⟨.unavailable, "storage unavailable"⟩)⟩ :=
    told_eq_some (by decide +kernel)
  exact (never thirdValue).answered _ 0 _ ℓ _ (reachable_after _) there rfl rfl

end IamDb.Storable
