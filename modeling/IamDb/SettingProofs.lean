import IamDb.IdentityProofs

/-! Setting one level of an inheritable setting. The level is written first,
under a lock kept to the commit when there was a row to write; the ledger row
is inserted last, or found recorded for the same request by a delivery that
lost the race. -/
namespace IamDb.SettingProofs
open Txn Schema Messages Service Setting Effects Evolution Interference Rules

/-! ### What was asked -/

theorem agreesWith_ok {r : SetInheritedSettingRequest} {w : SettingWrite}
    (agrees : (Claim.of r).agreesWith ⟨key, w.scope, w.teamId, w.name, w.value, w.locked,
      w.clearRequested⟩ = .ok ()) : SameRequest r w := by
  unfold Claim.agreesWith at agrees
  split at agrees
  · rename_i same
    simp only [Claim.of, Prod.mk.injEq] at same
    obtain ⟨scope, teamId, name, value, locked, clear⟩ := same
    cases w
    simp_all [SameRequest, settingWrite]
  · cases agrees

theorem agreesWith_error {c prior : Setting.Claim} (refused : c.agreesWith prior = .error e) :
    e.code = .invalidArgument := by
  unfold Claim.agreesWith at refused
  split at refused
  · cases refused
  · cases refused
    rfl

/-! ### The contract -/

/-- The clauses on the level a write addresses. -/
structure Addressed (r : SetInheritedSettingRequest) : Prop where
  specified : r.scope ≠ 0
  declared : r.scope = 1 ∨ r.scope = 2
  teamNamed : r.scope = 2 → r.teamId ≠ none ∧ r.teamId ≠ some ""
  teamUnnamed : r.scope = 1 → r.teamId = none
  unlocked : r.scope = 2 → r.locked = none
  locked : r.scope = 1 → r.locked ≠ none
  kept : r.scope = 1 → r.clear = false

/-- The clauses on the value it states or withdraws. -/
structure Stated (r : SetInheritedSettingRequest) : Prop where
  populated : r.value ≠ some 0
  stated : r.value = none → r.clear = true
  consistent : r.clear = true → r.value = none
  vocabulary : r.name = ownerReadsOwnRecord

/-- The number of a level on the wire. -/
def number : SettingScope → Int
  | .org => 1
  | .team => 2

/-- What clauses decide: a request is passed with its level when they all hold,
or refused as an argument. -/
def Decides (level : Int) (P : Prop) (x : Except Status SettingScope) : Prop :=
  (∃ scope, x = .ok scope ∧ number scope = level) ∧ P ∨
    (∃ m, x = .error ⟨.invalidArgument, m⟩) ∧ ¬P

theorem Decides.clause {C P : Prop} [Decidable C] {x : Except Status SettingScope}
    (broken : C → ¬P) (rest : ¬C → Decides n P x) : Decides n P (if C then invalid m else x) := by
  by_cases holds : C
  · rw [if_pos holds]
    exact Or.inr ⟨⟨m, rfl⟩, broken holds⟩
  · rw [if_neg holds]
    exact rest holds

/-- A clause on the level, with the clauses on the value to follow. -/
theorem Decides.level {C P : Prop} [Decidable C] {x : Except Status SettingScope}
    {f : SettingScope → Except Status SettingScope} (broken : C → ¬P)
    (rest : ¬C → Decides n P x) : Decides n P (if C then invalid m >>= f else x) :=
  .clause broken rest

theorem Decides.pass {P : Prop} (level : number scope = n) (holds : P) : Decides n P (.ok scope) :=
  Or.inl ⟨⟨scope, rfl, level⟩, holds⟩

/-- The check passes exactly the requests that meet every clause. -/
theorem checkInheritedSetting_decides (r : SetInheritedSettingRequest) :
    Decides r.scope (Addressed r ∧ Stated r) (checkInheritedSetting r) := by
  unfold checkInheritedSetting
  extract_lets values
  have valued (scope : SettingScope) (level : number scope = r.scope) (addressed : Addressed r) :
      Decides r.scope (Addressed r ∧ Stated r) (values scope) := by
    refine .clause (fun zero all => all.2.populated zero) fun populated => ?_
    refine .clause (fun silent all => ?_) fun stated => ?_
    · simp only [Bool.and_eq_true, Option.isNone_iff_eq_none, Bool.not_eq_true'] at silent
      have clear := all.2.stated silent.1
      rw [silent.2] at clear
      cases clear
    refine .clause (fun both all => ?_) fun consistent => ?_
    · simp only [Bool.and_eq_true] at both
      have absent := all.2.consistent both.1
      rw [absent] at both
      cases both.2
    refine .clause (fun other all => other all.2.vocabulary) fun vocabulary => ?_
    refine .pass level ⟨addressed, populated, fun absent => ?_, fun clear => ?_, by simpa using vocabulary⟩
    · simpa [absent] using stated
    · simpa [clear] using consistent
  refine .level (fun zero all => all.1.specified zero) fun specified => ?_
  by_cases org : r.scope = 1
  · rw [if_pos org]
    refine .level (fun named all => by simp [all.1.teamUnnamed org] at named) fun unnamed => ?_
    refine .level (fun unlocked all => all.1.locked org (by simpa using unlocked)) fun locked => ?_
    refine .level (fun clear all => by simp [all.1.kept org] at clear) fun kept =>
      valued .org org.symm ?_
    exact ⟨specified, Or.inl org, by simp [org], fun _ => by simpa using unnamed, by simp [org],
      fun _ => by simpa using locked, fun _ => by simpa using kept⟩
  rw [if_neg org]
  by_cases team : r.scope = 2
  · rw [if_pos team]
    refine .level (fun unnamed all => ?_) fun named => ?_
    · obtain ⟨present, full⟩ := all.1.teamNamed team
      cases id : r.teamId <;> simp_all
    refine .level (fun locked all => by simp [all.1.unlocked team] at locked) fun unlocked =>
      valued .team team.symm ?_
    refine ⟨specified, Or.inr team, fun _ => ?_, by simp [team], fun _ => by simpa using unlocked,
      by simp [team], by simp [team]⟩
    cases id : r.teamId <;> simp_all
  · rw [if_neg team]
    exact Or.inr ⟨⟨_, rfl⟩, fun all => all.1.declared.elim org team⟩

/-- Every clause of the contract is refused as an argument. -/
theorem checkInheritedSetting_error (refused : checkInheritedSetting r = .error e) :
    e.code = .invalidArgument := by
  rcases checkInheritedSetting_decides r with ⟨⟨_, passed, _⟩, _⟩ | ⟨⟨_, clause⟩, _⟩
  · cases refused.symm.trans passed
  · cases refused.symm.trans clause
    rfl

theorem checkInheritedSetting_ok (valid : checkInheritedSetting r = .ok scope) :
    r.scope = number scope ∧ Addressed r ∧ Stated r := by
  rcases checkInheritedSetting_decides r with ⟨⟨_, passed, level⟩, meets⟩ | ⟨⟨_, clause⟩, _⟩
  · cases passed.symm.trans valid
    exact ⟨level.symm, meets⟩
  · cases valid.symm.trans clause

theorem kept_of_org (valid : checkInheritedSetting r = .ok .org) : r.clear = false :=
  have ok := checkInheritedSetting_ok valid
  ok.2.1.kept ok.1

variable [Engine]

/-- The storage error is answered only for a value that was validated and that
no table takes, and for a key whose row the ledger's columns do not hold. -/
def Refused (r : SetInheritedSettingRequest) (e : Status) : Prop :=
  e.code = .unavailable → ((∃ scope, checkInheritedSetting r = .ok scope) ∧ r.clear = false ∧
    storable (r.value.getD 0) = false) ∨
      r.idempotency.getD "" ≠ "" ∧ (Claim.of r).fits = false

theorem Refused.argument (code : e.code = .invalidArgument) : Refused r e := by
  intro unavailable
  rw [code] at unavailable
  cases unavailable

theorem Refused.untaken (valid : checkInheritedSetting r = .ok scope) (set : r.clear = false)
    (untaken : storable (r.value.getD 0) = false) : Refused r e :=
  fun _ => Or.inl ⟨⟨scope, valid⟩, set, untaken⟩

/-! ### What was written -/

/-- The statement that writes the level. -/
def writing (r : SetInheritedSettingRequest) : SettingScope → Sql (Except DbError Nat)
  | .org => upsertOrgSetting r.name (r.value.getD 0) (r.locked.getD false)
  | .team => if r.clear then deleteOverride r.name (r.teamId.getD "")
    else upsertOverride r.name (r.teamId.getD "") (r.value.getD 0)

/-- The write of the level: what is left pending, and which locks it took. `R`
is the rely under which a team that was not live turned up behind the write. -/
inductive Wrote (R : Rely Store Write Res) (r : SetInheritedSettingRequest)
    (ℓ : Local Store Write Res) (σ : Store) : SettingScope → List Write → Level → Prop where
  | org (key : row.key = weight r.name) (value : row.value = r.value.getD 0)
      (flag : row.locked = r.locked.getD false)
      (held : Holds ℓ.held (.orgSetting (weight r.name)) .exclusive)
      (spelled : row.name = ((σ.orgSettings.find? (weight r.name)).map (·.name)).getD r.name) :
    Wrote R r ℓ σ .org [.orgSetting row] (.org row)
  | override (set : r.clear = false) (live : σ.liveTeam? (r.teamId.getD "") = some team)
      (key : row.key = overrideKey r) (value : row.value = r.value.getD 0)
      (shared : Holds ℓ.held (.team (weight (r.teamId.getD ""))) .shared)
      (held : Holds ℓ.held (.override (overrideKey r)) .exclusive)
      (spelled : (row.name, row.teamId) =
        ((σ.overrides.find? (overrideKey r)).map fun o => (o.name, o.teamId)).getD
          (r.name, team.id)) :
    Wrote R r ℓ σ .team [.override row] (.override row)
  | cleared (clear : r.clear = true)
      (held : Holds ℓ.held (.override (overrideKey r)) .exclusive)
      (present : (σ.overrides.find? (overrideKey r)).isSome) :
    Wrote R r ℓ σ .team [.dropOverride (overrideKey r)] (.clear (overrideKey r))
  | absent (clear : r.clear = true) (none : σ.overrides.find? (overrideKey r) = none)
      (seen : ∃ t, ⟨⟨.override (overrideKey r), .exclusive⟩, t⟩ ∈ ℓ.seen) :
    Wrote R r ℓ σ .team [] .keep
  | passed (set : r.clear = false) (gone : σ.liveTeam? (r.teamId.getD "") = none)
      (drift : Drift R ℓ (.stmt (selectLiveTeam (r.teamId.getD ""))) σ σ')
      (live : (σ'.liveTeam? (r.teamId.getD "")).isSome) :
    Wrote R r ℓ σ .team [] .keep

/-- What became of the ledger row. -/
inductive Recorded (r : SetInheritedSettingRequest) (ℓ : Local Store Write Res) (σ : Store) :
    Option SettingWrite → Prop where
  | unkeyed (key : r.idempotency.getD "" = "") : Recorded r ℓ σ none
  | new (keyed : r.idempotency.getD "" ≠ "")
      (absent : σ.settingWrites.find? (weight (r.idempotency.getD "")) = none)
      (held : Holds ℓ.held (.settingWrite (weight (r.idempotency.getD ""))) .exclusive)
      (fits : (Claim.of r).fits = true) : Recorded r ℓ σ (some (settingWrite r))
  | lost (keyed : r.idempotency.getD "" ≠ "")
      (found : σ.settingWrites.find? (weight (r.idempotency.getD "")) = some w)
      (same : SameRequest r w) : Recorded r ℓ σ none

def recording : Option SettingWrite → List Write
  | some w => [.settingWrite w]
  | none => []

theorem Wrote.effect (wrote : Wrote R r ℓ σ scope ws level) (claim : Option SettingWrite)
    (σ' : Store) : applyAll (ws ++ recording claim) σ' = (Effect.setting level claim).apply σ' := by
  cases wrote <;> cases claim <;> rfl

/-! ### The statements -/

section
variable {R : Rely Store Write Res} {G : Guar Store Write Res Status α}
  {Q : Post Store Write Res Status α} {ℓ : Local Store Write Res}

theorem wp_upsertOrgSetting {k : Nat → Rpc α} (quiet : Quiet R) (pending : ℓ.pending = [])
    (valid : checkInheritedSetting r = .ok .org)
    (failed : ∀ e ℓ' σ t, Refused r e → Q (.error e) ℓ' σ t)
    (rest : ∀ ℓ' σ' t' row n, Drift R ℓ (.stmt (writing r .org)) σ σ' →
      Passes ℓ σ [.orgSetting row] ℓ' σ' →
      Wrote R r ℓ' σ' .org [.orgSetting row] (.org row) → wp R G (k n) Q ℓ' σ' t') :
    wp R G (tx (upsertOrgSetting r.name (r.value.getD 0) (r.locked.getD false)) >>= fun written =>
      orElse db written >>= k) Q ℓ σ t := by
  refine wp_drifting quiet (Or.inl rfl) fun ℓ₁ σ₁ t₁ drift₁ pass₁ _ claimed₁ => ?_
  have held : Holds ℓ₁.held (.orgSetting (weight r.name)) .exclusive :=
    claimed₁.holds (by simp [upsertOrgSetting, exclude])
  rw [pending, applyAll_nil] at pass₁ ⊢
  simp only [upsertOrgSetting] at pass₁ ⊢
  by_cases stores : storable (r.value.getD 0) = true
  case neg =>
    simp only [stores, Bool.not_false, if_true, orElse, wp_fail_bind]
    exact failed _ _ _ _ (Refused.untaken valid (kept_of_org valid) (by simpa using stores))
  simp only [stores, Bool.not_true, Bool.false_eq_true, if_false] at pass₁ ⊢
  cases found : σ₁.orgSettings.find? (weight r.name) with
  | some row =>
    simp only [found, orElse, wp_ret_bind] at pass₁ ⊢
    exact rest ℓ₁ σ₁ t₁ _ _ drift₁ pass₁
      (.org (Table.find?_eq_some.mp found).2 rfl rfl held (by rw [found]; rfl))
  | none =>
    simp only [found, orElse, wp_ret_bind] at pass₁ ⊢
    exact rest ℓ₁ σ₁ t₁ _ _ drift₁ pass₁
      (.org rfl rfl rfl held (by rw [found]; rfl))

theorem wp_deleteOverride {k : Nat → Rpc α} (quiet : Quiet R) (pending : ℓ.pending = [])
    (clear : r.clear = true)
    (rest : ∀ ℓ' σ' t' ws level n, Drift R ℓ (.stmt (writing r .team)) σ σ' →
      Passes ℓ σ ws ℓ' σ' → Wrote R r ℓ' σ' .team ws level → wp R G (k n) Q ℓ' σ' t') :
    wp R G (tx (deleteOverride r.name (r.teamId.getD "")) >>= fun written =>
      orElse db written >>= k) Q ℓ σ t := by
  refine wp_drifting quiet (Or.inl rfl) fun ℓ₁ σ₁ t₁ drift₁ pass₁ _ claimed₁ => ?_
  have drift₁ : Drift R ℓ (.stmt (writing r .team)) σ σ₁ := by
    rw [writing, if_pos clear]
    exact drift₁
  have seen := claimed₁.seen
  have held := claimed₁.held
  rw [pending, applyAll_nil] at pass₁ seen held ⊢
  cases found : σ₁.overrides.find? (overrideKey r) with
  | some row =>
    have present : (σ₁.overrides.find? (overrideKey r)).isSome := by rw [found]; rfl
    rw [overrideKey] at found
    simp only [deleteOverride, found, Option.isSome_some, if_true, orElse, wp_ret_bind] at pass₁ held ⊢
    exact rest ℓ₁ σ₁ t₁ _ _ _ drift₁ pass₁
      (.cleared clear ⟨t₁, held _ _ (by simp [overrideKey])⟩ present)
  | none =>
    have absent := found
    rw [overrideKey] at found
    simp only [deleteOverride, found, Option.isSome_none, Bool.false_eq_true, if_false, orElse,
      wp_ret_bind] at pass₁ seen ⊢
    refine rest ℓ₁ σ₁ t₁ _ _ _ drift₁ pass₁ (.absent clear absent ⟨t₁, ?_⟩)
    exact seen ⟨⟨.override (overrideKey r), .exclusive⟩, false⟩ (by simp [overrideKey])

theorem wp_setTeamOverride {k : Nat → Rpc α} (quiet : Quiet R) (iso : ℓ.iso = .readCommitted)
    (pending : ℓ.pending = []) (valid : checkInheritedSetting r = .ok .team)
    (set : r.clear = false) (failed : ∀ e ℓ' σ t, Refused r e → Q (.error e) ℓ' σ t)
    (rest : ∀ ℓ' σ' σ'' t' ws level n, Drift R ℓ (.stmt (writing r .team)) σ σ' →
      Passes ℓ σ ws ℓ' σ' → Wrote R r ℓ' σ' .team ws level → Calm ℓ' σ' σ'' →
      (ws = [] → (σ''.team? (r.teamId.getD "")).isSome) → wp R G (k n) Q ℓ' σ'' t') :
    wp R G (setTeamOverride r >>= k) Q ℓ σ t := by
  unfold setTeamOverride liveTeam
  simp only [bind_assoc]
  refine wp_drifting quiet (Or.inl rfl) fun ℓ₁ σ₁ t₁ drift₁ pass₁ _ claimed₁ => ?_
  have drift₁ : Drift R ℓ (.stmt (writing r .team)) σ σ₁ := by
    rw [writing, if_neg (by simp [set])]
    exact drift₁
  have held := claimed₁.held
  rw [pending, applyAll_nil] at pass₁ held ⊢
  cases live : σ₁.liveTeam? (r.teamId.getD "") with
  | none =>
    simp only [upsertOverride, live, orElse, wp_ret_bind, if_true, bind_assoc] at pass₁ ⊢
    have pending₁ : ℓ₁.pending = [] := by simpa [pending] using pass₁.pending
    refine wp_read (pass₁.iso.trans iso) (fun _ _ => rfl) (fun _ _ _ => rfl) fun σ₂ t₂ drift _ => ?_
    rw [pending₁, applyAll_nil]
    cases found : (σ₂.liveTeam? (r.teamId.getD "")).isSome with
    | false =>
      simp only [selectLiveTeam, found, Bool.false_eq_true, if_false, wp_fail_bind]
      exact failed _ _ _ _ (by rintro ⟨⟩)
    | true =>
      simp only [selectLiveTeam, found, if_true, pure_bind]
      obtain ⟨team, alive⟩ := Option.isSome_iff_exists.mp found
      exact rest ℓ₁ σ₁ σ₂ t₂ _ _ _ drift₁ pass₁ (.passed set live drift found)
        (calm_of_drift quiet drift) fun _ => by rw [(Store.liveTeam?_eq_some.mp alive).1]; rfl
  | some team =>
    obtain ⟨row, alive⟩ := Store.liveTeam?_eq_some.mp live
    have here : team.key = weight (r.teamId.getD "") := (Store.team?_mem row).2
    have shared : Holds ℓ₁.held (.team (weight (r.teamId.getD ""))) .shared := by
      refine ⟨t₁, held _ _ (List.mem_append_left _ ?_)⟩
      rw [← here]
      exact mem_teamRow row (by simp [alive])
    have locked : Holds ℓ₁.held (.override (overrideKey r)) .exclusive := by
      refine ⟨t₁, held _ _ (List.mem_append_right _ ?_)⟩
      simp [live, exclude, overrideKey, here]
    simp only [upsertOverride, live] at pass₁ ⊢
    by_cases stores : storable (r.value.getD 0) = true
    case neg =>
      simp only [stores, Bool.not_false, if_true, orElse, wp_fail_bind]
      exact failed _ _ _ _ (.untaken valid set (by simpa using stores))
    simp only [stores, Bool.not_true, Bool.false_eq_true, if_false] at pass₁ ⊢
    cases found : σ₁.overrides.find? (weight r.name, team.key) with
    | some row' =>
      simp only [found, orElse, wp_ret_bind] at pass₁ ⊢
      have key : row'.key = overrideKey r := by
        rw [(Table.find?_eq_some.mp found).2, here]
        rfl
      exact rest ℓ₁ σ₁ σ₁ t₁ _ _ _ drift₁ pass₁
        (.override set live key rfl shared locked (by rw [overrideKey, ← here, found]; rfl)) (.refl _ _)
        fun none => by cases none
    | none =>
      simp only [found, orElse, wp_ret_bind] at pass₁ ⊢
      have key : (⟨r.name, team.id, r.value.getD 0⟩ : TeamSettingOverride).key = overrideKey r :=
        congrArg (weight r.name, ·) here
      exact rest ℓ₁ σ₁ σ₁ t₁ _ _ _ drift₁ pass₁
        (.override set live key rfl shared locked (by rw [overrideKey, ← here, found]; rfl)) (.refl _ _)
        fun none => by cases none

theorem wp_recordClaim {k : Unit → Rpc α} (quiet : Quiet R) (iso : ℓ.iso = .readCommitted)
    (untouched : ∀ σ : Store, (applyAll ℓ.pending σ).settingWrites = σ.settingWrites)
    (failed : ∀ e ℓ' σ t, Refused r e → Q (.error e) ℓ' σ t)
    (rest : ∀ ℓ' σ' t' claim, Passes ℓ σ (recording claim) ℓ' σ' → Recorded r ℓ' σ' claim →
      wp R G (k ()) Q ℓ' σ' t')
    (unkeyed : r.idempotency.getD "" = "" → wp R G (k ()) Q ℓ σ t) :
    wp R G (recordClaim (Claim.of r) >>= k) Q ℓ σ t := by
  unfold recordClaim recorded
  split
  · rename_i none
    rw [pure_bind]
    exact unkeyed none
  rename_i keyed
  have keyed : r.idempotency.getD "" ≠ "" := keyed
  simp only [bind_assoc]
  refine wp_statement quiet (Or.inl rfl) fun ℓ₁ σ₁ t₁ pass₁ _ claimed₁ => ?_
  have held := claimed₁.held
  by_cases fit : (Claim.of r).fits = true
  case neg =>
    simp only [insertSettingWrite, fit, Bool.not_false, if_true, DbError.isUniqueViolation,
      wp_fail_bind]
    exact failed _ _ _ _ fun _ => Or.inr ⟨keyed, by simpa using fit⟩
  cases found : σ₁.settingWrites.find? (weight (r.idempotency.getD "")) with
  | none =>
    have found' : σ₁.settingWrites.find? (weight (Claim.of r).key) = none := found
    simp only [insertSettingWrite, fit, Bool.not_true, untouched, found', Option.isSome_none, Bool.false_eq_true,
      if_false, pure_bind] at pass₁ held ⊢
    exact rest ℓ₁ σ₁ t₁ (some (settingWrite r)) pass₁
      (.new keyed found ⟨t₁, held _ _ (by simp [insertRow, exclude, Claim.of])⟩ fit)
  | some w =>
    have found' : σ₁.settingWrites.find? (weight (Claim.of r).key) = some w := found
    simp only [insertSettingWrite, fit, untouched, found', Option.isSome_some, if_true,
      DbError.isUniqueViolation, Bool.not_true, Bool.false_eq_true, if_false, bind_assoc] at pass₁ ⊢
    have pass₁ : Passes ℓ σ [] ℓ₁ σ₁ := pass₁
    refine wp_statement quiet (Or.inr (pass₁.iso.trans iso)) fun ℓ₂ σ₂ t₂ pass₂ _ _ => ?_
    have pass₂ : Passes ℓ₁ σ₁ [] ℓ₂ σ₂ := pass₂
    obtain ⟨w', found₂, same⟩ := pass₂.calm.evolves.settingWrites _ _ found
    cases same
    have pending₁ : ℓ₁.pending = ℓ.pending := by simpa using pass₁.pending
    have read : ((selectSettingWrite (Claim.of r).key .yes).exec t₂ (applyAll ℓ₁.pending σ₂)).1 =
        some w := by
      simp only [selectSettingWrite, pending₁, untouched]
      exact found₂
    rw [read]
    simp only [Option.map_some, pure_bind]
    cases agrees : (Claim.of r).agreesWith ⟨(Claim.of r).key, w.scope, w.teamId, w.name, w.value,
        w.locked, w.clearRequested⟩ with
    | error e => exact failed _ _ _ _ (.argument (agreesWith_error agrees))
    | ok _ =>
      exact rest ℓ₂ σ₂ t₂ none (pass₁.trans pass₂) (.lost keyed found₂ (agreesWith_ok agrees))

/-- The pre-check finds the same request recorded, or nothing. -/
theorem wp_alreadyRecorded {k : Bool → Rpc α} (iso : ℓ.iso = .readCommitted)
    (pending : ℓ.pending = []) (failed : ∀ e ℓ' σ t, Refused r e → Q (.error e) ℓ' σ t)
    (replayed : ∀ σ' t' w, r.idempotency.getD "" ≠ "" →
      Drift R ℓ (.stmt (selectSettingWrite (r.idempotency.getD "") .no)) σ σ' →
      σ'.settingWrites.find? (weight (r.idempotency.getD "")) = some w → SameRequest r w →
      wp R G (k true) Q ℓ σ' t')
    (absent : ∀ σ' t', Drift R ℓ (.stmt (selectSettingWrite (r.idempotency.getD "") .no)) σ σ' →
      σ'.settingWrites.find? (weight (r.idempotency.getD "")) = none → wp R G (k false) Q ℓ σ' t')
    (unkeyed : r.idempotency.getD "" = "" → wp R G (k false) Q ℓ σ t) :
    wp R G (Claim.alreadyRecorded (Claim.of r) >>= k) Q ℓ σ t := by
  unfold Claim.alreadyRecorded recorded
  split
  · rename_i none
    rw [pure_bind]
    exact unkeyed none
  rename_i keyed
  have keyed : r.idempotency.getD "" ≠ "" := keyed
  simp only [bind_assoc]
  refine wp_read iso (fun _ _ => rfl) (fun _ _ _ => rfl) fun σ₁ t₁ drift _ => ?_
  rw [pending, applyAll_nil]
  cases found : σ₁.settingWrites.find? (weight (r.idempotency.getD "")) with
  | none =>
    have read : ((selectSettingWrite (Claim.of r).key .no).exec t₁ σ₁).1 = none := found
    rw [read]
    exact absent σ₁ t₁ drift found
  | some w =>
    have read : ((selectSettingWrite (Claim.of r).key .no).exec t₁ σ₁).1 = some w := found
    rw [read]
    simp only [Option.map_some, pure_bind, bind_assoc]
    cases agrees : (Claim.of r).agreesWith ⟨(Claim.of r).key, w.scope, w.teamId, w.name, w.value,
        w.locked, w.clearRequested⟩ with
    | error e => exact failed _ _ _ _ (.argument (agreesWith_error agrees))
    | ok _ => exact replayed σ₁ t₁ w keyed drift found (agreesWith_ok agrees)

end

/-! ### The answer -/

/-- The setting as two reads of a transaction saw it, one after the other. -/
structure Read (name : String) (ws : List Write) (σ σ' : Store) (a : InheritedSetting) : Prop where
  org : (a.orgValue, a.orgLocked) =
    (((applyAll ws σ).orgSettings.find? (weight name)).map fun s => (s.value, s.locked)).getD
      (0, false)
  teamOverride : a.teamOverride =
    ((applyAll ws σ').overrides.rows.filter fun s => weight s.name = weight name).map fun s =>
      (s.teamId, s.value)

/-- The end of a call: the two reads, with what others commit before each, and
the commit. -/
structure Ends (R : Rely Store Write Res) (name : String) (ℓ : Local Store Write Res) (σ : Store)
    (a : InheritedSetting) (σ' : Store) : Prop where
  ends : ∃ σ₁ σ₂, Drift R ℓ (.stmt (Credential.selectOrgSetting name)) σ σ₁ ∧
    Drift R ℓ (.stmt (Credential.selectOverrides name)) σ₁ σ₂ ∧ Drift R ℓ .commit σ₂ σ' ∧
    Read name ℓ.pending σ₁ σ₂ a

theorem Ends.calm {R : Rely Store Write Res} {ℓ : Local Store Write Res} (quiet : Quiet R)
    (ends : Ends R name ℓ σ a σ') : Calm ℓ σ σ' := by
  obtain ⟨σ₁, σ₂, first, second, third, _⟩ := ends.ends
  exact (calm_of_drift quiet first).trans
    ((calm_of_drift quiet second).trans (calm_of_drift quiet third))

section
variable {R : Rely Store Write Res} {G : Guar Store Write Res Status InheritedSetting}
  {Q : Post Store Write Res Status InheritedSetting} {ℓ : Local Store Write Res}

theorem wp_answer (iso : ℓ.iso = .readCommitted)
    (rest : ∀ σ' t' a, Ends R name ℓ σ a σ' →
      G ⟨ℓ.held, ℓ.seen, ℓ.pending, σ', some (.ok a)⟩ ∧
        Q (.ok a) ℓ.closed (applyAll ℓ.pending σ') t') :
    wp R G (answer name) Q ℓ σ t := by
  unfold answer readInheritedSetting Credential.readSetting
  simp only [bind_assoc]
  refine wp_read iso (fun _ _ => rfl) (fun _ _ _ => rfl) fun σ₁ t₁ drift₁ _ => ?_
  refine wp_read iso (fun _ _ => rfl) (fun _ _ _ => rfl) fun σ₂ t₂ drift₂ _ => ?_
  rw [pure_bind, wp_finish]
  intro σ₃ t₃ drift₃ _
  exact rest σ₃ t₃ _ ⟨σ₁, σ₂, drift₁, drift₂, drift₃, rfl, rfl⟩

/-- A call replays what its key recorded, or writes its level and records it;
each ends with its commit. -/
theorem wp_storeSetting (quiet : Quiet R)
    (failed : ∀ e ℓ' σ t, Refused r e → Q (.error e) ℓ' σ t)
    (replayed : ∀ ℓ₁ σ₁ σ₂ t a w, r.idempotency.getD "" ≠ "" →
      ℓ₁.iso = .readCommitted → ℓ₁.pending = [] → ℓ₁.seen = ℓ.seen →
      σ₁.settingWrites.find? (weight (r.idempotency.getD "")) = some w → SameRequest r w →
      Ends R r.name ℓ₁ σ₁ a σ₂ →
      G ⟨ℓ₁.held, ℓ₁.seen, [], σ₂, some (.ok a)⟩ ∧ Q (.ok a) ℓ₁.closed σ₂ t)
    (stored : ∀ scope ℓ₀ σ₀ ℓ₁ σ₁ ws level σ₂ ℓ₃ σ₃ claim σ₄ t a,
      checkInheritedSetting r = .ok scope → ℓ₀.pending = [] →
      (r.idempotency.getD "" ≠ "" →
        σ₀.settingWrites.find? (weight (r.idempotency.getD "")) = none) →
      Drift R ℓ₀ (.stmt (writing r scope)) σ₀ σ₁ → Passes ℓ₀ σ₀ ws ℓ₁ σ₁ →
      Wrote R r ℓ₁ σ₁ scope ws level → Calm ℓ₁ σ₁ σ₂ →
      (ws = [] → r.clear = false → (σ₂.team? (r.teamId.getD "")).isSome) →
      Passes ℓ₁ σ₂ (SettingProofs.recording claim) ℓ₃ σ₃ → Recorded r ℓ₃ σ₃ claim →
      Ends R r.name ℓ₃ σ₃ a σ₄ →
      G ⟨ℓ₃.held, ℓ₃.seen, ws ++ SettingProofs.recording claim, σ₄, some (.ok a)⟩ ∧
        Q (.ok a) ℓ₃.closed ((Effect.setting level claim).apply σ₄) t) :
    wp R G (storeSetting r) Q ℓ σ t := by
  unfold storeSetting
  cases checked : checkInheritedSetting r with
  | error e => exact failed _ _ _ _ (.argument (checkInheritedSetting_error checked))
  | ok scope =>
    show wp R G (begin .readCommitted >>= _) Q ℓ σ t
    rw [wp_start]
    intro σ₀ t₀ _ _
    -- From the pre-check on, when it found nothing.
    have writes (σ : Store) (t : Int) (absent : r.idempotency.getD "" ≠ "" →
        σ.settingWrites.find? (weight (r.idempotency.getD "")) = none) :
        wp R G (writeAtScope r scope >>= fun _ => recordClaim (Claim.of r) >>= fun _ =>
          answer r.name) Q (ℓ.opened .readCommitted) σ t := by
      have finish (ℓ₁ : Local Store Write Res) (σ₁ σ₂ : Store) (t₂ : Int) ws level
          (drift₁ : Drift R (ℓ.opened .readCommitted) (.stmt (writing r scope)) σ σ₁)
          (pass₁ : Passes (ℓ.opened .readCommitted) σ ws ℓ₁ σ₁)
          (wrote : Wrote R r ℓ₁ σ₁ scope ws level) (calm₂ : Calm ℓ₁ σ₁ σ₂)
          (there : ws = [] → r.clear = false → (σ₂.team? (r.teamId.getD "")).isSome) :
          wp R G (recordClaim (Claim.of r) >>= fun _ => answer r.name) Q ℓ₁ σ₂ t₂ := by
        have iso₁ : ℓ₁.iso = .readCommitted := pass₁.iso
        have pending₁ : ℓ₁.pending = ws := pass₁.pending
        refine wp_recordClaim quiet iso₁ ?_ failed ?_ ?_
        · intro σ
          rw [pending₁]
          cases wrote <;> rfl
        · intro ℓ₃ σ₃ t₃ claim pass₃ recorded
          refine wp_answer (pass₃.iso.trans iso₁) fun σ₄ t₄ a ends => ?_
          have ended := stored scope _ σ ℓ₁ σ₁ ws level σ₂ ℓ₃ σ₃ claim σ₄ t₄ a checked rfl absent
            drift₁ pass₁ wrote calm₂ there pass₃ recorded ends
          rwa [pass₃.pending, pending₁, wrote.effect]
        · intro unkeyed
          refine wp_answer iso₁ fun σ₄ t₄ a ends => ?_
          have ended := stored scope _ σ ℓ₁ σ₁ ws level σ₂ ℓ₁ σ₂ none σ₄ t₄ a checked rfl absent
            drift₁ pass₁ wrote calm₂ there ⟨.refl _ _, .refl _, rfl, (List.append_nil _).symm⟩
            (.unkeyed unkeyed) ends
          have same := wrote.effect none σ₄
          simp only [SettingProofs.recording, List.append_nil] at same ended
          rwa [pending₁, same]
      cases scope with
      | org =>
        simp only [writeAtScope, bind_assoc]
        refine wp_upsertOrgSetting quiet rfl checked failed fun ℓ₁ σ₁ t₁ row n drift pass wrote => ?_
        exact finish ℓ₁ σ₁ σ₁ t₁ _ _ drift pass wrote (.refl _ _) fun none => by cases none
      | team =>
        cases clear : r.clear with
        | true =>
          simp only [writeAtScope, clear, bind_assoc]
          refine wp_deleteOverride quiet rfl clear fun ℓ₁ σ₁ t₁ ws level n drift pass wrote => ?_
          exact finish ℓ₁ σ₁ σ₁ t₁ _ _ drift pass wrote (.refl _ _) fun _ set =>
            by cases clear.symm.trans set
        | false =>
          simp only [writeAtScope, clear]
          refine wp_setTeamOverride quiet rfl rfl checked clear failed ?_
          intro ℓ₁ σ₁ σ₂ t₂ ws level n drift pass wrote calm there
          exact finish ℓ₁ σ₁ σ₂ t₂ _ _ drift pass wrote calm fun none _ => there none
    refine wp_alreadyRecorded rfl rfl failed ?_ ?_ ?_
    · intro σ₁ t₁ w keyed _ found same
      refine wp_answer rfl fun σ₂ t₂ a ends => ?_
      exact replayed _ _ _ _ _ w keyed rfl rfl rfl found same ends
    · exact fun σ₁ t₁ _ absent => writes σ₁ t₁ fun _ => absent
    · exact fun unkeyed => writes σ₀ t₀ fun keyed => absurd unkeyed keyed

/-- What was written is what a settings call may do, while its locks last. -/
theorem Wrote.settles {ℓ₁ ℓ₃ : Local Store Write Res} {k : Committed}
    (wrote : Wrote R r ℓ₁ σ₁ scope ws level) (valid : checkInheritedSetting r = .ok scope)
    (calm : Calm ℓ₁ σ₁ k.store) (within : ℓ₁.Within ℓ₃) (under : k.under = ℓ₃.held)
    (there : ws = [] → r.clear = false → (k.store.team? (r.teamId.getD "")).isSome) :
    Settles r k level := by
  cases wrote with
  | org key value flag held spelled =>
    have row : k.store.orgSettings.find? (weight r.name) = σ₁.orgSettings.find? (weight r.name) :=
      calm.row (f := fun σ => σ.orgSettings.find? (weight r.name)) held fun _ => orgSettings_outside
    exact .org valid key value flag (under ▸ within.holds held) (row ▸ spelled)
  | @override team _ set live key value shared held spelled =>
    have same : k.store.team? (r.teamId.getD "") = σ₁.team? (r.teamId.getD "") :=
      calm.team_row shared
    have live' : k.store.liveTeam? (r.teamId.getD "") = some team := by
      rw [Store.liveTeam?, same, ← Store.liveTeam?, live]
    have row : k.store.overrides.find? (overrideKey r) = σ₁.overrides.find? (overrideKey r) :=
      calm.row (f := fun σ => σ.overrides.find? (overrideKey r)) held fun _ => overrides_outside
    refine .override valid set (by rw [live']; rfl) key value (under ▸ within.holds shared)
      (under ▸ within.holds held) fun t named => ?_
    obtain rfl := Option.some.inj (live'.symm.trans named)
    rw [row, spelled]
  | cleared clear held => exact .clear valid clear (under ▸ within.holds held)
  | absent clear => exact .absent valid clear
  | passed set =>
    exact .passed valid set (there rfl set)

theorem Recorded.fresh {ℓ : Local Store Write Res} (recorded : Recorded r ℓ σ claim)
    (calm : Calm ℓ σ σ') (w : SettingWrite) (same : claim = some w) :
    w = settingWrite r ∧ r.idempotency.getD "" ≠ "" ∧ σ'.settingWrites.find? w.key = none := by
  cases recorded with
  | new keyed absent held =>
    cases same
    exact ⟨rfl, keyed, (calm.settingWrite_row held).trans absent⟩
  | unkeyed => cases same
  | lost => cases same

theorem Recorded.held {ℓ : Local Store Write Res} (recorded : Recorded r ℓ σ claim)
    (some : claim ≠ none) : (Claim.of r).fits = true := by
  cases recorded with
  | new _ _ _ fits => exact fits
  | unkeyed => exact absurd rfl some
  | lost => exact absurd rfl some

/-- A call that records nothing has no key, or finds its request recorded. -/
theorem Recorded.known {ℓ : Local Store Write Res} (recorded : Recorded r ℓ σ claim)
    (calm : Calm ℓ σ σ') (unrecorded : claim = none) : r.idempotency.getD "" = "" ∨
      ∃ w, σ'.settingWrites.find? (weight (r.idempotency.getD "")) = some w ∧ SameRequest r w := by
  cases recorded with
  | new => cases unrecorded
  | unkeyed none => exact Or.inl none
  | lost _ found same =>
    obtain ⟨w, found, rfl⟩ := calm.evolves.settingWrites _ _ found
    exact Or.inr ⟨_, found, same⟩

theorem wp_settles {c : Call} (quiet : Quiet R) (request : c.request = .setInheritedSetting r) :
    wp R (Does c .setInheritedSetting) (storeSetting r) (fun _ _ _ _ => True) ℓ σ t := by
  refine wp_storeSetting quiet (fun _ _ _ _ _ => trivial) ?_ ?_
  · intro ℓ₁ σ₁ σ₂ t a w keyed _ _ _ found same ends
    obtain ⟨w', found', rfl⟩ := (ends.calm quiet).evolves.settingWrites _ _ found
    exact ⟨⟨.setting .keep none, .setting request (.replayed keyed found' same) nofun
      (fun some => absurd rfl some) fun _ => Or.inr ⟨_, found', same⟩, rfl⟩, trivial⟩
  · intro scope ℓ₀ σ₀ ℓ₁ σ₁ ws level σ₂ ℓ₃ σ₃ claim σ₄ t a valid _ _ _ _ wrote calm₂ there pass₃
      recorded ends
    have calm₄ := ends.calm quiet
    have after := pass₃.calm.trans (calm₄.within pass₃.within)
    refine ⟨⟨.setting level claim, .setting request ?_ (recorded.fresh calm₄) recorded.held
      (recorded.known calm₄), wrote.effect claim σ₄⟩, trivial⟩
    exact wrote.settles valid (calm₂.trans after) pass₃.within rfl
      fun none set => after.evolves.team? (there none set)

end

end IamDb.SettingProofs
