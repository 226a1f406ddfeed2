import IamDb.Spellings
import Mathlib.Data.List.Pairwise

/-! Inheritable settings follow the calls that wrote them. Made one after the
other, the calls that were answered OK and repeated no recorded key decide what
is stored: the organisation's level is that of the last of them, and so is each
team's. Both readers carry that setting whole, and a recorded key sent with a
different request is refused. -/
namespace IamDb.Inherited
open Txn Schema Messages Service Effects Evolution Interference Handlers Runs

/-! ### The history of writes -/

/-- The request carries a key; the empty string is not one. -/
def Keyed (r : SetInheritedSettingRequest) : Prop := r.idempotency.getD "" ≠ ""

instance (r : SetInheritedSettingRequest) : Decidable (Keyed r) :=
  inferInstanceAs (Decidable (_ ≠ _))

/-- What a key is recorded with. -/
def fields (r : SetInheritedSettingRequest) :
    Int × Option String × String × Option Int × Option Bool × Bool :=
  (r.scope, r.teamId, r.name, r.value, r.locked, r.clear)

section
variable [Engine]

/-- Two requests carry one key, as the key column compares keys. -/
def SameKey (q r : SetInheritedSettingRequest) : Prop :=
  Keyed q ∧ Keyed r ∧ weight (q.idempotency.getD "") = weight (r.idempotency.getD "")

instance (q r : SetInheritedSettingRequest) : Decidable (SameKey q r) :=
  inferInstanceAs (Decidable (_ ∧ _ ∧ _))

/-- A call adds to the writes when it was answered OK, so passed validation,
and repeats none of them under its key. -/
def took (done : List SetInheritedSettingRequest) (x : Call × Except Status Response) :
    List SetInheritedSettingRequest :=
  match x.1.request, x.2 with
  | .setInheritedSetting r, .ok _ =>
    if done.any fun q => SameKey q r ∧ fields q = fields r then done else done ++ [r]
  | _, _ => done

/-- The effective writes of a history, oldest first. -/
def effective (h : List (Call × Except Status Response)) : List SetInheritedSettingRequest :=
  h.foldl took []

theorem effective_concat : effective (h ++ [x]) = took (effective h) x := by
  rw [effective, List.foldl_append]
  rfl

/-- The organisation's value and lock after writes: those of the last one at
its level, or the seed, ON and locked. -/
def orgOf (done : List SetInheritedSettingRequest) : Int × Bool :=
  ((done.findRev? fun r => r.scope = 1).map fun r => (r.value.getD 0, r.locked.getD false)).getD
    (2, true)

/-- A team's override after writes: that of the last one for the team, which
may have withdrawn it. -/
def overrideOf (done : List SetInheritedSettingRequest) (team : String) : Option Int :=
  (done.findRev? fun r => r.scope = 2 ∧ weight (r.teamId.getD "") = weight team).bind fun r =>
    if r.clear then none else r.value

omit [Engine] in
theorem orgOf_concat (done : List SetInheritedSettingRequest) : orgOf (done ++ [r]) =
    if r.scope = 1 then (r.value.getD 0, r.locked.getD false) else orgOf done := by
  by_cases same : r.scope = 1
  · simp [orgOf, List.findRev?_eq_find?_reverse, same]
  · simp [orgOf, List.findRev?_eq_find?_reverse, same]

theorem overrideOf_concat (done : List SetInheritedSettingRequest) (team : String) :
    overrideOf (done ++ [r]) team =
      if r.scope = 2 ∧ weight (r.teamId.getD "") = weight team then
        if r.clear then none else r.value
      else overrideOf done team := by
  by_cases same : r.scope = 2 ∧ weight (r.teamId.getD "") = weight team
  · simp [overrideOf, List.findRev?_eq_find?_reverse, same]
  · simp [overrideOf, List.findRev?_eq_find?_reverse, same]

/-- What is stored is what the writes say, and every key is recorded with the
first of them that carried it. -/
structure Follows (done : List SetInheritedSettingRequest) (σ : Store) : Prop where
  org : ((σ.orgSettings.find? (weight ownerReadsOwnRecord)).map fun s => (s.value, s.locked)) =
    some (orgOf done)
  overrides : ∀ team, ((σ.overrides.find? (weight ownerReadsOwnRecord, weight team)).map (·.value)) =
    overrideOf done team
  ledger : ∀ key, key ≠ "" → σ.settingWrites.find? (weight key) =
    (done.find? fun q => Keyed q ∧ weight (q.idempotency.getD "") = weight key).map settingWrite
  once : done.Pairwise fun q r => ¬SameKey q r

/-- An answer carries the setting the writes say, whole. -/
structure Carries (done : List SetInheritedSettingRequest) (a : InheritedSetting) : Prop where
  org : (a.orgValue, a.orgLocked) = orgOf done
  overrides : ∀ team value, (∃ id, (id, value) ∈ a.teamOverride ∧ weight id = weight team) ↔
    overrideOf done team = some value
  once : (a.teamOverride.map fun o => weight o.1).Nodup

/-- What is stored as the writes say is read as they say. -/
theorem Follows.carries (follows : Follows done σ) :
    Carries done (CredentialProofs.setting σ ownerReadsOwnRecord) where
  org := by
    unfold CredentialProofs.setting
    rw [follows.org]
    rfl
  overrides team value := by
    rw [← follows.overrides team, Option.map_eq_some_iff]
    simp only [CredentialProofs.setting, List.mem_map, List.mem_filter, decide_eq_true_eq,
      Table.find?_eq_some, Prod.mk.injEq]
    constructor
    · rintro ⟨_, ⟨o, ⟨stored, name⟩, rfl, rfl⟩, same⟩
      exact ⟨o, ⟨stored, Prod.ext name same⟩, rfl⟩
    · rintro ⟨o, ⟨stored, key⟩, rfl⟩
      exact ⟨o.teamId, ⟨o, ⟨stored, congrArg Prod.fst key⟩, rfl, rfl⟩, congrArg Prod.snd key⟩
  once := by
    have keys := σ.overrides.filter_distinct fun o => weight o.name = weight ownerReadsOwnRecord
    unfold CredentialProofs.setting
    rw [List.map_map]
    refine List.Nodup.of_map (fun team => (weight ownerReadsOwnRecord, team)) ?_
    rw [List.map_map]
    refine (List.map_congr_left fun o selected => ?_).symm ▸ keys
    have name : weight o.name = weight ownerReadsOwnRecord := by
      simpa using (List.mem_filter.mp selected).2
    rw [TeamSettingOverride.key, name]
    rfl

/-! ### A call by itself -/

/-- The ledger row a request leaves when its key is new. -/
def claimed (r : SetInheritedSettingRequest) : Option SettingWrite :=
  if Keyed r then some (settingWrite r) else none

/-- What a call does by itself: nothing, when it is refused or repeats what its
key recorded, or the write of its level and its ledger row. -/
inductive Stores (r : SetInheritedSettingRequest) (σ : Store) :
    Except Status InheritedSetting → Store → Prop where
  | refused (reused : ∀ w, Keyed r → σ.settingWrites.find? (weight (r.idempotency.getD "")) = some w →
      ¬SameRequest r w → e.code = .invalidArgument) : Stores r σ (.error e) σ
  | replayed (keyed : Keyed r)
      (found : σ.settingWrites.find? (weight (r.idempotency.getD "")) = some w)
      (same : SameRequest r w) (vocabulary : r.name = ownerReadsOwnRecord) :
      Stores r σ (.ok (CredentialProofs.setting σ r.name)) σ
  | stored (valid : Setting.checkInheritedSetting r = .ok scope)
      (absent : Keyed r → σ.settingWrites.find? (weight (r.idempotency.getD "")) = none)
      (wrote : ((SettingProofs.writing r scope).exec t σ).1 = .ok n)
      (matched : n = 0 → r.clear = true)
      (result : σ' = applyAll (((SettingProofs.writing r scope).exec t σ).2 ++
        SettingProofs.recording (claimed r)) σ) :
      Stores r σ (.ok (CredentialProofs.setting σ' r.name)) σ'

/-- The write of a level leaves the ledger alone. -/
theorem settingWrites_writing {σ : Store} :
    (applyAll ((SettingProofs.writing r scope).exec t σ).2 σ).settingWrites = σ.settingWrites := by
  cases scope with
  | org =>
    simp only [SettingProofs.writing, Setting.upsertOrgSetting]
    split
    · rfl
    · split <;> rfl
  | team =>
    simp only [SettingProofs.writing]
    split
    · simp only [Setting.deleteOverride]
      split <;> rfl
    · simp only [Setting.upsertOverride]
      split
      · rfl
      · split
        · rfl
        · split <;> rfl

section
variable {G : Guar Store Write Res Status α} {Q : Post Store Write Res Status α}
  {ℓ : Local Store Write Res}

theorem wp_answer_alone {Q : Post Store Write Res Status InheritedSetting} (steady : ℓ.Steady σ)
    (rest : ∀ ℓ' t', Q (.ok (CredentialProofs.setting (applyAll ℓ.pending σ) name)) ℓ'
      (applyAll ℓ.pending σ) t') :
    wp Rely.none (fun _ => True) (Setting.answer name) Q ℓ σ t := by
  unfold Setting.answer Setting.readInheritedSetting Credential.readSetting
  simp only [bind_assoc]
  refine wp_steady steady fun ℓ₁ t₁ _ steady₁ pending₁ => ?_
  have first : ℓ₁.pending = ℓ.pending := by simpa [Credential.selectOrgSetting] using pending₁
  refine wp_steady steady₁ fun ℓ₂ t₂ _ _ pending₂ => ?_
  have second : ℓ₂.pending = ℓ.pending := by
    simpa [Credential.selectOverrides, first] using pending₂
  rw [pure_bind, wp_finish]
  intro σ₃ t₃ drift _
  obtain rfl := drift.still
  rw [second, first]
  exact ⟨trivial, rest _ _⟩

/-- The write of a level alone: it fails, or its statement ran and matched what
it sets. -/
theorem wp_writeAtScope_alone {k : Nat → Rpc α} (steady : ℓ.Steady σ) (pending : ℓ.pending = [])
    (valid : Setting.checkInheritedSetting r = .ok scope)
    (failed : ∀ e ℓ' t', Q (.error e) ℓ' σ t')
    (rest : ∀ ℓ' t₁ t' n, ℓ'.Steady σ → ((SettingProofs.writing r scope).exec t₁ σ).1 = .ok n →
      (n = 0 → r.clear = true) → ℓ'.pending = ((SettingProofs.writing r scope).exec t₁ σ).2 →
      wp Rely.none G (k n) Q ℓ' σ t') :
    wp Rely.none G (Setting.writeAtScope r scope >>= k) Q ℓ σ t := by
  have written (after : Nat → Rpc α)
      (next : ∀ ℓ₁ t₁ n, ℓ₁.Steady σ → ((SettingProofs.writing r scope).exec t₁ σ).1 = .ok n →
        ℓ₁.pending = ((SettingProofs.writing r scope).exec t₁ σ).2 →
        wp Rely.none G (after n) Q ℓ₁ σ t₁) :
      wp Rely.none G (tx (SettingProofs.writing r scope) >>= fun w => orElse db w >>= after) Q ℓ σ
        t := by
    refine wp_steady steady fun ℓ₁ t₁ _ steady₁ pending₁ => ?_
    rw [pending, applyAll_nil] at pending₁ ⊢
    cases ran : ((SettingProofs.writing r scope).exec t₁ σ).1 with
    | error e => exact failed _ _ _
    | ok n => exact next ℓ₁ t₁ n steady₁ ran pending₁
  cases scope with
  | org =>
    simp only [Setting.writeAtScope, bind_assoc]
    refine written k fun ℓ₁ t₁ n steady₁ ran pending₁ => rest _ t₁ t₁ n steady₁ ran ?_ pending₁
    rintro rfl
    simp only [SettingProofs.writing, Setting.upsertOrgSetting] at ran
    split at ran
    · cases ran
    · split at ran <;> cases ran
  | team =>
    cases clear : r.clear with
    | true =>
      simp only [SettingProofs.writing, clear, if_true] at written rest
      simp only [Setting.writeAtScope, clear, bind_assoc]
      exact written k fun ℓ₁ t₁ n steady₁ ran pending₁ =>
        rest _ t₁ t₁ n steady₁ ran (fun _ => trivial) pending₁
    | false =>
      simp only [SettingProofs.writing, clear, Bool.false_eq_true, if_false] at written rest
      simp only [Setting.writeAtScope, clear, Setting.setTeamOverride, liveTeam, bind_assoc]
      refine written _ fun ℓ₁ t₁ n steady₁ ran pending₁ => ?_
      by_cases none : n = 0
      · subst none
        -- The re-read of a team that was not live does not find it either.
        have gone : σ.liveTeam? (r.teamId.getD "") = none := by
          cases live : σ.liveTeam? (r.teamId.getD "") with
          | none => rfl
          | some team =>
            simp only [Setting.upsertOverride, live] at ran
            split at ran
            · cases ran
            · split at ran <;> cases ran
        have nothing : ℓ₁.pending = [] := by
          rw [pending₁]
          simp only [Setting.upsertOverride, gone]
        simp only [if_true, bind_assoc]
        refine wp_steady steady₁ fun ℓ₂ t₂ _ _ _ => ?_
        simp only [nothing, applyAll_nil, selectLiveTeam, gone, Option.isSome_none,
          Bool.false_eq_true, if_false, wp_fail_bind]
        exact failed _ _ _
      · simp only [none, if_false, pure_bind]
        exact rest _ t₁ t₁ n steady₁ ran (fun zero => absurd zero none) pending₁

/-- The ledger row of a call alone, whose key was found new. -/
theorem wp_recordClaim_alone {k : Unit → Rpc α} (steady : ℓ.Steady σ)
    (untouched : (applyAll ℓ.pending σ).settingWrites = σ.settingWrites)
    (absent : Keyed r → σ.settingWrites.find? (weight (r.idempotency.getD "")) = none)
    (failed : ∀ e ℓ' t', Q (.error e) ℓ' σ t') (rest : ∀ ℓ' t', ℓ'.Steady σ →
      ℓ'.pending = ℓ.pending ++ SettingProofs.recording (claimed r) →
      wp Rely.none G (k ()) Q ℓ' σ t') :
    wp Rely.none G (Setting.recordClaim (Setting.Claim.of r) >>= k) Q ℓ σ t := by
  unfold Setting.recordClaim
  split
  · rename_i none
    have unkeyed : ¬Keyed r := fun keyed => keyed none
    rw [pure_bind]
    exact rest ℓ t steady (by simp [claimed, unkeyed, SettingProofs.recording])
  · rename_i keyed
    have keyed : Keyed r := keyed
    have absent : σ.settingWrites.find? (weight (Setting.Claim.of r).key) = none := absent keyed
    simp only [bind_assoc]
    refine wp_steady steady fun ℓ₁ t₁ _ steady₁ pending₁ => ?_
    by_cases fit : (Setting.Claim.of r).fits = true
    case neg =>
      simp only [Setting.insertSettingWrite, fit, Bool.not_false, if_true,
        DbError.isUniqueViolation, wp_fail_bind]
      exact failed _ _ _
    simp only [Setting.insertSettingWrite, fit, Bool.not_true, untouched, absent,
      Option.isSome_none, Bool.false_eq_true, if_false, pure_bind] at pending₁ ⊢
    refine rest ℓ₁ t₁ steady₁ (pending₁.trans ?_)
    rw [claimed, if_pos keyed]
    rfl

end

theorem wp_storeSetting_alone {ℓ : Local Store Write Res} :
    wp Rely.none (fun _ => True) (Setting.storeSetting r) (fun result _ σ' _ => Stores r σ result σ')
      ℓ σ t := by
  unfold Setting.storeSetting
  cases valid : Setting.checkInheritedSetting r with
  | error e => exact .refused fun _ _ _ _ => SettingProofs.checkInheritedSetting_error valid
  | ok scope =>
    show wp _ _ (begin .readCommitted >>= _) _ ℓ σ t
    rw [wp_start]
    intro σ₀ t₀ drift _
    obtain rfl := drift.still
    have steady : (ℓ.opened .readCommitted).Steady σ₀ := Local.steady_opened
    -- From the pre-check on, when it found nothing.
    have writes (t : Int) (ℓ₁ : Local Store Write Res) (steady₁ : ℓ₁.Steady σ₀)
        (pending₁ : ℓ₁.pending = [])
        (absent : Keyed r → σ₀.settingWrites.find? (weight (r.idempotency.getD "")) = none) :
        wp Rely.none (fun _ => True) (Setting.writeAtScope r scope >>= fun _ =>
          Setting.recordClaim (Setting.Claim.of r) >>= fun _ => Setting.answer r.name)
          (fun result _ σ' _ => Stores r σ₀ result σ') ℓ₁ σ₀ t := by
      refine wp_writeAtScope_alone steady₁ pending₁ valid (fun e ℓ' t' => ?_) ?_
      · exact .refused fun w keyed found _ => by cases (absent keyed).symm.trans found
      · intro ℓ₂ t₂ _ n steady₂ wrote matched pending₂
        refine wp_recordClaim_alone steady₂ ?_ absent
          (fun e ℓ' t' => .refused fun w keyed found _ => by cases (absent keyed).symm.trans found)
          fun ℓ₃ _ steady₃ pending₃ => ?_
        · rw [pending₂]
          exact settingWrites_writing
        · refine wp_answer_alone steady₃ fun ℓ' t' => ?_
          exact .stored valid absent wrote matched (by rw [pending₃, pending₂])
    show wp _ _ (Setting.Claim.alreadyRecorded (Setting.Claim.of r) >>= _) _ _ σ₀ t₀
    unfold Setting.Claim.alreadyRecorded Setting.recorded
    split
    · rename_i unkeyed
      rw [pure_bind]
      exact writes t₀ _ steady rfl fun keyed => absurd unkeyed keyed
    · rename_i keyed
      have keyed : Keyed r := keyed
      simp only [bind_assoc]
      refine wp_steady steady fun ℓ₁ t₁ _ steady₁ pending₁ => ?_
      have nothing : ℓ₁.pending = [] := by simpa [Setting.selectSettingWrite] using pending₁
      simp only [Local.opened_pending, applyAll_nil]
      cases found : σ₀.settingWrites.find? (weight (r.idempotency.getD "")) with
      | none =>
        have read : ((Setting.selectSettingWrite (Setting.Claim.of r).key .no).exec t₁ σ₀).1 = none :=
          found
        rw [read]
        exact writes t₁ ℓ₁ steady₁ nothing fun _ => found
      | some w =>
        have read : ((Setting.selectSettingWrite (Setting.Claim.of r).key .no).exec t₁ σ₀).1 =
          some w := found
        rw [read]
        simp only [Option.map_some, pure_bind, bind_assoc]
        cases agrees : (Setting.Claim.of r).agreesWith ⟨(Setting.Claim.of r).key, w.scope, w.teamId,
            w.name, w.value, w.locked, w.clearRequested⟩ with
        | error e => exact .refused fun _ _ _ _ => SettingProofs.agreesWith_error agrees
        | ok _ =>
          show wp _ _ (Setting.answer r.name) _ ℓ₁ σ₀ t₁
          refine wp_answer_alone steady₁ fun ℓ' t' => ?_
          rw [nothing, applyAll_nil]
          exact .replayed keyed found (SettingProofs.agreesWith_ok agrees)
            (SettingProofs.checkInheritedSetting_ok valid).2.2.vocabulary

/-! ### One call after the others -/

/-- The write of the organisation's level sets it and leaves the teams' alone. -/
theorem written_org {σ : Store}
    (wrote : ((SettingProofs.writing r .org).exec t σ).1 = .ok n) :
    (((applyAll ((SettingProofs.writing r .org).exec t σ).2 σ).orgSettings.find? (weight r.name)).map
      fun s => (s.value, s.locked)) = some (r.value.getD 0, r.locked.getD false) ∧
    (applyAll ((SettingProofs.writing r .org).exec t σ).2 σ).overrides = σ.overrides := by
  have set (row : OrgSetting) (named : row.key = weight r.name)
      (level : (row.value, row.locked) = (r.value.getD 0, r.locked.getD false)) :
      (((σ.orgSettings.put row).find? (weight r.name)).map fun s => (s.value, s.locked)) =
        some (r.value.getD 0, r.locked.getD false) := by
    rw [← named, Table.find?_put_self, Option.map_some, level]
  simp only [SettingProofs.writing, Setting.upsertOrgSetting] at wrote ⊢
  split at wrote
  · cases wrote
  · rename_i stores
    rw [if_neg stores]
    cases found : σ.orgSettings.find? (weight r.name) with
    | some s => exact ⟨set { s with value := r.value.getD 0, locked := r.locked.getD false }
        (Table.find?_eq_some.mp found).2 rfl, rfl⟩
    | none => exact ⟨set ⟨r.name, r.value.getD 0, r.locked.getD false⟩ rfl rfl, rfl⟩

/-- The write of a team's level sets or withdraws its override, and leaves every
other level alone. -/
theorem written_team {σ : Store} (wrote : ((SettingProofs.writing r .team).exec t σ).1 = .ok n)
    (matched : n = 0 → r.clear = true) :
    (applyAll ((SettingProofs.writing r .team).exec t σ).2 σ).orgSettings = σ.orgSettings ∧
    ∀ key, ((applyAll ((SettingProofs.writing r .team).exec t σ).2 σ).overrides.find? key).map
        (·.value) =
      if key = overrideKey r then if r.clear then none else some (r.value.getD 0)
      else (σ.overrides.find? key).map (·.value) := by
  have set (row : TeamSettingOverride) (named : row.key = overrideKey r)
      (value : row.value = r.value.getD 0) (key : String × String) :
      ((σ.overrides.put row).find? key).map (·.value) =
        if key = overrideKey r then some (r.value.getD 0)
        else (σ.overrides.find? key).map (·.value) := by
    rw [Table.find?_put, named]
    split
    · rw [Option.map_some, value]
    · rfl
  cases clear : r.clear with
  | true =>
    simp only [SettingProofs.writing, clear, if_true, Setting.deleteOverride]
    cases found : σ.overrides.find? (overrideKey r) with
    | some o =>
      rw [overrideKey] at found
      rw [found]
      refine ⟨rfl, fun key => ?_⟩
      show ((σ.overrides.erase (overrideKey r)).find? key).map _ = _
      rw [Table.find?_erase]
      split <;> rfl
    | none =>
      have absent := found
      rw [overrideKey] at found
      rw [found]
      refine ⟨rfl, fun key => ?_⟩
      show (σ.overrides.find? key).map _ = _
      split
      · rename_i same
        rw [same, absent]
        rfl
      · rfl
  | false =>
    simp only [SettingProofs.writing, clear, Bool.false_eq_true, if_false,
      Setting.upsertOverride] at wrote ⊢
    cases live : σ.liveTeam? (r.teamId.getD "") with
    | none =>
      rw [live] at wrote
      cases wrote
      rw [clear] at matched
      cases matched rfl
    | some team =>
      simp only [live] at wrote ⊢
      have here : team.key = weight (r.teamId.getD "") :=
        (Store.team?_mem (Store.liveTeam?_eq_some.mp live).1).2
      split at wrote
      · cases wrote
      · rename_i stores
        rw [if_neg stores]
        cases found : σ.overrides.find? (weight r.name, team.key) with
        | some o =>
          have named : o.key = overrideKey r := by
            rw [(Table.find?_eq_some.mp found).2, here]
            rfl
          exact ⟨rfl, set { o with value := r.value.getD 0 } named rfl⟩
        | none =>
          exact ⟨rfl, set ⟨r.name, team.id, r.value.getD 0⟩ (congrArg (weight r.name, ·) here) rfl⟩

omit [Engine] in
theorem sameRequest_iff : SameRequest r (settingWrite q) ↔ fields q = fields r := by
  simp [SameRequest, settingWrite, fields]

theorem SameKey.symm (same : SameKey q r) : SameKey r q := ⟨same.2.1, same.1, same.2.2.symm⟩

/-- A key that was used is recorded with the one write that carried it. -/
theorem Follows.recorded (follows : Follows done σ) (member : q ∈ done) (same : SameKey q r) :
    σ.settingWrites.find? (weight (r.idempotency.getD "")) = some (settingWrite q) := by
  rw [follows.ledger _ same.2.1]
  cases first : done.find? fun q => Keyed q ∧
      weight (q.idempotency.getD "") = weight (r.idempotency.getD "") with
  | none =>
    have unused := List.find?_eq_none.mp first q member
    exact absurd (by simpa using ⟨same.1, same.2.2⟩) unused
  | some q' =>
    have carries := List.find?_some first
    simp only [decide_eq_true_eq] at carries
    have apart : Std.Symm fun q r : SetInheritedSettingRequest => ¬SameKey q r :=
      ⟨fun _ _ apart same => apart same.symm⟩
    have one : q' = q := by
      by_contra other
      exact follows.once.forall (List.mem_of_find?_eq_some first) member other
        ⟨carries.1, same.1, carries.2.trans same.2.2.symm⟩
    rw [one, Option.map_some]

/-- A key that is recorded was used. -/
theorem Follows.used (follows : Follows done σ) (keyed : Keyed r)
    (found : σ.settingWrites.find? (weight (r.idempotency.getD "")) = some w) :
    ∃ q ∈ done, SameKey q r ∧ w = settingWrite q := by
  rw [follows.ledger _ keyed] at found
  obtain ⟨q, first, rfl⟩ := Option.map_eq_some_iff.mp found
  have carries := List.find?_some first
  simp only [decide_eq_true_eq] at carries
  exact ⟨q, List.mem_of_find?_eq_some first, ⟨carries.1, keyed, carries.2⟩, rfl⟩

/-- A call that repeats nothing under its key is one more write. -/
theorem Follows.stored (follows : Follows done σ)
    (valid : Setting.checkInheritedSetting r = .ok scope)
    (absent : Keyed r → σ.settingWrites.find? (weight (r.idempotency.getD "")) = none)
    (wrote : ((SettingProofs.writing r scope).exec t σ).1 = .ok n) (matched : n = 0 → r.clear = true) :
    Follows (done ++ [r]) (applyAll (((SettingProofs.writing r scope).exec t σ).2 ++
      SettingProofs.recording (claimed r)) σ) := by
  obtain ⟨level, _, stated⟩ := SettingProofs.checkInheritedSetting_ok valid
  have ledger : ∀ (claim : Option SettingWrite) (σ : Store),
      applyAll (SettingProofs.recording claim) σ = record claim σ := by
    intro claim σ
    cases claim <;> rfl
  have org (claim : Option SettingWrite) (σ : Store) :
      (record claim σ).orgSettings = σ.orgSettings := by cases claim <;> rfl
  have overrides (claim : Option SettingWrite) (σ : Store) :
      (record claim σ).overrides = σ.overrides := by cases claim <;> rfl
  have unused : ∀ q ∈ done, ¬SameKey q r := by
    intro q member same
    cases (absent same.2.1).symm.trans (follows.recorded member same)
  rw [applyAll_append, ledger]
  refine ⟨?_, fun team => ?_, fun key named => ?_, ?_⟩
  · rw [org, orgOf_concat]
    cases scope with
    | org =>
      have level : r.scope = 1 := level
      rw [if_pos level, ← (written_org wrote).1, stated.vocabulary]
    | team =>
      have level : r.scope ≠ 1 := by rw [level]; decide
      rw [if_neg level, (written_team wrote matched).1]
      exact follows.org
  · rw [overrides, overrideOf_concat]
    cases scope with
    | org =>
      have level : r.scope ≠ 2 := by rw [level]; decide
      rw [if_neg fun both => level both.1, (written_org wrote).2]
      exact follows.overrides team
    | team =>
      have level : r.scope = 2 := level
      rw [(written_team wrote matched).2, overrideKey, stated.vocabulary]
      by_cases same : weight (r.teamId.getD "") = weight team
      · have named : (weight ownerReadsOwnRecord, weight team) =
            (weight ownerReadsOwnRecord, weight (r.teamId.getD "")) := by rw [same]
        rw [if_pos named, if_pos (And.intro level same)]
        cases clear : r.clear with
        | true => rfl
        | false =>
          cases value : r.value with
          | none => cases clear.symm.trans (stated.stated value)
          | some v => rfl
      · rw [if_neg fun key => same (congrArg Prod.snd key).symm, if_neg fun both => same both.2]
        exact follows.overrides team
  · rw [List.find?_append]
    have before := follows.ledger key named
    rw [← settingWrites_writing (r := r) (t := t)] at before
    unfold claimed
    by_cases keyed : Keyed r
    · rw [if_pos keyed]
      show (Table.put _ (settingWrite r)).find? _ = _
      rw [Table.find?_put]
      by_cases same : weight (r.idempotency.getD "") = weight key
      · rw [if_pos (show weight key = (settingWrite r).key from same.symm)]
        have first : (done.find? fun q => Keyed q ∧
            weight (q.idempotency.getD "") = weight key) = none := by
          refine List.find?_eq_none.mpr fun q member carries => ?_
          simp only [decide_eq_true_eq] at carries
          exact unused q member ⟨carries.1, keyed, carries.2.trans same.symm⟩
        rw [first, Option.none_or]
        simp [keyed, same]
      · rw [if_neg (show weight key ≠ (settingWrite r).key from Ne.symm same), before]
        simp [same]
    · rw [if_neg keyed]
      show (applyAll _ σ).settingWrites.find? _ = _
      rw [before]
      simp [keyed]
  · exact List.pairwise_append.mpr ⟨follows.once, List.pairwise_singleton _ _, fun q member r' last =>
      List.mem_singleton.mp last ▸ unused q member⟩

/-- After a call answered OK what is stored is what the writes say, this one
included if it is one. -/
theorem Follows.step (follows : Follows done σ) (stores : Stores r σ (.ok a) σ')
    (request : c.request = .setInheritedSetting r) (x : Response) :
    Follows (took done (c, .ok x)) σ' ∧ a = CredentialProofs.setting σ' ownerReadsOwnRecord := by
  cases stores with
  | replayed keyed found same vocabulary =>
    obtain ⟨q, member, carries, rfl⟩ := follows.used keyed found
    have repeats : ∃ q ∈ done, SameKey q r ∧ fields q = fields r :=
      ⟨q, member, carries, sameRequest_iff.mp same⟩
    simp only [took, request, List.any_eq_true, decide_eq_true_eq, repeats, if_true]
    exact ⟨follows, by rw [vocabulary]⟩
  | stored valid absent wrote matched result =>
    have fresh : ¬∃ q ∈ done, SameKey q r ∧ fields q = fields r := by
      rintro ⟨q, member, same, _⟩
      cases (absent same.2.1).symm.trans (follows.recorded member same)
    simp only [took, request, List.any_eq_true, decide_eq_true_eq, fresh, if_false]
    rw [result, (SettingProofs.checkInheritedSetting_ok valid).2.2.vocabulary]
    exact ⟨follows.stored valid absent wrote matched, rfl⟩

/-! ### A run of calls -/

/-- What a call does by itself about the setting, if it is one that writes or
answers it. -/
def Settling (c : Call) (σ : Store) (result : Except Status Response) (σ' : Store) : Prop :=
  match c.request with
  | .setInheritedSetting r =>
    (∃ e, admitted c.caller = .error e ∧ result = .error e ∧ σ' = σ) ∨
      ∃ outcome, Stores r σ outcome σ' ∧ result = outcome.map .setInheritedSetting
  | .resolveCredential _ =>
    ∀ a, result = .ok (.resolveCredential a) → a ≠ .default →
      a.ownerReadsOwnRecord = some (CredentialProofs.setting σ ownerReadsOwnRecord)
  | _ => True

theorem wp_settling {c : Call} : wp Rely.none (fun _ => True) (service c)
    (fun result _ σ' _ => Settling c σ result σ') .fresh σ t := by
  unfold Settling
  cases request : c.request with
  | setInheritedSetting r =>
    refine ServiceProofs.wp_service (fun e denied => Or.inl ⟨e, denied, rfl, rfl⟩) fun _ => ?_
    rw [request]
    exact wp_map (G := fun _ => True) (wp_mono wp_storeSetting_alone (fun _ _ _ _ h => h)
      (fun _ _ => trivial) fun result _ _ _ stores => Or.inr ⟨result, stores, rfl⟩)
  | resolveCredential r =>
    refine ServiceProofs.wp_service (fun _ _ => nofun) fun _ => ?_
    rw [request]
    refine wp_map (wp_mono (CredentialProofs.wp_resolve (Q := fun result _ _ _ => ∀ a,
      result = .ok a → a ≠ .default →
        a.ownerReadsOwnRecord = some (CredentialProofs.setting σ ownerReadsOwnRecord))
      (fun _ _ _ _ none => none.elim) request ?_ ?_)
      (fun _ _ _ _ h => h) (fun _ _ => trivial) ?_)
    · rintro ℓ' σ' t' snap _ _ _ a same known
      cases same
      exact absurd rfl known
    · rintro ℓ' σ' t' snap row u a _ drifts resolves a' same _
      cases same
      rw [resolves.setting, drifts.still]
    · intro result ℓ' σ' t' post a same
      cases result with
      | error e => cases same
      | ok a' =>
        cases same
        exact post _ rfl
  | _ => exact wp_trivial

/-- Only the settings calls change a setting or its ledger. -/
theorem settings_still {c : Call} (changes : System.Changes (Effective c) σ σ')
    (other : ∀ r, c.request ≠ .setInheritedSetting r) : σ'.orgSettings = σ.orgSettings ∧
      σ'.overrides = σ.overrides ∧ σ'.settingWrites = σ.settingWrites := by
  refine changes_effects (P := fun σ σ' => σ'.orgSettings = σ.orgSettings ∧
    σ'.overrides = σ.overrides ∧ σ'.settingWrites = σ.settingWrites) changes
    (fun _ => ⟨rfl, rfl, rfl⟩) (fun _ _ _ first second => ⟨second.1.trans first.1,
      second.2.1.trans first.2.1, second.2.2.trans first.2.2⟩) fun k ef allowed => ?_
  cases allowed with
  | setting request => exact absurd request (other _)
  | _ => exact ⟨rfl, rfl, rfl⟩

theorem Follows.still (follows : Follows done σ) (same : σ'.orgSettings = σ.orgSettings ∧
    σ'.overrides = σ.overrides ∧ σ'.settingWrites = σ.settingWrites) : Follows done σ' where
  org := by rw [same.1, follows.org]
  overrides team := by rw [same.2.1, follows.overrides team]
  ledger key named := by rw [same.2.2, follows.ledger key named]
  once := follows.once

/-- One call of a sequential run. -/
theorem Follows.call (follows : Follows done σ)
    (solo : System.Solo Effective Settling c σ result σ') : Follows (took done (c, result)) σ' := by
  obtain ⟨settling, changes⟩ := solo
  cases request : c.request with
  | setInheritedSetting r =>
    rw [Settling, request] at settling
    rcases settling with ⟨e, _, rfl, rfl⟩ | ⟨outcome, stores, rfl⟩
    · simpa [took, request] using follows
    · cases outcome with
      | error e =>
        cases stores
        simpa [took, request, Except.map] using follows
      | ok a => exact (follows.step stores request _).1
  | _ =>
    have nothing : took done (c, result) = done := by simp [took, request]
    rw [nothing]
    exact follows.still (settings_still changes (by simp [request]))

/-- What is stored follows the history of calls. -/
theorem follows_of_chain (chain : Chain (System.Solo Effective Settling) σ₀ h σ)
    (seeded : Follows [] σ₀) : Follows (effective h) σ := by
  induction chain with
  | nil => exact seeded
  | snoc _ last ih =>
    rw [effective_concat]
    exact ih.call last

/-- Among calls made one after the other from the seed, the setting stored is
the one its effective writes say, at every point; a settings call answered OK
carries it as the call left it, whole, and so does every resolve that names
somebody, while one that names nobody is empty. A key recorded for a different
request is refused as an argument, unless the caller is refused first, and
changes nothing. -/
theorem settings_follow_writes {S₀ S : Handlers.System} (reachable : Reachable S₀)
    (rest : S₀.Idle) (seeded : Follows [] S₀.store)
    (reached : System.Reaches service System.Sequential S₀ S) (idle : S.Idle) :
    Follows (effective (Spellings.since S₀ S)) S.store ∧
    (∀ h c r a rest, Spellings.since S₀ S = h ++ (c, .ok (.setInheritedSetting a)) :: rest →
      c.request = .setInheritedSetting r →
      Carries (effective (h ++ [(c, .ok (.setInheritedSetting a))])) a) ∧
    (∀ h c r a rest, Spellings.since S₀ S = h ++ (c, .ok (.resolveCredential a)) :: rest →
      c.request = .resolveCredential r →
      a = .default ∨ ∃ setting, a.ownerReadsOwnRecord = some setting ∧
        Carries (effective h) setting) ∧
    ∀ T c r result, System.Reaches service System.Sequential S T → T.Idle →
      Spellings.since S T = [(c, result)] → c.request = .setInheritedSetting r →
      (∃ q ∈ effective (Spellings.since S₀ S), SameKey q r ∧ fields q ≠ fields r) →
      T.store = S.store ∧ ∃ e, result = .error e ∧
        (admitted c.caller = .ok () → e.code = .invalidArgument) := by
  have chain := Spellings.chain_since (Q := Settling) reachable rest reached idle
    (fun _ _ _ met => met) fun T c T' _ _ => wp_settling
  have holds := follows_of_chain chain seeded
  refine ⟨holds, ?_, ?_, ?_⟩
  · intro h c r a rest split request
    rw [split] at chain
    obtain ⟨σ₁, σ₂, before, one, _⟩ := chain.split
    have follows := (follows_of_chain before seeded).call one
    have settling := one.1
    rw [Settling, request] at settling
    rcases settling with ⟨e, _, refused, _⟩ | ⟨outcome, stores, same⟩
    · cases refused
    · cases outcome with
      | error e => cases same
      | ok a' =>
        cases same
        have answer := ((follows_of_chain before seeded).step stores request
          (.setInheritedSetting a)).2
        have carries := follows.carries
        rw [effective_concat]
        rwa [← answer] at carries
  · intro h c r a rest split request
    rw [split] at chain
    obtain ⟨σ₁, σ₂, before, one, _⟩ := chain.split
    have settling := one.1
    rw [Settling, request] at settling
    by_cases known : a = .default
    · exact Or.inl known
    · exact Or.inr ⟨_, settling a rfl known, (follows_of_chain before seeded).carries⟩
  · rintro T c r result more still last request ⟨q, member, same, differs⟩
    have one := Spellings.chain_since (Q := Settling) (reachable.later (reached.mono fun _ _ _ _ =>
      trivial)) idle more still (fun _ _ _ met => met) fun T c T' _ _ => wp_settling
    rw [last] at one
    obtain ⟨σ₁, σ₂, before, ⟨settling, _⟩, after⟩ := Chain.split (h := []) one
    obtain rfl := before.nothing
    obtain rfl := after.nothing
    rw [Settling, request] at settling
    rcases settling with ⟨e, denied, rfl, same⟩ | ⟨outcome, stores, rfl⟩
    · refine ⟨same, e, rfl, fun admits => ?_⟩
      cases denied.symm.trans admits
    · have found := holds.recorded member same
      have other : ¬SameRequest r (settingWrite q) := fun same => differs (sameRequest_iff.mp same)
      generalize T.store = σ' at stores
      cases stores with
      | @refused e reused => exact ⟨rfl, e, rfl, fun _ => reused _ same.2.1 found other⟩
      | replayed keyed found' same' =>
        cases found.symm.trans found'
        exact absurd same' other
      | stored valid absent => cases (absent same.2.1).symm.trans found

end

/-! ### A run -/

theorem follows_fresh [Engine] (now : Int) : Follows [] (fresh now).store where
  org := by
    have seed : (fresh now).store.orgSettings.find? (weight ownerReadsOwnRecord) =
        some ⟨ownerReadsOwnRecord, 2, true⟩ := Table.find?_eq_some.mpr ⟨List.mem_cons_self, rfl⟩
    rw [seed]
    rfl
  overrides _ := rfl
  ledger _ _ := rfl
  once := .nil

/-- The organisation's level is opened under a key. -/
def opening (value : Int) : SetInheritedSettingRequest :=
  ⟨some "k", 1, none, ownerReadsOwnRecord, some value, some false, false⟩

/-- A team is declared, the organisation's level opened, the team's override
stated and a credential resolved. -/
def settling : List (Action Call) :=
  Spellings.crediting ++ calling firstUuid (Overrides.declaring ["search"]) 2 9 ++
  calling firstUuid (.setInheritedSetting (opening 1)) 3 7 ++
  calling firstUuid (Overrides.overriding Overrides.searchTeam 1 "") 4 5 ++
  calling firstUuid (.resolveCredential ⟨List.replicate 32 7, false⟩) 5 7

/-- The key is sent again, with another value. -/
def reusing : List (Action Call) :=
  settling ++ calling firstUuid (.setInheritedSetting (opening 2)) 6 2

open Bytewise in
theorem settings_follow_writes_settled :
    Follows [opening 1, ⟨some "", 2, some Overrides.searchTeam, ownerReadsOwnRecord, some 1, none,
      false⟩] (after settling).store ∧
    Carries [opening 1, ⟨some "", 2, some Overrides.searchTeam, ownerReadsOwnRecord, some 1, none,
      false⟩] ⟨1, false, [(Overrides.searchTeam, 1)]⟩ ∧
    (after reusing).store = (after settling).store := by
  have idle : (after settling).Idle := System.idle_of_now (by decide +kernel)
  have reached : System.Reaches service System.Sequential (fresh 0) (after settling) :=
    reaches_after System.sequentialNow (fun _ _ _ now => System.sequential_of_now now)
      (by decide +kernel)
  have rest : (fresh 0).Idle := fun s none => by cases none
  have follow := settings_follow_writes (reachable_fresh 0) rest (follows_fresh 0) reached idle
  have written : effective (Spellings.since (fresh 0) (after settling)) = [opening 1,
      ⟨some "", 2, some Overrides.searchTeam, ownerReadsOwnRecord, some 1, none, false⟩] := by
    decide +kernel
  have split : Spellings.since (fresh 0) (after settling) =
      (Spellings.since (fresh 0) (after settling)).take 5 ++
        (⟨some iamCaller, firstUuid, .resolveCredential ⟨List.replicate 32 7, false⟩⟩,
          .ok (.resolveCredential ⟨Spellings.personId, [], Spellings.credentialId, false, [],
            some ⟨1, false, [(Overrides.searchTeam, 1)]⟩, none⟩)) :: [] := by decide +kernel
  have before : effective ((Spellings.since (fresh 0) (after settling)).take 5) = [opening 1,
      ⟨some "", 2, some Overrides.searchTeam, ownerReadsOwnRecord, some 1, none, false⟩] := by
    decide +kernel
  have more : System.Reaches service System.Sequential (after settling) (after reusing) :=
    reaches_more System.sequentialNow (fun _ _ _ now => System.sequential_of_now now)
      (by decide +kernel) (by decide +kernel)
  have still : (after reusing).Idle := System.idle_of_now (by decide +kernel)
  have last : Spellings.since (after settling) (after reusing) =
      [(⟨some iamCaller, firstUuid, .setInheritedSetting (opening 2)⟩, .error ⟨.invalidArgument,
        "this idempotency key was used with a different request; a repeated key carrying a " ++
        "different payload is refused rather than replayed"⟩)] := by decide +kernel
  have used : ∃ q ∈ effective (Spellings.since (fresh 0) (after settling)),
      SameKey q (opening 2) ∧ fields q ≠ fields (opening 2) := by
    rw [written]
    exact ⟨opening 1, List.mem_cons_self, by decide, by decide⟩
  refine ⟨written ▸ follow.1, ?_, (follow.2.2.2 _ _ _ _ more still last rfl used).1⟩
  rcases follow.2.2.1 _ _ _ _ _ split rfl with unknown | ⟨setting, told, carries⟩
  · exact absurd unknown (by decide)
  · cases told
    exact before ▸ carries

open Bytewise in
/-- A resolve of a token that nobody holds is answered without a setting. -/
theorem unknown_carries_nothing : ¬∀ (S : Handlers.System),
    System.Reaches service System.Sequential (fresh 0) S → S.Idle →
    ∀ h c r a rest, Spellings.since (fresh 0) S = h ++ (c, .ok (.resolveCredential a)) :: rest →
      c.request = .resolveCredential r →
      ∃ setting, a.ownerReadsOwnRecord = some setting ∧ Carries (effective h) setting := by
  intro carries
  have reached : System.Reaches service System.Sequential (fresh 0)
      (after (calling firstUuid (.resolveCredential ⟨List.replicate 32 7, false⟩) 0 2)) :=
    reaches_after System.sequentialNow (fun _ _ _ now => System.sequential_of_now now)
      (by decide +kernel)
  have split : Spellings.since (fresh 0)
      (after (calling firstUuid (.resolveCredential ⟨List.replicate 32 7, false⟩) 0 2)) =
      [] ++ (⟨some iamCaller, firstUuid, .resolveCredential ⟨List.replicate 32 7, false⟩⟩,
        .ok (.resolveCredential .default)) :: [] := by decide +kernel
  obtain ⟨setting, told, _⟩ := carries _ reached (System.idle_of_now (by decide +kernel)) _ _ _ _ _
    split rfl
  cases told

end IamDb.Inherited
