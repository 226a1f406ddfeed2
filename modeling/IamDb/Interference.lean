import IamDb.Evolution

/-! What a session can rely on while others commit. A row it holds a lock on
stays as it is, whatever the mode; an exclusive lock on a user row also keeps
new credentials and enrolments of that user out, a shared gap keeps an absent
id absent, and the sync lock and the `administrators` row keep teams, members
and pending rows. -/
namespace IamDb.Interference
open Txn Schema Messages Service Effects Evolution

variable [Engine]

/-- The commits of the other calls, under locks that leave room for a session's
own. -/
abbrev Others : Rely Store Write Res := Interferes Integrity Effective

/-- A rely that admits nothing but such commits. -/
def Quiet (R : Rely Store Write Res) : Prop := ∀ ℓ n σ σ', R ℓ n σ σ' → Others ℓ n σ σ'

theorem quiet_others : Quiet Others := fun _ _ _ _ change => change

/-- Any number of commits of the other calls. -/
def Calm (ℓ : Local Store Write Res) : Store → Store → Prop := Drift Others ℓ .done

theorem calm_of_drift {R : Rely Store Write Res} {ℓ : Local Store Write Res}
    {n : Next Store Write Res} (quiet : Quiet R) (drift : Drift R ℓ n σ σ') : Calm ℓ σ σ' :=
  drift.mono (quiet ℓ n)

theorem evolves_of_effective (effective : Effective c k) : Evolves k.store k.result := by
  obtain ⟨_, ef, allowed, same⟩ := effective
  exact same ▸ evolves_of_allowed allowed

theorem integrity_of_effective (inv : Integrity k.store) (effective : Effective c k) :
    Integrity k.result := by
  obtain ⟨_, ef, allowed, same⟩ := effective
  exact same ▸ integrity_of_allowed inv allowed

/-! ### Writes outside a row -/

section
variable {w : Write}

theorem users_outside (other : w.res ≠ .user key) (σ : Store) :
    (w.apply σ).users.find? key = σ.users.find? key := by
  cases w with
  | user r => exact Table.find?_put_ne fun same => other (congrArg Res.user same.symm)
  | _ => rfl

theorem passwords_outside (other : w.res ≠ .password key) (σ : Store) :
    (w.apply σ).passwords.find? key = σ.passwords.find? key := by
  cases w with
  | password r => exact Table.find?_put_ne fun same => other (congrArg Res.password same.symm)
  | _ => rfl

theorem teams_outside (other : w.res ≠ .team key) (σ : Store) :
    (w.apply σ).teams.find? key = σ.teams.find? key := by
  cases w with
  | team r => exact Table.find?_put_ne fun same => other (congrArg Res.team same.symm)
  | _ => rfl

theorem credentials_outside (other : w.res ≠ .credential key) (σ : Store) :
    (w.apply σ).credentials.find? key = σ.credentials.find? key := by
  cases w with
  | credential r => exact Table.find?_put_ne fun same => other (congrArg Res.credential same.symm)
  | _ => rfl

theorem enrolments_outside (other : w.res ≠ .enrolment key) (σ : Store) :
    (w.apply σ).enrolments.find? key = σ.enrolments.find? key := by
  cases w with
  | enrolment r => exact Table.find?_put_ne fun same => other (congrArg Res.enrolment same.symm)
  | _ => rfl

theorem redemptions_outside (other : w.res ≠ .redemption key) (σ : Store) :
    (w.apply σ).redemptions.find? key = σ.redemptions.find? key := by
  cases w with
  | redemption r => exact Table.find?_put_ne fun same => other (congrArg Res.redemption same.symm)
  | _ => rfl

theorem orgSettings_outside (other : w.res ≠ .orgSetting key) (σ : Store) :
    (w.apply σ).orgSettings.find? key = σ.orgSettings.find? key := by
  cases w with
  | orgSetting r => exact Table.find?_put_ne fun same => other (congrArg Res.orgSetting same.symm)
  | _ => rfl

theorem overrides_outside (other : w.res ≠ .override key) (σ : Store) :
    (w.apply σ).overrides.find? key = σ.overrides.find? key := by
  cases w with
  | override r => exact Table.find?_put_ne fun same => other (congrArg Res.override same.symm)
  | dropOverride k =>
    rw [Write.apply, Table.find?_erase, if_neg]
    exact fun same => other (congrArg Res.override same.symm)
  | _ => rfl

theorem settingWrites_outside (other : w.res ≠ .settingWrite key) (σ : Store) :
    (w.apply σ).settingWrites.find? key = σ.settingWrites.find? key := by
  cases w with
  | settingWrite r =>
    exact Table.find?_put_ne fun same => other (congrArg Res.settingWrite same.symm)
  | _ => rfl

theorem keyIdentity_outside (other : w.res ≠ .keyIdentity) (σ : Store) :
    (w.apply σ).keyIdentity.find? () = σ.keyIdentity.find? () := by
  cases w with
  | keyIdentity r => exact absurd rfl other
  | _ => rfl

end

/-- The teams, the members and the pending rows, as one thing. -/
def Roster (σ σ' : Store) : Prop :=
  σ'.teams = σ.teams ∧ σ'.teamMembers = σ.teamMembers ∧ σ'.pendingMembers = σ.pendingMembers

theorem Roster.refl (σ : Store) : Roster σ σ := ⟨rfl, rfl, rfl⟩

theorem Roster.trans (first : Roster σ σ') (second : Roster σ' σ'') : Roster σ σ'' :=
  ⟨second.1.trans first.1, second.2.1.trans first.2.1, second.2.2.trans first.2.2⟩

/-- The live members of a team are the same people while the roster stays. -/
theorem Roster.live_members (kept : Roster σ σ') (evolves : Evolves σ σ') (inv : Integrity σ)
    (team : String) : Team.liveMembers σ' team = Team.liveMembers σ team := by
  unfold Team.liveMembers
  rw [kept.2.1]
  refine List.filter_congr fun m member => ?_
  have known := inv.memberUser m member
  obtain ⟨u, found⟩ := Option.isSome_iff_exists.mp known
  obtain ⟨u', found', later⟩ := evolves.user? found
  have live : (σ'.liveUser? m.userId).isSome = (σ.liveUser? m.userId).isSome := by
    simp [Store.liveUser?, found, found', Option.filter, later.deletedAt]
    split <;> rfl
  have team : (σ'.liveTeam? m.teamId) = σ.liveTeam? m.teamId := by
    simp [Store.liveTeam?, Store.team?, kept.1]
  rw [live, team]

/-- The effects that touch the roster. -/
theorem roster_of_allowed {c : Call} {k : Committed} (allowed : Allowed c k ef) :
    Roster k.store (ef.apply k.store) ∨ (∃ u, ef = .bootstrap u) ∨
      ∃ teams members pending, ef = .sync teams members pending := by
  cases allowed with
  | bootstrap => exact Or.inr (Or.inl ⟨_, rfl⟩)
  | sync => exact Or.inr (Or.inr ⟨_, _, _, rfl⟩)
  | @setting _ level claim => cases level <;> cases claim <;> exact Or.inl ⟨rfl, rfl, rfl⟩
  | _ => exact Or.inl ⟨rfl, rfl, rfl⟩

/-! ### What stays while others commit -/

namespace Calm

variable {ℓ : Local Store Write Res}

theorem refl (ℓ : Local Store Write Res) (σ : Store) : Calm ℓ σ σ := Relation.ReflTransGen.refl

theorem trans (first : Calm ℓ σ σ') (second : Calm ℓ σ' σ'') : Calm ℓ σ σ'' :=
  Relation.ReflTransGen.trans first second

/-- What leaves room for a session leaves room for what it was before. -/
theorem within {ℓ' : Local Store Write Res} (calm : Calm ℓ' σ σ') (within : ℓ.Within ℓ') :
    Calm ℓ σ σ' := by
  refine Relation.ReflTransGen.mono ?_ _ _ calm
  rintro σ σ' ⟨c, k, inv, room, rest⟩
  exact ⟨c, k, inv, within.admits room, rest⟩

theorem integrity (calm : Calm ℓ σ σ') (inv : Integrity σ) : Integrity σ' := by
  refine Drift.preserves calm inv ?_
  rintro σ σ' ⟨c, k, _, _, effective, rfl, rfl⟩ inv
  exact integrity_of_effective inv effective

theorem evolves (calm : Calm ℓ σ σ') : Evolves σ σ' := by
  refine Drift.carries calm .refl (fun _ _ _ => .trans) ?_
  rintro σ σ' ⟨c, k, _, _, effective, rfl, rfl⟩
  exact evolves_of_effective effective

/-- A row under a lock of the session's stays as it is. -/
theorem row {f : Store → β} (calm : Calm ℓ σ σ') (holds : Holds ℓ.held r mode)
    (outside : ∀ w : Write, w.res ≠ r → ∀ σ, f (w.apply σ) = f σ) : f σ' = f σ :=
  Drift.frame calm (fun _ _ effective => effective.1) outside holds

/-- What carries over each effect that leaves room for the session's locks
carries over any number of them. -/
theorem effects {P : Store → Store → Prop} (calm : Calm ℓ σ σ') (refl : ∀ σ, P σ σ)
    (trans : ∀ σ σ' σ'', P σ σ' → P σ' σ'' → P σ σ'')
    (one : ∀ c (k : Committed) ef, Integrity k.store → ℓ.admits k.under → k.Locked →
      Allowed c k ef → k.result = ef.apply k.store → P k.store (ef.apply k.store)) : P σ σ' := by
  refine Drift.carries calm refl trans ?_
  rintro σ σ' ⟨c, k, inv, room, ⟨locked, ef, allowed, same⟩, rfl, rfl⟩
  rw [same]
  exact one c k ef inv room locked allowed same

theorem user_row (calm : Calm ℓ σ σ')
    (holds : Holds ℓ.held (.user key) mode) : σ'.users.find? key = σ.users.find? key :=
  calm.row (f := fun σ => σ.users.find? key) holds fun _ => users_outside

theorem team_row (calm : Calm ℓ σ σ')
    (holds : Holds ℓ.held (.team key) mode) : σ'.teams.find? key = σ.teams.find? key :=
  calm.row (f := fun σ => σ.teams.find? key) holds fun _ => teams_outside

theorem password_row (calm : Calm ℓ σ σ')
    (holds : Holds ℓ.held (.password key) mode) :
    σ'.passwords.find? key = σ.passwords.find? key :=
  calm.row (f := fun σ => σ.passwords.find? key) holds fun _ => passwords_outside

theorem credential_row (calm : Calm ℓ σ σ')
    (holds : Holds ℓ.held (.credential key) mode) :
    σ'.credentials.find? key = σ.credentials.find? key :=
  calm.row (f := fun σ => σ.credentials.find? key) holds fun _ => credentials_outside

theorem enrolment_row (calm : Calm ℓ σ σ')
    (holds : Holds ℓ.held (.enrolment key) mode) :
    σ'.enrolments.find? key = σ.enrolments.find? key :=
  calm.row (f := fun σ => σ.enrolments.find? key) holds fun _ => enrolments_outside

theorem redemption_row (calm : Calm ℓ σ σ')
    (holds : Holds ℓ.held (.redemption key) mode) :
    σ'.redemptions.find? key = σ.redemptions.find? key :=
  calm.row (f := fun σ => σ.redemptions.find? key) holds fun _ => redemptions_outside

theorem settingWrite_row (calm : Calm ℓ σ σ')
    (holds : Holds ℓ.held (.settingWrite key) mode) :
    σ'.settingWrites.find? key = σ.settingWrites.find? key :=
  calm.row (f := fun σ => σ.settingWrites.find? key) holds
    fun _ => settingWrites_outside

theorem keyIdentity_row (calm : Calm ℓ σ σ')
    (holds : Holds ℓ.held .keyIdentity mode) :
    σ'.keyIdentity.find? () = σ.keyIdentity.find? () :=
  calm.row (f := fun σ => σ.keyIdentity.find? ()) holds fun _ => keyIdentity_outside

/-- An id whose gap the session shares stays free. -/
theorem absent_user (calm : Calm ℓ σ σ')
    (holds : Holds ℓ.held (.userGap (weight userId)) .shared) (absent : σ.user? userId = none) :
    σ'.user? userId = none := by
  refine calm.effects (P := fun σ σ' => σ.user? userId = none → σ'.user? userId = none)
    (fun _ absent => absent) (fun _ _ _ first second => second ∘ first) ?_ absent
  intro c k ef _ room _ allowed _ absent
  by_contra present
  obtain ⟨u, found⟩ := Option.ne_none_iff_exists'.mp present
  obtain ⟨member, here⟩ := Store.user?_mem found
  have gap : Holds k.under (.userGap u.key) .intent := by
    rcases user_origin allowed member with ⟨u₀, stored, later⟩ | ⟨rfl | rfl, _⟩
    · have same : u₀.key = weight userId := by rw [← here, User.key, User.key, later.id]
      rw [Store.user?, Table.find?_eq_none] at absent
      exact absurd same (absent u₀ stored)
    · cases allowed with
      | createUser _ _ _ _ _ gap => exact gap
    · cases allowed with
      | bootstrap _ _ _ _ _ _ gap => exact gap
  rw [here] at gap
  cases room.apart holds gap

/-- A secret the session holds exclusively stays unused. -/
theorem absent_secret (calm : Calm ℓ σ σ') (holds : Holds ℓ.held (.secret secret) .exclusive)
    (absent : σ.enrolment? secret = none) : σ'.enrolment? secret = none := by
  refine calm.effects (P := fun σ σ' => σ.enrolment? secret = none → σ'.enrolment? secret = none)
    (fun _ absent => absent) (fun _ _ _ first second => second ∘ first) ?_ absent
  intro c k ef _ room _ allowed _ absent
  by_contra present
  obtain ⟨e, found⟩ := Option.ne_none_iff_exists'.mp present
  obtain ⟨member, named⟩ := Store.enrolment?_mem found
  rcases enrolment_origin allowed member with ⟨e₀, stored, later⟩ | rfl
  · have unused : ∀ e ∈ k.store.enrolments, e.secretHash ≠ secret := by
      simpa [Store.enrolment?, Table.mem_def] using absent
    exact unused e₀ stored (later.secretHash.symm.trans named)
  · cases allowed with
    | mintEnrolment _ _ _ _ new _ _ _ reserved _ =>
      subst new
      have here : _ = secret := named
      subst here
      exact absurd reserved (room.not_held holds)

/-- While a session holds a user row exclusively, every live credential of that
user was there before. -/
theorem no_new_credential (calm : Calm ℓ σ σ')
    (holds : Holds ℓ.held (.user user) .exclusive) (member : r ∈ σ'.credentials)
    (live : liveOf user r = true) : r ∈ σ.credentials := by
  refine calm.effects (P := fun σ σ' => ∀ r, liveOf user r = true → r ∈ σ'.credentials →
    r ∈ σ.credentials) (fun _ _ _ member => member)
    (fun _ _ _ first second r live member => first r live (second r live member)) ?_ r live member
  intro c k ef _ room _ allowed _ r live member
  simp only [liveOf, Bool.and_eq_true, decide_eq_true_eq, Option.isNone_iff_eq_none] at live
  rcases credential_origin allowed member with ⟨r₀, stored, later⟩ | rfl
  · exact later.live live.2 ▸ stored
  · cases allowed with
    | mintCredential _ _ _ _ new _ _ shared =>
      subst new
      have here : _ = user := live.1
      rw [← here] at holds
      cases room.apart holds shared

/-- While a session holds a user row exclusively, every open enrolment of that
user was there before. -/
theorem no_new_enrolment (calm : Calm ℓ σ σ')
    (holds : Holds ℓ.held (.user user) .exclusive) (member : e ∈ σ'.enrolments)
    (live : openOf user e = true) : e ∈ σ.enrolments := by
  refine calm.effects (P := fun σ σ' => ∀ e, openOf user e = true → e ∈ σ'.enrolments →
    e ∈ σ.enrolments) (fun _ _ _ member => member)
    (fun _ _ _ first second e live member => first e live (second e live member)) ?_ e live member
  intro c k ef _ room _ allowed _ e live member
  simp only [openOf, Bool.and_eq_true, decide_eq_true_eq, Option.isNone_iff_eq_none] at live
  rcases enrolment_origin allowed member with ⟨e₀, stored, later⟩ | rfl
  · exact later.unended live.1.2 live.2 ▸ stored
  · cases allowed with
    | mintEnrolment _ _ _ _ new _ _ shared =>
      subst new
      have here : _ = user := live.1.1
      rw [← here] at holds
      cases room.apart holds shared

/-- Under the sync lock the roster changes by nobody else's hand, provided the
`administrators` row is locked or not there to be locked. -/
theorem roster_synced (calm : Calm ℓ σ σ')
    (holds : Holds ℓ.held .teamSyncLock .exclusive)
    (serial : (σ.team? Team.administrators).isSome →
      Holds ℓ.held (.team (weight Team.administrators)) .exclusive) : Roster σ σ' := by
  refine calm.effects (P := fun σ σ' => ((σ.team? Team.administrators).isSome →
      Holds ℓ.held (.team (weight Team.administrators)) .exclusive) → Roster σ σ')
    (fun σ _ => .refl σ) ?_ ?_ serial
  · intro σ σ' σ'' first second serial
    have kept := first serial
    refine kept.trans (second ?_)
    rwa [Store.team?, kept.1]
  · intro c k ef _ room _ allowed _ serial
    rcases roster_of_allowed allowed with kept | ⟨u, rfl⟩ | ⟨teams, members, pending, rfl⟩
    · exact kept
    · cases allowed with
      | bootstrap _ _ _ _ _ _ _ team _ _ locked =>
        obtain ⟨t, live⟩ := Option.isSome_iff_exists.mp team
        have there := (Store.liveTeam?_eq_some.mp live).1
        exact absurd locked (room.not_held (serial (by simp [there])))
    · cases allowed with
      | sync _ _ _ locked => exact absurd locked (room.not_held holds)

/-- Under the lock on the `administrators` row the roster changes by nobody
else's hand. -/
theorem roster_administrators (calm : Calm ℓ σ σ')
    (holds : Holds ℓ.held (.team (weight Team.administrators)) .exclusive)
    (there : (σ.team? Team.administrators).isSome) : Roster σ σ' := by
  refine calm.effects (P := fun σ σ' => (σ.team? Team.administrators).isSome → Roster σ σ')
    (fun σ _ => .refl σ) ?_ ?_ there
  · intro σ σ' σ'' first second there
    have kept := first there
    refine kept.trans (second ?_)
    rwa [Store.team?, kept.1]
  · intro c k ef _ room _ allowed _ there
    rcases roster_of_allowed allowed with kept | ⟨u, rfl⟩ | ⟨teams, members, pending, rfl⟩
    · exact kept
    · cases allowed with
      | bootstrap _ _ _ _ _ _ _ _ _ _ locked => exact absurd locked (room.not_held holds)
    · cases allowed with
      | sync _ _ _ _ serial => exact absurd (serial there) (room.not_held holds)

/-- Under shared locks on the range of user ids and on every user row, nothing
in the table of users changes. -/
theorem users_table (calm : Calm ℓ σ σ')
    (range : Holds ℓ.held .users .shared)
    (rows : ∀ u ∈ σ.users, Holds ℓ.held (.user u.key) .shared) : σ'.users = σ.users := by
  refine calm.effects (P := fun σ σ' => (∀ u ∈ σ.users, Holds ℓ.held (.user u.key) .shared) →
    σ'.users = σ.users) (fun _ _ => rfl) ?_ ?_ rows
  · intro σ σ' σ'' first second rows
    have kept := first rows
    exact (second (by rwa [kept])).trans kept
  · intro c k ef _ room locked allowed same rows
    -- A row another session changes it holds exclusively, and all of them are shared.
    have frozen (u : User) (member : u ∈ k.store.users) :
        (ef.apply k.store).users.find? u.key = some u := by
      rw [← same, ← Table.find?_of_mem member]
      exact locked.frame (f := fun σ => σ.users.find? u.key) (fun _ => users_outside)
        (room.not_exclusive (rows u member))
    have unchanged (u u' : User) (member : u ∈ k.store.users) (key : u'.key = u.key)
        (put : (ef.apply k.store).users = k.store.users.put u') :
        (ef.apply k.store).users = k.store.users := by
      have found := frozen u member
      rw [put, ← key, Table.find?_put_self] at found
      cases found
      rw [put, Table.put_of_mem member]
    cases allowed with
    | createUser _ _ _ _ intent => cases room.apart range intent
    | bootstrap _ _ _ _ _ intent => cases room.apart range intent
    | redeem _ _ _ _ _ _ _ owner =>
      exact unchanged _ _ (Store.user?_mem owner).1 (bumped_key _) rfl
    | revokeAll _ user => exact unchanged _ _ (Store.user?_mem user).1 (bumped_key _) rfl
    | setPassword _ user => exact unchanged _ _ (Store.user?_mem user).1 (bumped_key _) rfl
    | @setAdmin r u _ user =>
      exact unchanged u { u with isAdmin := r.isAdmin } (Store.user?_mem user).1 rfl rfl
    | @setting _ level claim => cases level <;> cases claim <;> rfl
    | _ => rfl

/-- The live members of a team are the same people while the roster stays. -/
theorem live_members (calm : Calm ℓ σ σ') (inv : Integrity σ)
    (kept : Roster σ σ') (team : String) : Team.liveMembers σ' team = Team.liveMembers σ team :=
  kept.live_members calm.evolves inv team

end Calm

end IamDb.Interference
