import IamDb.InForce
import IamDb.Losers

/-! Settings under a key. The first commit under a key writes its level and
records it; a delivery that looked for the key before that writes the level too,
and finds the ledger row only then. So a write under another key is undone by it
if it lands in between. As long as no delivery writes over a level that is not
what its key had recorded by then, none but the first changes anything. -/
namespace IamDb.KeyedSettings
open Txn Schema Messages Service Setting Effects Evolution Interference Handlers Runs SettingProofs
open InForce (rereading Unrevived Overriding)

section
variable [Engine]

/-- A settings call under a key, or one the ledger takes for it. -/
structure Carries (key : String) (c : Call) (r : SetInheritedSettingRequest) : Prop where
  request : c.request = .setInheritedSetting r
  keyed : r.idempotency.getD "" ≠ ""
  same : weight (r.idempotency.getD "") = weight key

/-- The level that a ledger row is about is as it says. -/
def Stands (w : SettingWrite) (σ : Store) : Prop :=
  if w.scope = 1 then
    (σ.orgSettings.find? (weight w.name)).map (fun s => (s.value, s.locked)) =
      some (w.value.getD 0, w.locked.getD false)
  else
    (σ.overrides.find? (weight w.name, weight (w.teamId.getD ""))).map (·.value) =
      if w.clearRequested then none else some (w.value.getD 0)

/-- A delivery has written its level over one that is not what the key had
recorded by then for the same request. -/
def Overwriting (key : String) (S : Handlers.System) : Prop :=
  ∃ (w : SettingWrite) (i : Nat) (c : Call) (ℓ : Local Store Write Res) (p : Rpc Response)
    (r : SetInheritedSettingRequest), S.store.settingWrites.find? (weight key) = some w ∧
      S.sessions[i]? = some ⟨c, ℓ, .running p⟩ ∧ Carries key c r ∧ SameRequest r w ∧
      ℓ.pending ≠ [] ∧ ¬Stands w S.store

/-- The runs that come to no such state, and in which no team is brought to life
behind a write that did not match it. -/
abbrev Orderly (key : String) (S : Handlers.System) (a : Action Call) (S' : Handlers.System) :
    Prop :=
  ¬Overwriting key S' ∧ Unrevived S a S'

/-- The commits of the other calls, none of which brings the team of an override
to life behind a write that did not match it. -/
def Sparing (r : SetInheritedSettingRequest) : Rely Store Write Res := fun ℓ n σ σ' =>
  Others ℓ n σ σ' ∧ (r.scope = 2 → r.clear = false → n = rereading r →
    σ.liveTeam? (r.teamId.getD "") = none → σ'.liveTeam? (r.teamId.getD "") = none)

/-- Writes that put rows as they are stored, under the locks on them. -/
inductive Harmless (under : List (Grant Res)) (σ : Store) : List Write → Prop where
  | nothing : Harmless under σ []
  | org (stored : row ∈ σ.orgSettings) (held : Holds under (.orgSetting row.key) .exclusive) :
    Harmless under σ [.orgSetting row]
  | override (stored : row ∈ σ.overrides) (held : Holds under (.override row.key) .exclusive) :
    Harmless under σ [.override row]

theorem Harmless.still (harmless : Harmless under σ ws) : applyAll ws σ = σ := by
  cases harmless with
  | nothing => rfl
  | @org row stored =>
    show { σ with orgSettings := σ.orgSettings.put row } = σ
    rw [Table.put_of_mem stored]
  | @override row stored =>
    show { σ with overrides := σ.overrides.put row } = σ
    rw [Table.put_of_mem stored]

/-- They changed nothing at an earlier moment either. -/
theorem Harmless.earlier {ℓ : Local Store Write Res} (harmless : Harmless ℓ.held σ ws)
    (calm : Calm ℓ τ σ) : applyAll ws τ = τ := by
  cases harmless with
  | nothing => rfl
  | @org row stored held =>
    have still : σ.orgSettings.find? row.key = τ.orgSettings.find? row.key :=
      calm.row (f := fun σ => σ.orgSettings.find? row.key) held fun _ => orgSettings_outside
    have there := (Table.find?_eq_some.mp (still ▸ Table.find?_of_mem stored)).1
    exact (Harmless.org there held).still
  | @override row stored held =>
    have still : σ.overrides.find? row.key = τ.overrides.find? row.key :=
      calm.row (f := fun σ => σ.overrides.find? row.key) held fun _ => overrides_outside
    have there := (Table.find?_eq_some.mp (still ▸ Table.find?_of_mem stored)).1
    exact (Harmless.override there held).still

/-- A commit of a delivery: the first writes the level and records the key, and
any other finds it recorded for its request, and writes nothing new when the
level is still what was recorded. -/
inductive Settled (key : String) (r : SetInheritedSettingRequest) (k : Committed) : Prop where
  | first (absent : k.store.settingWrites.find? (weight key) = none)
      (settles : Settles r k level) (written : level = .keep → r.clear = true)
      (result : k.result = (Effect.setting level (some (settingWrite r))).apply k.store)
  | again (found : k.store.settingWrites.find? (weight key) = some w) (same : SameRequest r w)
      (harmless : (k.writes ≠ [] → Stands w k.store) → Harmless k.under k.store k.writes)

/-! ### What stands -/

omit [Engine] in
theorem same_fields (same : SameRequest r w) : w.scope = r.scope ∧ w.teamId = r.teamId ∧
    w.name = r.name ∧ w.value = r.value ∧ w.locked = r.locked ∧ w.clearRequested = r.clear := by
  cases w
  simpa [SameRequest, settingWrite] using same

theorem stands_org {r : SetInheritedSettingRequest} (stands : Stands w σ) (same : SameRequest r w)
    (level : r.scope = 1) : ∃ s, σ.orgSettings.find? (weight r.name) = some s ∧
      s.value = r.value.getD 0 ∧ s.locked = r.locked.getD false := by
  obtain ⟨scope, _, name, value, locked, _⟩ := same_fields same
  rw [Stands, if_pos (scope.trans level), name, value, locked] at stands
  obtain ⟨s, found, agrees⟩ := Option.map_eq_some_iff.mp stands
  exact ⟨s, found, (Prod.mk.inj agrees).1, (Prod.mk.inj agrees).2⟩

theorem stands_team {r : SetInheritedSettingRequest} (stands : Stands w σ)
    (same : SameRequest r w) (level : r.scope = 2) :
    (σ.overrides.find? (overrideKey r)).map (·.value) =
      if r.clear then none else some (r.value.getD 0) := by
  obtain ⟨scope, team, name, value, _, clear⟩ := same_fields same
  have other : w.scope ≠ 1 := by rw [scope, level]; decide
  rwa [Stands, if_neg other, name, team, value, clear] at stands

/-- A level that was written before or after the key was recorded for the same
request, and stands, is written as it is stored. -/
theorem wrote_again {ℓ₁ : Local Store Write Res} {R : Rely Store Write Res}
    (wrote : Wrote R r ℓ₁ σ₁ scope ws level) (valid : checkInheritedSetting r = .ok scope)
    (calm : Calm ℓ₁ σ₁ σ) (kept : ∀ g ∈ ℓ₁.held, g ∈ under) (same : SameRequest r w)
    (stands : ws ≠ [] → Stands w σ) : Harmless under σ ws := by
  obtain ⟨number, _, _⟩ := checkInheritedSetting_ok valid
  cases wrote with
  | @org row key value flag held was =>
    obtain ⟨s, found, value', flag'⟩ := stands_org (stands nofun) same number
    have still : σ.orgSettings.find? (weight r.name) = σ₁.orgSettings.find? (weight r.name) :=
      calm.row (f := fun σ => σ.orgSettings.find? (weight r.name)) held fun _ => orgSettings_outside
    have name : row.name = s.name := by
      rw [was, ← still, found]
      rfl
    obtain rfl : row = s := by
      cases row
      cases s
      simp_all
    rw [← key] at held
    exact .org (Table.find?_eq_some.mp found).1 (held.imp fun _ member => kept _ member)
  | @override _ row set live key value shared held was =>
    have stated := stands_team (stands nofun) same number
    rw [set] at stated
    obtain ⟨o, found, value'⟩ := Option.map_eq_some_iff.mp stated
    have still : σ.overrides.find? (overrideKey r) = σ₁.overrides.find? (overrideKey r) :=
      calm.row (f := fun σ => σ.overrides.find? (overrideKey r)) held fun _ => overrides_outside
    rw [← still, found] at was
    obtain ⟨name, team⟩ := Prod.mk.inj was
    obtain rfl : row = o := by
      cases row
      cases o
      simp_all
    rw [← key] at held
    exact .override (Table.find?_eq_some.mp found).1 (held.imp fun _ member => kept _ member)
  | cleared clear held present =>
    have still : σ.overrides.find? (overrideKey r) = σ₁.overrides.find? (overrideKey r) :=
      calm.row (f := fun σ => σ.overrides.find? (overrideKey r)) held fun _ => overrides_outside
    have gone := stands_team (stands nofun) same number
    rw [if_pos clear, Option.map_eq_none_iff, still] at gone
    rw [gone] at present
    cases present
  | absent => exact .nothing
  | passed => exact .nothing

theorem wp_settled (carries : Carries key c r) :
    wp (Sparing r) (Settled key r) (service c) (fun _ _ _ _ => True) .fresh σ t := by
  have quiet : Quiet (Sparing r) := fun _ _ _ _ change => change.1
  refine ServiceProofs.wp_service (fun _ _ => trivial) fun _ => ?_
  rw [carries.request]
  refine wp_map (wp_storeSetting quiet (fun _ _ _ _ _ => trivial) ?_ ?_)
  · intro ℓ₁ σ₁ σ₂ t a w _ _ _ _ found same ends
    obtain ⟨w', found', rfl⟩ := (ends.calm quiet).evolves.settingWrites _ _ found
    exact ⟨.again (carries.same ▸ found') same fun _ => .nothing, trivial⟩
  · intro scope ℓ₀ σ₀ ℓ₁ σ₁ ws level σ₂ ℓ₃ σ₃ claim σ₄ t a valid _ _ _ _ wrote calm₂ there pass₃
      recorded ends
    have calm₄ := ends.calm quiet
    have after := pass₃.calm.trans (calm₄.within pass₃.within)
    have calm : Calm ℓ₁ σ₁ σ₄ := calm₂.trans after
    refine ⟨?_, trivial⟩
    cases recorded with
    | unkeyed none => exact absurd none carries.keyed
    | new keyed absent held =>
      have absent₄ := (calm₄.settingWrite_row held).trans absent
      refine .first (carries.same ▸ absent₄) (wrote.settles valid calm pass₃.within rfl
        fun none set => after.evolves.team? (there none set)) ?_ (wrote.effect _ σ₄)
      rintro rfl
      cases wrote with
      | absent clear => exact clear
      | passed set gone drift live =>
        have still := drift.preserves (P := fun σ => σ.liveTeam? (r.teamId.getD "") = none) gone
          fun _ _ change => change.2 (checkInheritedSetting_ok valid).1 set rfl
        rw [still] at live
        cases live
    | lost keyed found same =>
      obtain ⟨w', found', rfl⟩ := calm₄.evolves.settingWrites _ _ found
      refine .again (carries.same ▸ found') same fun stands => ?_
      have writes : ws ++ recording none = ws := List.append_nil ws
      rw [writes] at stands ⊢
      exact wrote_again wrote valid calm pass₃.within.held same stands

/-- The commits of the deliveries of a request, while no team is brought to life
behind them. -/
theorem watched_settled (key : String) (r : SetInheritedSettingRequest) :
    System.Watched service Integrity Others Effective (Orderly key) (Carries key · r) (Sparing r)
      (fun _ => Settled key r) (fun _ _ _ _ _ => True) := by
  constructor
  · intro c carries σ t _
    exact wp_settled carries
  · intro S a S' i j c c' ℓ' p' k sound step ⟨_, unrevived⟩ there carries _ _ store room commits _
    have others : Others ℓ' p'.upcoming S.store S'.store :=
      ⟨c, k, commits.store ▸ commits.inv, room, commits.guar, commits.store, store.symm⟩
    refine ⟨others, fun team set reads gone => ?_⟩
    by_contra alive
    exact unrevived ⟨j, c', ℓ', p', r, there, ⟨carries.request, team, set⟩, reads, gone,
      Option.isSome_iff_ne_none.mpr alive⟩

/-! ### The moments of the answer -/

/-- The end of a call: its two reads and its commit. -/
def answering (r : SetInheritedSettingRequest) : Rpc Response := do
  pure (.setInheritedSetting (← answer r.name))

/-- What is left after the first read. -/
def overridesLeft (r : SetInheritedSettingRequest) (v : Int) (locked : Bool) : Rpc Response := do
  let teamOverride ← tx (Credential.selectOverrides r.name)
  commit
  pure (.setInheritedSetting ⟨v, locked, teamOverride⟩)

/-- A program that refuses, or opens a transaction that comes to the answer or
refuses. -/
def Answers (r : SetInheritedSettingRequest) : Rpc Response → Prop
  | .fail _ => True
  | .begin iso q => iso = .readCommitted ∧ q.Leads (· = answering r)
  | _ => False

theorem answers_service (request : c.request = .setInheritedSetting r) :
    Answers r (service c) := by
  have told : (answering r).Leads (· = answering r) := Or.inl rfl
  unfold service
  cases admitted c.caller with
  | error e => trivial
  | ok _ =>
    rw [request]
    show Answers r (do pure (.setInheritedSetting (← storeSetting r)))
    unfold storeSetting
    cases checkInheritedSetting r with
    | error e => trivial
    | ok scope =>
      refine ⟨rfl, ?_⟩
      show Prog.Leads (· = answering r) (((Claim.of r).alreadyRecorded >>= fun replayed =>
        if replayed then answer r.name
        else writeAtScope r scope >>= fun _ => recordClaim (Claim.of r) >>= fun _ =>
          answer r.name) >>= fun a => (pure (.setInheritedSetting a) : Rpc Response))
      rw [bind_assoc]
      refine Prog.Leads.after Endings.inner_alreadyRecorded fun replayed => ?_
      cases replayed with
      | true => exact told
      | false =>
        simp only [Bool.false_eq_true, if_false, bind_assoc]
        exact Prog.Leads.after Endings.inner_writeAtScope fun _ =>
          Prog.Leads.after Endings.inner_recordClaim fun _ => told

/-- A moment of a run at which a session was as it is now. -/
structure Moment (S : Handlers.System) (i : Nat) (c : Call) (ℓ : Local Store Write Res)
    (T : Handlers.System) : Prop where
  later : Later T S
  calm : Calm ℓ T.store S.store
  there : ∃ p, T.sessions[i]? = some ⟨c, ℓ, .running p⟩

/-- Where a call stands: before its answer, after the first read of it or after
both. -/
inductive Stage (r : SetInheritedSettingRequest) (S : Handlers.System) (i : Nat) (c : Call)
    (ℓ : Local Store Write Res) : Rpc Response → Prop where
  | arrived : Stage r S i c ℓ (service c)
  | before (iso : ℓ.iso = .readCommitted) (leads : p.Leads (· = answering r)) : Stage r S i c ℓ p
  | org (iso : ℓ.iso = .readCommitted) (moment : Moment S i c ℓ T)
      (value : (v, locked) =
        (((applyAll ℓ.pending T.store).orgSettings.find? (weight r.name)).map
          fun s => (s.value, s.locked)).getD (0, false)) : Stage r S i c ℓ (overridesLeft r v locked)
  | done (first : Moment S i c ℓ T) (second : Moment S i c ℓ T') (order : Later T T')
      (read : Read r.name ℓ.pending T.store T'.store a) :
      Stage r S i c ℓ (.commit (.ret (.setInheritedSetting a)))

theorem Moment.next {S S' T : Handlers.System} (moment : Moment S i c ℓ T)
    (step : S.step service act = some S') (calm : Calm ℓ S.store S'.store) : Moment S' i c ℓ T :=
  ⟨moment.later.step step trivial, moment.calm.trans calm, moment.there⟩

/-- Every settings call under way stands at one of these. -/
theorem staged (reachable : Reachable S) (request : c.request = .setInheritedSetting r) {i : Nat}
    (there : S.sessions[i]? = some ⟨c, ℓ, .running p⟩) : Stage r S i c ℓ p := by
  obtain ⟨σ, now, inv, before⟩ := reachable
  have start : Reachable (.start σ now) := ⟨σ, now, inv, .refl⟩
  refine before.tracked (P := fun S i c ℓ p => ∀ r, c.request = .setInheritedSetting r →
    Stage r S i c ℓ p) rfl (fun _ _ _ _ _ _ => .arrived) ?_ ?_ there r request
  · intro T a T' i c ℓ p m later step _ advances whole running stage r request
    have next (same : T'.store = T.store) : Moment T' i c ℓ T :=
      ⟨.step .refl step trivial, same ▸ .refl _ _, p, advances.here⟩
    have moves := advances.moves
    cases stage r request with
    | arrived =>
      have answers := answers_service request
      cases opens : service c with
      | fail e => rw [opens] at moves; cases moves
      | begin iso q =>
        rw [opens] at moves answers
        cases moves
        exact .before answers.1 answers.2
      | _ => rw [opens] at answers; cases answers
    | before iso leads =>
      cases p with
      | stmt s k =>
        rcases leads with same | rest
        · rw [same] at moves
          cases moves
          have kept : ℓ.after (Credential.selectOrgSetting r.name) T.store T.clock = ℓ :=
            Local.after_read iso (fun _ _ => rfl) fun _ _ _ => rfl
          rw [kept]
          have still : T'.store = T.store := by rw [whole]; rfl
          show Stage r T' i c ℓ (overridesLeft r _ _)
          refine .org iso (next still) ?_
          rw [Local.view_committed iso]
          rfl
        · cases moves
          exact .before iso (rest _)
      | fail e => cases moves
      | _ => cases leads
    | org iso moment value =>
      cases moves
      have kept : ℓ.after (Credential.selectOverrides r.name) T.store T.clock = ℓ :=
        Local.after_read iso (fun _ _ => rfl) fun _ _ _ => rfl
      rw [kept]
      have still : T'.store = T.store := by rw [whole]; rfl
      refine .done (moment.next step (still ▸ .refl _ _)) (next still) moment.later ⟨value, ?_⟩
      rw [Local.view_committed iso]
      rfl
    | done first second order read =>
      cases moves
      exact absurd rfl running
  · intro T a T' i c ℓ p later step _ here still stage r request
    have calm := (start.later later).calm step here still
    cases stage r request with
    | arrived => exact .arrived
    | before iso leads => exact .before iso leads
    | org iso moment value => exact .org iso (moment.next step calm) value
    | done first second order read =>
      exact .done (first.next step calm) (second.next step calm) order read

/-! ### Once -/

/-- A settings call that commits has read its answer. -/
theorem lands_read (reachable : Reachable S) (lands : Lands S i c k S')
    (request : c.request = .setInheritedSetting r) :
    ∃ ℓ p a T T', S.sessions[i]? = some ⟨c, ℓ, .running p⟩ ∧
      k = ⟨ℓ.held, ℓ.seen, ℓ.pending, S.store, some (.ok (.setInheritedSetting a))⟩ ∧
      Moment S i c ℓ T ∧ Moment S i c ℓ T' ∧ Later T T' ∧
      Read r.name ℓ.pending T.store T'.store a := by
  obtain ⟨ℓ, p, there⟩ := lands.running
  obtain ⟨m, moves, commits, made⟩ := lands.made ℓ p there
  cases staged reachable request there with
  | arrived =>
    have answers := answers_service request
    cases opens : service c with
    | fail e => rw [opens] at moves; cases moves
    | begin iso q => rw [opens] at moves; cases moves; cases commits
    | _ => rw [opens] at answers; cases answers
  | before iso leads =>
    cases p with
    | stmt s k => cases moves; cases commits
    | fail e => cases moves
    | _ => cases leads
  | org => cases moves; cases commits
  | @done T T' a first second order read =>
    cases moves
    exact ⟨ℓ, _, a, T, T', there, made, first, second, order, read⟩

theorem not_overwriting (reached : ReachableWhile (Orderly key) S) : ¬Overwriting key S := by
  obtain ⟨σ, now, _, before⟩ := reached
  cases before with
  | refl =>
    rintro ⟨_, i, _, _, _, _, _, there, _⟩
    cases i <;> cases there
  | step _ _ orderly => exact orderly.1

/-- What a commit of a delivery does. -/
inductive Delivered (key : String) (r : SetInheritedSettingRequest) (S : Handlers.System) (i : Nat)
    (c : Call) (k : Committed) (S' : Handlers.System) : Prop where
  | first (absent : S.store.settingWrites.find? (weight key) = none) (settles : Settles r k level)
      (written : level = .keep → r.clear = true)
      (result : S'.store = (Effect.setting level (some (settingWrite r))).apply S.store)
  | again (found : S.store.settingWrites.find? (weight key) = some w) (same : SameRequest r w)
      (still : S'.store = S.store) (answer : k.answer = some (.ok (.setInheritedSetting a)))
      (first : Moment S i c ℓ T) (second : Moment S i c ℓ T') (order : Later T T')
      (read : Read r.name [] T.store T'.store a)

theorem delivered (reached : ReachableWhile (Orderly key) S) (lands : Lands S i c k S')
    (carries : Carries key c r) : Delivered key r S i c k S' := by
  obtain ⟨ℓ, p, a, T, T', there, made, first, second, order, read⟩ :=
    lands_read reached.reachable lands carries.request
  have result := lands.result
  have settled := reached.meets (watched_settled key r) lands carries
  subst made
  cases settled with
  | first absent settles written effect => exact .first absent settles written (result.trans effect)
  | @again w found same harmless =>
    have harmless := harmless fun writes => by
      by_contra fallen
      exact not_overwriting reached ⟨w, i, c, ℓ, p, r, found, there, carries, same, writes, fallen⟩
    refine .again found same (result.trans harmless.still) rfl first second order ⟨?_, ?_⟩
    · rw [applyAll_nil, read.org, harmless.earlier first.calm]
    · rw [applyAll_nil, read.teamOverride, harmless.earlier second.calm]

end

/-! ### Runs -/

/-- The level is set, and a repeat is to be committed next. -/
def repeating : List (Action Call) :=
  calling firstUuid (.setInheritedSetting Losers.settingOrg) 0 7 ++
  calling secondUuid (.setInheritedSetting Losers.settingOrg) 1 4

end IamDb.KeyedSettings
