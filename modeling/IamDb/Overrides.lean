import IamDb.Connections

/-! The overrides of archived teams. A team setting is written only for a live
team, but `SyncTeams` archives a team without a look at what is stated for it.
So every override names a live team exactly as long as no declaration omits a
team that has one. -/
namespace IamDb.Overrides
open Txn Schema Messages Service Effects Evolution Handlers Runs IamDb.Membership

section
variable [Engine]

/-- Every override names a live team. -/
def Placed (σ : Store) : Prop := ∀ o ∈ σ.overrides, (σ.liveTeam? o.teamId).isSome

/-- A declaration that is committed lists every team with an override. -/
def Sheltered (S : Handlers.System) (_ : Action Call) (S' : Handlers.System) : Prop :=
  ∀ i c k declared, Lands S i c k S' → declares c = some declared →
    ∀ o ∈ S.store.overrides, ∃ d ∈ declared, weight d.id = weight o.teamId

theorem placed_of_teams {σ : Store} (placed : Placed σ) (overrides : σ'.overrides = σ.overrides)
    (teams : σ'.teams = σ.teams) : Placed σ' := by
  intro o member
  rw [overrides] at member
  have live := placed o member
  rwa [Store.liveTeam?, Store.team?, teams]

theorem placed_of_allowed {c : Call} {k : Committed} (allowed : Allowed c k ef)
    (placed : Placed k.store)
    (sheltered : ∀ declared, declares c = some declared → ∀ o ∈ k.store.overrides,
      ∃ d ∈ declared, weight d.id = weight o.teamId) : Placed (ef.apply k.store) := by
  cases allowed with
  | @setting r level claim request settles =>
    have recorded {σ : Store} (placed : Placed σ) : Placed (record claim σ) := by
      cases claim with
      | none => exact placed
      | some w => exact placed_of_teams placed rfl rfl
    refine recorded ?_
    cases settles with
    | replayed => exact placed
    | absent => exact placed
    | passed => exact placed
    | org => exact placed_of_teams placed rfl rfl
    | @override row valid set live key =>
      intro o member
      rcases Table.mem_put.mp member with rfl | ⟨old, _⟩
      · have team : weight o.teamId = weight (r.teamId.getD "") := congrArg Prod.snd key
        rwa [Store.liveTeam?, Store.team?, team]
      · exact placed o old
    | clear => exact fun o member => placed o (Table.mem_erase.mp member).1
  | @sync r declared teams members pending request valid synced =>
    intro o member
    obtain ⟨d, listed, same⟩ := sheltered declared (declares_sync request valid) o member
    obtain ⟨t, stored, id⟩ := synced.present d listed
    have live := (synced.live t stored).mpr ⟨d, listed, id.symm⟩
    have found : teams.find? (weight o.teamId) = some t := by
      rw [← same, ← id]
      exact Table.find?_of_mem stored
    have here : ((Effect.sync teams members pending).apply k.store).liveTeam? o.teamId = some t :=
      Store.liveTeam?_eq_some.mpr ⟨found, live⟩
    simp [here]
  | _ => exact placed_of_teams placed rfl rfl

/-- While every declaration shelters them, overrides name live teams. -/
theorem placed_reached {S : Handlers.System}
    (reached : System.Reaches service Sheltered (fresh now) S) : Placed S.store := by
  induction reached with
  | refl => exact nofun
  | @step T a T' before step sheltered ih =>
    have reachable : Reachable T := (reachable_fresh now).later (before.mono fun _ _ _ _ => trivial)
    rcases reachable.lands step with ⟨same, _⟩ | ⟨i, c, k, lands⟩
    · rwa [same]
    · obtain ⟨ef, allowed, store, result⟩ := lands_effect lands
      rw [result, ← store]
      refine placed_of_allowed allowed (store ▸ ih) fun declared declares => ?_
      rw [store]
      exact sheltered i c k declared lands declares

/-- A step states an override only for a team that is live. -/
theorem stated_live {S S' : Handlers.System} (reachable : Reachable S)
    (step : S.step service a = some S') (member : o ∈ S'.store.overrides) :
    (∃ before ∈ S.store.overrides, before.teamId = o.teamId) ∨
      (S.store.liveTeam? o.teamId).isSome := by
  rcases reachable.lands step with ⟨same, _⟩ | ⟨i, c, k, lands⟩
  · exact Or.inl ⟨o, same ▸ member, rfl⟩
  · obtain ⟨ef, allowed, store, result⟩ := lands_effect lands
    rw [result] at member
    rw [← store] at member ⊢
    cases allowed with
    | @setting r level claim request settles =>
      have member : o ∈ (level.apply k.store).overrides := by cases claim <;> exact member
      cases settles with
      | @override row valid set live key =>
        rcases Table.mem_put.mp member with rfl | ⟨old, _⟩
        · have team : weight o.teamId = weight (r.teamId.getD "") := congrArg Prod.snd key
          refine Or.inr ?_
          rwa [Store.liveTeam?, Store.team?, team]
        · exact Or.inl ⟨o, old, rfl⟩
      | clear => exact Or.inl ⟨o, (Table.mem_erase.mp member).1, rfl⟩
      | _ => exact Or.inl ⟨o, member, rfl⟩
    | _ => exact Or.inl ⟨o, member, rfl⟩

/-- In every run whose declarations shelter them, every override names a live
team; a resolve answers only overrides that do at one moment after any at which
it had not arrived; and a team declared again has no override from before it was
archived. -/
theorem overrides_of_live_teams {S : Handlers.System}
    (reached : System.Reaches service Sheltered (fresh now) S) :
    (∀ o ∈ S.store.overrides, ∃ t ∈ S.store.teams, t.key = weight o.teamId ∧ t.deletedAt = none) ∧
    (∀ T (i : Nat) c ℓ r a setting, System.Reaches service Sheltered (fresh now) T →
      System.Reaches service Sheltered T S → T.sessions[i]? = none →
      S.sessions[i]? = some ⟨c, ℓ, .answered (.ok (.resolveCredential a))⟩ →
      c.request = .resolveCredential r → a.ownerReadsOwnRecord = some setting →
      ∃ S₁, System.Reaches service Sheltered T S₁ ∧ System.Reaches service Sheltered S₁ S ∧
        ∀ o ∈ setting.teamOverride, (S₁.store.liveTeam? o.1).isSome) ∧
    ∀ a S' t, S.step service a = some S' → t ∈ S.store.teams → t.deletedAt ≠ none →
      ∀ o ∈ S'.store.overrides, weight o.teamId ≠ t.key := by
  have reachable : Reachable S := (reachable_fresh now).later (reached.mono fun _ _ _ _ => trivial)
  refine ⟨?_, ?_, ?_⟩
  · intro o member
    obtain ⟨t, live⟩ := Option.isSome_iff_exists.mp (placed_reached reached o member)
    obtain ⟨found, alive⟩ := Store.liveTeam?_eq_some.mp live
    exact ⟨t, (Store.team?_mem found).1, (Store.team?_mem found).2, alive⟩
  · intro T i c ℓ r a setting first rest absent there request answered
    have arrived : Reachable T := (reachable_fresh now).later (first.mono fun _ _ _ _ => trivial)
    obtain ⟨S₁, before, after, told⟩ := resolved arrived rest there request
      fun s here => by rw [absent] at here; cases here
    refine ⟨S₁, before, after, fun o listed => ?_⟩
    rcases told with ⟨rfl, _⟩ | ⟨row, u, resolves⟩
    · cases answered
    · cases answered.symm.trans resolves.setting
      obtain ⟨o', member, rfl⟩ := List.mem_map.mp listed
      exact placed_reached (first.trans before) o' (List.mem_filter.mp member).1
  · intro a S' t step stored archived o member same
    have gone (teamId : String) (named : weight teamId = t.key) :
        ¬(S.store.liveTeam? teamId).isSome := by
      intro live
      obtain ⟨t', live⟩ := Option.isSome_iff_exists.mp live
      obtain ⟨found, alive⟩ := Store.liveTeam?_eq_some.mp live
      obtain ⟨stored', key⟩ := Store.team?_mem found
      obtain rfl := Table.eq_of_key stored' stored (key.trans named)
      exact archived alive
    rcases stated_live reachable step member with ⟨before, old, team⟩ | live
    · exact gone o.teamId same (team ▸ placed_reached reached before old)
    · exact gone o.teamId same live

end

/-! ### A run -/

def searchTeam : String := Team.teamPrefix ++ "search"

def declaring (names : List String) : Request := .syncTeams ⟨names.map fun s => ⟨s, []⟩⟩

def overriding (teamId : String) (value : Int) (key : String) : Request :=
  .setInheritedSetting
    ⟨some key, 2, some teamId, ownerReadsOwnRecord, some value, none, false⟩

/-- A team is declared and its override stated. -/
def stating : List (Action Call) :=
  calling firstUuid (declaring ["search"]) 0 9 ++
  calling firstUuid (overriding searchTeam 1 "") 1 5

/-- The team is archived, and declared again. -/
def archiving : List (Action Call) := stating ++ calling firstUuid (declaring []) 2 9

def redeclaring : List (Action Call) := archiving ++ calling firstUuid (declaring ["search"]) 3 9

open Bytewise in
/-- The override outlives its team, and is in force again once the team is. -/
theorem override_stranded : Later (fresh 0) (after archiving) ∧
    Later (after archiving) (after redeclaring) ∧
    (after archiving).store.overrides.rows = [⟨ownerReadsOwnRecord, searchTeam, 1⟩] ∧
    (after archiving).store.liveTeam? searchTeam = none ∧
    (after redeclaring).store.overrides.rows = [⟨ownerReadsOwnRecord, searchTeam, 1⟩] ∧
    ((after redeclaring).store.liveTeam? searchTeam).isSome :=
  ⟨later_fresh (by decide +kernel), later_after (by decide +kernel), by decide +kernel,
    by decide +kernel, by decide +kernel, by decide +kernel⟩

open Bytewise in
theorem overrides_of_live_teams_stated : (after stating).store.overrides.rows ≠ [] ∧
    ∀ o ∈ (after stating).store.overrides,
      ∃ t ∈ (after stating).store.teams, t.key = weight o.teamId ∧ t.deletedAt = none :=
  ⟨by decide +kernel, (overrides_of_live_teams (reaches_after
    (fun S _ _ => S.store.overrides.rows.isEmpty)
    (fun S _ _ empty _ _ _ _ _ _ o member => by
      rw [Table.mem_def, List.isEmpty_iff.mp empty] at member
      cases member)
    (show ((fresh 0).runWhile service _ stating).isSome by decide +kernel))).1⟩

end IamDb.Overrides
