import IamDb.Overrides

/-! Overrides that are in force. The write of a team's override matches its live
team or nothing, and nothing is explained by a second read. A team that is
declared between the two lets the call go on without an override, and record its
key. As long as none is, every answer that is no replay has its row. -/
namespace IamDb.InForce
open Txn Schema Messages Service Effects Evolution Interference Handlers Runs SettingProofs

section
variable [Engine]

/-- A call that states a team's override. -/
structure Overriding (c : Call) (r : SetInheritedSettingRequest) : Prop where
  request : c.request = .setInheritedSetting r
  team : r.scope = 2
  set : r.clear = false

/-- The read that explains an override that matched no team. -/
def rereading (r : SetInheritedSettingRequest) : Next Store Write Res :=
  .stmt (selectLiveTeam (r.teamId.getD ""))

/-- A team comes to be live while a call that states its override is about to
read why it matched none. -/
def Revived (S S' : Handlers.System) : Prop :=
  ∃ (i : Nat) (c : Call) (ℓ : Local Store Write Res) (p : Rpc Response)
    (r : SetInheritedSettingRequest), S.sessions[i]? = some ⟨c, ℓ, .running p⟩ ∧ Overriding c r ∧
      p.upcoming = rereading r ∧ S.store.liveTeam? (r.teamId.getD "") = none ∧
      (S'.store.liveTeam? (r.teamId.getD "")).isSome

/-- The runs in which none does. -/
abbrev Unrevived (S : Handlers.System) (_ : Action Call) (S' : Handlers.System) : Prop :=
  ¬Revived S S'

/-- A check that no call that states an override is under way. -/
def unrevivedNow (S : Handlers.System) (_ : Action Call) (S' : Handlers.System) : Bool :=
  S.store.teams = S'.store.teams ||
    S.sessions.all fun s => match s.phase, s.call.request with
      | .running _, .setInheritedSetting _ => false
      | _, _ => true

theorem unrevived_of_now {S S' : Handlers.System} (now : unrevivedNow S act S' = true) :
    Unrevived S act S' := by
  rintro ⟨i, c, ℓ, p, r, there, overriding, _, gone, alive⟩
  rcases Bool.or_eq_true_iff.mp now with same | idle
  · have same : S.store.teams = S'.store.teams := of_decide_eq_true same
    rw [Store.liveTeam?, Store.team?, ← same, ← Store.team?, ← Store.liveTeam?, gone] at alive
    cases alive
  · have none := List.all_eq_true.mp idle _ (List.mem_of_getElem? there)
    simp [overriding.request] at none

/-- The commits of the other calls, none of which brings a team to life behind a
write that did not match it. -/
def Sparing (r : SetInheritedSettingRequest) : Rely Store Write Res := fun ℓ n σ σ' =>
  Others ℓ n σ σ' ∧ (n = rereading r → σ.liveTeam? (r.teamId.getD "") = none →
    σ'.liveTeam? (r.teamId.getD "") = none)

/-- The commit of an override: it writes the row, the store has it, and the
answer names it. -/
structure Puts (r : SetInheritedSettingRequest) (k : Committed) (row : TeamSettingOverride)
    (a : InheritedSetting) : Prop where
  written : .override row ∈ k.writes
  stored : k.result.overrides.find? (overrideKey r) = some row
  value : r.value = some row.value
  answered : (row.teamId, row.value) ∈ a.teamOverride

/-- The commit of a replay, which asked for no lock and finds the same request
recorded. -/
structure Replays (r : SetInheritedSettingRequest) (k : Committed) : Prop where
  lockless : k.seen = []
  silent : k.writes = []
  recorded : ∃ w, k.store.settingWrites.find? (weight (r.idempotency.getD "")) = some w ∧
    SameRequest r w

/-- A commit of a call that states an override. -/
def Overrules (r : SetInheritedSettingRequest) (k : Committed) : Prop :=
  ∃ a, k.answer = some (.ok (.setInheritedSetting a)) ∧ (Replays r k ∨ ∃ row, Puts r k row a)

/-- What was read under the pending override has it. -/
theorem told_pending {row : TeamSettingOverride} {claim : Option SettingWrite}
    (read : Read r.name (.override row :: recording claim) σ σ' a)
    (key : row.key = overrideKey r) : (row.teamId, row.value) ∈ a.teamOverride := by
  rw [read.teamOverride]
  refine List.mem_map.mpr ⟨row, List.mem_filter.mpr ⟨?_, ?_⟩, rfl⟩
  · have put : row ∈ (applyAll (.override row :: recording claim) σ').overrides := by
      cases claim <;> exact Table.mem_put_self
    exact put
  · exact decide_eq_true (congrArg Prod.fst key)

theorem wp_overrides (request : c.request = .setInheritedSetting r) (team : r.scope = 2)
    (set : r.clear = false) :
    wp (Sparing r) (Overrules r) (service c) (fun _ _ _ _ => True) .fresh σ t := by
  have quiet : Quiet (Sparing r) := fun _ _ _ _ change => change.1
  refine ServiceProofs.wp_service (fun _ _ => trivial) fun _ => ?_
  rw [request]
  refine wp_map (wp_storeSetting quiet (fun _ _ _ _ _ => trivial) ?_ ?_)
  · intro ℓ₁ σ₁ σ₂ t a w keyed iso pending seen found same ends
    refine ⟨⟨a, rfl, Or.inl ⟨seen, rfl, ?_⟩⟩, trivial⟩
    obtain ⟨w', found', rfl⟩ := (ends.calm quiet).evolves.settingWrites _ _ found
    exact ⟨_, found', same⟩
  · intro scope ℓ₀ σ₀ ℓ₁ σ₁ ws level σ₂ ℓ₃ σ₃ claim σ₄ t a valid pending _ _ pass₁ wrote _ _
      pass₃ _ ends
    obtain ⟨level', _, stated⟩ := checkInheritedSetting_ok valid
    refine ⟨⟨a, rfl, Or.inr ?_⟩, trivial⟩
    cases wrote with
    | org => cases team.symm.trans level'
    | @override _ row _ _ key value =>
      refine ⟨row, List.mem_append_left _ List.mem_cons_self, ?_, ?_, ?_⟩
      · show (applyAll (.override row :: recording claim) σ₄).overrides.find? (overrideKey r) = _
        rw [← key]
        cases claim <;> exact Table.find?_put_self
      · cases stated' : r.value with
        | none => cases set.symm.trans (stated.stated stated')
        | some v => rw [value, stated', Option.getD_some]
      · obtain ⟨_, _, _, _, _, read⟩ := ends.ends
        rw [pass₃.pending, pass₁.pending, pending] at read
        exact told_pending read key
    | cleared clear => cases set.symm.trans clear
    | absent clear => cases set.symm.trans clear
    | passed _ gone drift live =>
      have still := drift.preserves (P := fun σ => σ.liveTeam? (r.teamId.getD "") = none) gone
        fun _ _ change => change.2 rfl
      rw [still] at live
      cases live

/-- The commits of overrides, while no team is brought to life behind them. -/
theorem watched_overrides (r : SetInheritedSettingRequest) :
    System.Watched service Integrity Others Effective Unrevived (Overriding · r) (Sparing r)
      (fun _ => Overrules r) (fun _ _ _ _ _ => True) := by
  constructor
  · intro c overriding σ t _
    exact wp_overrides overriding.request overriding.team overriding.set
  · intro S a S' i j c c' ℓ' p' k sound step unrevived there overriding _ _ store room commits _
    have others : Others ℓ' p'.upcoming S.store S'.store :=
      ⟨c, k, commits.store ▸ commits.inv, room, commits.guar, commits.store, store.symm⟩
    refine ⟨others, fun reads gone => ?_⟩
    by_contra alive
    exact unrevived ⟨j, c', ℓ', p', r, there, overriding, reads, gone,
      Option.isSome_iff_ne_none.mpr alive⟩

variable {S S' : Handlers.System}

/-- The ledger row of a key that a step records is the request of its commit. -/
theorem recorded_step (reachable : Reachable S) (step : S.step service act = some S')
    (absent : S.store.settingWrites.find? key = none)
    (found : S'.store.settingWrites.find? key = some w) :
    ∃ i c k r, Lands S i c k S' ∧ c.request = .setInheritedSetting r ∧ w = settingWrite r ∧
      k.writes ≠ [] := by
  rcases reachable.lands step with ⟨same, _⟩ | ⟨i, c, k, lands⟩
  · rw [same, absent] at found
    cases found
  obtain ⟨ef, allowed, store, result⟩ := lands_effect lands
  have writes : k.writes ≠ [] := by
    intro none
    have same := lands.result
    rw [Commit.result, none, applyAll_nil, store] at same
    rw [same, absent] at found
    cases found
  rw [result] at found
  cases allowed with
  | @setting r level claim request settles fresh =>
    refine ⟨i, c, k, r, lands, request, ?_, writes⟩
    have level_still : (level.apply S.store).settingWrites = S.store.settingWrites := by
      cases level <;> rfl
    cases claim with
    | none =>
      change (level.apply S.store).settingWrites.find? key = some w at found
      rw [level_still, absent] at found
      cases found
    | some w' =>
      change ((level.apply S.store).settingWrites.put w').find? key = some w at found
      rw [level_still] at found
      rcases Table.mem_put.mp (Table.find?_eq_some.mp found).1 with rfl | ⟨old, _⟩
      · exact (fresh _ rfl).1
      · have key := (Table.find?_eq_some.mp found).2
        rw [← key, Table.find?_of_mem old] at absent
        cases absent
  | _ => cases absent.symm.trans found

/-- In the runs in which no team is brought to life behind a write that did not
match it, a call that states an override is answered OK by its commit, which is
the replay of what its key recorded or writes the row the answer names; and a
key is recorded for an override only by a commit that writes it. -/
theorem override_in_force (reached : ReachableWhile Unrevived S)
    (step : S.step service act = some S') :
    (∀ (i : Nat) c ℓ r a, Overriding c r →
      S'.sessions[i]? = some ⟨c, ℓ, .answered (.ok (.setInheritedSetting a))⟩ →
      S.sessions[i]? ≠ some ⟨c, ℓ, .answered (.ok (.setInheritedSetting a))⟩ →
      ∃ k, Lands S i c k S' ∧ (Replays r k ∨ ∃ row, Puts r k row a)) ∧
    ∀ key w, S.store.settingWrites.find? key = none → S'.store.settingWrites.find? key = some w →
      w.scope = 2 → w.clearRequested = false → ∃ i c k row, Lands S i c k S' ∧
        .override row ∈ k.writes ∧ w.value = some row.value ∧
        S'.store.overrides.find? (weight w.name, weight (w.teamId.getD "")) = some row := by
  refine ⟨fun i c ℓ r a overriding there new => ?_, fun key w absent found team set => ?_⟩
  · have earned : (service c).Earned := Endings.earned_lift fun _ => by
      rw [overriding.request]
      exact Prog.Earned.map _ Endings.atomic_storeSetting.earned
    obtain ⟨k, lands, told⟩ := answered_commits reached.reachable step earned there new
    obtain ⟨a', told', overrules⟩ := reached.meets (watched_overrides r) lands overriding
    cases told.symm.trans told'
    exact ⟨k, lands, overrules⟩
  · obtain ⟨i, c, k, r, lands, request, rfl, writes⟩ :=
      recorded_step reached.reachable step absent found
    obtain ⟨a, _, replays | ⟨row, puts⟩⟩ :=
      reached.meets (watched_overrides r) lands ⟨request, team, set⟩
    · exact absurd replays.silent writes
    · refine ⟨i, c, k, row, lands, puts.written, puts.value, ?_⟩
      rw [lands.result]
      exact puts.stored

end

/-! ### Runs -/

/-- A call for the override of a team. -/
def overridingCall (key : String) : Call :=
  ⟨some iamCaller, firstUuid, Overrides.overriding Overrides.searchTeam 1 key⟩

/-- The team is declared, and its override is to be committed next. -/
def stated : List (Action Call) :=
  calling firstUuid (Overrides.declaring ["search"]) 0 9 ++
  calling firstUuid (Overrides.overriding Overrides.searchTeam 1 "key") 1 6

/-- The team is declared behind the write that did not match it. -/
def outrun : List (Action Call) :=
  calling firstUuid (Overrides.overriding Overrides.searchTeam 1 "key") 0 3 ++
  calling firstUuid (Overrides.declaring ["search"]) 1 9 ++ .replicate 4 (.run 0)

open Bytewise in
theorem override_in_force_stated : ∃ a k row,
    told (after (stated ++ [.run 1])) 1 =
      some (overridingCall "key", .ok (.setInheritedSetting a)) ∧
    Lands (after stated) 1 (overridingCall "key") k (after (stated ++ [.run 1])) ∧
    Puts ⟨some "key", 2, some Overrides.searchTeam, ownerReadsOwnRecord, some 1, none, false⟩ k row
      a := by
  have reached : ReachableWhile Unrevived (after stated) :=
    ⟨migrated, 0, integrity_migrated, reaches_after unrevivedNow
      (fun _ _ _ => unrevived_of_now) (by decide +kernel)⟩
  have step : (after stated).step service (.run 1) = some (after (stated ++ [.run 1])) :=
    step_after (by decide +kernel)
  have answered : told (after (stated ++ [.run 1])) 1 = some (overridingCall "key",
      .ok (.setInheritedSetting ⟨2, true, [(Overrides.searchTeam, 1)]⟩)) := by decide +kernel
  obtain ⟨ℓ, there⟩ := told_eq_some answered
  have silent : told (after stated) 1 = none := by decide +kernel
  have new : (after stated).sessions[1]? ≠ some ⟨overridingCall "key", ℓ,
      .answered (.ok (.setInheritedSetting ⟨2, true, [(Overrides.searchTeam, 1)]⟩))⟩ := by
    intro there
    rw [told, there] at silent
    cases silent
  obtain ⟨k, lands, replays | ⟨row, puts⟩⟩ := (override_in_force reached step).1 1 _ ℓ
    ⟨some "key", 2, some Overrides.searchTeam, ownerReadsOwnRecord, some 1, none, false⟩ _
    ⟨rfl, rfl, rfl⟩ there new
  · obtain ⟨w, found, _⟩ := replays.recorded
    have absent : (after stated).store.settingWrites.find? (weight "key") = none := by
      decide +kernel
    rw [lands.commits.store] at found
    cases found.symm.trans absent
  · exact ⟨_, k, row, answered, lands, puts⟩

open Bytewise in
/-- The call is answered OK, and its key recorded, without an override. -/
theorem override_missing : ¬∀ (S S' : Handlers.System) act key w, Reachable S →
    S.step service act = some S' → S.store.settingWrites.find? key = none →
    S'.store.settingWrites.find? key = some w → w.scope = 2 → w.clearRequested = false →
    (∃ a, told S' 0 = some (overridingCall "key", .ok (.setInheritedSetting a))) →
    (S'.store.overrides.find? (weight w.name, weight (w.teamId.getD ""))).isSome := by
  intro written
  have step : (after outrun).step service (.run 0) = some (after (outrun ++ [.run 0])) :=
    step_after (by decide +kernel)
  have absent : (after outrun).store.settingWrites.find? "key" = none := by decide +kernel
  have found : (after (outrun ++ [.run 0])).store.settingWrites.find? "key" =
      some ⟨"key", 2, some Overrides.searchTeam, ownerReadsOwnRecord, some 1, none, false⟩ := by
    decide +kernel
  have answered : told (after (outrun ++ [.run 0])) 0 = some (overridingCall "key",
      .ok (.setInheritedSetting ⟨2, true, []⟩)) := by decide +kernel
  have none : (after (outrun ++ [.run 0])).store.overrides.rows = [] := by decide +kernel
  obtain ⟨row, found'⟩ := Option.isSome_iff_exists.mp (written _ _ _ _ _ (reachable_after outrun)
    step absent found rfl rfl ⟨_, answered⟩)
  have stored : row ∈ (after (outrun ++ [.run 0])).store.overrides.rows :=
    (Table.find?_eq_some.mp found').1
  rw [none] at stored
  cases stored

end IamDb.InForce
