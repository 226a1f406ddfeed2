import IamDb.Reported

/-! A sync repeated. The store a sync leaves is one the same declaration finds
nothing to do in, so a repeated sync is accepted, counts nothing and leaves that
store as it is; and what a sync leaves depends on what is declared, not on the
order it is listed in. -/
namespace IamDb.Repeats
open Txn Schema Messages Service Handlers Runs Team Declaration Syncs Reported

/-- Rows that are there are stored to no effect. -/
theorem putAll_of_mem {ρ κ : Type} [DecidableEq κ] {key : ρ → κ} {T : Table key} {rs : List ρ}
    (there : ∀ r ∈ rs, r ∈ T) : T.putAll rs = T := by
  induction rs with
  | nil => rfl
  | cons r rs ih =>
    rw [Table.putAll_cons, Table.put_of_mem (there r List.mem_cons_self)]
    exact ih fun r' member => there r' (List.mem_cons_of_mem _ member)

section
variable [Engine] {σ : Store} {declared : List Declared}

/-! ### Nothing left to do -/

/-- A store in which a declaration has been synced. -/
structure Settled (σ : Store) (declared : List Declared) : Prop where
  sentinel : σ.teamSyncLock = true
  guarded : (liveMembers σ administrators).length = liveOf σ declared
  live : ∀ d ∈ declared, ∃ t ∈ σ.teams, t.id = d.id ∧ t.deletedAt = none
  archived : ∀ t ∈ σ.teams, (∀ d ∈ declared, d.id ≠ t.id) → t.deletedAt.isSome
  gone : ∀ d ∈ declared, goneOf (surveyed σ declared) σ.teamMembers d = []
  gained : ∀ d ∈ declared, newOf (surveyed σ declared) σ.teamMembers d = []
  pending : σ.pendingMembers = pendingTable (pendingOf σ declared)

theorem survey_congr {σ' : Store} (same : ∀ m, standing σ' m = standing σ m) :
    survey σ' ms known = survey σ ms known := by
  induction ms generalizing known with
  | nil => rfl
  | cons m ms ih => rw [survey, survey, ih, ih, same]

/-- A sync leaves the people as they are. -/
theorem surveyed_synced : surveyed (synced now σ declared) declared = surveyed σ declared :=
  survey_congr fun _ => rfl

theorem liveOf_synced : liveOf (synced now σ declared) declared = liveOf σ declared := by
  rw [liveOf, surveyed_synced, liveOf]

theorem pendingOf_synced : pendingOf (synced now σ declared) declared = pendingOf σ declared := by
  rw [pendingOf, surveyed_synced, liveOf_synced, pendingOf]

/-- A sync leaves a store in which its declaration has been synced. -/
theorem settled_synced (proper : Proper declared) (accepts : Accepts σ declared) :
    Settled (synced now σ declared) declared where
  sentinel := accepts.sentinel
  guarded := (live_administrators now proper accepts.room).trans liveOf_synced.symm
  live d member := ⟨_, (mem_settledTeams proper accepts.room).mpr (Or.inl ⟨d, member, rfl⟩),
    key_opened d σ.teams, opened_live⟩
  archived t there other := by
    rcases (mem_settledTeams proper accepts.room).mp there with ⟨d, member, rfl⟩ | ⟨t₀, _, _, rfl⟩
    · exact absurd (key_opened d σ.teams).symm (other d member)
    · exact retired_archived
  gone d member := by
    rw [surveyed_synced]
    refine List.eq_nil_iff_forall_not_mem.mpr fun u gone => ?_
    obtain ⟨here, unwanted⟩ := mem_goneOf.mp gone
    exact unwanted ((member_synced proper member).mp here)
  gained d member := by
    rw [surveyed_synced]
    refine List.eq_nil_iff_forall_not_mem.mpr fun u gained => ?_
    obtain ⟨wanted, missing⟩ := mem_newOf.mp gained
    exact missing ((member_synced proper member).mpr wanted)
  pending := congrArg pendingTable pendingOf_synced.symm

section
variable (settled : Settled σ declared)
include settled

theorem Settled.found (member : d ∈ declared) :
    ∃ t, exactly σ.teams d.id = some t ∧ t.deletedAt = none := by
  obtain ⟨t, there, id, live⟩ := settled.live d member
  exact ⟨t, exactly_eq_some.mpr ⟨there, id⟩, live⟩

/-- The declaration is accepted again: the guard counts the administrators it
declares, and no team has to be inserted. -/
theorem Settled.accepts : Accepts σ declared where
  sentinel := settled.sentinel
  guarded some none := by
    rw [settled.guarded, none] at some
    exact absurd some (Nat.lt_irrefl 0)
  room d member missing := by
    obtain ⟨t, found, _⟩ := settled.found member
    rw [found] at missing
    cases missing

theorem Settled.omitted : (storedTeams σ.teams).filter (omits declared) = [] := by
  refine List.filter_eq_nil_iff.mpr fun e entry omitted => ?_
  obtain ⟨t, stored, rfl⟩ := mem_storedTeams.mp entry
  obtain ⟨live, other⟩ := omits_iff.mp omitted
  rw [settled.archived t stored other] at live
  cases live

theorem Settled.synced : synced now σ declared = σ := by
  have opened : openedTeams σ declared = σ.teams := by
    refine putAll_of_mem fun r member => ?_
    obtain ⟨d, listed, rfl⟩ := List.mem_map.mp member
    obtain ⟨t, found, live⟩ := settled.found listed
    rw [found, Syncs.opened, live]
    exact (exactly_eq_some.mp found).1
  have teams : settledTeams now σ declared = σ.teams := by
    rw [settledTeams, opened, closing, settled.omitted]
    rfl
  have members : ∀ ds : List Declared, (∀ d ∈ ds, d ∈ declared) →
      ds.foldl (rolled (surveyed σ declared) σ.teamMembers) σ.teamMembers = σ.teamMembers := by
    intro ds listed
    induction ds with
    | nil => rfl
    | cons d ds ih =>
      have here := listed d List.mem_cons_self
      have still : rolled (surveyed σ declared) σ.teamMembers σ.teamMembers d = σ.teamMembers := by
        rw [rolled, settled.gone d here, settled.gained d here]
        rfl
      rw [List.foldl_cons, still]
      exact ih fun d' member => listed d' (List.mem_cons_of_mem _ member)
  rw [Syncs.synced, teams, members declared fun _ member => member, ← settled.pending]

/-- It counts nothing and names nobody. -/
theorem Settled.reported : reported σ declared =
    ⟨0, 0, 0, 0, 0, unknownMembers (surveyed σ declared) (pendingOf σ declared) declared,
      pendingOf σ declared, saturated (liveOf σ declared), []⟩ := by
  have inserted : (declared.filter fun d => (exactly σ.teams d.id).isNone) = [] := by
    refine List.filter_eq_nil_iff.mpr fun d member missing => ?_
    obtain ⟨t, found, _⟩ := settled.found member
    rw [found] at missing
    cases missing
  have archived : ∀ d ∈ declared, archivedIn σ.teams d.id = false := by
    intro d member
    obtain ⟨t, found, live⟩ := settled.found member
    rw [archivedIn, found, Option.any_some, live]
    rfl
  have reactivated : (declared.filter fun d => archivedIn σ.teams d.id) = [] :=
    List.filter_eq_nil_iff.mpr fun d member back => by
      rw [archived d member] at back
      cases back
  have changed : (Syncs.reported σ declared).changedUserIds = [] := by
    refine List.eq_nil_iff_forall_not_mem.mpr fun u named => ?_
    rcases mem_changed.mp named with ⟨t, there, live, other, _⟩ | ⟨d, member, ⟨back, _⟩ | gone | gained⟩
    · have archived := settled.archived t there other
      rw [live] at archived
      cases archived
    · rw [archived d member] at back
      cases back
    · rw [settled.gone d member] at gone
      cases gone
    · rw [settled.gained d member] at gained
      cases gained
  have removed : (declared.map fun d =>
      (goneOf (surveyed σ declared) σ.teamMembers d).length).sum = 0 := by
    rw [List.map_congr_left fun d member => congrArg List.length (settled.gone d member)]
    simp
  have added : (declared.map fun d =>
      (newOf (surveyed σ declared) σ.teamMembers d).length).sum = 0 := by
    rw [List.map_congr_left fun d member => congrArg List.length (settled.gained d member)]
    simp
  have named : (progressOf σ declared).changed = [] := changed
  rw [Syncs.reported, named, progressOf, counted_members, removed, added]
  simp [closedProgress, openedProgress, settled.omitted, inserted, reactivated]

end

/-! ### The order of a declaration -/

/-- Two declarations of the same teams with the same members. -/
structure Alike (declared declared' : List Declared) : Prop where
  forth : ∀ d ∈ declared, ∃ d' ∈ declared', d'.id = d.id ∧ d'.name = d.name ∧
    ∀ u, u ∈ d'.members ↔ u ∈ d.members
  back : ∀ d' ∈ declared', ∃ d ∈ declared, d.id = d'.id ∧ d.name = d'.name ∧
    ∀ u, u ∈ d.members ↔ u ∈ d'.members

omit [Engine] in
theorem Alike.symm (alike : Alike declared declared') : Alike declared' declared :=
  ⟨alike.back, alike.forth⟩

omit [Engine] in
/-- What tells teams by their ids, names and members tells them alike. -/
theorem Alike.some {P : Declared → Prop} (alike : Alike declared declared')
    (tells : ∀ d d', d'.id = d.id → d'.name = d.name → (∀ u, u ∈ d'.members ↔ u ∈ d.members) →
      P d → P d') : (∃ d ∈ declared, P d) ↔ ∃ d ∈ declared', P d := by
  constructor
  · rintro ⟨d, member, holds⟩
    obtain ⟨d', member', id, named, members⟩ := alike.forth d member
    exact ⟨d', member', tells d d' id named members holds⟩
  · rintro ⟨d', member', holds⟩
    obtain ⟨d, member, id, named, members⟩ := alike.back d' member'
    exact ⟨d, member, tells d' d id named members holds⟩

omit [Engine] in
theorem Alike.all {P : Declared → Prop} (alike : Alike declared declared')
    (tells : ∀ d d', d'.id = d.id → d'.name = d.name → (∀ u, u ∈ d'.members ↔ u ∈ d.members) →
      P d → P d') : (∀ d ∈ declared, P d) ↔ ∀ d ∈ declared', P d := by
  constructor
  · intro each d' member'
    obtain ⟨d, member, id, named, members⟩ := alike.back d' member'
    exact tells d d' id.symm named.symm (fun u => (members u).symm) (each d member)
  · intro each d member
    obtain ⟨d', member', id, named, members⟩ := alike.forth d member
    exact tells d' d id.symm named.symm (fun u => (members u).symm) (each d' member')

/-- A declaration keeps nobody live who administers where it lists no live
administrator. -/
theorem liveOf_eq_zero (proper : Proper declared) : liveOf σ declared = 0 ↔
    ∀ d ∈ declared, d.id = administrators → ∀ u ∈ d.members, ¬(σ.liveUser? u).isSome := by
  unfold liveOf
  cases found : declared.find? fun t => t.id = administrators with
  | none =>
    refine iff_of_true rfl fun d member id => ?_
    exact absurd (decide_eq_true id) (List.find?_eq_none.mp found d member)
  | some admins =>
    have member := List.mem_of_find?_eq_some found
    have id : admins.id = administrators := by simpa using List.find?_some found
    have none : liveAfter (surveyed σ declared) (some admins) = 0 ↔
        ∀ u ∈ admins.members, ¬(σ.liveUser? u).isSome := by
      rw [liveAfter, List.length_eq_zero_iff, List.filter_eq_nil_iff]
      refine forall₂_congr fun u listed => ?_
      rw [decide_eq_true_eq, knownAs_surveyed member listed, standing_live]
    rw [none]
    constructor
    · intro dead d member' id'
      obtain rfl := proper.unique member member' (by rw [id, id'])
      exact dead
    · exact fun each => each admins member id

theorem mem_synced_listed (proper : Proper declared) : m ∈ (synced now σ declared).teamMembers ↔
    (m ∈ σ.teamMembers ∧ ∀ d ∈ declared, weight m.teamId = weight d.id →
      m.userId ∈ d.members ∧ (σ.user? m.userId).isSome) ∨
    ∃ d ∈ declared, m.teamId = d.id ∧ (m.userId ∈ d.members ∧ (σ.user? m.userId).isSome) ∧
      ¬∃ m₀ ∈ σ.teamMembers, weight m₀.teamId = weight d.id ∧ m₀.userId = m.userId := by
  rw [mem_synced proper]
  refine or_congr (and_congr_right fun _ => forall₂_congr fun d member => ?_)
    (exists_congr fun d => and_congr_right fun member => ?_)
  · rw [wanted_iff member]
  · constructor
    · rintro ⟨n, gained, rfl⟩
      obtain ⟨wanted, missing⟩ := mem_newOf.mp gained
      exact ⟨rfl, (wanted_iff member).mp wanted, missing⟩
    · rintro ⟨team, wanted, missing⟩
      refine ⟨m.userId, mem_newOf.mpr ⟨(wanted_iff member).mpr wanted, missing⟩, ?_⟩
      rw [← team]

section
variable {declared' : List Declared} (alike : Alike declared declared')
include alike

theorem Alike.liveOf (proper : Proper declared) (proper' : Proper declared') :
    liveOf σ declared = 0 ↔ liveOf σ declared' = 0 := by
  rw [liveOf_eq_zero proper, liveOf_eq_zero proper']
  refine alike.all fun d d' id _ members each named u listed => ?_
  exact each (id ▸ named) u ((members u).mp listed)

theorem Alike.accepts (proper : Proper declared) (proper' : Proper declared')
    (accepts : Accepts σ declared) : Accepts σ declared' where
  sentinel := accepts.sentinel
  guarded some none := accepts.guarded some ((alike.liveOf proper proper').mpr none)
  room := by
    refine (alike.all fun d d' id named _ room => ?_).mp accepts.room
    rw [Room, id, named]
    exact room

theorem Alike.teams (proper : Proper declared) (proper' : Proper declared')
    (accepts : Accepts σ declared) :
    t ∈ settledTeams now σ declared ↔ t ∈ settledTeams now σ declared' := by
  rw [mem_settledTeams proper accepts.room,
    mem_settledTeams proper' (alike.accepts proper proper' accepts).room]
  refine or_congr (alike.some fun d d' id named _ written => ?_)
    (exists_congr fun t₀ => and_congr_right fun _ => and_congr_left fun _ => ?_)
  · rw [written, id]
    cases exactly σ.teams d.id with
    | none => rw [opened, opened, id, named]
    | some t => rfl
  · exact alike.all fun d d' id _ _ other => id ▸ other

theorem Alike.members (proper : Proper declared) (proper' : Proper declared') :
    m ∈ (synced now σ declared).teamMembers ↔ m ∈ (synced now σ declared').teamMembers := by
  rw [mem_synced_listed proper, mem_synced_listed proper']
  refine or_congr (and_congr_right fun _ => alike.all fun d d' id _ members each mine => ?_)
    (alike.some fun d d' id _ members => ?_)
  · rw [members]
    exact each (id ▸ mine)
  · rw [id, members]
    exact fun holds => holds

theorem Alike.pending (proper : Proper declared) (proper' : Proper declared') :
    p ∈ pendingTable (pendingOf σ declared) ↔ p ∈ pendingTable (pendingOf σ declared') := by
  rw [mem_pendingTable (nodup_pendingOf proper), mem_pendingTable (nodup_pendingOf proper'),
    mem_pendingOf proper, mem_pendingOf proper', alike.liveOf proper proper']
  refine and_congr_right fun _ => and_congr_right fun _ => alike.some fun d d' id _ members => ?_
  rw [id, members]
  exact fun holds => holds

end

/-- The same teams with the same members, listed in another order. -/
def Reordered (teams teams' : List DeclaredTeam) : Prop :=
  ∃ between, teams.Perm between ∧ List.Forall₂ (fun t t' =>
    t.name = t'.name ∧ t.memberUserIds.Perm t'.memberUserIds) between teams'

section
variable {teams teams' : List DeclaredTeam}

omit [Engine] in
private theorem paired {α β : Type} {R : α → β → Prop} {l : List α} {l' : List β}
    (pairs : List.Forall₂ R l l') :
    (∀ x ∈ l, ∃ y ∈ l', R x y) ∧ ∀ y ∈ l', ∃ x ∈ l, R x y := by
  induction pairs with
  | nil => exact ⟨nofun, nofun⟩
  | cons pair _ ih =>
    obtain ⟨forth, back⟩ := ih
    refine ⟨List.forall_mem_cons.mpr ⟨⟨_, List.mem_cons_self, pair⟩, fun x member => ?_⟩,
      List.forall_mem_cons.mpr ⟨⟨_, List.mem_cons_self, pair⟩, fun y member => ?_⟩⟩
    · obtain ⟨y, there, pair⟩ := forth x member
      exact ⟨y, List.mem_cons_of_mem _ there, pair⟩
    · obtain ⟨x, there, pair⟩ := back y member
      exact ⟨x, List.mem_cons_of_mem _ there, pair⟩

omit [Engine] in
theorem Reordered.forth (reordered : Reordered teams teams') (member : t ∈ teams) :
    ∃ t' ∈ teams', t.name = t'.name ∧ t.memberUserIds.Perm t'.memberUserIds := by
  obtain ⟨between, perm, pairs⟩ := reordered
  exact (paired pairs).1 t (perm.mem_iff.mp member)

omit [Engine] in
theorem Reordered.back (reordered : Reordered teams teams') (member : t' ∈ teams') :
    ∃ t ∈ teams, t.name = t'.name ∧ t.memberUserIds.Perm t'.memberUserIds := by
  obtain ⟨between, perm, pairs⟩ := reordered
  obtain ⟨t, there, pair⟩ := (paired pairs).2 t' member
  exact ⟨t, perm.mem_iff.mpr there, pair⟩

omit [Engine] in
theorem Reordered.names (reordered : Reordered teams teams') :
    (teams.map (·.name)).Perm (teams'.map (·.name)) := by
  obtain ⟨between, perm, pairs⟩ := reordered
  have same : between.map (·.name) = teams'.map (·.name) := by
    clear perm
    induction pairs with
    | nil => rfl
    | cons pair _ ih => rw [List.map_cons, List.map_cons, pair.1, ih]
  exact same ▸ perm.map _

omit [Engine] in
/-- Another order is accepted too. -/
theorem Reordered.valid (reordered : Reordered teams teams')
    (valid : validate teams = .ok declared) :
    ∃ declared', validate teams' = .ok declared' ∧ Alike declared declared' := by
  obtain ⟨ok, rfl⟩ := Wellformed.validate_iff.mp valid
  refine ⟨_, Wellformed.validate_iff.mpr ⟨?_, rfl⟩, ?_, ?_⟩
  · refine ⟨fun t' member => ?_, reordered.names.nodup_iff.mp ok.distinct, fun t' member m listed => ?_,
      fun t' member => ?_⟩
    · obtain ⟨t, there, named, _⟩ := reordered.back member
      exact named ▸ ok.names t there
    · obtain ⟨t, there, _, perm⟩ := reordered.back member
      exact ok.members t there m (perm.mem_iff.mpr listed)
    · obtain ⟨t, there, _, perm⟩ := reordered.back member
      exact perm.nodup_iff.mp (ok.once t there)
  · intro d member
    obtain ⟨t, there, rfl⟩ := List.mem_map.mp member
    obtain ⟨t', there', named, perm⟩ := reordered.forth there
    refine ⟨_, List.mem_map_of_mem there', ?_, named.symm, fun u => perm.mem_iff.symm⟩
    rw [Wellformed.stored, Wellformed.stored, named]
  · intro d member
    obtain ⟨t', there', rfl⟩ := List.mem_map.mp member
    obtain ⟨t, there, named, perm⟩ := reordered.back there'
    refine ⟨_, List.mem_map_of_mem there, ?_, named, fun u => perm.mem_iff⟩
    rw [Wellformed.stored, Wellformed.stored, named]

end

/-! ### Convergence -/

/-- The answer of a sync that finds its declaration synced. -/
def repeating (a : SyncTeamsResponse) : SyncTeamsResponse :=
  { a with
    teamsInserted := 0, teamsArchived := 0, teamsReactivated := 0, membersAdded := 0
    membersRemoved := 0, changedUserIds := [] }

theorem accepted_alone {c : Call} (request : c.request = .syncTeams r)
    (caller : admitted c.caller = .ok ()) (valid : validate r.teams = .ok declared)
    (accepts : Accepts σ declared) : (service c).alone .fresh σ now =
      (.ok (.syncTeams (reported σ declared)), synced now σ declared) := by
  rw [sync_alone request caller valid, working_syncing (proper_of_valid valid) accepts]

theorem repeating_reported (proper : Proper declared) (accepts : Accepts σ declared) :
    reported (synced now σ declared) declared = repeating (reported σ declared) := by
  rw [(settled_synced proper accepts).reported, surveyed_synced, pendingOf_synced, liveOf_synced]
  unfold repeating reported progressOf
  rw [counted_members]
  rfl

/-- After a sync that answered OK, with no other write in between, a sync of the
same declaration answers OK, counts nothing, names nobody and leaves the store
as it is; and a declaration of the same teams and members in another order,
synced instead of the first, answers OK and leaves the same rows. -/
theorem sync_converges {S S' : Handlers.System} {c : Call} (request : c.request = .syncTeams r)
    (performs : System.Performs service S c (.ok (.syncTeams a)) S') :
    (∀ (T : Handlers.System) (c' : Call), T.store = S'.store → c'.request = .syncTeams r →
      admitted c'.caller = .ok () →
        (T.Unlocked → ∃ result T', System.Performs service T c' result T') ∧
        ∀ result T', System.Performs service T c' result T' →
          result = .ok (.syncTeams (repeating a)) ∧ T'.store = S'.store) ∧
    ∀ (c' : Call) r', c'.request = .syncTeams r' → admitted c'.caller = .ok () →
      Reordered r.teams r'.teams →
        (S.Unlocked → ∃ result S'', System.Performs service S c' result S'') ∧
        ∀ result S'', System.Performs service S c' result S'' →
          (∃ a', result = .ok (.syncTeams a')) ∧
          (∀ t, t ∈ S''.store.teams ↔ t ∈ S'.store.teams) ∧
          (∀ m, m ∈ S''.store.teamMembers ↔ m ∈ S'.store.teamMembers) ∧
          ∀ p, p ∈ S''.store.pendingMembers ↔ p ∈ S'.store.pendingMembers := by
  obtain ⟨declared, valid, accepts, rfl, left⟩ := synced_of_alone request performs.alone
  have proper := proper_of_valid valid
  have answers {T : Handlers.System} (c' : Call) (unlocked : T.Unlocked) :
      ∃ result T', System.Performs service T c' result T' := by
    obtain ⟨T', performed, _⟩ := System.performs_alone unlocked c'
    exact ⟨_, T', performed⟩
  constructor
  · intro T c' same request' caller'
    refine ⟨answers c', fun result T' performed => ?_⟩
    have settled : Settled (synced S.clock S.store declared) declared :=
      settled_synced proper accepts
    have alone := performed.alone
    rw [same, left, accepted_alone request' caller' valid settled.accepts, settled.synced,
      repeating_reported proper accepts] at alone
    obtain ⟨rfl, kept⟩ := Prod.mk.inj alone
    exact ⟨rfl, by rw [← kept, left]⟩
  · intro c' r' request' caller' reordered
    refine ⟨answers c', fun result S'' performed => ?_⟩
    obtain ⟨declared', valid', alike⟩ := reordered.valid valid
    have proper' := proper_of_valid valid'
    have alone := performed.alone
    rw [accepted_alone request' caller' valid' (alike.accepts proper proper' accepts)] at alone
    obtain ⟨rfl, left'⟩ := Prod.mk.inj alone
    rw [← left', left]
    exact ⟨⟨_, rfl⟩, fun t => (alike.teams proper proper' accepts).symm,
      fun m => (alike.members proper proper').symm, fun p => (alike.pending proper proper').symm⟩

end

open Bytewise in
/-- Synced again, the proposed administrator is still pending. -/
theorem sync_converges_proposed : ∃ (S' T' : Handlers.System), T'.store = S'.store ∧
    System.Performs service S' proposed (.ok (.syncTeams ⟨0, 0, 0, 0, 0,
      [userPrefix ++ secondUuid.text], [userPrefix ++ firstUuid.text], 0, []⟩)) T' := by
  obtain ⟨S', performs, _, unlocked⟩ :=
    System.performs_alone (S := fresh 0) (fun _ there => absurd there List.not_mem_nil) proposed
  have answer : ((service proposed).alone .fresh (fresh 0).store (fresh 0).clock).1 =
      .ok (.syncTeams ⟨2, 0, 0, 0, 0, [userPrefix ++ secondUuid.text],
        [userPrefix ++ firstUuid.text], 0, []⟩) := by decide +kernel
  rw [answer] at performs
  obtain ⟨again, same⟩ := (sync_converges rfl performs).1 S' proposed rfl rfl rfl
  obtain ⟨result, T', performed⟩ := again unlocked
  obtain ⟨rfl, kept⟩ := same result T' performed
  exact ⟨S', T', kept, performed⟩

end IamDb.Repeats
