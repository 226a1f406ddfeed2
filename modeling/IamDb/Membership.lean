import IamDb.Administrators

/-! Membership is what was declared. The tables of teams, members and pending
administrators are those of the last declaration committed, over any
interleaving of syncs, bootstraps and every other verb, and a resolve answers
no team and no administrator the declaration does not list. -/
namespace IamDb.Membership
open Txn Schema Messages Service Effects Evolution Interference Handlers Runs Administrators
open Declaration TeamProofs

/-! ### Declarations -/

/-- The declaration of a sync that has one. -/
def declares (c : Call) : Option (List Team.Declared) :=
  match c.request with
  | .syncTeams r => (Team.validate r.teams).toOption
  | _ => none

/-- The last declaration committed; none declares nothing. -/
def declaration (log : List Call) : List Team.Declared :=
  log.foldl (fun last c => (declares c).getD last) []

/-- The ids a call declares as members. -/
def declaredBy (c : Call) : List String := ((declares c).getD []).flatMap (·.members)

/-- The id a `CreateUser` draws when it demands none. -/
def mints (c : Call) : Option String :=
  match c.request with
  | .createUser r => if r.userId = "" then some (Team.userPrefix ++ c.uuid.text) else none
  | _ => none

section
variable [Engine]

/-- Among the calls so far none draws an id another declares. -/
def Apart (S : Handlers.System) : Prop :=
  ∀ s ∈ S.sessions, ∀ s' ∈ S.sessions, ∀ id ∈ declaredBy s'.call, mints s.call ≠ some id

end

theorem declaration_append (log : List Call) (c : Call) :
    declaration (log ++ [c]) = (declares c).getD (declaration log) := by
  simp [declaration]

theorem declares_some (declared : declares c = some d) :
    ∃ r, c.request = .syncTeams r ∧ Team.validate r.teams = .ok d := by
  unfold declares at declared
  split at declared
  · rename_i r request
    cases valid : Team.validate r.teams with
    | error e => simp [valid, Except.toOption] at declared
    | ok d' =>
      obtain rfl : d' = d := by simpa [valid, Except.toOption] using declared
      exact ⟨r, request, valid⟩
  · cases declared

theorem declares_valid (declared : declares c = some d) :
    ∃ teams, Team.validate teams = .ok d :=
  let ⟨r, _, valid⟩ := declares_some declared
  ⟨r.teams, valid⟩

theorem declares_sync (request : c.request = .syncTeams r) (valid : Team.validate r.teams = .ok d) :
    declares c = some d := by
  simp [declares, request, valid, Except.toOption]

/-- What holds of no declaration and of each one in the log holds of the last. -/
theorem declaration_of {P : List Team.Declared → Prop} (none : P [])
    (each : ∀ c ∈ log, ∀ d, declares c = some d → P d) : P (declaration log) := by
  have fold (last : List Team.Declared) (before : P last) :
      P (log.foldl (fun last c => (declares c).getD last) last) := by
    induction log generalizing last with
    | nil => exact before
    | cons c log ih =>
      refine ih (fun c' there => each c' (List.mem_cons_of_mem _ there)) _ ?_
      cases declared : declares c with
      | none => simpa [declared] using before
      | some d => simpa [declared] using each c List.mem_cons_self d declared
  exact fold [] none

/-- Every declaration is a valid one. -/
theorem declaration_valid (log : List Call) :
    ∃ teams, Team.validate teams = .ok (declaration log) :=
  declaration_of ⟨[], rfl⟩ fun _ _ _ => declares_valid

/-- The ids of the last declaration are ids some call declares. -/
theorem declaration_listed (member : d ∈ declaration log) (listed : u ∈ d.members) :
    ∃ c ∈ log, u ∈ declaredBy c := by
  refine declaration_of (P := fun last => ∀ d ∈ last, ∀ u ∈ d.members, ∃ c ∈ log, u ∈ declaredBy c)
    nofun ?_ d member u listed
  intro c logged last declared d member u listed
  exact ⟨c, logged, List.mem_flatMap.mpr ⟨d, by simpa [declared] using member, listed⟩⟩

/-! ### Ids -/

theorem plain_of_hex (hex : isLowerHex c = true) : c.isLower ∨ c.isDigit := by
  simp only [isLowerHex, Bool.or_eq_true, Bool.and_eq_true, decide_eq_true_eq] at hex
  rcases hex with digit | ⟨low, high⟩
  · exact Or.inr digit
  · refine Or.inl (isLower_iff.mpr ?_)
    exact ⟨low, Nat.le_trans (show c.val.toNat ≤ 'f'.val.toNat from high) (by decide)⟩

theorem plain_of_uuid (canonical : canonicalUuid uuid = true) (member : c ∈ uuid) :
    c.isLower ∨ c.isDigit ∨ c = ':' ∨ c = '-' := by
  simp only [canonicalUuid, Bool.and_eq_true, List.all_eq_true] at canonical
  obtain ⟨i, here⟩ := List.mem_iff_getElem?.mp member
  have at' := canonical.1.1.2 (c, i) (List.mem_zipIdx_iff_getElem?.mpr here)
  dsimp only at at'
  split at at'
  · exact Or.inr (Or.inr (Or.inr (by simpa using at')))
  · rcases plain_of_hex at' with lower | digit
    · exact Or.inl lower
    · exact Or.inr (Or.inl digit)

theorem plain_of_canonical {userId : String} (canonical : Team.canonicalUserId userId = true) :
    Plain userId := by
  simp only [Team.canonicalUserId, Bool.and_eq_true, List.isPrefixOf_iff_prefix] at canonical
  obtain ⟨⟨rest, shape⟩, uuid⟩ := canonical
  rw [← shape, List.drop_left] at uuid
  intro c member
  rw [← shape, List.mem_append] at member
  rcases member with start | uuid'
  · have all : Team.userPrefix.toList.all fun c => c.isLower || c.isDigit || c = ':' || c = '-' := by
      decide
    simpa [or_assoc] using List.all_eq_true.mp all c start
  · exact plain_of_uuid uuid uuid'

theorem canonical_minted (uuid : Uuid) :
    Team.canonicalUserId (Team.userPrefix ++ uuid.text) = true := by
  simp [Team.canonicalUserId, String.toList_append, uuid.canonical]

theorem plain_of_declared (valid : Team.validate teams = .ok declared) (member : d ∈ declared)
    (listed : u ∈ d.members) : Plain u :=
  plain_of_canonical ((validate_ok valid member).2.2 u listed)

theorem plain_of_declaredBy (listed : u ∈ declaredBy c) : Plain u := by
  obtain ⟨d, member, listed⟩ := List.mem_flatMap.mp listed
  cases declared : declares c with
  | none => simp [declared] at member
  | some ds =>
    obtain ⟨_, valid⟩ := declares_valid declared
    exact plain_of_declared valid (by simpa [declared] using member) listed

theorem plain_administrators : Plain Team.administrators := by
  have all : Team.administrators.toList.all fun c => c.isLower || c.isDigit || c = ':' || c = '-' := by
    decide
  intro c there
  simpa [or_assoc] using List.all_eq_true.mp all c there

theorem plain_of_name (ok : Team.nameOk s = true) : Plain (Team.teamPrefix ++ s) :=
  plain_append plain_teamPrefix (plain_of_nameOk ok)

/-- Ids built from names are equal where the names are. -/
theorem name_of_id (same : Team.teamPrefix ++ s = Team.teamPrefix ++ s') : s = s' := by
  have lists := congrArg String.toList same
  simp only [String.toList_append] at lists
  exact String.toList_inj.mp (List.append_cancel_left lists)

/-! ### What the tables hold of a declaration -/

section
variable [Engine]

/-- The teams, the members and the pending administrators are those of the
declaration. -/
structure Declares (σ : Store) (declared : List Team.Declared) : Prop where
  named : ∀ t ∈ σ.teams, t.id = Team.teamPrefix ++ t.name ∧ Team.nameOk t.name = true
  present : ∀ d ∈ declared, ∃ t ∈ σ.teams, t.name = d.name
  live : ∀ t ∈ σ.teams, t.deletedAt = none ↔ ∃ d ∈ declared, d.name = t.name
  members : ∀ m ∈ σ.teamMembers, ∀ t, σ.liveTeam? m.teamId = some t →
    ∃ d ∈ declared, d.name = t.name ∧ m.userId ∈ d.members
  pending : ∀ p ∈ σ.pendingMembers, p.teamId = Team.administrators ∧
    σ.user? p.userId = none ∧ ∃ d ∈ declared, d.id = Team.administrators ∧ p.userId ∈ d.members
  alone : σ.pendingMembers.rows ≠ [] → administrating σ = []

theorem declares_migrated : Declares migrated [] := by
  constructor <;> intros <;> rename_i member <;> first | cases member | simp_all [migrated]

/-- A call with a declaration commits nothing but that declaration. -/
theorem sync_of_declares (allowed : Allowed c k ef) (declared : declares c = some d) :
    ∃ teams members pending, ef = .sync teams members pending ∧
      Synced d k.store teams members pending := by
  cases allowed with
  | @sync r declared' teams members pending request valid synced =>
    rw [declares_sync request valid] at declared
    cases declared
    exact ⟨teams, members, pending, rfl, synced⟩
  | nothing idle => cases named : c.request <;> simp_all [declares, mayIdle]
  | _ => simp_all [declares]

/-- A person some call creates has no id that is declared. -/
theorem absent_kept {σ : Store} (valid : Team.validate teams = .ok declared) (member : d ∈ declared)
    (listed : userId ∈ d.members) (absent : σ.user? userId = none)
    (canonical : Team.canonicalUserId u.id = true) (other : u.id ≠ userId) :
    (σ.users.put u).find? (weight userId) = none := by
  rw [Table.find?_put_ne]
  · exact absent
  · intro same
    exact other (Engine.weight_plain _ _ (plain_of_declared valid member listed)
      (plain_of_canonical canonical) same).symm

section
variable {c : Call} {k : Committed} {declared : List Team.Declared}

/-- What leaves the roster alone leaves it as declared, unless it gives a
declared id to a new person. -/
private theorem declares_of_roster (allowed : Allowed c k ef)
    (kept : Roster k.store (ef.apply k.store)) (inv : Integrity k.store)
    (valid : Team.validate teams = .ok declared) (before : Declares k.store declared)
    (fresh : ∀ d ∈ declared, ∀ u ∈ d.members, mints c ≠ some u) :
    Declares (ef.apply k.store) declared := by
  have unclaimed : ∀ p ∈ k.store.pendingMembers, (ef.apply k.store).user? p.userId = none := by
    intro p there
    obtain ⟨_, absent, d, member, _, listed⟩ := before.pending p there
    by_contra present
    obtain ⟨u, found⟩ := Option.ne_none_iff_exists'.mp present
    obtain ⟨stored, here⟩ := Store.user?_mem found
    rcases user_origin allowed stored with ⟨u₀, old, later⟩ | ⟨rfl | rfl, _⟩
    · rw [Store.user?, Table.find?_eq_none] at absent
      exact absent u₀ old (by rw [← here, User.key, User.key, later.id])
    · cases allowed with
      | createUser request minted new =>
        have id : u.id = Team.userPrefix ++ c.uuid.text := by rw [new]; rfl
        refine present (absent_kept valid member listed absent (id ▸ canonical_minted c.uuid) ?_)
        rintro same
        exact fresh d member _ listed (by simp [mints, request, minted, ← id, same])
    · have added : (⟨Team.administrators, u.id⟩ : TeamMember) ∈ k.store.teamMembers := by
        rw [← kept.2.1]
        exact Table.mem_put_self
      cases allowed with
      | bootstrap _ _ _ _ gone =>
        have owner := inv.memberUser _ added
        simp [gone] at owner
  refine ⟨fun t there => before.named t (kept.1 ▸ there), ?_, fun t there => before.live t (kept.1 ▸ there), ?_, ?_, ?_⟩
  · rw [kept.1]
    exact before.present
  · intro m there t live
    rw [kept.2.1] at there
    refine before.members m there t ?_
    rwa [Store.liveTeam?, Store.team?, kept.1] at live
  · intro p there
    rw [kept.2.2] at there
    obtain ⟨admin, _, d, rest⟩ := before.pending p there
    exact ⟨admin, unclaimed p there, d, rest⟩
  · rw [kept.2.2, administrating, kept.live_members (evolves_of_allowed allowed) inv]
    exact before.alone

/-- The bootstrap makes a member of a pending administrator. -/
private theorem declares_of_bootstrap (allowed : Allowed c k (.bootstrap u))
    (valid : Team.validate teams = .ok declared) (before : Declares k.store declared) :
    Declares ((Effect.bootstrap u).apply k.store) declared := by
  cases allowed with
  | bootstrap _ _ canonical new _ _ _ _ _ pending =>
    obtain ⟨p, found⟩ := Option.isSome_iff_exists.mp pending
    obtain ⟨waiting, key⟩ := Table.find?_eq_some.mp found
    obtain ⟨_, _, d, member, administrators, listed⟩ := before.pending p waiting
    have id : u.id = p.userId := by
      have canonical : Team.canonicalUserId u.id = true := by rw [new]; exact canonical
      refine Engine.weight_plain _ _ (plain_of_canonical canonical)
        (plain_of_declared valid member listed) ?_
      exact (congrArg Prod.snd key).symm
    have none_left : ((Effect.bootstrap u).apply k.store).pendingMembers.rows = [] := by
      refine List.eq_nil_iff_forall_not_mem.mpr fun p' there => ?_
      obtain ⟨old, kept⟩ := Table.mem_eraseAll.mp there
      refine kept (List.mem_map.mpr ⟨p', List.mem_filter.mpr ⟨old, ?_⟩, rfl⟩)
      simp [(before.pending p' old).1]
    refine ⟨before.named, before.present, before.live, ?_, ?_, ?_⟩
    · intro m there t live
      rcases Table.mem_put.mp there with rfl | ⟨old, _⟩
      · obtain ⟨stored, key⟩ := Store.team?_mem (Store.liveTeam?_eq_some.mp live).1
        obtain ⟨prefixed, ok⟩ := before.named t stored
        have same : t.id = Team.administrators := Engine.weight_plain _ _
          (prefixed ▸ plain_of_name ok) plain_administrators key
        refine ⟨d, member, name_of_id ?_, id ▸ listed⟩
        rw [← prefixed, same, ← administrators, (validate_ok valid member).1]
      · exact before.members m old t live
    · intro p' there
      rw [Table.mem_def, none_left] at there
      cases there
    · exact fun some => absurd none_left some

/-- A sync leaves what it declares. -/
private theorem declares_of_sync (valid : Team.validate teams = .ok declared)
    (synced : Synced declared k.store rows members pending)
    (unclaimed : ∀ p ∈ pending, k.store.user? p.userId = none)
    (before : ∀ t ∈ k.store.teams, t.id = Team.teamPrefix ++ t.name ∧ Team.nameOk t.name = true) :
    Declares ((Effect.sync rows members pending).apply k.store) declared := by
  have named : ∀ t ∈ rows, t.id = Team.teamPrefix ++ t.name ∧ Team.nameOk t.name = true := by
    intro t there
    rcases (synced.turned t there).named with ⟨d, member, id, name⟩ | ⟨t₀, stored, id, name⟩
    · obtain ⟨prefixed, ok, _⟩ := validate_ok valid member
      exact ⟨by rw [← id, prefixed, name], name ▸ ok⟩
    · rw [← id, ← name]
      exact before t₀ stored
  have ids (t : Team) (there : t ∈ rows) (d : Team.Declared) (member : d ∈ declared) :
      d.id = t.id ↔ d.name = t.name := by
    rw [(named t there).1, (validate_ok valid member).1]
    exact ⟨name_of_id, fun same => by rw [same]⟩
  refine ⟨named, ?_, ?_, ?_, ?_, synced.pendingAlone⟩
  · intro d member
    obtain ⟨t, there, id⟩ := synced.present d member
    exact ⟨t, there, ((ids t there d member).mp id.symm).symm⟩
  · intro t there
    rw [synced.live t there]
    constructor
    · rintro ⟨d, member, id⟩
      exact ⟨d, member, (ids t there d member).mp id⟩
    · rintro ⟨d, member, name⟩
      exact ⟨d, member, (ids t there d member).mpr name⟩
  · intro m there t found
    obtain ⟨row, live⟩ := Store.liveTeam?_eq_some.mp found
    obtain ⟨stored, key⟩ := Store.team?_mem row
    obtain ⟨d, member, id⟩ := (synced.live t stored).mp live
    have declaredHere : weight m.teamId = weight d.id := by rw [← key, id]; rfl
    rcases synced.listed m there with ⟨d', member', same, listed, _⟩ | ⟨_, other⟩
    · obtain rfl := declared_unique valid member member' (declaredHere.symm.trans same)
      exact ⟨d, member, (ids t stored d member).mp id, listed⟩
    · exact absurd declaredHere (other d member)
  · intro p there
    obtain ⟨admin, d, member, id, listed⟩ := synced.pendingDeclared p there
    exact ⟨admin, unclaimed p there, d, member, id, listed⟩

/-- Every commit leaves the tables as the last declaration committed. -/
theorem declares_of_allowed (allowed : Allowed c k ef) (inv : Integrity k.store)
    (valid : Team.validate teams = .ok declared) (before : Declares k.store declared)
    (fresh : ∀ d ∈ declared, ∀ u ∈ d.members, mints c ≠ some u)
    (unclaimed : ∀ d, declares c = some d →
      ∀ p ∈ (ef.apply k.store).pendingMembers, k.store.user? p.userId = none) :
    Declares (ef.apply k.store) ((declares c).getD declared) := by
  cases new : declares c with
  | some d =>
    obtain ⟨teams, members, pending, rfl, synced⟩ := sync_of_declares allowed new
    obtain ⟨_, valid⟩ := declares_valid new
    exact declares_of_sync valid synced (unclaimed d new) before.named
  | none =>
    rcases roster_of_allowed allowed with kept | ⟨u, rfl⟩ | ⟨teams, members, pending, rfl⟩
    · exact declares_of_roster allowed kept inv valid before fresh
    · exact declares_of_bootstrap allowed valid before
    · cases allowed with
      | sync request valid' => rw [declares_sync request valid'] at new; cases new

end

/-- Ids of people and of the teams members belong to are ones the service
writes itself. -/
structure Written (σ : Store) : Prop where
  users : ∀ u ∈ σ.users, Plain u.id
  teams : ∀ m ∈ σ.teamMembers, Plain m.teamId

theorem written_of_allowed {c : Call} {k : Committed} (allowed : Allowed c k ef)
    (before : Written k.store) : Written (ef.apply k.store) := by
  constructor
  · intro u there
    rcases user_origin allowed there with ⟨u₀, stored, later⟩ | ⟨rfl | rfl, _⟩
    · exact later.id ▸ before.users u₀ stored
    · cases allowed with
      | createUser _ _ new =>
        rw [new]
        exact plain_of_canonical (canonical_minted c.uuid)
    · cases allowed with
      | bootstrap _ _ canonical new =>
        rw [new]
        exact plain_of_canonical canonical
  · intro m there
    rcases roster_of_allowed allowed with kept | ⟨u, rfl⟩ | ⟨teams, members, pending, rfl⟩
    · exact before.teams m (kept.2.1 ▸ there)
    · rcases Table.mem_put.mp there with rfl | ⟨old, _⟩
      · exact plain_administrators
      · exact before.teams m old
    · cases allowed with
      | sync _ valid synced =>
        rcases synced.origin m there with old | ⟨d, member, id⟩
        · exact before.teams m old
        · obtain ⟨prefixed, ok, _⟩ := validate_ok valid member
          rw [id, prefixed]
          exact plain_of_name ok

/-! ### Runs -/

/-- Every declared id is one of the given ones, which no call draws. -/
def Within (D : List String) (S : Handlers.System) : Prop :=
  ∀ s ∈ S.sessions, (∀ u ∈ declaredBy s.call, u ∈ D) ∧ ∀ u, mints s.call = some u → u ∉ D

theorem within_of_apart {S S' : Handlers.System} (apart : Apart S') (later : Later S S') :
    Within (S'.sessions.flatMap fun s => declaredBy s.call) S := by
  intro s there
  obtain ⟨i, here⟩ := List.mem_iff_getElem?.mp there
  obtain ⟨s', still, same⟩ := later.session here
  have stays := List.mem_of_getElem? still
  rw [← same]
  refine ⟨fun u declared => List.mem_flatMap.mpr ⟨s', stays, declared⟩, fun u drawn declared => ?_⟩
  obtain ⟨s'', other, listed⟩ := List.mem_flatMap.mp declared
  exact apart s' stays s'' other u listed drawn

theorem Apart.earlier {S S' : Handlers.System} (apart : Apart S') (later : Later S S') : Apart S := by
  intro s there s' there' u listed drawn
  have within := within_of_apart apart later
  exact (within s there).2 u drawn ((within s' there').1 u listed)

/-- The commits of the other calls, none of which gives one of the ids to a new
person behind the locks of a sync. -/
def Sparing (D : List String) : Rely Store Write Res := fun ℓ n σ σ' =>
  Others ℓ n σ σ' ∧ (SyncLocked ℓ σ → ∀ u ∈ D, σ.user? u = none → σ'.user? u = none)

/-- While nobody draws a declared id, nobody has an id a sync leaves pending. -/
theorem watched_syncs {D : List String} (plain : ∀ u ∈ D, Plain u) :
    System.Watched service Integrity Others Effective (fun _ _ S => Within D S)
      (fun c => ∃ r, c.request = .syncTeams r) (Sparing D)
      (fun c k => ∀ r, c.request = .syncTeams r → Unclaimed (Sparing D) r k)
      (fun _ _ _ _ _ => True) := by
  constructor
  · rintro c ⟨r, request⟩ σ t inv
    refine ServiceProofs.wp_service (fun _ _ => trivial) fun _ => ?_
    rw [request]
    refine wp_map (wp_mono (wp_syncTeams (fun _ _ _ _ change => change.1) request inv)
      (fun _ _ _ _ h => h) (fun k h r' same => ?_) fun _ _ _ _ _ => trivial)
    cases same
    exact h.2
  · intro S a S' i j c c' ℓ' p' k sound step within there _ _ running store room commits _
    obtain ⟨ℓ, p, here⟩ := running
    have others : Others ℓ' p'.upcoming S.store S'.store :=
      ⟨c, k, commits.store ▸ commits.inv, room, commits.guar, commits.store, store.symm⟩
    refine ⟨others, fun locked u declared absent => ?_⟩
    by_contra present
    obtain ⟨row, found⟩ := Option.ne_none_iff_exists'.mp present
    obtain ⟨member, key⟩ := Store.user?_mem found
    obtain ⟨_, ef, allowed, result⟩ := commits.guar
    rw [store, result] at member
    rcases user_origin allowed member with ⟨u₀, old, same⟩ | ⟨rfl | rfl, _⟩
    · rw [Store.user?, Table.find?_eq_none, ← commits.store] at absent
      exact absent u₀ old (by rw [← key, User.key, User.key, same.id])
    · cases allowed with
      | createUser request minted new =>
        have id : row.id = Team.userPrefix ++ c.uuid.text := by rw [new]; rfl
        have same : row.id = u := Engine.weight_plain _ _
          (id ▸ plain_of_canonical (canonical_minted c.uuid)) (plain u declared) key
        obtain ⟨s, still, call⟩ := (System.Reaches.step .refl step trivial : Later S S').session here
        refine (within s (List.mem_of_getElem? still)).2 u ?_ declared
        rw [call]
        simp [mints, request, minted, ← id, same]
    · cases allowed with
      | bootstrap _ _ _ _ _ _ _ team _ _ serial =>
        obtain ⟨t, live⟩ := Option.isSome_iff_exists.mp team
        have there := (Store.liveTeam?_eq_some.mp live).1
        rw [commits.store] at there
        exact absurd serial (room.not_held (locked.serial (by simp [there])))

/-- After any run without a collision of ids, the tables are those of the last
declaration committed. -/
theorem declares_reached {S : Handlers.System} (later : Later (fresh now) S) (apart : Apart S) :
    Declares S.store (declaration S.log) ∧ Written S.store := by
  let D := S.sessions.flatMap fun s => declaredBy s.call
  have plain : ∀ u ∈ D, Plain u := by
    intro u there
    obtain ⟨s, _, listed⟩ := List.mem_flatMap.mp there
    exact plain_of_declaredBy listed
  have within := later.within (P := Within D) fun T _ rest => within_of_apart apart rest
  suffices Declares S.store (declaration S.log) ∧ Written S.store ∧
      ∀ c ∈ S.log, ∃ s ∈ S.sessions, s.call = c from ⟨this.1, this.2.1⟩
  clear apart later
  generalize D = D at within plain
  induction within with
  | refl => exact ⟨declares_migrated, ⟨nofun, nofun⟩, nofun⟩
  | @step T a T' before step good ih =>
    obtain ⟨declares, written, logged⟩ := ih
    have reachable : Reachable T := ⟨migrated, now, integrity_migrated, before.mono fun _ _ _ _ => trivial⟩
    have onward : Later T T' := .step .refl step trivial
    have stays (logged : ∀ c ∈ T.log, ∃ s ∈ T.sessions, s.call = c) :
        ∀ c ∈ T.log, ∃ s ∈ T'.sessions, s.call = c := by
      intro c there
      obtain ⟨s, member, same⟩ := logged c there
      obtain ⟨i, here⟩ := List.mem_iff_getElem?.mp member
      obtain ⟨s', still, same'⟩ := onward.session here
      exact ⟨s', List.mem_of_getElem? still, same'.trans same⟩
    rcases reachable.lands step with ⟨store, log⟩ | ⟨i, c, k, lands⟩
    · rw [store, log]
      exact ⟨declares, written, stays logged⟩
    · obtain ⟨ef, allowed, from_here, result⟩ := lands_effect lands
      have inv := reachable.inv
      obtain ⟨ℓ, p, here⟩ := lands.running
      obtain ⟨s, still, same⟩ := onward.session here
      have mine := good s (List.mem_of_getElem? still)
      rw [same] at mine
      have meets := lands.meets _ _ _ _ (before.ready_watched ServiceProofs.verified
        (watched_syncs plain) (System.sound_start integrity_migrated) rfl)
      obtain ⟨_, valid⟩ := declaration_valid T.log
      rw [lands.log, declaration_append, result]
      rw [← from_here] at declares written inv ⊢
      refine ⟨declares_of_allowed allowed inv valid declares ?_ ?_, written_of_allowed allowed written, ?_⟩
      · intro d member u listed drawn
        obtain ⟨c', logged', declared⟩ := declaration_listed member listed
        obtain ⟨s', there, rfl⟩ := stays logged c' logged'
        exact mine.2 u drawn ((good s' there).1 u declared)
      · intro d declared p there
        obtain ⟨r, request, valid⟩ := declares_some declared
        refine meets ⟨r, request⟩ r request d valid ?_ p ?_
        · intro ℓ n σ σ' change locked u listed absent
          refine change.2 locked u (mine.1 u ?_) absent
          rwa [declaredBy, declared]
        · rwa [← lands.result, result, ← from_here]
      · intro c' there
        rcases List.mem_append.mp there with old | new
        · exact stays logged c' old
        · obtain rfl := List.mem_singleton.mp new
          exact ⟨s, List.mem_of_getElem? still, same⟩

/-- What a resolve answers about its user, against a declaration. -/
structure Listed (r : ResolveCredentialRequest) (a : ResolveCredentialResponse)
    (declared : List Team.Declared) : Prop where
  teams : ∀ team ∈ a.teamIds, ∃ d ∈ declared, d.id = team ∧ a.userId ∈ d.members
  admin : r.adminFromTeam = true → a.isAdmin = true →
    ∃ d ∈ declared, d.id = Team.administrators ∧ a.userId ∈ d.members
  exactly : r.adminFromTeam = true → (a.isAdmin = true ↔ Team.administrators ∈ a.teamIds)

theorem listed_of_says {S : Handlers.System} (declares : Declares S.store (declaration S.log))
    (written : Written S.store) (inv : Integrity S.store) (told : Says r a S) :
    Listed r a (declaration S.log) := by
  rcases told with ⟨rfl, _⟩ | ⟨row, u, resolves⟩
  · exact ⟨nofun, nofun, fun _ => ⟨nofun, nofun⟩⟩
  have teams : ∀ team ∈ a.teamIds,
      ∃ d ∈ declaration S.log, d.id = team ∧ a.userId ∈ d.members := by
    intro team there
    rw [resolves.teamIds] at there
    obtain ⟨m, member, rfl⟩ := List.mem_map.mp there
    obtain ⟨member, holds⟩ := List.mem_filter.mp member
    simp only [Bool.and_eq_true, decide_eq_true_eq] at holds
    obtain ⟨t, live⟩ := Option.isSome_iff_exists.mp holds.2
    obtain ⟨d, declared, name, listed⟩ := declares.members m member t live
    obtain ⟨_, valid⟩ := declaration_valid S.log
    obtain ⟨stored, key⟩ := Store.team?_mem (Store.liveTeam?_eq_some.mp live).1
    obtain ⟨prefixed, ok⟩ := declares.named t stored
    have id : t.id = m.teamId := Engine.weight_plain _ _ (prefixed ▸ plain_of_name ok)
      (written.teams m member) key
    have person : row.userId = m.userId := by
      have credential : row ∈ S.store.credentials := List.mem_of_find?_eq_some resolves.token
      obtain ⟨u', owner, same⟩ := inv.credentialOwner row credential
      exact Engine.weight_plain _ _ (same ▸ written.users u' (Store.user?_mem owner).1)
        (plain_of_declared valid declared listed) holds.1.symm
    refine ⟨d, declared, ?_, ?_⟩
    · rw [← id, prefixed, ← name, (validate_ok valid declared).1]
    · rw [resolves.userId, person]
      exact listed
  have exactly : r.adminFromTeam = true → (a.isAdmin = true ↔ Team.administrators ∈ a.teamIds) := by
    intro fromTeam
    simp [resolves.isAdmin, fromTeam, List.any_eq_true]
  exact ⟨teams, fun fromTeam isAdmin => teams _ ((exactly fromTeam).mp isAdmin), exactly⟩

/-- Teams, members and pending administrators are those of the last declaration
committed; and a resolve answers no team, and no administrator by team, that
the last declaration at some moment of the call does not list its user in. -/
theorem membership_declared {S : Handlers.System} (later : Later (fresh now) S) (apart : Apart S) :
    Declares S.store (declaration S.log) ∧
    ∀ T (i : Nat) c ℓ r a, Later (fresh now) T → Later T S → T.sessions[i]? = none →
      S.sessions[i]? = some ⟨c, ℓ, .answered (.ok (.resolveCredential a))⟩ →
      c.request = .resolveCredential r →
      ∃ S₁, Later T S₁ ∧ Later S₁ S ∧ Listed r a (declaration S₁.log) := by
  refine ⟨(declares_reached later apart).1, ?_⟩
  intro T i c ℓ r a first rest absent there request
  obtain ⟨S₁, before, after, told⟩ := resolved ((reachable_fresh now).later first) rest there
    request fun s here => by rw [absent] at here; cases here
  have reached := first.trans before
  obtain ⟨declares, written⟩ := declares_reached reached (apart.earlier after)
  exact ⟨S₁, before, after,
    listed_of_says declares written ((reachable_fresh now).later reached).inv told⟩

end

open Bytewise in
theorem membership_declared_founded :
    Declares (after founding).store (declaration (after founding).log) :=
  (membership_declared (later_fresh (by decide +kernel)) (by unfold Apart; decide +kernel)).1

end IamDb.Membership
