import IamDb.Declaration

/-! Syncing the declared teams. Under the sync lock the three tables change by
nobody else's hand, so what the transaction sees of them is what it has itself
made of the tables it found; only the people may change meanwhile. -/
namespace IamDb.TeamProofs
open Txn Schema Messages Service Team Effects Evolution Interference Rules Declaration

variable [Engine]

/-- The three tables a sync writes. -/
structure Tables where
  teams : Table Team.key
  members : Table TeamMember.key
  pending : Table PendingMember.key

def Tables.of (σ : Store) : Tables := ⟨σ.teams, σ.teamMembers, σ.pendingMembers⟩

/-- A store with these tables in place of its own. -/
def Tables.over (V : Tables) (σ : Store) : Store :=
  { σ with teams := V.teams, teamMembers := V.members, pendingMembers := V.pending }

@[simp] theorem over_teams (V : Tables) (σ : Store) : (V.over σ).teams = V.teams := rfl
@[simp] theorem over_members (V : Tables) (σ : Store) : (V.over σ).teamMembers = V.members := rfl
@[simp] theorem over_pending (V : Tables) (σ : Store) : (V.over σ).pendingMembers = V.pending := rfl
@[simp] theorem over_user? (V : Tables) (σ : Store) : (V.over σ).user? userId = σ.user? userId := rfl

theorem of_roster {σ σ' : Store} (kept : Roster σ σ') : Tables.of σ' = Tables.of σ := by
  rw [Tables.of, Tables.of, kept.1, kept.2.1, kept.2.2]

/-- The locks of a sync: the sentinel, and the `administrators` row when there
is one. -/
structure SyncLocked (ℓ : Local Store Write Res) (σ : Store) : Prop where
  sentinel : Holds ℓ.held .teamSyncLock .exclusive
  serial : (σ.team? administrators).isSome →
    Holds ℓ.held (.team (weight administrators)) .exclusive

/-- A rely under which no id of a list is given to a new person behind a sync's
locks. -/
def Stays (R : Rely Store Write Res) (ids : List String) : Prop :=
  ∀ ℓ n (σ σ' : Store), R ℓ n σ σ' → SyncLocked ℓ σ → ∀ m ∈ ids, σ.user? m = none →
    σ'.user? m = none

/-- What a sync may say of a declared member at a store; that nobody has the id
it may say while nobody can take it. -/
def Truth (lasting : Prop) (σ : Store) (m : String) : Known → Prop
  | .absent => lasting → σ.user? m = none
  | .softDeleted => (σ.user? m).isSome ∧ σ.liveUser? m = none
  | .live => (σ.liveUser? m).isSome

section
variable {ℓ ℓ' : Local Store Write Res} {R : Rely Store Write Res} {ids : List String}

theorem SyncLocked.calm (locked : SyncLocked ℓ σ) (calm : Calm ℓ σ σ') :
    SyncLocked ℓ σ' ∧ Roster σ σ' := by
  have kept := calm.roster_synced locked.sentinel locked.serial
  refine ⟨⟨locked.sentinel, ?_⟩, kept⟩
  rw [Store.team?, kept.1]
  exact locked.serial

theorem SyncLocked.within (locked : SyncLocked ℓ σ) (within : ℓ.Within ℓ') : SyncLocked ℓ' σ :=
  ⟨within.holds locked.sentinel, fun there => within.holds (locked.serial there)⟩

theorem Stays.drift (stays : Stays R ids) (quiet : Quiet R) (locked : SyncLocked ℓ σ)
    (drift : Drift R ℓ n σ σ') (member : m ∈ ids) (absent : σ.user? m = none) :
    σ'.user? m = none := by
  have both : SyncLocked ℓ σ' ∧ σ'.user? m = none := by
    refine Drift.preserves (P := fun σ => SyncLocked ℓ σ ∧ σ.user? m = none) drift
      ⟨locked, absent⟩ ?_
    rintro σ σ' change ⟨locked, absent⟩
    have calm : Calm ℓ σ σ' := .single (quiet ℓ n σ σ' change)
    exact ⟨(locked.calm calm).1, stays ℓ n σ σ' change locked m member absent⟩
  exact both.2

theorem Truth.drift {k : Known} (truth : Truth (Stays R ids) σ m k) (quiet : Quiet R)
    (locked : SyncLocked ℓ σ) (drift : Drift R ℓ n σ σ') (member : m ∈ ids) :
    Truth (Stays R ids) σ' m k := by
  have evolves := (calm_of_drift quiet drift).evolves
  cases k with
  | absent => exact fun stays => stays.drift quiet locked drift member (truth stays)
  | softDeleted =>
    obtain ⟨u, found⟩ := Option.isSome_iff_exists.mp truth.1
    obtain ⟨u', found', later⟩ := evolves.user? found
    have gone := truth.2
    refine ⟨by simp [found'], ?_⟩
    simp only [Store.liveUser?, found, found', Option.filter_some, later.deletedAt] at gone ⊢
    split at gone
    · cases gone
    · rename_i dead
      rw [if_neg dead]
  | live =>
    obtain ⟨u, live⟩ := Option.isSome_iff_exists.mp truth
    obtain ⟨found, alive⟩ := Store.liveUser?_eq_some.mp live
    obtain ⟨u', found', later⟩ := evolves.user? found
    show (σ'.liveUser? m).isSome
    rw [Store.liveUser?_eq_some.mpr ⟨found', later.deletedAt.trans alive⟩]
    rfl

end

/-- Every team row archived since was archived under its lock. -/
def Stamped (ℓ : Local Store Write Res) (before teams : Table Team.key) : Prop :=
  ∀ t ∈ teams, t ∈ before ∨ t.deletedAt = none ∨ ∃ now, t.deletedAt = some now ∧
    ⟨⟨.team t.key, .exclusive⟩, now⟩ ∈ ℓ.held

theorem Stamped.refl (ℓ : Local Store Write Res) (teams : Table Team.key) :
    Stamped ℓ teams teams := fun _ there => Or.inl there

theorem Stamped.put {ℓ : Local Store Write Res} {teams : Table Team.key}
    (since : t.deletedAt = none ∨ ∃ now, t.deletedAt = some now ∧
      ⟨⟨.team t.key, .exclusive⟩, now⟩ ∈ ℓ.held) : Stamped ℓ teams (teams.put t) := by
  intro x there
  rcases Table.mem_put.mp there with rfl | ⟨was, _⟩
  · exact Or.inr since
  · exact Or.inl was

/-- A sync on its way: it found the tables `B` with `n` live administrators,
and has made `V` of them. -/
structure Syncing (R : Rely Store Write Res) (ids : List String) (known : Map Known) (B : Tables)
    (n : Nat) (ℓ : Local Store Write Res) (σ : Store) (V : Tables) : Prop where
  iso : ℓ.iso = .readCommitted
  inv : Integrity σ
  locked : SyncLocked ℓ σ
  base : Tables.of σ = B
  count : (liveMembers σ administrators).length = n
  view : ∀ τ, Tables.of τ = B → applyAll ℓ.pending τ = V.over τ
  truth : ∀ m k, known.get? m = some k → m ∈ ids ∧ Truth (Stays R ids) σ m k
  newcomer : ∀ m, known.get? m = some .absent → ∀ row ∈ B.members, weight row.userId ≠ weight m
  stamped : Stamped ℓ B.teams V.teams

section
variable {R : Rely Store Write Res} {G : Guar Store Write Res Status α}
  {Q : Post Store Write Res Status α} {ℓ : Local Store Write Res} {ids : List String}
  {known : Map Known} {B V : Tables}

theorem Syncing.drift (state : Syncing R ids known B n ℓ σ V) (quiet : Quiet R)
    (drift : Drift R ℓ next σ σ') : Syncing R ids known B n ℓ σ' V := by
  have calm := calm_of_drift quiet drift
  obtain ⟨locked, kept⟩ := state.locked.calm calm
  exact ⟨state.iso, calm.integrity state.inv, locked, (of_roster kept).trans state.base,
    (congrArg _ (calm.live_members state.inv kept _)).trans state.count, state.view,
    fun m k found => ⟨(state.truth m k found).1,
      (state.truth m k found).2.drift quiet state.locked drift (state.truth m k found).1⟩,
    state.newcomer, state.stamped⟩

/-- The administrators a sync counts before it writes. -/
theorem Syncing.counted (state : Syncing R ids known B n ℓ σ B) :
    (liveMembers (B.over σ) administrators).length = n := by
  have base := state.base
  subst base
  exact state.count

/-- A statement of a sync reads the tables the sync has made, over the people
there are now. -/
theorem wp_sync {s : Sql ρ} {k : ρ → Rpc α} (quiet : Quiet R)
    (state : Syncing R ids known B n ℓ σ V)
    (rest : ∀ ℓ' σ' t', Syncing R ids known B n ℓ σ' V →
      (∀ r mode, ⟨⟨r, mode⟩, true⟩ ∈ s.claims t' .readCommitted (V.over σ') →
        ⟨⟨r, mode⟩, t'⟩ ∈ ℓ'.held) →
      (∀ V', (∀ τ, applyAll (s.exec t' (V.over σ')).2 (V.over τ) = V'.over τ) →
        Stamped ℓ' V.teams V'.teams → Syncing R ids known B n ℓ' σ' V') →
      wp R G (k (s.exec t' (V.over σ')).1) Q ℓ' σ' t') : wp R G (tx s >>= k) Q ℓ σ t := by
  refine wp_drifting quiet (Or.inr state.iso) fun ℓ' σ' t' drift pass _ claimed => ?_
  have before := state.drift quiet drift
  have held := claimed.held
  rw [before.iso, before.view σ' before.base] at held
  rw [before.view σ' before.base] at pass ⊢
  refine rest ℓ' σ' t' before held fun V' writes stamped => ?_
  refine ⟨pass.iso.trans before.iso, before.inv, before.locked.within pass.within, before.base,
    before.count, ?_, before.truth, before.newcomer, ?_⟩
  · intro τ base
    rw [pass.pending, applyAll_append, before.view τ base, writes]
  · intro t there
    rcases stamped t there with was | since
    · exact (before.stamped t was).imp_right (Or.imp_right fun ⟨now, gone, locked⟩ =>
        ⟨now, gone, pass.within.held _ locked⟩)
    · exact Or.inr since

/-- A read of a sync. -/
theorem wp_sync_read {s : Sql ρ} {k : ρ → Rpc α} (quiet : Quiet R)
    (state : Syncing R ids known B n ℓ σ V) (reads : ∀ now σ, (s.exec now σ).2 = [])
    (rest : ∀ ℓ' σ' t', Syncing R ids known B n ℓ' σ' V →
      wp R G (k (s.exec t' (V.over σ')).1) Q ℓ' σ' t') : wp R G (tx s >>= k) Q ℓ σ t :=
  wp_sync quiet state fun ℓ' σ' t' _ _ after =>
    rest ℓ' σ' t' (after V (fun τ => by rw [reads]; rfl) (.refl ℓ' V.teams))

/-! ### The people -/

theorem wp_knownUsers {k : Map Known → Rpc α} (quiet : Quiet R)
    (state : Syncing R ids known B n ℓ σ V) (among : ∀ m ∈ ms, m ∈ ids)
    (rest : ∀ ℓ' σ' t' known', Syncing R ids known' B n ℓ' σ' V →
      (∀ m, (known.get? m).isSome ∨ m ∈ ms → (known'.get? m).isSome) →
      wp R G (k known') Q ℓ' σ' t') : wp R G (knownUsers ms known >>= k) Q ℓ σ t := by
  induction ms generalizing known ℓ σ t with
  | nil =>
    rw [knownUsers, pure_bind]
    exact rest ℓ σ t known state fun m there => by simpa using there
  | cons m ms ih =>
    have among' : ∀ m ∈ ms, m ∈ ids := fun x member => among x (List.mem_cons_of_mem _ member)
    rw [knownUsers]
    split
    · rename_i already
      refine ih state among' fun ℓ' σ' t' known' state' all => rest ℓ' σ' t' known' state' ?_
      rintro x (before | member)
      · exact all x (Or.inl before)
      · rcases List.mem_cons.mp member with rfl | later
        · exact all _ (Or.inl already)
        · exact all x (Or.inr later)
    · rw [bind_assoc]
      refine wp_sync_read quiet state (fun _ _ => rfl) fun ℓ₁ σ₁ t₁ state₁ => ?_
      have true₁ : Truth (Stays R ids) σ₁ m ((selectKnown m).exec t₁ (V.over σ₁)).1 := by
        simp only [selectKnown, over_user?]
        cases found : σ₁.user? m with
        | none => exact fun _ => found
        | some u =>
          cases gone : u.deletedAt with
          | none =>
            have live := Store.liveUser?_eq_some.mpr ⟨found, gone⟩
            simp [Truth, live, gone]
          | some at' => simp [Truth, Store.liveUser?, found, gone]
      -- Who has a membership has a row, and is known.
      have newcomer₁ (absent : ((selectKnown m).exec t₁ (V.over σ₁)).1 = .absent) :
          ∀ row ∈ B.members, weight row.userId ≠ weight m := by
        intro row listed same
        have base : σ₁.teamMembers = B.members := congrArg Tables.members state₁.base
        have there := state₁.inv.memberUser row (base ▸ listed)
        rw [Store.user?, same] at there
        obtain ⟨u, found⟩ := Option.isSome_iff_exists.mp there
        have found : σ₁.user? m = some u := found
        simp only [selectKnown, over_user?, found] at absent
        split at absent <;> cases absent
      have state₂ : Syncing R ids (Map.insert m ((selectKnown m).exec t₁ (V.over σ₁)).1 known) B
          n ℓ₁ σ₁ V := by
        refine { state₁ with truth := fun x k' found => ?_, newcomer := fun x found => ?_ }
        · rw [get?_insert] at found
          split at found
          · rename_i same
            cases found
            exact same ▸ ⟨among m List.mem_cons_self, true₁⟩
          · exact state₁.truth x k' found
        · rw [get?_insert] at found
          split at found
          · rename_i same
            exact same ▸ newcomer₁ (Option.some.inj found)
          · exact state₁.newcomer x found
      refine ih state₂ among' fun ℓ' σ' t' known' state' all => rest ℓ' σ' t' known' state' ?_
      rintro x (before | member)
      · refine all x (Or.inl ?_)
        rw [get?_insert]
        split
        · rfl
        · exact before
      · rcases List.mem_cons.mp member with rfl | later
        · exact all _ (Or.inl (by simp [get?_insert]))
        · exact all x (Or.inr later)

/-! ### The teams -/

/-- What the map of stored teams says of the table it was read from. -/
structure Lists (stored : Map Bool) (teams : Table Team.key) : Prop where
  entries : ∀ e ∈ stored, ∃ t ∈ teams, t.id = e.1 ∧ t.deletedAt.isSome = e.2
  all : ∀ t ∈ teams, ∃ e ∈ stored, e.1 = t.id
  distinct : (stored.map (·.1)).Nodup

theorem lists_collect (teams : Table Team.key) :
    Lists (Map.collect (teams.rows.map fun t => (t.id, t.deletedAt.isSome))) teams := by
  constructor
  · intro e member
    obtain ⟨t, there, rfl⟩ := List.mem_map.mp (mem_collect member)
    exact ⟨t, there, rfl, rfl⟩
  · intro t there
    have found : (Map.collect (teams.rows.map fun t => (t.id, t.deletedAt.isSome))).get? t.id ≠
        none := by
      intro none
      exact get?_collect_eq_none.mp none _ (List.mem_map_of_mem there) rfl
    obtain ⟨v, found⟩ := Option.ne_none_iff_exists'.mp found
    exact ⟨_, get?_mem found, rfl⟩
  · exact ((perm_collect (nodup_teamIds teams)).map _).nodup_iff.mpr (nodup_teamIds teams)

/-- The row an id names in a table on the way. -/
private theorem sweep_find {teams before : Table Team.key}
    (sweep : Sweep declared before on off teams) (stored : t ∈ before) :
    ∃ t' ∈ teams, t'.id = t.id ∧ teams.find? (weight t.id) = some t' := by
  obtain ⟨t', there, id, _⟩ := sweep.kept t stored
  refine ⟨t', there, id, ?_⟩
  rw [← id]
  exact Table.find?_of_mem there

theorem wp_openTeams {k : List String × Progress → Rpc α} (quiet : Quiet R)
    (failed : ∀ e ℓ σ t, Q (.error e) ℓ σ t) (lists : Lists stored B.teams)
    (among : ∀ d ∈ ds, d ∈ declared) (fresh : ∀ d ∈ ds, d.id ∉ on)
    (distinct : (ds.map fun d => d.id).Nodup) (state : Syncing R ids known B n ℓ σ V)
    (sweep : Sweep declared B.teams on [] V.teams)
    (rest : ∀ ℓ' σ' t' teams on' out, Syncing R ids known B n ℓ' σ' { V with teams := teams } →
      Sweep declared B.teams on' [] teams → (∀ i, i ∈ on' ↔ i ∈ on ∨ i ∈ ds.map (·.id)) →
      wp R G (k out) Q ℓ' σ' t') :
    wp R G (openTeams stored ds progress >>= k) Q ℓ σ t := by
  induction ds generalizing ℓ σ t V on progress k with
  | nil =>
    rw [openTeams, pure_bind]
    exact rest ℓ σ t V.teams on _ state sweep (by simp)
  | cons d ds ih =>
    have among' : ∀ x ∈ ds, x ∈ declared := fun x member => among x (List.mem_cons_of_mem _ member)
    obtain ⟨new, distinct'⟩ := List.nodup_cons.mp distinct
    have fresh' : ∀ x ∈ ds, x.id ∉ d.id :: on := by
      intro x member there
      rcases List.mem_cons.mp there with same | was
      · exact new (List.mem_map.mpr ⟨x, member, same⟩)
      · exact fresh x (List.mem_cons_of_mem _ member) was
    -- What is left to do once this team is on.
    have next {ℓ' : Local Store Write Res} {σ' : Store} {t' : Int} {T : Table Team.key}
        {progress' : Progress} {k' : List String × Progress → Rpc α}
        (state' : Syncing R ids known B n ℓ' σ' { V with teams := T })
        (sweep' : Sweep declared B.teams (d.id :: on) [] T)
        (same : ∀ out ℓ σ t, (∀ out, wp R G (k out) Q ℓ σ t) → wp R G (k' out) Q ℓ σ t) :
        wp R G (openTeams stored ds progress' >>= k') Q ℓ' σ' t' := by
      refine ih (V := { V with teams := T }) among' fresh' distinct' state' sweep' ?_
      intro ℓ₂ σ₂ t₂ teams₂ on₂ out state₂ sweep₂ ons
      refine same out ℓ₂ σ₂ t₂ fun out' => rest ℓ₂ σ₂ t₂ teams₂ on₂ out' state₂ sweep₂ fun i => ?_
      rw [ons i, List.mem_cons, List.map_cons, List.mem_cons, or_assoc, or_left_comm]
    rw [openTeams]
    cases found : stored.get? d.id with
    | none =>
      simp only [insertTeam, bind_assoc]
      refine wp_sync quiet state fun ℓ₁ σ₁ t₁ before _ after => ?_
      cases taken : V.teams.find? (weight d.id) with
      | some t =>
        simp only [insertTeamRow, Store.team?, over_teams, taken, Option.isSome_some, if_true]
        exact failed _ _ _ _
      | none =>
        by_cases clash : V.teams.rows.any fun t => weight t.name = weight d.name
        · simp only [insertTeamRow, Store.team?, over_teams, taken, clash, Option.isSome_none,
            Bool.false_eq_true, if_false, if_true]
          exact failed _ _ _ _
        · simp only [insertTeamRow, Store.team?, over_teams, taken, clash, Option.isSome_none,
            Bool.false_eq_true, if_false, pure_bind] at after ⊢
          exact next (after { V with teams := V.teams.put ⟨d.id, 1, d.name, none⟩ } (fun _ => rfl)
            (.put (Or.inl rfl))) (sweep.insert (among d List.mem_cons_self) taken (by simp))
            fun out ℓ σ t all => all out
    | some archived =>
      obtain ⟨t₀, stored₀, id, flag⟩ := lists.entries _ (get?_mem found)
      have id : t₀.id = d.id := id
      cases archived with
      | true =>
        simp only [bind_assoc]
        refine wp_sync quiet state fun ℓ₁ σ₁ t₁ before _ after => ?_
        obtain ⟨t', there, id', row⟩ := sweep_find sweep stored₀
        obtain ⟨old, same⟩ := sweep.untouched stored₀ there id'
          (by rw [id', id]; exact fresh d List.mem_cons_self) (by simp)
        rw [id] at id' row
        simp only [updateTeamDeletedAt, Store.team?, over_teams, row] at after ⊢
        have dead : t'.deletedAt ≠ none := by
          rw [same]
          simpa [Option.isSome_iff_ne_none] using flag
        have on₁ : Sweep declared B.teams (d.id :: on) [] (V.teams.put
            ({ t' with deletedAt := none, version := t'.version + 1 } : Schema.Team)) := by
          simpa only [id'] using sweep.reactivate there old dead (by simp)
        exact next (after ⟨V.teams.put { t' with deletedAt := none, version := t'.version + 1 },
          V.members, V.pending⟩ (fun _ => rfl) (.put (Or.inl rfl))) on₁ fun out ℓ σ t all => all _
      | false =>
        have live : t₀.deletedAt = none := by simpa using flag
        have on₁ := sweep.keep_live stored₀ live (by simp)
        rw [id] at on₁
        exact next (T := V.teams) state on₁ fun out ℓ σ t all => all out

theorem wp_archiveTeams {k : Progress → Rpc α} (quiet : Quiet R)
    (entries : ∀ e ∈ (stored : Map Bool), ∃ t ∈ B.teams, t.id = e.1 ∧ t.deletedAt.isSome = e.2)
    (opened : ∀ i, i ∈ on ↔ i ∈ declared.map (·.id)) (fresh : ∀ e ∈ stored, e.1 ∉ off)
    (distinct : (stored.map fun e => e.1).Nodup) (state : Syncing R ids known B n ℓ σ V)
    (sweep : Sweep declared B.teams on off V.teams)
    (rest : ∀ ℓ' σ' t' teams off' out, Syncing R ids known B n ℓ' σ' { V with teams := teams } →
      Sweep declared B.teams on off' teams →
      (∀ i, i ∈ off' ↔ i ∈ off ∨ i ∈ stored.map (·.1) ∧ i ∉ on) → wp R G (k out) Q ℓ' σ' t') :
    wp R G (archiveTeams declared stored progress >>= k) Q ℓ σ t := by
  induction stored generalizing ℓ σ t V off progress with
  | nil =>
    rw [archiveTeams, pure_bind]
    exact rest ℓ σ t V.teams off _ state sweep (by simp)
  | cons entry stored ih =>
    obtain ⟨i, archived⟩ := entry
    have entries' : ∀ e ∈ stored, ∃ t ∈ B.teams, t.id = e.1 ∧ t.deletedAt.isSome = e.2 :=
      fun e member => entries e (List.mem_cons_of_mem _ member)
    obtain ⟨t₀, stored₀, id, flag⟩ := entries _ List.mem_cons_self
    obtain ⟨new, distinct'⟩ := List.nodup_cons.mp distinct
    have id : t₀.id = i := id
    have flag : t₀.deletedAt.isSome = archived := flag
    -- What is left to do once this entry is dealt with.
    have next {ℓ' : Local Store Write Res} {σ' : Store} {t' : Int} {T : Table Team.key}
        {progress' : Progress} {off₁ : List String}
        (state' : Syncing R ids known B n ℓ' σ' { V with teams := T })
        (sweep' : Sweep declared B.teams on off₁ T)
        (offs : ∀ x, x ∈ off₁ ↔ x ∈ off ∨ x = i ∧ i ∉ on) :
        wp R G (archiveTeams declared stored progress' >>= k) Q ℓ' σ' t' := by
      have fresh' : ∀ e ∈ stored, e.1 ∉ off₁ := by
        intro e member there
        rcases (offs e.1).mp there with was | ⟨same, _⟩
        · exact fresh e (List.mem_cons_of_mem _ member) was
        · exact new (List.mem_map.mpr ⟨e, member, same⟩)
      refine ih (V := { V with teams := T }) entries' fresh' distinct' state' sweep' ?_
      intro ℓ₂ σ₂ t₂ teams₂ off₂ out state₂ sweep₂ offs₂
      refine rest ℓ₂ σ₂ t₂ teams₂ off₂ out state₂ sweep₂ fun x => ?_
      rw [offs₂ x, offs x, List.map_cons, List.mem_cons]
      constructor
      · rintro ((was | ⟨rfl, shut⟩) | ⟨later, shut⟩)
        · exact Or.inl was
        · exact Or.inr ⟨Or.inl rfl, shut⟩
        · exact Or.inr ⟨Or.inr later, shut⟩
      · rintro (was | ⟨rfl | later, shut⟩)
        · exact Or.inl (Or.inl was)
        · exact Or.inl (Or.inr ⟨rfl, shut⟩)
        · exact Or.inr ⟨later, shut⟩
    have isOn : declared.any (fun t => t.id = i) = true ↔ i ∈ on := by
      rw [opened i, List.any_eq_true, List.mem_map]
      simp only [decide_eq_true_eq]
    rw [archiveTeams]
    by_cases listed : i ∈ on
    · rw [if_pos (by simp [isOn.mpr listed])]
      exact next (T := V.teams) state sweep fun x => by simp [listed]
    have unlisted : declared.any (fun t => t.id = i) = false := by
      rw [Bool.eq_false_iff]
      exact fun there => listed (isOn.mp there)
    cases archived with
    | true =>
      simp only [Bool.true_or, if_true]
      have off₁ := sweep.keep_dead stored₀ (by simpa [Option.isSome_iff_ne_none] using flag)
        (id ▸ listed)
      rw [id] at off₁
      refine next (T := V.teams) state off₁ fun x => ?_
      simp only [List.mem_cons, listed, not_false_eq_true, and_true]
      exact or_comm
    | false =>
      rw [if_neg (by simp [unlisted]), bind_assoc]
      refine wp_sync quiet state fun ℓ₁ σ₁ t₁ before held after => ?_
      obtain ⟨t', there, id', row⟩ := sweep_find sweep stored₀
      obtain ⟨old, same⟩ := sweep.untouched stored₀ there id' (by rw [id', id]; exact listed)
        (by rw [id', id]; exact fresh _ List.mem_cons_self)
      rw [id] at id' row
      have locked : ⟨⟨.team t'.key, .exclusive⟩, t₁⟩ ∈ ℓ₁.held := by
        have found : (V.over σ₁).team? i = some t' := row
        exact held _ _ (mem_teamRow found rfl)
      simp only [updateTeamDeletedAt, Store.team?, over_teams, row] at after
      have live : t'.deletedAt = none := by
        rw [same]
        simpa using flag
      have off₁ : Sweep declared B.teams on (i :: off) (V.teams.put
          ({ t' with deletedAt := some t₁, version := t'.version + 1 } : Schema.Team)) := by
        simpa only [id'] using sweep.archive there old live (id' ▸ listed)
      have state₁ := after ⟨V.teams.put { t' with deletedAt := some t₁, version := t'.version + 1 },
        V.members, V.pending⟩ (fun _ => rfl) (.put (Or.inr ⟨t₁, rfl, locked⟩))
      rw [bind_assoc]
      refine wp_sync_read quiet state₁ (fun _ _ => rfl) fun ℓ₂ σ₂ t₂ state₂ => ?_
      refine next state₂ off₁ fun x => ?_
      simp only [List.mem_cons, listed, not_false_eq_true, and_true]
      exact or_comm

/-! ### The members -/

theorem wp_removeMembers {k : Progress → Rpc α} (quiet : Quiet R)
    (state : Syncing R ids known B n ℓ σ V)
    (rest : ∀ ℓ' σ' t' members out, Syncing R ids known B n ℓ' σ' { V with members := members } →
      (∀ m, m ∈ members ↔ m ∈ V.members ∧ ∀ g ∈ gone, m.key ≠ (weight teamId, weight g)) →
      wp R G (k out) Q ℓ' σ' t') :
    wp R G (removeMembers teamId gone progress >>= k) Q ℓ σ t := by
  induction gone generalizing ℓ σ t V progress with
  | nil =>
    rw [removeMembers, pure_bind]
    exact rest ℓ σ t V.members _ state (by simp)
  | cons g gone ih =>
    rw [removeMembers, bind_assoc]
    refine wp_sync quiet state fun ℓ₁ σ₁ t₁ _ _ after => ?_
    have state₁ : Syncing R ids known B n ℓ₁ σ₁
        { V with members := V.members.erase (weight teamId, weight g) } := by
      refine after _ (fun τ => ?_) (.refl _ _)
      cases found : (V.members.find? (weight teamId, weight g)).isSome with
      | true =>
        simp only [deleteMember, over_members, found, if_true]
        rfl
      | false =>
        simp only [deleteMember, over_members, found, Bool.false_eq_true, if_false, applyAll_nil]
        rw [Table.erase_of_absent (by simpa using found)]
    refine ih state₁ fun ℓ₂ σ₂ t₂ members out state₂ left => rest ℓ₂ σ₂ t₂ members out state₂ ?_
    intro m
    rw [left m, Table.mem_erase, List.forall_mem_cons, and_assoc]

theorem wp_addMembers {k : Progress → Rpc α} (quiet : Quiet R)
    (failed : ∀ e ℓ σ t, Q (.error e) ℓ σ t) (state : Syncing R ids known B n ℓ σ V)
    (rest : ∀ ℓ' σ' t' members out, Syncing R ids known B n ℓ' σ' { V with members := members } →
      (∀ m, m ∈ members ↔ m ∈ V.members ∨ ∃ u ∈ new, m = ⟨teamId, u⟩) →
      wp R G (k out) Q ℓ' σ' t') :
    wp R G (addMembers teamId new progress >>= k) Q ℓ σ t := by
  induction new generalizing ℓ σ t V progress with
  | nil =>
    rw [addMembers, pure_bind]
    exact rest ℓ σ t V.members _ state (by simp)
  | cons u new ih =>
    rw [addMembers, bind_assoc]
    refine wp_sync quiet state fun ℓ₁ σ₁ t₁ _ _ after => ?_
    simp only [bind_assoc]
    cases done : ((insertMember teamId u).exec t₁ (V.over σ₁)).1 with
    | error e => exact failed _ _ _ _
    | ok _ =>
      obtain ⟨writes, absent, _⟩ := IdentityProofs.insertMember_done done
      rw [writes] at after
      simp only [orElse, wp_ret_bind]
      refine ih (after { V with members := V.members.put ⟨teamId, u⟩ } (fun _ => rfl)
        (.refl _ _)) ?_
      intro ℓ₂ σ₂ t₂ members out state₂ added
      refine rest ℓ₂ σ₂ t₂ members out state₂ fun m => ?_
      rw [added m, List.exists_mem_cons_iff, ← or_assoc, Table.mem_put]
      refine or_congr_left ⟨fun there => ?_, fun there => ?_⟩
      · exact there.elim Or.inr fun was => Or.inl was.1
      · refine there.elim (fun was => Or.inr ⟨was, fun same => ?_⟩) Or.inl
        exact Table.find?_eq_none.mp absent m was same

/-- One team's members: those it is to have, whoever it had. -/
theorem wp_writeMembers {k : Progress → Rpc α} (quiet : Quiet R)
    (failed : ∀ e ℓ σ t, Q (.error e) ℓ σ t) (state : Syncing R ids known B n ℓ σ V)
    (roll : Roll known B.members done V.members)
    (apart : ∀ d' ∈ done, weight d'.id ≠ weight (team : Declared).id)
    (rest : ∀ ℓ' σ' t' members out, Syncing R ids known B n ℓ' σ' { V with members := members } →
      Roll known B.members (team :: done) members → wp R G (k out) Q ℓ' σ' t') :
    wp R G (writeMembers known reactivated team progress >>= k) Q ℓ σ t := by
  unfold writeMembers
  simp only [bind_assoc]
  refine wp_sync_read quiet state (fun _ _ => rfl) fun ℓ₁ σ₁ t₁ state₁ => ?_
  refine wp_removeMembers quiet state₁ fun ℓ₂ σ₂ t₂ left progress₂ state₂ removed => ?_
  refine wp_addMembers quiet failed state₂ fun ℓ₃ σ₃ t₃ members progress₃ state₃ added => ?_
  refine rest ℓ₃ σ₃ t₃ members progress₃ state₃ (roll.next apart ?_ ?_ removed added)
  · intro u
    simp [mem_extendSorted, selectMembers, Table.mem_def, and_assoc]
  · intro u
    simp [mem_extendSorted, Wanted]

theorem wp_writeAllMembers {k : Progress → Rpc α} (quiet : Quiet R)
    (failed : ∀ e ℓ σ t, Q (.error e) ℓ σ t) (state : Syncing R ids known B n ℓ σ V)
    (roll : Roll known B.members done V.members)
    (distinct : ((ds : List Declared).map fun d => weight d.id).Nodup)
    (apart : ∀ d ∈ ds, ∀ d' ∈ done, weight d'.id ≠ weight d.id)
    (rest : ∀ ℓ' σ' t' members done' out,
      Syncing R ids known B n ℓ' σ' { V with members := members } →
      Roll known B.members done' members → (∀ d, d ∈ done' ↔ d ∈ done ∨ d ∈ ds) →
      wp R G (k out) Q ℓ' σ' t') :
    wp R G (writeAllMembers known reactivated ds progress >>= k) Q ℓ σ t := by
  induction ds generalizing ℓ σ t V done progress with
  | nil =>
    rw [writeAllMembers, pure_bind]
    exact rest ℓ σ t V.members done _ state roll (by simp)
  | cons d ds ih =>
    rw [writeAllMembers, bind_assoc]
    have apart₁ := apart d List.mem_cons_self
    refine wp_writeMembers quiet failed state roll apart₁ fun ℓ₁ σ₁ t₁ members out state₁ roll₁ => ?_
    obtain ⟨new, distinct'⟩ := List.nodup_cons.mp distinct
    refine ih (V := { V with members := members }) state₁ roll₁ distinct' ?_ ?_
    · intro x member d' before same
      rcases List.mem_cons.mp before with rfl | earlier
      · exact new (List.mem_map.mpr ⟨x, member, same.symm⟩)
      · exact apart x (List.mem_cons_of_mem _ member) d' earlier same
    · intro ℓ₂ σ₂ t₂ members₂ done' out₂ state₂ roll₂ all
      refine rest ℓ₂ σ₂ t₂ members₂ done' out₂ state₂ roll₂ fun x => ?_
      rw [all x, List.mem_cons, List.mem_cons, or_assoc, or_left_comm]

/-! ### The pending rows -/

theorem wp_insertAllPending {k : Unit → Rpc α} (quiet : Quiet R)
    (failed : ∀ e ℓ σ t, Q (.error e) ℓ σ t) (state : Syncing R ids known B n ℓ σ V)
    (rest : ∀ ℓ' σ' t' pending, Syncing R ids known B n ℓ' σ' { V with pending := pending } →
      (∀ p, p ∈ pending ↔ p ∈ V.pending ∨ ∃ u ∈ new, p = ⟨administrators, u⟩) →
      wp R G (k ()) Q ℓ' σ' t') :
    wp R G (insertAllPending new >>= k) Q ℓ σ t := by
  induction new generalizing ℓ σ t V with
  | nil =>
    rw [insertAllPending, pure_bind]
    exact rest ℓ σ t V.pending state (by simp)
  | cons u new ih =>
    rw [insertAllPending, bind_assoc]
    refine wp_sync quiet state fun ℓ₁ σ₁ t₁ _ _ after => ?_
    simp only [bind_assoc]
    by_cases taken : (V.pending.find? (weight administrators, weight u)).isSome
    · simp only [insertPending, over_pending, taken, if_true]
      exact failed _ _ _ _
    by_cases orphan : ((V.over σ₁).team? administrators).isNone
    · simp only [insertPending, over_pending, taken, orphan, Bool.false_eq_true, if_false, if_true]
      exact failed _ _ _ _
    simp only [insertPending, over_pending, taken, orphan, Bool.false_eq_true, if_false] at after ⊢
    refine ih (after { V with pending := V.pending.put ⟨administrators, u⟩ } (fun _ => rfl)
      (.refl _ _)) ?_
    intro ℓ₂ σ₂ t₂ pending state₂ from_list
    refine rest ℓ₂ σ₂ t₂ pending state₂ fun p => ?_
    have absent : V.pending.find? (weight administrators, weight u) = none := by simpa using taken
    rw [from_list p, List.exists_mem_cons_iff, ← or_assoc, Table.mem_put]
    refine or_congr_left ⟨fun there => ?_, fun there => ?_⟩
    · exact there.elim Or.inr fun was => Or.inl was.1
    · refine there.elim (fun was => Or.inr ⟨was, fun same => ?_⟩) Or.inl
      exact Table.find?_eq_none.mp absent p was same

/-- The pending rows are the given ids and no others. -/
theorem wp_replacePending {k : Unit → Rpc α} (quiet : Quiet R)
    (failed : ∀ e ℓ σ t, Q (.error e) ℓ σ t) (state : Syncing R ids known B n ℓ σ V)
    (rest : ∀ ℓ' σ' t' pending, Syncing R ids known B n ℓ' σ' { V with pending := pending } →
      (∀ p, p ∈ pending ↔ ∃ u ∈ new, p = ⟨administrators, u⟩) → wp R G (k ()) Q ℓ' σ' t') :
    wp R G (replacePending new >>= k) Q ℓ σ t := by
  unfold replacePending
  rw [bind_assoc]
  refine wp_sync quiet state fun ℓ₁ σ₁ t₁ _ _ after => ?_
  have state₁ : Syncing R ids known B n ℓ₁ σ₁ { V with pending := Table.empty } := by
    refine after _ (fun τ => ?_) (.refl _ _)
    have all : (V.pending.rows.filter fun _ => true) = V.pending.rows := by simp
    have none : V.pending.eraseAll (V.pending.rows.map (·.key)) = Table.empty := by
      refine Table.ext_rows (List.eq_nil_iff_forall_not_mem.mpr fun p member => ?_)
      obtain ⟨there, gone⟩ := Table.mem_eraseAll.mp member
      exact gone (List.mem_map_of_mem there)
    simp only [deletePending, over_pending, all]
    rw [IdentityProofs.applyAll_dropPending, over_pending, none]
    rfl
  refine wp_insertAllPending quiet failed state₁ fun ℓ₂ σ₂ t₂ pending state₂ from_list => ?_
  refine rest ℓ₂ σ₂ t₂ pending state₂ fun p => (from_list p).trans ?_
  exact ⟨fun there => there.resolve_left Table.not_mem_empty, Or.inr⟩

/-! ### The whole -/

/-- A member somebody is known to be has a row. -/
theorem Syncing.someone (state : Syncing R ids known B n ℓ σ V) (someone : knownAs known m ≠ .absent) :
    (σ.user? m).isSome := by
  unfold knownAs at someone
  cases found : known.get? m with
  | none => simp [found] at someone
  | some k =>
    have truth := (state.truth m k found).2
    cases k with
    | absent => simp [found] at someone
    | softDeleted => exact truth.1
    | live =>
      obtain ⟨u, live⟩ := Option.isSome_iff_exists.mp truth
      simp [(Store.liveUser?_eq_some.mp live).1]

theorem Syncing.alive (state : Syncing R ids known B n ℓ σ V) (live : knownAs known m = .live) :
    (σ.liveUser? m).isSome := by
  unfold knownAs at live
  cases found : known.get? m with
  | none => simp [found] at live
  | some k =>
    obtain rfl : k = .live := by simpa [found] using live
    exact (state.truth m .live found).2

/-- Somebody known to be live is, and nobody else the sync knows. -/
theorem Syncing.live_only (state : Syncing R ids known B n ℓ σ V)
    (someone : knownAs known m ≠ .absent) (live : (σ.liveUser? m).isSome) :
    knownAs known m = .live := by
  unfold knownAs at someone ⊢
  cases found : known.get? m with
  | none => simp [found] at someone
  | some k =>
    have truth := (state.truth m k found).2
    cases k with
    | absent => simp [found] at someone
    | softDeleted => simp [truth.2] at live
    | live => rfl

/-- What a sync has made of the tables once everything is written. -/
structure Complete (declared : List Declared) (known : Map Known) (B V : Tables) : Prop where
  teams : ∃ on off, Sweep declared B.teams on off V.teams ∧
    (∀ i, i ∈ on ↔ i ∈ declared.map (·.id)) ∧
    ∀ t ∈ B.teams, t.id ∉ on → t.id ∈ off
  members : Roll known B.members declared V.members
  asked : ∀ d ∈ declared, ∀ m ∈ d.members, (known.get? m).isSome
  pending : ∀ p, p ∈ V.pending ↔ ∃ u ∈ pendingAfter known
    (declared.find? fun t => t.id = administrators)
    (liveAfter known (declared.find? fun t => t.id = administrators)), p = ⟨administrators, u⟩

/-- Whoever is a member and declared one is known. -/
theorem Syncing.already (state : Syncing R ids known B n ℓ σ V) (stored : m ∈ σ.teamMembers)
    (surveyed : (known.get? m.userId).isSome) : knownAs known m.userId ≠ .absent := by
  intro absent
  obtain ⟨k, found⟩ := Option.isSome_iff_exists.mp surveyed
  obtain rfl : k = .absent := by simpa [knownAs, found] using absent
  have base : σ.teamMembers = B.members := congrArg Tables.members state.base
  exact state.newcomer m.userId found m (base ▸ stored) rfl

/-- The people a sync leaves are those it knew. -/
theorem Complete.surveyed {r : SyncTeamsRequest} (complete : Complete declared known B V)
    (valid : validate r.teams = .ok declared) (state : Syncing R ids known B n ℓ σ V) :
    Surveyed declared σ V.members V.pending known where
  someone _ := state.someone
  live _ someone := ⟨state.alive, state.live_only someone⟩
  already m stored d member listed := state.already stored (complete.asked d member _ listed)
  listed d member u := by
    refine ⟨?_, complete.members.full d member u⟩
    rintro ⟨m, there, mine, rfl⟩
    rcases complete.members.listed m there with ⟨d', member', mine', wanted⟩ | ⟨_, other⟩
    · obtain rfl := declared_unique valid member member' (mine.symm.trans mine')
      exact wanted
    · exact absurd mine (other d member)
  awaited := complete.pending

/-- What is written is what was declared. -/
theorem Complete.synced {r : SyncTeamsRequest} (complete : Complete declared known B V)
    (valid : validate r.teams = .ok declared) (state : Syncing R ids known B n ℓ σ V)
    (guarded : n > 0 → liveAfter known (declared.find? fun t => t.id = administrators) ≠ 0) :
    Synced declared σ V.teams V.members V.pending := by
  obtain ⟨on, off, sweep, ons, offs⟩ := complete.teams
  have base := state.base
  subst base
  have isOn (i : String) : i ∈ on ↔ ∃ d ∈ declared, d.id = i := by
    rw [ons i, List.mem_map]
  have live (t : Schema.Team) (there : t ∈ V.teams) :
      t.deletedAt = none ↔ ∃ d ∈ declared, d.id = t.id := by
    rw [← isOn]
    refine ⟨fun alive => ?_, sweep.live t there⟩
    by_contra shut
    by_cases isOff : t.id ∈ off
    · exact sweep.dead t there isOff alive
    · exact isOff (offs t (sweep.same t there shut isOff) shut)
  -- The declared administrators, and the team as it now is.
  have admins (d : Declared) (found : declared.find? (fun t => t.id = administrators) = some d) :
      d ∈ declared ∧ d.id = administrators :=
    ⟨List.mem_of_find?_eq_some found, by simpa using List.find?_some found⟩
  refine ⟨live, fun d member => sweep.present d.id ((isOn _).mpr ⟨d, member, rfl⟩), sweep.turned,
    sweep.kept, ?_, complete.members.origin, ?_, ?_, ?_, ?_, known, complete.surveyed valid state⟩
  · intro m there
    rcases complete.members.listed m there with ⟨d, member, same, wanted⟩ | old
    · exact Or.inl ⟨d, member, same, wanted.1, state.someone wanted.2⟩
    · exact Or.inr old
  · intro some
    have before : n > 0 := by
      rw [← state.count]
      exact List.length_pos_iff.mpr some
    obtain ⟨d, found, u, member, alive⟩ := liveAfter_ne_zero (guarded before)
    obtain ⟨declared, id⟩ := admins d found
    obtain ⟨m, there, same, rfl⟩ := complete.members.full d declared u ⟨member, by simp [alive]⟩
    obtain ⟨t, stored, named⟩ := sweep.present d.id ((isOn _).mpr ⟨d, declared, rfl⟩)
    have team : ({ σ with teams := V.teams, teamMembers := V.members } : Store).liveTeam? m.teamId =
        .some t := by
      refine Store.liveTeam?_eq_some.mpr ⟨?_, (live t stored).mpr ⟨d, declared, named.symm⟩⟩
      rw [Store.team?, same, ← named]
      exact Table.find?_of_mem stored
    have user : (({ σ with teams := V.teams, teamMembers := V.members } : Store).liveUser?
        m.userId).isSome := state.alive alive
    refine List.ne_nil_of_mem (List.mem_filter.mpr ⟨there, ?_⟩)
    rw [team, user, same, id]
    simp
  · intro p there
    obtain ⟨u, pending, rfl⟩ := (complete.pending p).mp there
    obtain ⟨_, d, found, member, _⟩ := mem_pendingAfter pending
    obtain ⟨declared, id⟩ := admins d found
    exact ⟨rfl, d, declared, id, member⟩
  · intro some
    obtain ⟨p, there⟩ := List.exists_mem_of_ne_nil _ some
    obtain ⟨u, pending, rfl⟩ := (complete.pending p).mp there
    obtain ⟨none, d, found, _, _⟩ := mem_pendingAfter pending
    obtain ⟨member, id⟩ := admins d found
    rw [List.eq_nil_iff_forall_not_mem]
    intro m listed
    simp only [liveMembers, List.mem_filter, Bool.and_eq_true, decide_eq_true_eq] at listed
    obtain ⟨stored, ⟨same, _⟩, user⟩ := listed
    have user : (σ.liveUser? m.userId).isSome := user
    rcases complete.members.listed m stored with ⟨d', member', same', wanted⟩ | ⟨_, other⟩
    · obtain rfl := declared_unique valid member member' (id ▸ same ▸ same')
      have alive := state.live_only wanted.2 user
      rw [found] at none
      refine absurd none (Nat.ne_of_gt (List.length_pos_of_mem (List.mem_filter.mpr
        ⟨wanted.1, ?_⟩)))
      simpa using alive
    · exact other d member (id ▸ same)
  · intro m stored wanted
    refine complete.members.stays m stored fun d member same => ⟨wanted d member same, ?_⟩
    exact state.already stored (complete.asked d member _ (wanted d member same))

end

/-- While no declared id can be given to a new person behind a sync's locks,
nobody has an id the sync leaves pending. -/
def Unclaimed (R : Rely Store Write Res) (r : SyncTeamsRequest) (k : Commit Store Write Res ε α) :
    Prop :=
  ∀ declared, validate r.teams = .ok declared → Stays R (declared.flatMap (·.members)) →
    ∀ p ∈ k.result.pendingMembers, k.store.user? p.userId = none

section
variable {R : Rely Store Write Res} {ℓ : Local Store Write Res} {c : Call} {r : SyncTeamsRequest}

/-- The sync from its writes on. -/
private theorem wp_written (quiet : Quiet R) (request : c.request = .syncTeams r)
    (valid : validate r.teams = .ok declared)
    (state : Syncing R (declared.flatMap (·.members)) known B n ℓ σ B)
    (all : ∀ d ∈ declared, ∀ m ∈ d.members, (known.get? m).isSome)
    (guarded : n > 0 → liveAfter known (declared.find? fun t => t.id = administrators) ≠ 0) :
    wp R (fun k => Does c .syncTeams k ∧ Unclaimed R r k) (do
      let live := liveAfter known (declared.find? fun t => t.id = administrators)
      let pending := pendingAfter known (declared.find? fun t => t.id = administrators) live
      let (reactivated, progress) ← writeTeams declared progress
      let progress ← writeAllMembers known reactivated declared progress
      replacePending pending
      commit
      pure { progress.resp with
        pendingAdministratorUserIds := pending
        changedUserIds := progress.changed }) (fun _ _ _ _ => True) ℓ σ t := by
  unfold writeTeams
  simp only [bind_assoc, pure_bind]
  refine wp_sync_read quiet state (fun _ _ => rfl) fun ℓ₁ σ₁ t₁ state₁ => ?_
  have lists : Lists (Map.collect ((selectTeams.exec t₁ (B.over σ₁)).1)) B.teams :=
    lists_collect B.teams
  have distinct : (declared.map fun d => weight d.id).Nodup :=
    List.Nodup.map_on (fun d member d' member' same => declared_unique valid member member' same)
      (validate_nodup valid)
  have ids : (declared.map fun d => d.id).Nodup := by
    refine List.Nodup.of_map weight ?_
    rw [List.map_map]
    exact distinct
  refine wp_openTeams quiet (fun _ _ _ _ => trivial) lists (fun d member => member) (by simp) ids
    state₁ (.refl declared B.teams) fun ℓ₂ σ₂ t₂ teams on opened state₂ sweep₂ ons => ?_
  have ons : ∀ i, i ∈ on ↔ i ∈ declared.map (·.id) := by simpa using ons
  refine wp_archiveTeams (V := { B with teams := teams }) quiet lists.entries ons (by simp)
    lists.distinct state₂ sweep₂ ?_
  intro ℓ₃ σ₃ t₃ teams off progress₃ state₃ sweep₃ offs
  refine wp_writeAllMembers quiet (fun _ _ _ _ => trivial) state₃ (.refl known B.members) distinct
    nofun fun ℓ₄ σ₄ t₄ members done progress₄ state₄ roll₄ dones => ?_
  refine wp_replacePending quiet (fun _ _ _ _ => trivial) state₄ ?_
  intro ℓ₅ σ₅ t₅ pending state₅ from_list
  rw [wp_finish]
  intro σ₆ t₆ drift _
  have state₆ := state₅.drift quiet drift
  have complete : Complete declared known B ⟨teams, members, pending⟩ := by
    refine ⟨⟨on, off, sweep₃, ons, fun t there shut => ?_⟩, ?_, all, from_list⟩
    · obtain ⟨e, listed, id⟩ := lists.all t there
      exact (offs t.id).mpr (Or.inr ⟨List.mem_map.mpr ⟨e, listed, id⟩, shut⟩)
    · refine roll₄.congr fun d => ?_
      simpa using dones d
  have result : applyAll ℓ₅.pending σ₆ =
      (Effect.sync teams members pending).apply σ₆ := state₆.view σ₆ state₆.base
  have base : σ₆.teams = B.teams := congrArg Tables.teams state₆.base
  have stamped₆ : Stamped ℓ₅ σ₆.teams teams := base ▸ state₆.stamped
  refine ⟨⟨⟨_, .sync request valid (complete.synced valid state₆ guarded) state₆.locked.sentinel
    state₆.locked.serial stamped₆, result⟩, ?_⟩, trivial⟩
  intro declared' valid' stays p there
  obtain rfl := Except.ok.inj (valid.symm.trans valid')
  have there : p ∈ pending := by
    rw [Commit.result] at there
    rwa [result] at there
  obtain ⟨u, member, rfl⟩ := (from_list p).mp there
  obtain ⟨_, d, found, listed, absent⟩ := mem_pendingAfter member
  obtain ⟨k, found⟩ := Option.isSome_iff_exists.mp
    (all d (List.mem_of_find?_eq_some found) u listed)
  obtain rfl : k = .absent := by simpa [knownAs, found] using absent
  exact (state₆.truth u .absent found).2 stays

/-- A sync writes what it was declared, under its locks, or nothing. -/
theorem wp_syncTeams (quiet : Quiet R) (request : c.request = .syncTeams r) (inv : Integrity σ) :
    wp R (fun k => Does c .syncTeams k ∧ Unclaimed R r k) (syncTeams r) (fun _ _ _ _ => True)
      ℓ σ t := by
  unfold syncTeams
  cases valid : validate r.teams with
  | error e => trivial
  | ok declared =>
    simp only [Prog.lift, wp_ret_bind]
    rw [wp_start]
    intro σ₀ t₀ drift₀ _
    have inv₀ : Integrity σ₀ := (calm_of_drift quiet drift₀).integrity inv
    refine wp_statement quiet (Or.inl rfl) fun ℓ₁ σ₁ t₁ pass₁ _ claimed₁ => ?_
    have inv₁ := pass₁.calm.integrity inv₀
    have sentinel : Holds ℓ₁.held .teamSyncLock .exclusive :=
      claimed₁.holds (by simp [selectSyncLockForUpdate, exclude])
    have pending₁ : ℓ₁.pending = [] := pass₁.pending
    have iso₁ : ℓ₁.iso = .readCommitted := pass₁.iso
    rw [Local.opened_pending, applyAll_nil]
    cases there : σ₁.teamSyncLock with
    | false =>
      simp only [selectSyncLockForUpdate, there, Bool.false_eq_true, if_false]
      exact trivial
    | true =>
      simp only [selectSyncLockForUpdate, there, if_true, orElse, wp_ret_bind, lockAdministrators]
      refine wp_statement quiet (Or.inl rfl) fun ℓ₂ σ₂ t₂ pass₂ _ claimed₂ => ?_
      have pending₂ : ℓ₂.pending = [] := by
        simpa [pending₁, selectAdministratorsForUpdate] using pass₂.pending
      have held₂ := claimed₂.held
      rw [pending₁, applyAll_nil, iso₁] at held₂
      have locked₂ : SyncLocked ℓ₂ σ₂ := by
        refine ⟨pass₂.within.holds sentinel, fun found => ?_⟩
        obtain ⟨team, found⟩ := Option.isSome_iff_exists.mp found
        exact ⟨t₂, held₂ _ _ (by simp [selectAdministratorsForUpdate, teamRow, found])⟩
      have state₂ : Syncing R (declared.flatMap (·.members)) [] (Tables.of σ₂)
          (liveMembers σ₂ administrators).length ℓ₂ σ₂ (Tables.of σ₂) := by
        refine ⟨pass₂.iso.trans iso₁, pass₂.calm.integrity inv₁, locked₂, rfl, rfl, ?_, ?_, ?_,
          .refl _ _⟩
        · intro τ base
          rw [pending₂, applyAll_nil, ← base]
          rfl
        · rintro _ _ ⟨⟩
        · rintro _ ⟨⟩
      unfold liveAdministrators
      refine wp_sync_read quiet state₂ (fun _ _ => rfl) fun ℓ₃ σ₃ t₃ state₃ => ?_
      refine wp_knownUsers quiet state₃ (fun m member => member) ?_
      intro ℓ₄ σ₄ t₄ known state₄ all
      split
      · trivial
      rename_i guarded
      refine wp_written quiet request valid state₄ ?_ ?_
      · intro d member m listed
        exact all m (Or.inr (List.mem_flatMap.mpr ⟨d, member, listed⟩))
      · intro some none
        refine guarded ⟨?_, none⟩
        simpa [countLiveAdministrators, state₃.counted] using some

end

end IamDb.TeamProofs
