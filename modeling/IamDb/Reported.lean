import Mathlib
import IamDb.Syncs

/-! A sync does what it reports. The three tables it leaves are told by the
store it found and the declaration, row by row; each count it answers is the
size of a difference of the two states, and each user whose teams change is
among the changed ones it names. -/
namespace IamDb.Reported
open Txn Schema Messages Service Handlers Runs Team Declaration Syncs

/-- Lists without repeats and with the same members are of one length. -/
theorem length_of_members {α : Type} {l l' : List α} (once : l.Nodup) (once' : l'.Nodup)
    (same : ∀ x, x ∈ l ↔ x ∈ l') : l.length = l'.length :=
  ((List.perm_ext_iff_of_nodup once once').mpr same).length_eq

section
variable [Engine] {σ : Store} {declared : List Declared}

/-! ### The teams a sync leaves -/

/-- A team the declaration omits, as a sync leaves it. -/
def retired (now : Int) (t : Schema.Team) : Schema.Team :=
  if t.deletedAt.isSome then t else closed now t

omit [Engine] in
theorem retired_id : (retired now t).id = t.id := by
  unfold retired
  split <;> rfl

omit [Engine] in
theorem retired_name : (retired now t).name = t.name := by
  unfold retired
  split <;> rfl

omit [Engine] in
theorem retired_archived : (retired now t).deletedAt.isSome := by
  unfold retired
  split
  · rename_i archived
    exact archived
  · rfl

omit [Engine] in
theorem opened_live : (opened d found).deletedAt = none := by
  cases found with
  | none => rfl
  | some t => cases archived : t.deletedAt <;> simp [opened, archived]

/-- Where there is room, a stored team the engine takes for a declared one has
its id. -/
theorem declared_id (room : ∀ d ∈ declared, Room σ.teams d) (member : d ∈ declared)
    (stored : t ∈ σ.teams) (same : weight d.id = t.key) : t.id = d.id := by
  cases found : exactly σ.teams d.id with
  | none =>
    obtain ⟨absent, _⟩ := room d member found
    exact absurd same.symm (Table.find?_eq_none.mp absent t stored)
  | some t' =>
    obtain ⟨there, id⟩ := exactly_eq_some.mp found
    have here : t' = t := Table.eq_of_key there stored ((congrArg weight id).trans same)
    exact here ▸ id

theorem mem_storedTeams {T : Table Schema.Team.key} :
    e ∈ storedTeams T ↔ ∃ t ∈ T, (t.id, t.deletedAt.isSome) = e := by
  have distinct : ((T.rows.map fun t => (t.id, t.deletedAt.isSome)).map (·.1)).Nodup := by
    refine List.Nodup.of_map weight ?_
    rw [List.map_map, List.map_map]
    exact T.distinct
  rw [storedTeams, (perm_collect distinct).mem_iff, List.mem_map]
  rfl

omit [Engine] in
theorem omits_iff : omits declared (i, archived) = true ↔
    archived = false ∧ ∀ d ∈ declared, d.id ≠ i := by
  simp [omits]

theorem mem_closing (proper : Proper declared) (room : ∀ d ∈ declared, Room σ.teams d) :
    t ∈ closing now (openedTeams σ declared) declared (storedTeams σ.teams) ↔
      ∃ t₀ ∈ σ.teams, t₀.deletedAt = none ∧ (∀ d ∈ declared, d.id ≠ t₀.id) ∧ t = closed now t₀ := by
  have kept (t₀ : Schema.Team) (stored : t₀ ∈ σ.teams) (other : ∀ d ∈ declared, d.id ≠ t₀.id) :
      (openedTeams σ declared).find? (weight t₀.id) = some t₀ := by
    refine Table.find?_of_mem ((mem_openedTeams proper).mpr (Or.inr ⟨stored, fun d member same => ?_⟩))
    exact other d member (declared_id room member stored same).symm
  rw [closing, List.mem_filterMap]
  constructor
  · rintro ⟨e, selected, written⟩
    obtain ⟨entry, omitted⟩ := List.mem_filter.mp selected
    obtain ⟨t₀, stored, rfl⟩ := mem_storedTeams.mp entry
    obtain ⟨live, other⟩ := omits_iff.mp omitted
    rw [kept t₀ stored other, Option.map_some, Option.some.injEq] at written
    exact ⟨t₀, stored, by simpa using live, other, written.symm⟩
  · rintro ⟨t₀, stored, live, other, rfl⟩
    refine ⟨(t₀.id, t₀.deletedAt.isSome), List.mem_filter.mpr
      ⟨mem_storedTeams.mpr ⟨t₀, stored, rfl⟩, omits_iff.mpr ⟨by rw [live]; rfl, other⟩⟩, ?_⟩
    rw [kept t₀ stored other]
    rfl

theorem keys_closing {B : Table Schema.Team.key} :
    ((closing now B declared stored).map Schema.Team.key).Sublist
      (stored.map fun e => weight e.1) := by
  unfold closing
  induction stored with
  | nil => exact .slnil
  | cons e stored ih =>
    rw [List.filter_cons]
    split
    · cases row : B.find? (weight e.1) with
      | none =>
        rw [List.filterMap_cons_none (by rw [row]; rfl)]
        exact ih.cons _
      | some t =>
        have key : (closed now t).key = weight e.1 := (Table.find?_eq_some.mp row).2
        rw [List.filterMap_cons_some (b := closed now t) (by rw [row]; rfl), List.map_cons,
          List.map_cons, key]
        exact ih.cons_cons _
    · exact ih.cons _

/-- The teams after a sync: the declared ones, live, and the others, archived. -/
theorem mem_settledTeams (proper : Proper declared) (room : ∀ d ∈ declared, Room σ.teams d) :
    t ∈ settledTeams now σ declared ↔ (∃ d ∈ declared, t = opened d (exactly σ.teams d.id)) ∨
      ∃ t₀ ∈ σ.teams, (∀ d ∈ declared, d.id ≠ t₀.id) ∧ t = retired now t₀ := by
  have distinct : ((closing now (openedTeams σ declared) declared (storedTeams σ.teams)).map
      Schema.Team.key).Nodup := nodup_storedTeams.sublist keys_closing
  have archives (t : Schema.Team) :
      t.key ∈ (closing now (openedTeams σ declared) declared (storedTeams σ.teams)).map Schema.Team.key ↔
        ∃ t₀ ∈ σ.teams, t₀.deletedAt = none ∧ (∀ d ∈ declared, d.id ≠ t₀.id) ∧ t.key = t₀.key := by
    rw [List.mem_map]
    constructor
    · rintro ⟨t', there, key⟩
      obtain ⟨t₀, stored, live, other, rfl⟩ := (mem_closing proper room).mp there
      exact ⟨t₀, stored, live, other, key.symm⟩
    · rintro ⟨t₀, stored, live, other, key⟩
      exact ⟨closed now t₀, (mem_closing proper room).mpr ⟨t₀, stored, live, other, rfl⟩, key.symm⟩
  rw [settledTeams, Table.mem_putAll distinct, mem_closing proper room, mem_openedTeams proper, archives]
  constructor
  · rintro (⟨t₀, stored, live, other, rfl⟩ | ⟨declared' | ⟨stored, other⟩, kept⟩)
    · exact Or.inr ⟨t₀, stored, other, by simp [retired, live]⟩
    · exact Or.inl declared'
    · have undeclared : ∀ d ∈ declared, d.id ≠ t.id := fun d member same =>
        other d member (congrArg weight same)
      refine Or.inr ⟨t, stored, undeclared, ?_⟩
      cases archived : t.deletedAt with
      | none => exact absurd ⟨t, stored, archived, undeclared, rfl⟩ kept
      | some _ => simp [retired, archived]
  · rintro (⟨d, member, rfl⟩ | ⟨t₀, stored, other, rfl⟩)
    · refine Or.inr ⟨Or.inl ⟨d, member, rfl⟩, ?_⟩
      rintro ⟨t₀, stored, _, other, key⟩
      refine other d member (declared_id room member stored ?_).symm
      exact (congrArg weight (key_opened d σ.teams)).symm.trans key
    · cases archived : t₀.deletedAt with
      | none => exact Or.inl ⟨t₀, stored, archived, other, by simp [retired, archived]⟩
      | some _ =>
        have same : retired now t₀ = t₀ := by simp [retired, archived]
        rw [same]
        refine Or.inr ⟨Or.inr ⟨stored, fun d member key => ?_⟩, ?_⟩
        · exact other d member (declared_id room member stored key).symm
        · rintro ⟨t₁, stored₁, live, _, key⟩
          rw [Table.eq_of_key stored stored₁ key, live] at archived
          cases archived

theorem team?_declared (proper : Proper declared) (room : ∀ d ∈ declared, Room σ.teams d)
    (member : d ∈ declared) :
    (synced now σ declared).team? d.id = some (opened d (exactly σ.teams d.id)) := by
  refine Table.find?_eq_some.mpr ⟨(mem_settledTeams proper room).mpr (Or.inl ⟨d, member, rfl⟩), ?_⟩
  exact congrArg weight (key_opened d σ.teams)

theorem team?_omitted (proper : Proper declared) (room : ∀ d ∈ declared, Room σ.teams d)
    (stored : t₀ ∈ σ.teams) (other : ∀ d ∈ declared, d.id ≠ t₀.id) :
    (synced now σ declared).teams.find? t₀.key = some (retired now t₀) := by
  refine Table.find?_eq_some.mpr ⟨(mem_settledTeams proper room).mpr ?_, ?_⟩
  · exact Or.inr ⟨t₀, stored, other, rfl⟩
  · exact congrArg weight retired_id

/-! ### The members a sync leaves -/

section
variable {known : Map Known} {B M : Table TeamMember.key}

theorem mem_rolled (plain : ∀ m ∈ d.members, Plain m) (untouched : Untouched B M d) :
    m ∈ rolled known B M d ↔
      m ∈ M ∧ (weight m.teamId = weight d.id → Wanted known d m.userId) ∨
        ∃ n ∈ newOf known B d, m = ⟨d.id, n⟩ := by
  have distinct : (((newOf known B d).map fun n => (⟨d.id, n⟩ : TeamMember)).map
      TeamMember.key).Nodup := by
    have sorted : (newOf known B d).Pairwise (· < ·) :=
      (sorted_extendSorted List.Pairwise.nil).filter _
    refine List.Nodup.of_map Prod.snd ?_
    rw [List.map_map, List.map_map]
    exact nodup_weight sorted fun n gained => plain n (mem_newOf.mp gained).1.1
  rw [rolled, Table.mem_putAll distinct, Table.mem_eraseAll]
  constructor
  · rintro (new | ⟨⟨there, left⟩, _⟩)
    · obtain ⟨n, gained, rfl⟩ := List.mem_map.mp new
      exact Or.inr ⟨n, gained, rfl⟩
    · refine Or.inl ⟨there, fun mine => by_contra fun unwanted => left ?_⟩
      have stored : m ∈ B := (untouched.mem mine).mp there
      refine List.mem_map.mpr ⟨m.userId, mem_goneOf.mpr ⟨⟨m, stored, mine, rfl⟩, unwanted⟩, ?_⟩
      rw [TeamMember.key, mine]
  · rintro (⟨there, kept⟩ | ⟨n, gained, rfl⟩)
    · refine Or.inr ⟨⟨there, fun lost => ?_⟩, fun new => ?_⟩
      · obtain ⟨g, lost, key⟩ := List.mem_map.mp lost
        obtain ⟨⟨m', stored', mine', rfl⟩, unwanted⟩ := mem_goneOf.mp lost
        have mine : weight m.teamId = weight d.id := (congrArg Prod.fst key).symm
        have same : m' = m := by
          refine Table.eq_of_key stored' ((untouched.mem mine).mp there) ?_
          rw [← key, TeamMember.key, mine']
        exact unwanted (same ▸ kept mine)
      · obtain ⟨r, new, key⟩ := List.mem_map.mp new
        obtain ⟨n, gained, rfl⟩ := List.mem_map.mp new
        have mine : weight m.teamId = weight d.id := (congrArg Prod.fst key).symm
        obtain ⟨wanted, none⟩ := mem_newOf.mp gained
        exact none ⟨m, (untouched.mem mine).mp there, mine,
          member_unique plain key.symm (kept mine) wanted⟩
    · exact Or.inl (List.mem_map_of_mem gained)

theorem mem_rolledAll {ds : List Declared} (distinct : (ds.map fun d => weight d.id).Nodup)
    (plain : ∀ d ∈ ds, ∀ m ∈ d.members, Plain m) (untouched : ∀ d ∈ ds, Untouched B M d) :
    m ∈ ds.foldl (rolled known B) M ↔
      (m ∈ M ∧ ∀ d ∈ ds, weight m.teamId = weight d.id → Wanted known d m.userId) ∨
        ∃ d ∈ ds, ∃ n ∈ newOf known B d, m = ⟨d.id, n⟩ := by
  induction ds generalizing M with
  | nil => simp
  | cons d ds ih =>
    obtain ⟨new, distinct'⟩ := List.nodup_cons.mp distinct
    have other (d' : Declared) (member : d' ∈ ds) : weight d'.id ≠ weight d.id := fun same =>
      new (List.mem_map.mpr ⟨d', member, same⟩)
    rw [List.foldl_cons, ih distinct' (fun d' member => plain d' (List.mem_cons_of_mem _ member))
      fun d' member => (filter_rolled (other d' member)).trans
        (untouched d' (List.mem_cons_of_mem _ member)),
      mem_rolled (plain d List.mem_cons_self) (untouched d List.mem_cons_self)]
    simp only [List.forall_mem_cons, List.exists_mem_cons_iff]
    constructor
    · rintro (⟨⟨there, kept⟩ | ⟨n, gained, rfl⟩, rest⟩ | gained)
      · exact Or.inl ⟨there, kept, rest⟩
      · exact Or.inr (Or.inl ⟨n, gained, rfl⟩)
      · exact Or.inr (Or.inr gained)
    · rintro (⟨there, kept, rest⟩ | ⟨n, gained, rfl⟩ | gained)
      · exact Or.inl ⟨Or.inl ⟨there, kept⟩, rest⟩
      · exact Or.inl ⟨Or.inr ⟨n, gained, rfl⟩, fun d' member same =>
          absurd same.symm (other d' member)⟩
      · exact Or.inr gained

/-- The rows of a team that is not declared stay as they are. -/
theorem filter_rolledAll {ds : List Declared} (other : ∀ d ∈ ds, w ≠ weight d.id) :
    (ds.foldl (rolled known B) M).rows.filter (fun m => weight m.teamId = w) =
      M.rows.filter fun m => weight m.teamId = w := by
  induction ds generalizing M with
  | nil => rfl
  | cons d ds ih =>
    rw [List.foldl_cons, ih fun d' member => other d' (List.mem_cons_of_mem _ member)]
    exact filter_rolled (other d List.mem_cons_self)

end

/-- A declared member is stored where a user row has the id. -/
theorem wanted_iff (member : d ∈ declared) :
    Wanted (surveyed σ declared) d u ↔ u ∈ d.members ∧ (σ.user? u).isSome := by
  refine and_congr_right fun listed => ?_
  rw [knownAs_surveyed member listed, Ne, standing_absent, Option.isSome_iff_ne_none]

theorem mem_synced (proper : Proper declared) : m ∈ (synced now σ declared).teamMembers ↔
    (m ∈ σ.teamMembers ∧ ∀ d ∈ declared, weight m.teamId = weight d.id →
      Wanted (surveyed σ declared) d m.userId) ∨
    ∃ d ∈ declared, ∃ n ∈ newOf (surveyed σ declared) σ.teamMembers d, m = ⟨d.id, n⟩ :=
  mem_rolledAll proper.ids proper.plain fun _ _ => rfl

/-- A declared team has the declared members. -/
theorem member_synced (proper : Proper declared) (member : d ∈ declared) :
    (∃ m ∈ (synced now σ declared).teamMembers, weight m.teamId = weight d.id ∧ m.userId = u) ↔
      Wanted (surveyed σ declared) d u := by
  constructor
  · rintro ⟨m, there, mine, rfl⟩
    rcases (mem_synced proper).mp there with ⟨_, kept⟩ | ⟨d', member', n, gained, rfl⟩
    · exact kept d member mine
    · obtain rfl := proper.unique member' member mine
      exact (mem_newOf.mp gained).1
  · intro wanted
    by_cases stored : ∃ m ∈ σ.teamMembers, weight m.teamId = weight d.id ∧ m.userId = u
    · obtain ⟨m, there, mine, rfl⟩ := stored
      refine ⟨m, (mem_synced proper).mpr (Or.inl ⟨there, fun d' member' mine' => ?_⟩), mine, rfl⟩
      obtain rfl := proper.unique member member' (mine.symm.trans mine')
      exact wanted
    · exact ⟨⟨d.id, u⟩, (mem_synced proper).mpr (Or.inr ⟨d, member, u, mem_newOf.mpr
        ⟨wanted, stored⟩, rfl⟩), rfl, rfl⟩

/-! ### The counts -/

/-- The counts of the members of several teams. -/
theorem counted_members {known : Map Known} {B : Table TeamMember.key} {ds : List Declared} :
    (ds.foldl (memberProgress known reactivated B) progress).resp =
      { progress.resp with
        membersRemoved := progress.resp.membersRemoved +
          (ds.map fun d => (goneOf known B d).length).sum
        membersAdded := progress.resp.membersAdded +
          (ds.map fun d => (newOf known B d).length).sum } := by
  induction ds generalizing progress with
  | nil => rfl
  | cons d ds ih =>
    rw [List.foldl_cons, ih]
    simp [memberProgress, Nat.add_assoc]

omit [Engine] in
theorem nodup_of_sorted {l : List String} (sorted : l.Pairwise (· < ·)) : l.Nodup :=
  sorted.imp fun less => ne_of_lt less

theorem nodup_goneOf {known : Map Known} {B : Table TeamMember.key} : (goneOf known B d).Nodup :=
  nodup_of_sorted ((sorted_extendSorted List.Pairwise.nil).filter _)

theorem nodup_newOf {known : Map Known} {B : Table TeamMember.key} : (newOf known B d).Nodup :=
  nodup_of_sorted ((sorted_extendSorted List.Pairwise.nil).filter _)

/-- As many rows as there are people to be counted, team by team. -/
theorem length_rows {T : Table TeamMember.key} {p : TeamMember → Bool} {f : Declared → List String}
    (proper : Proper declared) (each : ∀ d ∈ declared, (f d).Nodup)
    (same : ∀ w u, (∃ m ∈ T, p m = true ∧ weight m.teamId = w ∧ m.userId = u) ↔
      ∃ d ∈ declared, weight d.id = w ∧ u ∈ f d) :
    (T.rows.filter p).length = (declared.map fun d => (f d).length).sum := by
  have told : ((T.rows.filter p).map fun m => (weight m.teamId, m.userId)).Nodup := by
    refine List.Nodup.of_map (fun x => (x.1, weight x.2)) ?_
    rw [List.map_map]
    exact T.filter_distinct p
  have people : (declared.flatMap fun d => (f d).map fun u => (weight d.id, u)).Nodup := by
    refine List.nodup_flatMap.mpr ⟨fun d member => (each d member).map fun u u' same => ?_, ?_⟩
    · exact congrArg Prod.snd same
    · refine (List.pairwise_map.mp proper.ids).imp fun apart => List.disjoint_left.mpr ?_
      intro x left right
      obtain ⟨_, _, rfl⟩ := List.mem_map.mp left
      obtain ⟨_, _, same⟩ := List.mem_map.mp right
      exact apart (congrArg Prod.fst same).symm
  have counted := length_of_members told people fun x => ?_
  · simpa [List.length_flatMap] using counted
  · obtain ⟨w, u⟩ := x
    simp only [List.mem_map, List.mem_filter, List.mem_flatMap, Prod.mk.injEq]
    refine Iff.trans ?_ ((same w u).trans ?_)
    · exact exists_congr fun m => and_assoc
    · refine exists_congr fun d => and_congr_right fun _ => ⟨?_, ?_⟩
      · rintro ⟨here, there⟩
        exact ⟨u, there, here, rfl⟩
      · rintro ⟨_, there, here, rfl⟩
        exact ⟨here, there⟩

/-- As many member rows are gone as were counted out. -/
theorem removed_rows (proper : Proper declared) :
    (σ.teamMembers.rows.filter (· ∉ (synced now σ declared).teamMembers)).length =
      (declared.map fun d => (goneOf (surveyed σ declared) σ.teamMembers d).length).sum := by
  refine length_rows proper (fun _ _ => nodup_goneOf) fun w u => ?_
  constructor
  · rintro ⟨m, stored, gone, rfl, rfl⟩
    have unwanted : ¬∀ d ∈ declared, weight m.teamId = weight d.id →
        Wanted (surveyed σ declared) d m.userId := fun kept =>
      (of_decide_eq_true gone) ((mem_synced proper).mpr (Or.inl ⟨stored, kept⟩))
    simp only [not_forall, exists_prop] at unwanted
    obtain ⟨d, member, mine, unwanted⟩ := unwanted
    exact ⟨d, member, mine.symm, mem_goneOf.mpr ⟨⟨m, stored, mine, rfl⟩, unwanted⟩⟩
  · rintro ⟨d, member, rfl, gone⟩
    obtain ⟨⟨m, stored, mine, rfl⟩, unwanted⟩ := mem_goneOf.mp gone
    refine ⟨m, stored, decide_eq_true fun there => unwanted ?_, mine, rfl⟩
    exact (member_synced proper member).mp ⟨m, there, mine, rfl⟩

theorem added_rows (proper : Proper declared) :
    ((synced now σ declared).teamMembers.rows.filter (· ∉ σ.teamMembers)).length =
      (declared.map fun d => (newOf (surveyed σ declared) σ.teamMembers d).length).sum := by
  refine length_rows proper (fun _ _ => nodup_newOf) fun w u => ?_
  constructor
  · rintro ⟨m, there, new, rfl, rfl⟩
    rcases (mem_synced proper).mp there with ⟨stored, _⟩ | ⟨d, member, n, gained, rfl⟩
    · exact absurd stored (of_decide_eq_true new)
    · exact ⟨d, member, rfl, gained⟩
  · rintro ⟨d, member, rfl, gained⟩
    refine ⟨⟨d.id, u⟩, (mem_synced proper).mpr (Or.inr ⟨d, member, u, gained, rfl⟩),
      decide_eq_true fun stored => ?_, rfl, rfl⟩
    exact (mem_newOf.mp gained).2 ⟨_, stored, rfl, rfl⟩

theorem live_before (stored : t ∈ σ.teams) :
    (σ.liveTeam? t.id).isSome = t.deletedAt.isNone := by
  have found : σ.team? t.id = some t := Table.find?_of_mem stored
  rw [Store.liveTeam?, found]
  cases gone : t.deletedAt <;> simp [gone]

/-- Of the stored teams the declared ones are live after a sync. -/
theorem live_after (proper : Proper declared) (room : ∀ d ∈ declared, Room σ.teams d)
    (stored : t ∈ σ.teams) :
    ((synced now σ declared).liveTeam? t.id).isSome = declared.any fun d => d.id = t.id := by
  by_cases listed : ∃ d ∈ declared, d.id = t.id
  · obtain ⟨d, member, same⟩ := listed
    have any : (declared.any fun d => d.id = t.id) = true :=
      List.any_eq_true.mpr ⟨d, member, decide_eq_true same⟩
    rw [any, ← same, Store.liveTeam?, team?_declared proper room member]
    simp [opened_live]
  · have other : ∀ d ∈ declared, d.id ≠ t.id := fun d member same => listed ⟨d, member, same⟩
    have any : (declared.any fun d => d.id = t.id) = false := by simpa using other
    have found : (synced now σ declared).team? t.id = some (retired now t) :=
      team?_omitted proper room stored other
    have archived : (retired now t).deletedAt.isSome := retired_archived
    rw [any, Store.liveTeam?, found]
    cases gone : (retired now t).deletedAt with
    | none => simp [gone] at archived
    | some _ => simp [gone]

theorem inserted_rows (proper : Proper declared) (room : ∀ d ∈ declared, Room σ.teams d) :
    ((synced now σ declared).teams.rows.filter fun t => (σ.team? t.id).isNone).length =
      (declared.filter fun d => (exactly σ.teams d.id).isNone).length := by
  have once : ((declared.filter fun d => (exactly σ.teams d.id).isNone).map fun d =>
      weight d.id).Nodup := proper.ids.sublist (List.filter_sublist.map _)
  have counted := length_of_members ((synced now σ declared).teams.filter_distinct
    fun t => (σ.team? t.id).isNone) once fun w => ?_
  · simpa using counted
  simp only [List.mem_map, List.mem_filter, Option.isNone_iff_eq_none]
  constructor
  · rintro ⟨t, ⟨there, new⟩, rfl⟩
    rcases (mem_settledTeams proper room).mp there with ⟨d, member, rfl⟩ | ⟨t₀, stored, _, rfl⟩
    · refine ⟨d, ⟨member, ?_⟩, congrArg weight (key_opened d σ.teams).symm⟩
      rw [key_opened] at new
      exact exactly_eq_none.mpr fun t stored same =>
        Table.find?_eq_none.mp new t stored (congrArg weight same)
    · rw [retired_id] at new
      exact absurd rfl (Table.find?_eq_none.mp new t₀ stored)
  · rintro ⟨d, ⟨member, new⟩, rfl⟩
    refine ⟨opened d (exactly σ.teams d.id), ⟨(mem_settledTeams proper room).mpr
      (Or.inl ⟨d, member, rfl⟩), ?_⟩, congrArg weight (key_opened d σ.teams)⟩
    rw [key_opened]
    exact (room d member new).1

theorem archived_rows (proper : Proper declared) (room : ∀ d ∈ declared, Room σ.teams d) :
    (σ.teams.rows.filter fun t => (σ.liveTeam? t.id).isSome &&
        ((synced now σ declared).liveTeam? t.id).isNone).length =
      ((storedTeams σ.teams).filter (omits declared)).length := by
  have distinct : ((σ.teams.rows.map fun t => (t.id, t.deletedAt.isSome)).map (·.1)).Nodup := by
    refine List.Nodup.of_map weight ?_
    rw [List.map_map, List.map_map]
    exact σ.teams.distinct
  have entries : ((storedTeams σ.teams).filter (omits declared)).length =
      ((σ.teams.rows.map fun t => (t.id, t.deletedAt.isSome)).filter (omits declared)).length :=
    ((perm_collect distinct).filter _).length_eq
  rw [entries, List.filter_map, List.length_map]
  refine congrArg List.length (List.filter_congr fun t stored => ?_)
  simp only [live_before stored, ← Option.not_isSome, live_after proper room stored]
  cases gone : t.deletedAt <;> simp [omits, gone]

theorem reactivated_rows (proper : Proper declared) (room : ∀ d ∈ declared, Room σ.teams d) :
    (σ.teams.rows.filter fun t => (σ.liveTeam? t.id).isNone &&
        ((synced now σ declared).liveTeam? t.id).isSome).length =
      (declared.filter fun d => archivedIn σ.teams d.id).length := by
  have once : ((declared.filter fun d => archivedIn σ.teams d.id).map fun d =>
      weight d.id).Nodup := proper.ids.sublist (List.filter_sublist.map _)
  have counted := length_of_members (σ.teams.filter_distinct fun t => (σ.liveTeam? t.id).isNone &&
    ((synced now σ declared).liveTeam? t.id).isSome) once fun w => ?_
  · simpa using counted
  simp only [List.mem_map, List.mem_filter, Bool.and_eq_true, ← Option.not_isSome]
  constructor
  · rintro ⟨t, ⟨stored, before, after⟩, rfl⟩
    rw [live_before stored] at before
    rw [live_after proper room stored] at after
    obtain ⟨d, member, same⟩ := List.any_eq_true.mp after
    have same : d.id = t.id := of_decide_eq_true same
    refine ⟨d, ⟨member, ?_⟩, congrArg weight same⟩
    rw [archivedIn, exactly_eq_some.mpr ⟨stored, same.symm⟩]
    simpa using before
  · rintro ⟨d, ⟨member, archived⟩, rfl⟩
    unfold archivedIn at archived
    cases found : exactly σ.teams d.id with
    | none => simp [found] at archived
    | some t =>
      obtain ⟨stored, same⟩ := exactly_eq_some.mp found
      refine ⟨t, ⟨stored, ?_, ?_⟩, congrArg weight same⟩
      · rw [live_before stored]
        simpa [found] using archived
      · rw [live_after proper room stored]
        exact List.any_eq_true.mpr ⟨d, member, decide_eq_true same.symm⟩

/-! ### The people who are not there -/

omit [Engine] in
private theorem foldl_once {p : String → Bool} {l : List String} (acc : List String) :
    (∀ u, u ∈ l.foldl (fun acc m => if p m && m ∉ acc then acc ++ [m] else acc) acc ↔
      u ∈ acc ∨ u ∈ l ∧ p u = true) ∧
    (acc.Nodup →
      (l.foldl (fun acc m => if p m && m ∉ acc then acc ++ [m] else acc) acc).Nodup) := by
  induction l generalizing acc with
  | nil => simp
  | cons m ms ih =>
    rw [List.foldl_cons]
    split
    · rename_i new
      obtain ⟨holds, new⟩ := Bool.and_eq_true_iff.mp new
      obtain ⟨members, once⟩ := ih (acc ++ [m])
      refine ⟨fun u => ?_, fun apart => once ?_⟩
      · rw [members, List.mem_append, List.mem_singleton, List.mem_cons]
        constructor
        · rintro ((before | rfl) | ⟨later, chosen⟩)
          · exact Or.inl before
          · exact Or.inr ⟨Or.inl rfl, holds⟩
          · exact Or.inr ⟨Or.inr later, chosen⟩
        · rintro (before | ⟨rfl | later, chosen⟩)
          · exact Or.inl (Or.inl before)
          · exact Or.inl (Or.inr rfl)
          · exact Or.inr ⟨later, chosen⟩
      · exact List.nodup_append.mpr ⟨apart, List.nodup_singleton m, fun x before y last same =>
          of_decide_eq_true new (by rw [← List.mem_singleton.mp last, ← same]; exact before)⟩
    · rename_i old
      obtain ⟨members, once⟩ := ih acc
      refine ⟨fun u => ?_, once⟩
      rw [members, List.mem_cons]
      constructor
      · rintro (before | ⟨later, chosen⟩)
        · exact Or.inl before
        · exact Or.inr ⟨Or.inr later, chosen⟩
      · rintro (before | ⟨rfl | later, chosen⟩)
        · exact Or.inl before
        · refine Or.inl (by_contra fun new => old ?_)
          rw [chosen, Bool.true_and]
          exact decide_eq_true new
        · exact Or.inr ⟨later, chosen⟩

omit [Engine] in
theorem mem_unknownMembers {known : Map Known} {pending : List String} {ds : List Declared} :
    (∀ u, u ∈ unknownMembers known pending ds ↔ ∃ d ∈ ds, u ∈ d.members ∧
      knownAs known u = .absent ∧ ¬(d.id = administrators ∧ u ∈ pending)) ∧
    (unknownMembers known pending ds).Nodup := by
  suffices ∀ acc : List String, (∀ u, u ∈ ds.foldl (fun acc team =>
      team.members.foldl (fun acc m =>
        if knownAs known m = .absent && !(team.id = administrators && m ∈ pending) && m ∉ acc
        then acc ++ [m] else acc) acc) acc ↔ u ∈ acc ∨ ∃ d ∈ ds, u ∈ d.members ∧
          knownAs known u = .absent ∧ ¬(d.id = administrators ∧ u ∈ pending)) ∧
      (acc.Nodup → (ds.foldl (fun acc team => team.members.foldl (fun acc m =>
        if knownAs known m = .absent && !(team.id = administrators && m ∈ pending) && m ∉ acc
        then acc ++ [m] else acc) acc) acc).Nodup) by
    obtain ⟨members, once⟩ := this []
    exact ⟨fun u => (members u).trans (or_iff_right (List.not_mem_nil)), once List.nodup_nil⟩
  induction ds with
  | nil => simp
  | cons d ds ih =>
    intro acc
    rw [List.foldl_cons]
    obtain ⟨inner, innerOnce⟩ := foldl_once (l := d.members) (p := fun m =>
      decide (knownAs known m = .absent) &&
        !(decide (d.id = administrators) && decide (m ∈ pending))) acc
    obtain ⟨members, once⟩ := ih _
    refine ⟨fun u => ?_, fun apart => once (innerOnce apart)⟩
    have asked : (decide (knownAs known u = .absent) &&
        !(decide (d.id = administrators) && decide (u ∈ pending))) = true ↔
        knownAs known u = .absent ∧ ¬(d.id = administrators ∧ u ∈ pending) := by grind
    rw [members, inner, List.exists_mem_cons_iff, or_assoc, asked]

/-- Who is left pending: the declared administrators nobody has the id of, while
none of them is live. -/
theorem mem_pendingOf (proper : Proper declared) : u ∈ pendingOf σ declared ↔
    liveOf σ declared = 0 ∧ ∃ d ∈ declared, d.id = administrators ∧ u ∈ d.members ∧
      σ.user? u = none := by
  have named (d : Declared) (member : d ∈ declared) (id : d.id = administrators) :
      declared.find? (fun t => t.id = administrators) = some d := by
    cases found : declared.find? fun t => t.id = administrators with
    | none => simpa [id] using List.find?_eq_none.mp found d member
    | some d' =>
      have id' : d'.id = administrators := by simpa using List.find?_some found
      exact congrArg some (proper.unique (List.mem_of_find?_eq_some found) member
        (by rw [id, id']))
  constructor
  · intro pending
    obtain ⟨none, d, admins, listed, absent⟩ := mem_pendingAfter pending
    have member := List.mem_of_find?_eq_some admins
    refine ⟨none, d, member, by simpa using List.find?_some admins, listed, ?_⟩
    rwa [knownAs_surveyed member listed, standing_absent] at absent
  · rintro ⟨none, d, member, id, listed, absent⟩
    rw [pendingOf, none, named d member id]
    refine List.mem_filter.mpr ⟨listed, decide_eq_true ?_⟩
    rwa [knownAs_surveyed member listed, standing_absent]

theorem mem_pendingTable {pending : List String} (distinct : (pending.map weight).Nodup) :
    p ∈ pendingTable pending ↔ p.teamId = administrators ∧ p.userId ∈ pending := by
  have keys : ((pending.map fun u => (⟨administrators, u⟩ : PendingMember)).map
      PendingMember.key).Nodup := by
    refine List.Nodup.of_map Prod.snd ?_
    rw [List.map_map, List.map_map]
    exact distinct
  rw [pendingTable, Table.mem_putAll keys]
  simp only [Table.not_mem_empty, false_and, or_false, List.mem_map]
  constructor
  · rintro ⟨u, listed, rfl⟩
    exact ⟨rfl, listed⟩
  · rintro ⟨team, listed⟩
    exact ⟨p.userId, listed, by rw [← team]⟩

/-- The live administrators after a sync are the declared ones that are live. -/
theorem live_administrators (now : Int) (proper : Proper declared)
    (room : ∀ d ∈ declared, Room σ.teams d) :
    (liveMembers (synced now σ declared) administrators).length = liveOf σ declared := by
  have named {d : Declared} (member : d ∈ declared) (same : weight d.id = weight administrators) :
      d.id = administrators :=
    Engine.weight_plain _ _ (proper.spelled d member) Membership.plain_administrators same
  cases found : declared.find? fun t => t.id = administrators with
  | none =>
    have none : liveOf σ declared = 0 := by
      rw [liveOf, found]
      rfl
    rw [none, List.length_eq_zero_iff, liveMembers, List.filter_eq_nil_iff]
    intro m there live
    simp only [Bool.and_eq_true, decide_eq_true_eq] at live
    obtain ⟨⟨admin, team⟩, _⟩ := live
    obtain ⟨t, team⟩ := Option.isSome_iff_exists.mp team
    obtain ⟨row, alive⟩ := Store.liveTeam?_eq_some.mp team
    obtain ⟨settled, key⟩ := Table.find?_eq_some.mp row
    rcases (mem_settledTeams proper room).mp settled with ⟨d, member, rfl⟩ | ⟨t₀, stored, _, rfl⟩
    · refine List.find?_eq_none.mp found d member (decide_eq_true (named member ?_))
      rw [← admin, ← key]
      exact (congrArg weight (key_opened d σ.teams)).symm
    · have archived : (retired now t₀).deletedAt.isSome := retired_archived
      rw [alive] at archived
      cases archived
  | some d =>
    have member := List.mem_of_find?_eq_some found
    have id : d.id = administrators := by simpa using List.find?_some found
    have told : ((liveMembers (synced now σ declared) administrators).map (·.userId)).Nodup := by
      refine List.Nodup.of_map (fun u => (weight administrators, weight u)) ?_
      rw [List.map_map]
      refine (List.map_congr_left fun m there => ?_).symm ▸
        (synced now σ declared).teamMembers.filter_distinct _
      have live := (List.mem_filter.mp there).2
      simp only [Bool.and_eq_true, decide_eq_true_eq] at live
      rw [Function.comp_apply, TeamMember.key, live.1.1]
    have counted := length_of_members told ((proper.once d member).filter fun m =>
      knownAs (surveyed σ declared) m = .live) fun u => ?_
    · rw [List.length_map] at counted
      rw [counted, liveOf, found]
      rfl
    rw [List.mem_map, List.mem_filter, decide_eq_true_eq]
    constructor
    · rintro ⟨m, there, rfl⟩
      obtain ⟨stored, live⟩ := List.mem_filter.mp there
      simp only [Bool.and_eq_true, decide_eq_true_eq] at live
      have listed := ((member_synced proper member).mp ⟨m, stored, id ▸ live.1.1, rfl⟩).1
      exact ⟨listed, (knownAs_surveyed member listed).trans (standing_live.mpr live.2)⟩
    · rintro ⟨listed, known⟩
      rw [knownAs_surveyed member listed, standing_live] at known
      obtain ⟨u', live⟩ := Option.isSome_iff_exists.mp known
      have wanted := (wanted_iff (σ := σ) member).mpr
        ⟨listed, Option.isSome_iff_exists.mpr ⟨u', (Store.liveUser?_eq_some.mp live).1⟩⟩
      obtain ⟨m, stored, mine, rfl⟩ : ∃ m ∈ (synced now σ declared).teamMembers,
          weight m.teamId = weight d.id ∧ m.userId = u := (member_synced proper member).mpr wanted
      refine ⟨m, List.mem_filter.mpr ⟨stored, ?_⟩, rfl⟩
      have team : (synced now σ declared).team? m.teamId =
          some (opened d (exactly σ.teams d.id)) := by
        rw [← team?_declared proper room member, Store.team?, Store.team?, mine]
      simp only [Bool.and_eq_true, decide_eq_true_eq]
      refine ⟨⟨id ▸ mine, ?_⟩, known⟩
      rw [Store.liveTeam?, team]
      simp [opened_live]

/-! ### The people whose teams change -/

omit [Engine] in
theorem mem_folded {α : Type} {f : α → List String} {xs : List α} {set : List String} :
    u ∈ xs.foldl (fun set x => extendSorted set (f x)) set ↔ u ∈ set ∨ ∃ x ∈ xs, u ∈ f x := by
  induction xs generalizing set with
  | nil => simp
  | cons x xs ih =>
    rw [List.foldl_cons, ih, mem_extendSorted, List.exists_mem_cons_iff, or_assoc]

omit [Engine] in
theorem sorted_folded {α : Type} {f : α → List String} {xs : List α} {set : List String}
    (sorted : set.Pairwise (· < ·)) :
    (xs.foldl (fun set x => extendSorted set (f x)) set).Pairwise (· < ·) := by
  induction xs generalizing set with
  | nil => exact sorted
  | cons x xs ih => exact ih (sorted_extendSorted sorted)

theorem mem_reactivatedOf {B : Table Schema.Team.key} {ds : List Declared} :
    i ∈ reactivatedOf B ds ↔ ∃ d ∈ ds, archivedIn B d.id = true ∧ d.id = i := by
  unfold reactivatedOf
  induction ds with
  | nil => simp
  | cons d ds ih =>
    rw [List.filter_cons, List.exists_mem_cons_iff]
    split
    · rename_i archived
      rw [List.foldr_cons, mem_insertSorted, ih, archived, eq_comm]
      simp
    · rename_i other
      rw [ih]
      simp [other]

section
variable {known : Map Known} {B : Table TeamMember.key} {ds : List Declared}

theorem mem_changed_members : u ∈ (ds.foldl (memberProgress known reactivated B) progress).changed ↔
    u ∈ progress.changed ∨ ∃ d ∈ ds, d.id ∈ reactivated ∧ Wanted known d u ∨
      u ∈ goneOf known B d ∨ u ∈ newOf known B d := by
  induction ds generalizing progress with
  | nil => simp
  | cons d ds ih =>
    rw [List.foldl_cons, ih, List.exists_mem_cons_iff, ← or_assoc]
    refine or_congr_left ?_
    rw [memberProgress, mem_extendSorted, mem_extendSorted, or_assoc]
    refine Iff.trans (or_congr_left ?_) or_assoc
    split
    · rename_i back
      rw [mem_extendSorted, mem_desiredOf]
      simp [back]
    · rename_i other
      simp [other]

theorem sorted_changed_members (sorted : progress.changed.Pairwise (· < ·)) :
    (ds.foldl (memberProgress known reactivated B) progress).changed.Pairwise (· < ·) := by
  induction ds generalizing progress with
  | nil => exact sorted
  | cons d ds ih =>
    refine ih (sorted_extendSorted (sorted_extendSorted ?_))
    split
    · exact sorted_extendSorted sorted
    · exact sorted

end

/-- Whom a sync names: the members of the teams it archives, those a team it
brings back is to have, and those it takes from a team or gives to one. -/
theorem mem_changed : u ∈ (reported σ declared).changedUserIds ↔
    (∃ t ∈ σ.teams, t.deletedAt = none ∧ (∀ d ∈ declared, d.id ≠ t.id) ∧
      ∃ m ∈ σ.teamMembers, weight m.teamId = t.key ∧ m.userId = u) ∨
    ∃ d ∈ declared, archivedIn σ.teams d.id = true ∧ Wanted (surveyed σ declared) d u ∨
      u ∈ goneOf (surveyed σ declared) σ.teamMembers d ∨
      u ∈ newOf (surveyed σ declared) σ.teamMembers d := by
  show u ∈ (progressOf σ declared).changed ↔ _
  rw [progressOf, mem_changed_members, closedProgress, mem_folded]
  refine or_congr ?_ (exists_congr fun d => and_congr_right fun member => or_congr_left ?_)
  · rw [openedProgress, or_iff_right List.not_mem_nil]
    constructor
    · rintro ⟨e, selected, listed⟩
      obtain ⟨entry, omitted⟩ := List.mem_filter.mp selected
      obtain ⟨t, stored, rfl⟩ := mem_storedTeams.mp entry
      obtain ⟨live, other⟩ := omits_iff.mp omitted
      obtain ⟨m, there, rfl⟩ := List.mem_map.mp listed
      obtain ⟨there, mine⟩ := List.mem_filter.mp there
      exact ⟨t, stored, by simpa using live, other, m, there, of_decide_eq_true mine, rfl⟩
    · rintro ⟨t, stored, live, other, m, there, mine, rfl⟩
      refine ⟨(t.id, t.deletedAt.isSome), List.mem_filter.mpr
        ⟨mem_storedTeams.mpr ⟨t, stored, rfl⟩, omits_iff.mpr ⟨by rw [live]; rfl, other⟩⟩, ?_⟩
      exact List.mem_map.mpr ⟨m, List.mem_filter.mpr ⟨there, decide_eq_true mine⟩, rfl⟩
  · refine and_congr_left fun _ => ?_
    rw [mem_reactivatedOf]
    constructor
    · rintro ⟨d', _, archived, same⟩
      exact same ▸ archived
    · exact fun archived => ⟨d, member, archived, rfl⟩

theorem sorted_changed : (reported σ declared).changedUserIds.Pairwise (· < ·) :=
  sorted_changed_members (sorted_folded List.Pairwise.nil)

/-- Rows of people who are neither taken from a team nor given to one stay. -/
theorem filter_people {known : Map Known} {B M : Table TeamMember.key} {ds : List Declared}
    {p : TeamMember → Bool} (mine : ∀ m, p m = true → weight m.userId = w)
    (quiet : ∀ d ∈ ds, ∀ x, x ∈ goneOf known B d ∨ x ∈ newOf known B d → weight x ≠ w) :
    (ds.foldl (rolled known B) M).rows.filter p = M.rows.filter p := by
  induction ds generalizing M with
  | nil => rfl
  | cons d ds ih =>
    have here := quiet d List.mem_cons_self
    rw [List.foldl_cons, ih fun d' member => quiet d' (List.mem_cons_of_mem _ member), rolled,
      Table.filter_putAll, Table.filter_eraseAll]
    · intro k member m same
      obtain ⟨g, gone, rfl⟩ := List.mem_map.mp member
      exact Bool.eq_false_iff.mpr fun holds =>
        here g (Or.inl gone) ((congrArg Prod.snd same).symm.trans (mine m holds))
    · intro r member m same
      obtain ⟨n, gained, rfl⟩ := List.mem_map.mp member
      exact Bool.eq_false_iff.mpr fun holds =>
        here n (Or.inr gained) ((congrArg Prod.snd same).symm.trans (mine m holds))

theorem liveTeam?_congr {i i' : String} (same : weight i = weight i') :
    σ.liveTeam? i = σ.liveTeam? i' := by
  rw [Store.liveTeam?, Store.team?, same, Store.liveTeam?, Store.team?]

/-- Whoever a sync does not name is in the live teams he was in. -/
theorem teamIds_kept (proper : Proper declared) (room : ∀ d ∈ declared, Room σ.teams d)
    (foreign : ∀ m ∈ σ.teamMembers, (σ.team? m.teamId).isSome)
    (quiet : ∀ x ∈ (reported σ declared).changedUserIds, weight x ≠ weight u) :
    ((Credential.selectTeamIds u).exec t (synced now σ declared)).1 =
      ((Credential.selectTeamIds u).exec t σ).1 := by
  refine congrArg (List.map (·.teamId)) ((filter_people (w := weight u) (fun m holds => ?_)
    fun d member x moved => quiet x (mem_changed.mpr (Or.inr ⟨d, member, Or.inr moved⟩))).trans
      (List.filter_congr fun m stored => ?_))
  · simp only [Bool.and_eq_true, decide_eq_true_eq] at holds
    exact holds.1
  by_cases mine : weight m.userId = weight u
  · refine congrArg _ ?_
    obtain ⟨team, found⟩ := Option.isSome_iff_exists.mp (foreign m stored)
    obtain ⟨there, key⟩ := Table.find?_eq_some.mp found
    have at' : weight m.teamId = weight team.id := key.symm
    rw [liveTeam?_congr at', liveTeam?_congr at', live_before there, live_after proper room there]
    by_cases listed : ∃ d ∈ declared, d.id = team.id
    · obtain ⟨d, member, same⟩ := listed
      have any : (declared.any fun d => d.id = team.id) = true :=
        List.any_eq_true.mpr ⟨d, member, decide_eq_true same⟩
      rw [any]
      cases archived : team.deletedAt with
      | none => rfl
      | some _ =>
        have back : archivedIn σ.teams d.id = true := by
          rw [archivedIn, exactly_eq_some.mpr ⟨there, same.symm⟩, Option.any_some, archived]
          rfl
        refine absurd mine (quiet m.userId (mem_changed.mpr (Or.inr ⟨d, member, ?_⟩)))
        by_cases wanted : Wanted (surveyed σ declared) d m.userId
        · exact Or.inl ⟨back, wanted⟩
        · exact Or.inr (Or.inl (mem_goneOf.mpr ⟨⟨m, stored, same ▸ at', rfl⟩, wanted⟩))
    · have other : ∀ d ∈ declared, d.id ≠ team.id := fun d member same => listed ⟨d, member, same⟩
      have any : (declared.any fun d => d.id = team.id) = false := by simpa using other
      rw [any]
      cases live : team.deletedAt with
      | some _ => rfl
      | none =>
        exact absurd mine (quiet m.userId (mem_changed.mpr (Or.inl
          ⟨team, there, live, other, m, stored, at', rfl⟩)))
  · simp [mine]

/-- A stored team that is live on one side of a sync and archived on the other. -/
def Turned (σ σ' : Store) (i : String) : Prop :=
  (σ.team? i).isSome ∧ (σ.liveTeam? i).isSome ≠ (σ'.liveTeam? i).isSome

/-- Whoever a sync names was given to a team or taken from one, or is a member
of a team it archived or brought back. -/
theorem changed_because (proper : Proper declared) (room : ∀ d ∈ declared, Room σ.teams d)
    (changed : u ∈ (reported σ declared).changedUserIds) :
    (∃ m ∈ (synced now σ declared).teamMembers, m ∉ σ.teamMembers ∧ m.userId = u) ∨
      (∃ m ∈ σ.teamMembers, m ∉ (synced now σ declared).teamMembers ∧ m.userId = u) ∨
      ∃ m ∈ (synced now σ declared).teamMembers, m.userId = u ∧
        Turned σ (synced now σ declared) m.teamId := by
  rcases mem_changed.mp changed with ⟨t, there, live, other, m, stored, mine, rfl⟩ |
    ⟨d, member, ⟨archived, wanted⟩ | gone | gained⟩
  · refine Or.inr (Or.inr ⟨m, (mem_synced proper).mpr (Or.inl ⟨stored, fun d member same => ?_⟩), rfl,
      ?_, ?_⟩)
    · exact absurd (declared_id room member there (same.symm.trans mine)).symm (other d member)
    · exact Table.find?_isSome.mpr ⟨t, there, mine.symm⟩
    · have any : (declared.any fun d => d.id = t.id) = false := by simpa using other
      rw [liveTeam?_congr mine, liveTeam?_congr mine, live_before there, live_after proper room there,
        any, live]
      decide
  · obtain ⟨m, stored, mine, rfl⟩ : ∃ m ∈ (synced now σ declared).teamMembers,
        weight m.teamId = weight d.id ∧ m.userId = u := (member_synced proper member).mpr wanted
    unfold archivedIn at archived
    cases found : exactly σ.teams d.id with
    | none => simp [found] at archived
    | some t =>
      obtain ⟨there, same⟩ := exactly_eq_some.mp found
      have gone : t.deletedAt.isNone = false := by simpa [found] using archived
      have any : (declared.any fun d => d.id = t.id) = true :=
        List.any_eq_true.mpr ⟨d, member, decide_eq_true same.symm⟩
      have at' : weight m.teamId = weight t.id := by rw [mine, same]
      refine Or.inr (Or.inr ⟨m, stored, rfl, Table.find?_isSome.mpr ⟨t, there, at'.symm⟩, ?_⟩)
      rw [liveTeam?_congr at', liveTeam?_congr at', live_before there, live_after proper room there,
        any, gone]
      decide
  · obtain ⟨⟨m, stored, mine, rfl⟩, unwanted⟩ := mem_goneOf.mp gone
    exact Or.inr (Or.inl ⟨m, stored, fun there =>
      unwanted ((member_synced proper member).mp ⟨m, there, mine, rfl⟩), rfl⟩)
  · refine Or.inl ⟨⟨d.id, u⟩, (mem_synced proper).mpr (Or.inr ⟨d, member, u, gained, rfl⟩),
      fun stored => (mem_newOf.mp gained).2 ⟨_, stored, rfl, rfl⟩, rfl⟩

/-- It names ids as they are stored or declared. -/
theorem plain_changed (proper : Proper declared) (plain : ∀ m ∈ σ.teamMembers, Plain m.userId)
    (changed : u ∈ (reported σ declared).changedUserIds) : Plain u := by
  rcases mem_changed.mp changed with ⟨_, _, _, _, m, stored, _, rfl⟩ |
    ⟨d, member, ⟨_, wanted⟩ | gone | gained⟩
  · exact plain m stored
  · exact proper.plain d member u wanted.1
  · obtain ⟨⟨m, stored, _, rfl⟩, _⟩ := mem_goneOf.mp gone
    exact plain m stored
  · exact proper.plain d member u (mem_newOf.mp gained).1.1

/-! ### The report -/

/-- What a sync answers is true of the store it found and the store it left. -/
structure Reports (σ σ' : Store) (declared : List Declared) (a : SyncTeamsResponse) : Prop where
  /-- Only the three tables of the roster are written. -/
  roster : σ' = { σ with
    teams := σ'.teams, teamMembers := σ'.teamMembers, pendingMembers := σ'.pendingMembers }
  live : ∀ d ∈ declared, ∃ t, σ'.liveTeam? d.id = some t ∧ t.id = d.id
  members : ∀ d ∈ declared, ∀ u,
    (∃ m ∈ σ'.teamMembers, weight m.teamId = weight d.id ∧ m.userId = u) ↔
      u ∈ d.members ∧ (σ'.user? u).isSome
  kept : ∀ t ∈ σ.teams, ∃ t' ∈ σ'.teams, t'.id = t.id ∧ t'.name = t.name
  archived : ∀ t ∈ σ'.teams, (∀ d ∈ declared, d.id ≠ t.id) → t.deletedAt.isSome ∧
    (σ'.teamMembers.rows.filter fun m => weight m.teamId = t.key) =
      σ.teamMembers.rows.filter fun m => weight m.teamId = t.key
  teamsInserted : a.teamsInserted =
    (σ'.teams.rows.filter fun t => (σ.team? t.id).isNone).length
  teamsArchived : a.teamsArchived = (σ.teams.rows.filter fun t =>
    (σ.liveTeam? t.id).isSome && (σ'.liveTeam? t.id).isNone).length
  teamsReactivated : a.teamsReactivated = (σ.teams.rows.filter fun t =>
    (σ.liveTeam? t.id).isNone && (σ'.liveTeam? t.id).isSome).length
  membersAdded : a.membersAdded = (σ'.teamMembers.rows.filter (· ∉ σ.teamMembers)).length
  membersRemoved : a.membersRemoved = (σ.teamMembers.rows.filter (· ∉ σ'.teamMembers)).length
  administratorsLiveMembers :
    a.administratorsLiveMembers = saturated (liveMembers σ' administrators).length
  pending : ∀ u, u ∈ a.pendingAdministratorUserIds ↔ liveMembers σ' administrators = [] ∧
    ∃ d ∈ declared, d.id = administrators ∧ u ∈ d.members ∧ σ'.user? u = none
  pendingOnce : a.pendingAdministratorUserIds.Nodup
  unknown : ∀ u, u ∈ a.unknownMemberUserIds ↔ ∃ d ∈ declared, u ∈ d.members ∧
    σ'.user? u = none ∧ ¬(d.id = administrators ∧ u ∈ a.pendingAdministratorUserIds)
  unknownOnce : a.unknownMemberUserIds.Nodup
  pendingRows : ∀ p, p ∈ σ'.pendingMembers ↔
    p.teamId = administrators ∧ p.userId ∈ a.pendingAdministratorUserIds
  sorted : a.changedUserIds.Pairwise (· < ·)
  changed : ∀ u now, ((Credential.selectTeamIds u).exec now σ').1 ≠
    ((Credential.selectTeamIds u).exec now σ).1 → ∃ x ∈ a.changedUserIds, weight x = weight u
  spelled : (∀ m ∈ σ.teamMembers, Plain m.userId) → ∀ u now, Plain u →
    ((Credential.selectTeamIds u).exec now σ').1 ≠ ((Credential.selectTeamIds u).exec now σ).1 →
      u ∈ a.changedUserIds
  because : ∀ u ∈ a.changedUserIds,
    (∃ m ∈ σ'.teamMembers, m ∉ σ.teamMembers ∧ m.userId = u) ∨
      (∃ m ∈ σ.teamMembers, m ∉ σ'.teamMembers ∧ m.userId = u) ∨
      ∃ m ∈ σ'.teamMembers, m.userId = u ∧ Turned σ σ' m.teamId

theorem counted (now : Int) (proper : Proper declared) (room : ∀ d ∈ declared, Room σ.teams d) :
    (reported σ declared).teamsInserted = ((synced now σ declared).teams.rows.filter fun t =>
        (σ.team? t.id).isNone).length ∧
    (reported σ declared).teamsArchived = (σ.teams.rows.filter fun t =>
        (σ.liveTeam? t.id).isSome && ((synced now σ declared).liveTeam? t.id).isNone).length ∧
    (reported σ declared).teamsReactivated = (σ.teams.rows.filter fun t =>
        (σ.liveTeam? t.id).isNone && ((synced now σ declared).liveTeam? t.id).isSome).length ∧
    (reported σ declared).membersAdded =
      ((synced now σ declared).teamMembers.rows.filter (· ∉ σ.teamMembers)).length ∧
    (reported σ declared).membersRemoved =
      (σ.teamMembers.rows.filter (· ∉ (synced now σ declared).teamMembers)).length := by
  rw [inserted_rows proper room, archived_rows proper room, reactivated_rows proper room,
    added_rows proper, removed_rows proper]
  unfold reported progressOf
  rw [counted_members]
  simp [closedProgress, openedProgress]

/-- A sync that answers OK did what it answers. -/
theorem reports (proper : Proper declared) (accepts : Accepts σ declared)
    (foreign : ∀ m ∈ σ.teamMembers, (σ.team? m.teamId).isSome) :
    Reports σ (synced now σ declared) declared (reported σ declared) := by
  obtain ⟨inserted, archived, reactivated, added, removed⟩ := counted now proper accepts.room
  have live := live_administrators now proper accepts.room
  have answered : (reported σ declared).administratorsLiveMembers = saturated (liveOf σ declared) ∧
      (reported σ declared).unknownMemberUserIds =
        unknownMembers (surveyed σ declared) (pendingOf σ declared) declared := by
    unfold reported progressOf
    rw [counted_members]
    exact ⟨rfl, rfl⟩
  obtain ⟨unknown, once⟩ : (∀ u, u ∈ unknownMembers (surveyed σ declared) (pendingOf σ declared)
      declared ↔ _) ∧ _ := mem_unknownMembers
  constructor
  case roster => rfl
  case live =>
    intro d member
    refine ⟨_, Store.liveTeam?_eq_some.mpr ⟨team?_declared proper accepts.room member, opened_live⟩, ?_⟩
    exact key_opened d σ.teams
  case members => exact fun d member u => (member_synced proper member).trans (wanted_iff member)
  case kept =>
    intro t stored
    by_cases listed : ∃ d ∈ declared, d.id = t.id
    · obtain ⟨d, member, same⟩ := listed
      have found : exactly σ.teams d.id = some t := exactly_eq_some.mpr ⟨stored, same.symm⟩
      refine ⟨_, (mem_settledTeams proper accepts.room).mpr (Or.inl ⟨d, member, rfl⟩),
        (key_opened d σ.teams).trans same, ?_⟩
      rw [found, opened]
      split <;> rfl
    · have other : ∀ d ∈ declared, d.id ≠ t.id := fun d member same => listed ⟨d, member, same⟩
      exact ⟨_, (mem_settledTeams proper accepts.room).mpr (Or.inr ⟨t, stored, other, rfl⟩),
        retired_id, retired_name⟩
  case archived =>
    intro t there other
    rcases (mem_settledTeams proper accepts.room).mp there with ⟨d, member, rfl⟩ | ⟨t₀, stored, _, rfl⟩
    · exact absurd (key_opened d σ.teams).symm (other d member)
    · refine ⟨retired_archived, filter_rolledAll fun d member same => ?_⟩
      rw [retired_id] at other
      refine other d member (declared_id accepts.room member stored ?_).symm
      exact same.symm.trans (congrArg weight retired_id)
  case teamsInserted => exact inserted
  case teamsArchived => exact archived
  case teamsReactivated => exact reactivated
  case membersAdded => exact added
  case membersRemoved => exact removed
  case administratorsLiveMembers => rw [answered.1, live]
  case pending =>
    intro u
    rw [← List.length_eq_zero_iff, live]
    exact mem_pendingOf proper
  case pendingOnce => exact List.Nodup.of_map _ (nodup_pendingOf proper)
  case unknown =>
    intro u
    rw [answered.2, unknown]
    refine exists_congr fun d => and_congr_right fun member => and_congr_right fun listed => ?_
    rw [knownAs_surveyed member listed, standing_absent]
    rfl
  case unknownOnce =>
    rw [answered.2]
    exact once
  case pendingRows => exact fun p => mem_pendingTable (nodup_pendingOf proper)
  case sorted => exact sorted_changed
  case changed =>
    intro u t differ
    by_contra quiet
    simp only [not_exists, not_and] at quiet
    exact differ (teamIds_kept proper accepts.room foreign quiet)
  case spelled =>
    intro plain u t own differ
    by_contra unnamed
    refine differ (teamIds_kept proper accepts.room foreign fun x named same => unnamed ?_)
    exact Engine.weight_plain x u (plain_changed proper plain named) own same ▸ named
  case because => exact fun u named => changed_because proper accepts.room named

/-- A sync that answers OK did exactly what it answers, whatever store it found:
the declared teams are live with the declared members that have a user row, the
others are archived with theirs, and the counts, the people left out and the
people named are those of the two stores. -/
theorem sync_reports {S S' : Handlers.System} {c : Call} (request : c.request = .syncTeams r)
    (foreign : ∀ m ∈ S.store.teamMembers, (S.store.team? m.teamId).isSome)
    (performs : System.Performs service S c (.ok (.syncTeams a)) S') :
    ∃ declared, validate r.teams = .ok declared ∧ Reports S.store S'.store declared a := by
  obtain ⟨declared, valid, accepts, rfl, left⟩ := synced_of_alone request performs.alone
  exact ⟨declared, valid, left ▸ reports (proper_of_valid valid) accepts foreign⟩

end

/-- A declaration of an administrator and a builder nobody has the ids of. -/
def proposed : Call :=
  ⟨some iamCaller, firstUuid, .syncTeams ⟨[⟨"administrators", [userPrefix ++ firstUuid.text]⟩,
    ⟨"builders", [userPrefix ++ secondUuid.text]⟩]⟩⟩

open Bytewise in
theorem sync_reports_proposed : ∃ (S' : Handlers.System) (declared : List Declared),
    Reports (fresh 0).store S'.store declared ⟨2, 0, 0, 0, 0, [userPrefix ++ secondUuid.text],
      [userPrefix ++ firstUuid.text], 0, []⟩ := by
  obtain ⟨S', performs, _⟩ :=
    System.performs_alone (S := fresh 0) (fun _ there => absurd there List.not_mem_nil) proposed
  have answer : ((service proposed).alone .fresh (fresh 0).store (fresh 0).clock).1 =
      .ok (.syncTeams ⟨2, 0, 0, 0, 0, [userPrefix ++ secondUuid.text],
        [userPrefix ++ firstUuid.text], 0, []⟩) := by decide +kernel
  rw [answer] at performs
  have told := sync_reports rfl (fun _ stored => absurd stored Table.not_mem_empty) performs
  obtain ⟨declared, _, reports⟩ := told
  exact ⟨S', declared, reports⟩

end IamDb.Reported
