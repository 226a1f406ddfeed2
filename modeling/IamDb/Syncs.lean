import IamDb.Txn.Working
import IamDb.Wellformed
import Mathlib.Data.String.Basic

/-! A sync by itself, as a function of the store it finds. It answers OK if the
sentinel row is there, the guard holds and every team it has to insert has its
id and its name to itself; what it then leaves of the three tables, and what it
answers, is told from the store it found and the declaration. -/
namespace IamDb.Syncs
open Txn Schema Messages Service Handlers Team Declaration

/-! ### Sorted sets -/

theorem sorted_insertSorted {l : List String} (sorted : l.Pairwise (· < ·)) :
    (insertSorted s l).Pairwise (· < ·) := by
  induction l with
  | nil => exact List.pairwise_singleton _ _
  | cons head rest ih =>
    obtain ⟨first, sorted'⟩ := List.pairwise_cons.mp sorted
    rw [insertSorted]
    split
    · rename_i before
      refine List.pairwise_cons.mpr ⟨fun x member => ?_, sorted⟩
      rcases List.mem_cons.mp member with rfl | later
      · exact before
      · exact lt_trans before (first x later)
    · rename_i behind
      split
      · exact sorted
      · rename_i other
        refine List.pairwise_cons.mpr ⟨fun x member => ?_, ih sorted'⟩
        rcases mem_insertSorted.mp member with rfl | later
        · exact lt_of_le_of_ne (not_lt.mp behind) (Ne.symm other)
        · exact first x later

theorem sorted_extendSorted {set : List String} (sorted : set.Pairwise (· < ·)) :
    (extendSorted set new).Pairwise (· < ·) := by
  unfold extendSorted
  induction new generalizing set with
  | nil => exact sorted
  | cons s rest ih => exact ih (sorted_insertSorted sorted)

section
variable [Engine]

/-! ### The people -/

/-- What a member id names in a store. -/
def standing (σ : Store) (m : String) : Known :=
  match σ.user? m with
  | none => .absent
  | some u => if u.deletedAt.isSome then .softDeleted else .live

/-- What a sync learns of the ids it is given. -/
def survey (σ : Store) : List String → Map Known → Map Known
  | [], known => known
  | m :: rest, known =>
    if (known.get? m).isSome then survey σ rest known
    else survey σ rest (Map.insert m (standing σ m) known)

/-- What a sync knows of the declared members. -/
def surveyed (σ : Store) (declared : List Declared) : Map Known :=
  survey σ (declared.flatMap (·.members)) []

theorem standing_absent : standing σ m = .absent ↔ σ.user? m = none := by
  unfold standing
  cases σ.user? m with
  | none => simp
  | some u => cases gone : u.deletedAt <;> simp [gone]

theorem standing_live : standing σ m = .live ↔ (σ.liveUser? m).isSome := by
  unfold standing Store.liveUser?
  cases σ.user? m with
  | none => simp
  | some u => cases gone : u.deletedAt <;> simp [gone]

theorem working_knownUsers :
    (knownUsers ms known).working now W = .ok (survey W ms known, W) := by
  induction ms generalizing known with
  | nil => rfl
  | cons m rest ih =>
    rw [knownUsers, survey]
    split
    · exact ih
    · exact ih

theorem get?_survey : (survey σ ms known).get? m =
    if (known.get? m).isSome then known.get? m else if m ∈ ms then some (standing σ m) else none := by
  induction ms generalizing known with
  | nil =>
    rw [survey]
    cases known.get? m <;> rfl
  | cons x rest ih =>
    rw [survey]
    split
    · rename_i already
      rw [ih]
      by_cases same : m = x
      · rw [same, if_pos already, if_pos already]
      · simp [same]
    · rename_i new
      rw [ih, get?_insert]
      by_cases same : x = m
      · subst same
        simp [new]
      · simp [same, Ne.symm same]

theorem knownAs_surveyed (member : d ∈ declared) (listed : m ∈ d.members) :
    knownAs (surveyed σ declared) m = standing σ m := by
  have there : m ∈ declared.flatMap (·.members) := List.mem_flatMap.mpr ⟨d, member, listed⟩
  rw [knownAs, surveyed, get?_survey, if_neg (by simp [Map.get?]), if_pos there]
  rfl

/-! ### The teams -/

/-- The row of a table with exactly this id. -/
def exactly (T : Table Schema.Team.key) (i : String) : Option Schema.Team :=
  (T.find? (weight i)).filter fun t => t.id = i

theorem exactly_eq_some {T : Table Schema.Team.key} :
    exactly T i = some t ↔ t ∈ T ∧ t.id = i := by
  simp only [exactly, Option.filter_eq_some_iff, Table.find?_eq_some, decide_eq_true_eq]
  exact ⟨fun there => ⟨there.1.1, there.2⟩, fun there =>
    ⟨⟨there.1, congrArg weight there.2⟩, there.2⟩⟩

theorem exactly_eq_none {T : Table Schema.Team.key} :
    exactly T i = none ↔ ∀ t ∈ T, t.id ≠ i := by
  constructor
  · intro missing t there same
    rw [exactly_eq_some.mpr ⟨there, same⟩] at missing
    cases missing
  · intro other
    cases found : exactly T i with
    | none => rfl
    | some t =>
      obtain ⟨there, same⟩ := exactly_eq_some.mp found
      exact absurd same (other t there)

/-- The map a sync reads of a table of teams. -/
def storedTeams (T : Table Schema.Team.key) : Map Bool :=
  Map.collect (T.rows.map fun t => (t.id, t.deletedAt.isSome))

theorem get?_storedTeams {T : Table Schema.Team.key} :
    (storedTeams T).get? i = (exactly T i).map (·.deletedAt.isSome) := by
  cases found : (storedTeams T).get? i with
  | none =>
    have missing : exactly T i = none := exactly_eq_none.mpr fun t there =>
      get?_collect_eq_none.mp found _ (List.mem_map_of_mem there)
    rw [missing]
    rfl
  | some archived =>
    obtain ⟨t, there, entry⟩ := List.mem_map.mp (mem_collect (get?_mem found))
    cases entry
    rw [exactly_eq_some.mpr ⟨there, rfl⟩]
    rfl

/-- A declared team as a sync leaves it: inserted, brought back, or as it was. -/
def opened (d : Declared) : Option Schema.Team → Schema.Team
  | none => ⟨d.id, 1, d.name, none⟩
  | some t =>
    if t.deletedAt.isSome then { t with deletedAt := none, version := t.version + 1 } else t

/-- A team is stored, archived. -/
def archivedIn (B : Table Schema.Team.key) (i : String) : Bool :=
  (exactly B i).any (·.deletedAt.isSome)

/-- A team that no row has the id of has its id and its name to itself. -/
def Room (T : Table Schema.Team.key) (d : Declared) : Prop :=
  exactly T d.id = none → T.find? (weight d.id) = none ∧ ∀ t ∈ T, weight t.name ≠ weight d.name

/-- The ids a sync brings back. -/
def reactivatedOf (B : Table Schema.Team.key) (ds : List Declared) : List String :=
  (ds.filter fun d => archivedIn B d.id).foldr (fun d ids => insertSorted d.id ids) []

/-- What a sync has counted once the declared teams are live. -/
def openedProgress (B : Table Schema.Team.key) (ds : List Declared) (progress : Progress) :
    Progress :=
  { progress with
    resp := { progress.resp with
      teamsInserted := progress.resp.teamsInserted +
        (ds.filter fun d => (exactly B d.id).isNone).length
      teamsReactivated := progress.resp.teamsReactivated +
        (ds.filter fun d => archivedIn B d.id).length } }

/-- What is left to open, on the way from the table `B`: each team is as it was
there, and has room. -/
structure Opening (B T : Table Schema.Team.key) (ds : List Declared) : Prop where
  same : ∀ d ∈ ds, T.find? (weight d.id) = B.find? (weight d.id)
  room : ∀ d ∈ ds, Room T d
  ids : (ds.map fun d => weight d.id).Nodup
  names : (ds.map fun d => weight d.name).Nodup

theorem Opening.next {B T : Table Schema.Team.key} (opening : Opening B T (d :: ds))
    (key : t.key = weight d.id) (named : weight t.name = weight d.name ∨ ∃ t' ∈ T, t'.name = t.name) :
    Opening B (T.put t) ds := by
  obtain ⟨newId, ids⟩ := List.nodup_cons.mp opening.ids
  obtain ⟨newName, names⟩ := List.nodup_cons.mp opening.names
  have other (d' : Declared) (member : d' ∈ ds) : weight d'.id ≠ t.key := fun same =>
    newId (List.mem_map.mpr ⟨d', member, same.trans key⟩)
  have found (d' : Declared) (member : d' ∈ ds) :
      (T.put t).find? (weight d'.id) = T.find? (weight d'.id) :=
    Table.find?_put_ne (other d' member)
  refine ⟨fun d' member => ?_, fun d' member missing => ?_, ids, names⟩
  · rw [found d' member]
    exact opening.same d' (List.mem_cons_of_mem _ member)
  · have missing' : exactly T d'.id = none := by
      rwa [exactly, found d' member] at missing
    obtain ⟨absent, free⟩ := opening.room d' (List.mem_cons_of_mem _ member) missing'
    refine ⟨(found d' member).trans absent, fun x there => ?_⟩
    rcases Table.mem_put.mp there with rfl | ⟨old, _⟩
    · rcases named with same | ⟨t', old, same⟩
      · rw [same]
        exact fun clash => newName (List.mem_map.mpr ⟨d', member, clash.symm⟩)
      · rw [← same]
        exact free t' old
    · exact free x old

/-- The declared teams are inserted or brought back, where there is room. -/
theorem working_openTeams {W : Store} (opening : Opening B W.teams ds) :
    (openTeams (storedTeams B) ds progress).working now W =
      .ok ((reactivatedOf B ds, openedProgress B ds progress),
        { W with teams := W.teams.putAll (ds.map fun d => opened d (exactly B d.id)) }) := by
  induction ds generalizing W progress with
  | nil => rfl
  | cons d ds ih =>
    have same : exactly W.teams d.id = exactly B d.id := by
      rw [exactly, exactly, opening.same d List.mem_cons_self]
    rw [openTeams, get?_storedTeams]
    cases found : exactly B d.id with
    | none =>
      obtain ⟨absent, free⟩ := opening.room d List.mem_cons_self (same.trans found)
      have unclashed : (W.teams.rows.any fun t => weight t.name = weight d.name) = false := by
        simpa [Table.mem_def] using free
      have next := opening.next (t := ⟨d.id, 1, d.name, none⟩) rfl (Or.inl rfl)
      simp only [Option.map_none, insertTeam, bind_assoc]
      rw [Prog.working_query]
      simp only [insertTeamRow, Store.team?, absent, unclashed, Option.isSome_none,
        Bool.false_eq_true, if_false, pure_bind]
      show (openTeams (storedTeams B) ds _).working now
        { W with teams := W.teams.put ⟨d.id, 1, d.name, none⟩ } = _
      rw [ih next]
      simp [reactivatedOf, openedProgress, archivedIn, found, opened, Nat.add_assoc, Nat.add_comm]
    | some t =>
      obtain ⟨there, id⟩ := exactly_eq_some.mp (same.trans found)
      have row : W.teams.find? (weight d.id) = some t := by
        rw [← id]
        exact Table.find?_of_mem there
      cases archived : t.deletedAt with
      | none =>
        have next := opening.next (t := t) (congrArg weight id) (Or.inr ⟨t, there, rfl⟩)
        rw [Table.put_of_mem there] at next
        simp only [Option.map_some, archived, Option.isSome_none]
        rw [ih next]
        simp [reactivatedOf, openedProgress, archivedIn, found, opened, archived,
          Table.put_of_mem there]
      | some at' =>
        have next := opening.next
          (t := { t with deletedAt := none, version := t.version + 1 }) (congrArg weight id)
          (Or.inr ⟨t, there, rfl⟩)
        simp only [Option.map_some, archived, Option.isSome_some]
        rw [Prog.working_query]
        simp only [updateTeamDeletedAt, Store.team?, row]
        show ((openTeams (storedTeams B) ds _) >>= _).working now { W with
          teams := W.teams.put ⟨t.id, t.version + 1, t.name, none⟩ } = _
        rw [Prog.working_bind (ih next)]
        simp [reactivatedOf, openedProgress, archivedIn, found, opened, archived, Nat.add_assoc,
          Nat.add_comm]

theorem Room.earlier {T : Table Schema.Team.key} (room : Room (T.put t) d)
    (other : weight d.id ≠ t.key) (label : ∀ x ∈ T, x.key = t.key → x.name = t.name) :
    Room T d := by
  intro missing
  have found : (T.put t).find? (weight d.id) = T.find? (weight d.id) := Table.find?_put_ne other
  obtain ⟨absent, free⟩ := room (by rwa [exactly, found])
  refine ⟨found.symm.trans absent, fun x there => ?_⟩
  by_cases same : x.key = t.key
  · rw [label x there same]
    exact free t Table.mem_put_self
  · exact free x (Table.mem_put.mpr (Or.inr ⟨there, same⟩))

/-- Where they are opened, there was room. -/
theorem room_of_openTeams {W : Store} (distinct : (ds.map fun d => weight d.id).Nodup)
    (same : ∀ d ∈ ds, W.teams.find? (weight d.id) = B.find? (weight d.id))
    (ran : (openTeams (storedTeams B) ds progress).working now W = .ok out) :
    ∀ d ∈ ds, Room W.teams d := by
  induction ds generalizing W progress out with
  | nil => nofun
  | cons d ds ih =>
    obtain ⟨new, distinct'⟩ := List.nodup_cons.mp distinct
    have here : exactly W.teams d.id = exactly B d.id := by
      rw [exactly, exactly, same d List.mem_cons_self]
    have other (d' : Declared) (member : d' ∈ ds) : weight d'.id ≠ weight d.id := fun alike =>
      new (List.mem_map.mpr ⟨d', member, alike⟩)
    -- The rest had room after this team's row was written, and so before.
    have tail {t : Schema.Team} {out progress} (key : t.key = weight d.id)
        (label : ∀ x ∈ W.teams, x.key = t.key → x.name = t.name)
        (ran : (openTeams (storedTeams B) ds progress).working now
          { W with teams := W.teams.put t } = .ok out) : ∀ d' ∈ ds, Room W.teams d' := by
      intro d' member
      refine (ih distinct' (fun x there => ?_) ran d' member).earlier ?_ label
      · rw [← same x (List.mem_cons_of_mem _ there)]
        exact Table.find?_put_ne (key ▸ other x there)
      · exact key ▸ other d' member
    rw [openTeams, get?_storedTeams] at ran
    cases found : exactly B d.id with
    | none =>
      simp only [found, Option.map_none, insertTeam, bind_assoc] at ran
      rw [Prog.working_query] at ran
      cases taken : W.teams.find? (weight d.id) with
      | some t =>
        simp only [insertTeamRow, Store.team?, taken, Option.isSome_some, if_true] at ran
        cases ran
      | none =>
        by_cases clash : (W.teams.rows.any fun t => weight t.name = weight d.name) = true
        · simp only [insertTeamRow, Store.team?, taken, clash, Option.isSome_none,
            Bool.false_eq_true, if_false, if_true] at ran
          cases ran
        · simp only [insertTeamRow, Store.team?, taken, clash, Option.isSome_none,
            Bool.false_eq_true, if_false, pure_bind] at ran
          refine List.forall_mem_cons.mpr ⟨fun _ => ⟨taken, fun t there alike => clash ?_⟩,
            tail (t := ⟨d.id, 1, d.name, none⟩) rfl (fun x there alike => ?_) ran⟩
          · exact List.any_eq_true.mpr ⟨t, there, by simpa using alike⟩
          · exact absurd alike (Table.find?_eq_none.mp taken x there)
    | some t =>
      obtain ⟨there, id⟩ := exactly_eq_some.mp (here.trans found)
      have row : W.teams.find? (weight d.id) = some t := by
        rw [← id]
        exact Table.find?_of_mem there
      have head : Room W.teams d := fun missing => by
        rw [here, found] at missing
        cases missing
      cases archived : t.deletedAt with
      | none =>
        simp only [found, Option.map_some, archived, Option.isSome_none] at ran
        have ran' : (openTeams (storedTeams B) ds progress).working now
            { W with teams := W.teams.put t } = .ok out := by
          rw [Table.put_of_mem there]
          exact ran
        refine List.forall_mem_cons.mpr ⟨head, tail (congrArg weight id) ?_ ran'⟩
        exact fun x stored alike => congrArg Schema.Team.name (Table.eq_of_key stored there alike)
      | some at' =>
        simp only [found, Option.map_some, archived, Option.isSome_some] at ran
        rw [Prog.working_query] at ran
        simp only [updateTeamDeletedAt, Store.team?, row] at ran
        obtain ⟨_, _, first, _⟩ := Prog.working_bind_ok.mp ran
        have first' : (openTeams (storedTeams B) ds _).working now
            { W with teams := W.teams.put ⟨t.id, t.version + 1, t.name, none⟩ } = .ok _ := first
        refine List.forall_mem_cons.mpr ⟨head, tail
          (t := ⟨t.id, t.version + 1, t.name, none⟩) (congrArg weight id) ?_ first'⟩
        intro x stored alike
        have same : x = t := Table.eq_of_key stored there alike
        rw [same]

/-- A team as a sync archives it. -/
def closed (now : Int) (t : Schema.Team) : Schema.Team :=
  { t with deletedAt := some now, version := t.version + 1 }

/-- An entry of the map is a live team's that the declaration omits. -/
def omits (declared : List Declared) (e : String × Bool) : Bool :=
  !(e.2 || declared.any fun d => d.id = e.1)

/-- The members of a team, as they are stored. -/
def membersOf (M : Table TeamMember.key) (teamId : String) : List String :=
  (M.rows.filter fun m => weight m.teamId = weight teamId).map (·.userId)

/-- The rows of the omitted teams, archived. -/
def closing (now : Int) (B : Table Schema.Team.key) (declared : List Declared)
    (stored : Map Bool) : List Schema.Team :=
  (stored.filter (omits declared)).filterMap fun e => (B.find? (weight e.1)).map (closed now)

/-- What a sync has counted once the omitted teams are archived. -/
def closedProgress (declared : List Declared) (M : Table TeamMember.key) (stored : Map Bool)
    (progress : Progress) : Progress where
  resp := { progress.resp with
    teamsArchived := progress.resp.teamsArchived + (stored.filter (omits declared)).length }
  changed := (stored.filter (omits declared)).foldl
    (fun changed e => extendSorted changed (membersOf M e.1)) progress.changed

theorem working_archiveTeams {W : Store} (distinct : (stored.map fun e => weight e.1).Nodup)
    (same : ∀ e ∈ stored, W.teams.find? (weight e.1) = B.find? (weight e.1)) :
    (archiveTeams declared stored progress).working now W =
      .ok (closedProgress declared W.teamMembers stored progress,
        { W with teams := W.teams.putAll (closing now B declared stored) }) := by
  induction stored generalizing W progress with
  | nil => rfl
  | cons e stored ih =>
    obtain ⟨i, archived⟩ := e
    obtain ⟨new, distinct'⟩ := List.nodup_cons.mp distinct
    have same' : ∀ e ∈ stored, W.teams.find? (weight e.1) = B.find? (weight e.1) :=
      fun e member => same e (List.mem_cons_of_mem _ member)
    rw [archiveTeams]
    by_cases omitted : omits declared (i, archived) = true
    · rw [if_neg (by simpa [omits] using omitted)]
      have here := same (i, archived) List.mem_cons_self
      rw [Prog.working_query]
      cases row : B.find? (weight i) with
      | none =>
        simp only [updateTeamDeletedAt, Store.team?, here, row]
        show (archiveTeams declared stored _).working now W = _
        rw [ih distinct' same']
        simp [closedProgress, closing, omitted, row, membersOf, selectMembers, Nat.add_comm,
          Nat.add_assoc]
      | some t =>
        have key : t.key = weight i := (Table.find?_eq_some.mp row).2
        simp only [updateTeamDeletedAt, Store.team?, here, row]
        show (archiveTeams declared stored _).working now
          { W with teams := W.teams.put (closed now t) } = _
        rw [ih distinct' fun e member => ?_]
        · simp [closedProgress, closing, omitted, row, membersOf, selectMembers, Nat.add_comm,
            Nat.add_assoc]
          rfl
        · rw [← same' e member]
          refine Table.find?_put_ne fun alike => new (List.mem_map.mpr ⟨e, member, ?_⟩)
          exact alike.trans key
    · have kept := omitted
      simp only [omits, Bool.not_eq_true, Bool.not_eq_false'] at kept
      rw [if_pos kept, ih distinct' same']
      simp [closedProgress, closing, omitted]

/-! ### The members -/

/-- The members a team has. -/
def currentOf (M : Table TeamMember.key) (d : Declared) : List String :=
  extendSorted [] (membersOf M d.id)

/-- The members it is to have. -/
def desiredOf (known : Map Known) (d : Declared) : List String :=
  extendSorted [] (d.members.filter fun m => knownAs known m ≠ .absent)

/-- The members it loses. -/
def goneOf (known : Map Known) (M : Table TeamMember.key) (d : Declared) : List String :=
  (currentOf M d).filter fun c => c ∉ desiredOf known d

/-- The members it gains. -/
def newOf (known : Map Known) (M : Table TeamMember.key) (d : Declared) : List String :=
  (desiredOf known d).filter fun n => n ∉ currentOf M d

theorem working_removeMembers {W : Store} :
    (removeMembers teamId gone progress).working now W =
      .ok (⟨{ progress.resp with membersRemoved := progress.resp.membersRemoved + gone.length },
        extendSorted progress.changed gone⟩,
        { W with teamMembers :=
          W.teamMembers.eraseAll (gone.map fun g => (weight teamId, weight g)) }) := by
  induction gone generalizing W progress with
  | nil => rfl
  | cons g gone ih =>
    rw [removeMembers, Prog.working_query]
    have erased : applyAll ((deleteMember teamId g).exec now W).2 W =
        { W with teamMembers := W.teamMembers.erase (weight teamId, weight g) } := by
      cases found : (W.teamMembers.find? (weight teamId, weight g)).isSome with
      | true =>
        simp only [deleteMember, found, if_true]
        rfl
      | false =>
        simp only [deleteMember, found, Bool.false_eq_true, if_false, applyAll_nil]
        rw [Table.erase_of_absent (by simpa using found)]
    rw [erased, ih]
    simp only [List.length_cons, Nat.add_assoc, Nat.add_comm 1]
    rfl

theorem working_addMembers {W : Store}
    (free : ∀ n ∈ new, W.teamMembers.find? (weight teamId, weight n) = none)
    (distinct : (new.map weight).Nodup) (team : (W.team? teamId).isSome)
    (people : ∀ n ∈ new, (W.user? n).isSome) :
    (addMembers teamId new progress).working now W =
      .ok (⟨{ progress.resp with membersAdded := progress.resp.membersAdded + new.length },
        extendSorted progress.changed new⟩,
        { W with teamMembers := W.teamMembers.putAll (new.map fun n => ⟨teamId, n⟩) }) := by
  induction new generalizing W progress with
  | nil => rfl
  | cons n new ih =>
    obtain ⟨apart, distinct'⟩ := List.nodup_cons.mp distinct
    have absent := free n List.mem_cons_self
    have person := people n List.mem_cons_self
    rw [addMembers, Prog.working_query]
    simp only [insertMember, absent, Option.isSome_none, Bool.false_eq_true, if_false,
      Option.isNone_eq_false_iff.mpr team, Option.isNone_eq_false_iff.mpr person, Bool.or_false,
      orElse]
    show (addMembers teamId new _).working now
      { W with teamMembers := W.teamMembers.put ⟨teamId, n⟩ } = _
    rw [ih (W := { W with teamMembers := W.teamMembers.put ⟨teamId, n⟩ }) ?_ distinct' team
      fun x member => people x (List.mem_cons_of_mem _ member)]
    · simp only [List.length_cons, Nat.add_assoc, Nat.add_comm 1]
      rfl
    · intro x member
      rw [← free x (List.mem_cons_of_mem _ member)]
      refine Table.find?_put_ne fun alike => apart (List.mem_map.mpr ⟨x, member, ?_⟩)
      exact congrArg Prod.snd alike

theorem nodup_weight {l : List String} (sorted : l.Pairwise (· < ·)) (plain : ∀ m ∈ l, Plain m) :
    (l.map weight).Nodup :=
  List.Nodup.map_on (fun m there m' there' => Engine.weight_plain m m' (plain m there) (plain m' there'))
    (sorted.imp fun less => ne_of_lt less)

theorem mem_currentOf {M : Table TeamMember.key} :
    u ∈ currentOf M d ↔ ∃ m ∈ M, weight m.teamId = weight d.id ∧ m.userId = u := by
  simp [currentOf, membersOf, mem_extendSorted, Table.mem_def, and_assoc]

omit [Engine] in
theorem mem_desiredOf : u ∈ desiredOf known d ↔ Wanted known d u := by
  simp [desiredOf, mem_extendSorted, Wanted]

theorem mem_goneOf {M : Table TeamMember.key} : u ∈ goneOf known M d ↔
    (∃ m ∈ M, weight m.teamId = weight d.id ∧ m.userId = u) ∧ ¬Wanted known d u := by
  simp [goneOf, mem_currentOf, mem_desiredOf]

theorem mem_newOf {M : Table TeamMember.key} : u ∈ newOf known M d ↔
    Wanted known d u ∧ ¬∃ m ∈ M, weight m.teamId = weight d.id ∧ m.userId = u := by
  simp [newOf, mem_currentOf, mem_desiredOf]

/-- What a sync has counted once a team has its members. -/
def memberProgress (known : Map Known) (reactivated : List String) (B : Table TeamMember.key)
    (progress : Progress) (d : Declared) : Progress where
  resp := { progress.resp with
    membersRemoved := progress.resp.membersRemoved + (goneOf known B d).length
    membersAdded := progress.resp.membersAdded + (newOf known B d).length }
  changed := extendSorted (extendSorted (if d.id ∈ reactivated then
    extendSorted progress.changed (desiredOf known d) else progress.changed) (goneOf known B d))
    (newOf known B d)

/-- The member rows once a team has its members. -/
def rolled (known : Map Known) (B M : Table TeamMember.key) (d : Declared) :
    Table TeamMember.key :=
  (M.eraseAll ((goneOf known B d).map fun g => (weight d.id, weight g))).putAll
    ((newOf known B d).map fun n => ⟨d.id, n⟩)

/-- A row of a declared member is the only one of that person's there. -/
theorem member_unique {m : TeamMember} (plain : ∀ m ∈ d.members, Plain m)
    (same : m.key = (weight d.id, weight n)) (kept : Wanted known d m.userId)
    (wanted : Wanted known d n) : m.userId = n :=
  Engine.weight_plain _ _ (plain _ kept.1) (plain n wanted.1) (congrArg Prod.snd same)

theorem working_writeMembers {W : Store} (plain : ∀ m ∈ d.members, Plain m)
    (people : ∀ m, Wanted known d m → (W.user? m).isSome) (team : (W.team? d.id).isSome) :
    (writeMembers known reactivated d progress).working now W =
      .ok (memberProgress known reactivated W.teamMembers progress d,
        { W with teamMembers := rolled known W.teamMembers W.teamMembers d }) := by
  have sorted : (newOf known W.teamMembers d).Pairwise (· < ·) :=
    (sorted_extendSorted List.Pairwise.nil).filter _
  have wanted {n : String} (new : n ∈ newOf known W.teamMembers d) : Wanted known d n :=
    (mem_newOf.mp new).1
  have free : ∀ n ∈ newOf known W.teamMembers d, (W.teamMembers.eraseAll
      ((goneOf known W.teamMembers d).map fun g => (weight d.id, weight g))).find?
        (weight d.id, weight n) = none := by
    intro n new
    refine Table.find?_eq_none.mpr fun m there same => ?_
    obtain ⟨stored, left⟩ := Table.mem_eraseAll.mp there
    have mine : weight m.teamId = weight d.id := congrArg Prod.fst same
    by_cases kept : Wanted known d m.userId
    · exact (mem_newOf.mp new).2
        ⟨m, stored, mine, member_unique plain same kept (wanted new)⟩
    · refine left (List.mem_map.mpr ⟨m.userId, mem_goneOf.mpr ⟨⟨m, stored, mine, rfl⟩, kept⟩, ?_⟩)
      rw [TeamMember.key, mine]
  unfold writeMembers
  rw [Prog.working_query]
  show ((removeMembers d.id (goneOf known W.teamMembers d) _) >>= _).working now W = _
  rw [Prog.working_bind working_removeMembers]
  exact working_addMembers free (nodup_weight sorted fun n new => plain n (wanted new).1) team
    fun n new => people n (wanted new)

theorem filter_rolled {B M : Table TeamMember.key} {d : Declared} (other : w ≠ weight d.id) :
    (rolled known B M d).rows.filter (fun m => weight m.teamId = w) =
      M.rows.filter fun m => weight m.teamId = w := by
  have off (m : TeamMember) (mine : weight m.teamId = weight d.id) :
      decide (weight m.teamId = w) = false :=
    decide_eq_false fun same => other (same.symm.trans mine)
  rw [rolled, Table.filter_putAll, Table.filter_eraseAll]
  · intro k member m same
    obtain ⟨g, _, rfl⟩ := List.mem_map.mp member
    exact off m (congrArg Prod.fst same)
  · intro r member m same
    obtain ⟨n, _, rfl⟩ := List.mem_map.mp member
    exact off m (congrArg Prod.fst same)

/-- The rows of a team are as they were in the table `B`. -/
def Untouched (B M : Table TeamMember.key) (d : Declared) : Prop :=
  M.rows.filter (fun m => weight m.teamId = weight d.id) =
    B.rows.filter fun m => weight m.teamId = weight d.id

theorem Untouched.members {B M : Table TeamMember.key} (untouched : Untouched B M d) :
    membersOf M d.id = membersOf B d.id := congrArg (List.map fun m : TeamMember => m.userId) untouched

theorem Untouched.mem {B M : Table TeamMember.key} (untouched : Untouched B M d)
    (mine : weight m.teamId = weight d.id) : m ∈ M ↔ m ∈ B := by
  have both (T : Table TeamMember.key) :
      m ∈ T ↔ m ∈ T.rows.filter fun m => weight m.teamId = weight d.id := by
    simp [Table.mem_def, mine]
  rw [both M, both B, untouched]

theorem working_writeAllMembers {W : Store} {ds : List Declared}
    (untouched : ∀ d ∈ ds, Untouched B W.teamMembers d)
    (distinct : (ds.map fun d => weight d.id).Nodup)
    (plain : ∀ d ∈ ds, ∀ m ∈ d.members, Plain m)
    (people : ∀ d ∈ ds, ∀ m, Wanted known d m → (W.user? m).isSome)
    (teams : ∀ d ∈ ds, (W.team? d.id).isSome) :
    (writeAllMembers known reactivated ds progress).working now W =
      .ok (ds.foldl (memberProgress known reactivated B) progress,
        { W with teamMembers := ds.foldl (rolled known B) W.teamMembers }) := by
  induction ds generalizing W progress with
  | nil => rfl
  | cons d ds ih =>
    obtain ⟨new, distinct'⟩ := List.nodup_cons.mp distinct
    have here := untouched d List.mem_cons_self
    have current : currentOf W.teamMembers d = currentOf B d :=
      congrArg (extendSorted []) here.members
    have written : (writeMembers known reactivated d progress).working now W =
        .ok (memberProgress known reactivated W.teamMembers progress d,
          { W with teamMembers := rolled known W.teamMembers W.teamMembers d }) :=
      working_writeMembers (plain d List.mem_cons_self) (people d List.mem_cons_self)
        (teams d List.mem_cons_self)
    rw [memberProgress, rolled, goneOf, newOf, current] at written
    rw [writeAllMembers, Prog.working_bind written]
    refine ih (fun d' member => ?_) distinct' (fun d' member => plain d' (List.mem_cons_of_mem _ member))
      (fun d' member => people d' (List.mem_cons_of_mem _ member))
      fun d' member => teams d' (List.mem_cons_of_mem _ member)
    exact (filter_rolled fun same => new (List.mem_map.mpr ⟨d', member, same⟩)).trans
      (untouched d' (List.mem_cons_of_mem _ member))

/-! ### The pending rows -/

theorem working_insertAllPending {W : Store}
    (free : ∀ u ∈ new, W.pendingMembers.find? (weight administrators, weight u) = none)
    (distinct : (new.map weight).Nodup) (team : new ≠ [] → (W.team? administrators).isSome) :
    (insertAllPending new).working now W = .ok ((),
      { W with pendingMembers :=
        W.pendingMembers.putAll (new.map fun u => ⟨administrators, u⟩) }) := by
  induction new generalizing W with
  | nil => rfl
  | cons u new ih =>
    obtain ⟨apart, distinct'⟩ := List.nodup_cons.mp distinct
    have there := team (List.cons_ne_nil u new)
    rw [insertAllPending, Prog.working_query]
    simp only [insertPending, free u List.mem_cons_self, Option.isSome_none, Bool.false_eq_true,
      if_false, Option.isNone_eq_false_iff.mpr there, orElse]
    show (insertAllPending new).working now
      { W with pendingMembers := W.pendingMembers.put ⟨administrators, u⟩ } = _
    rw [ih (W := { W with pendingMembers := W.pendingMembers.put ⟨administrators, u⟩ }) ?_ distinct'
      fun _ => there]
    · rfl
    · intro x member
      rw [← free x (List.mem_cons_of_mem _ member)]
      refine Table.find?_put_ne fun alike => apart (List.mem_map.mpr ⟨x, member, ?_⟩)
      exact congrArg Prod.snd alike

/-- The pending rows of some ids. -/
def pendingTable (pending : List String) : Table PendingMember.key :=
  Table.empty.putAll (pending.map fun u => ⟨administrators, u⟩)

theorem working_replacePending {W : Store} (distinct : (pending.map weight).Nodup)
    (team : pending ≠ [] → (W.team? administrators).isSome) :
    (replacePending pending).working now W =
      .ok ((), { W with pendingMembers := pendingTable pending }) := by
  have emptied : applyAll ((deletePending fun _ => true).exec now W).2 W =
      { W with pendingMembers := Table.empty } := by
    have all : (W.pendingMembers.rows.filter fun _ => true) = W.pendingMembers.rows := by simp
    have none : W.pendingMembers.eraseAll (W.pendingMembers.rows.map (·.key)) = Table.empty := by
      refine Table.ext_rows (List.eq_nil_iff_forall_not_mem.mpr fun p member => ?_)
      obtain ⟨there, gone⟩ := Table.mem_eraseAll.mp member
      exact gone (List.mem_map_of_mem there)
    simp only [deletePending, all]
    rw [IdentityProofs.applyAll_dropPending, none]
  unfold replacePending
  rw [Prog.working_query, emptied]
  exact working_insertAllPending (fun _ _ => rfl) distinct team

/-! ### The whole -/

/-- The declared administrators that are live. -/
def liveOf (σ : Store) (declared : List Declared) : Nat :=
  liveAfter (surveyed σ declared) (declared.find? fun t => t.id = administrators)

/-- The declared administrators a sync leaves pending. -/
def pendingOf (σ : Store) (declared : List Declared) : List String :=
  pendingAfter (surveyed σ declared) (declared.find? fun t => t.id = administrators)
    (liveOf σ declared)

/-- A store in which a declaration can be synced. -/
structure Accepts (σ : Store) (declared : List Declared) : Prop where
  sentinel : σ.teamSyncLock = true
  guarded : 0 < (liveMembers σ administrators).length → liveOf σ declared ≠ 0
  room : ∀ d ∈ declared, Room σ.teams d

/-- The teams once the declared ones are live. -/
def openedTeams (σ : Store) (declared : List Declared) : Table Schema.Team.key :=
  σ.teams.putAll (declared.map fun d => opened d (exactly σ.teams d.id))

/-- The teams once the omitted ones are archived too. -/
def settledTeams (now : Int) (σ : Store) (declared : List Declared) : Table Schema.Team.key :=
  (openedTeams σ declared).putAll
    (closing now (openedTeams σ declared) declared (storedTeams σ.teams))

/-- What a sync has counted in the end. -/
def progressOf (σ : Store) (declared : List Declared) : Progress :=
  declared.foldl (memberProgress (surveyed σ declared) (reactivatedOf σ.teams declared)
      σ.teamMembers)
    (closedProgress declared σ.teamMembers (storedTeams σ.teams)
      (openedProgress σ.teams declared
        ⟨⟨0, 0, 0, 0, 0, unknownMembers (surveyed σ declared) (pendingOf σ declared) declared, [],
          saturated (liveOf σ declared), []⟩, []⟩))

/-- What a sync answers. -/
def reported (σ : Store) (declared : List Declared) : SyncTeamsResponse :=
  { (progressOf σ declared).resp with
    pendingAdministratorUserIds := pendingOf σ declared
    changedUserIds := (progressOf σ declared).changed }

/-- The store a sync leaves. -/
def synced (now : Int) (σ : Store) (declared : List Declared) : Store :=
  { σ with
    teams := settledTeams now σ declared
    teamMembers := declared.foldl (rolled (surveyed σ declared) σ.teamMembers) σ.teamMembers
    pendingMembers := pendingTable (pendingOf σ declared) }

/-- A sync from its first lock on. -/
def syncing (declared : List Declared) : Rpc SyncTeamsResponse := do
  let locked ← tx selectSyncLockForUpdate
  orElse db locked
  let _ ← lockAdministrators
  let liveBefore ← liveAdministrators
  let known ← knownUsers (declared.flatMap (·.members)) []
  let admins := declared.find? fun t => t.id = administrators
  let live := liveAfter known admins
  if liveBefore > 0 ∧ live = 0 then
    refuse ⟨.failedPrecondition, "the declaration would leave administrators with no live member " ++
      "(ADR-0963 (6) lockout guard); nothing was written"⟩
  else do
    let pending := pendingAfter known admins live
    let resp : SyncTeamsResponse :=
      ⟨0, 0, 0, 0, 0, unknownMembers known pending declared, [], saturated live, []⟩
    let (reactivated, progress) ← writeTeams declared ⟨resp, []⟩
    let progress ← writeAllMembers known reactivated declared progress
    replacePending pending
    commit
    pure { progress.resp with
      pendingAdministratorUserIds := pending
      changedUserIds := progress.changed }

/-- What a validated declaration is: its ids and names are apart to the engine,
and no team lists a member twice. -/
structure Proper (declared : List Declared) : Prop where
  ids : (declared.map fun d => weight d.id).Nodup
  names : (declared.map fun d => weight d.name).Nodup
  spelled : ∀ d ∈ declared, Plain d.id
  plain : ∀ d ∈ declared, ∀ m ∈ d.members, Plain m
  once : ∀ d ∈ declared, d.members.Nodup

theorem proper_of_valid (valid : validate teams = .ok declared) : Proper declared := by
  have distinct := validate_nodup valid
  refine ⟨?_, ?_, fun d member => ?_, fun d member m listed => ?_, fun d member => ?_⟩
  · exact List.Nodup.map_on (fun d member d' member' => declared_unique valid member member') distinct
  · refine List.Nodup.map_on (fun d member d' member' same => ?_) distinct
    obtain ⟨id, ok, _⟩ := validate_ok valid member
    obtain ⟨id', ok', _⟩ := validate_ok valid member'
    have names : d.name = d'.name :=
      Engine.weight_plain _ _ (plain_of_nameOk ok) (plain_of_nameOk ok') same
    exact declared_unique valid member member' (by rw [id, id', names])
  · obtain ⟨id, ok, _⟩ := validate_ok valid member
    exact id ▸ Membership.plain_of_name ok
  · exact Membership.plain_of_declared valid member listed
  · obtain ⟨accepted, rfl⟩ := Wellformed.validate_iff.mp valid
    obtain ⟨t, there, rfl⟩ := List.mem_map.mp member
    exact accepted.once t there

theorem Proper.unique (proper : Proper declared) (left : d ∈ declared) (right : d' ∈ declared)
    (same : weight d.id = weight d'.id) : d = d' :=
  List.inj_on_of_nodup_map proper.ids left right same

theorem nodup_storedTeams {T : Table Schema.Team.key} :
    ((storedTeams T).map fun e => weight e.1).Nodup := by
  have keys : ((T.rows.map fun t => (t.id, t.deletedAt.isSome)).map fun e => weight e.1) =
      T.rows.map Schema.Team.key := by
    rw [List.map_map]
    rfl
  exact ((perm_collect (nodup_teamIds T)).map _).nodup_iff.mpr (keys ▸ T.distinct)

theorem working_writeTeams (proper : Proper declared) (room : ∀ d ∈ declared, Room σ.teams d) :
    (writeTeams declared progress).working now σ =
      .ok ((reactivatedOf σ.teams declared, closedProgress declared σ.teamMembers
          (storedTeams σ.teams) (openedProgress σ.teams declared progress)),
        { σ with teams := settledTeams now σ declared }) := by
  unfold writeTeams
  rw [Prog.working_query]
  show ((openTeams (storedTeams σ.teams) declared progress) >>= _).working now σ = _
  rw [Prog.working_bind (working_openTeams ⟨fun _ _ => rfl, room, proper.ids, proper.names⟩)]
  show ((archiveTeams declared (storedTeams σ.teams) _) >>= _).working now
    { σ with teams := openedTeams σ declared } = _
  rw [Prog.working_bind (working_archiveTeams nodup_storedTeams fun _ _ => rfl)]
  rfl

/-- A declared team is there, once the teams are written. -/
theorem isSome_putAll {t : Table Schema.Team.key} (there : (t.find? k).isSome) :
    ((t.putAll rs).find? k).isSome := by
  induction rs generalizing t with
  | nil => exact there
  | cons r rs ih =>
    refine ih ?_
    rw [Table.find?_put]
    split
    · rfl
    · exact there

theorem key_opened (d : Declared) (T : Table Schema.Team.key) :
    (opened d (exactly T d.id)).id = d.id := by
  cases found : exactly T d.id with
  | none => rfl
  | some t =>
    rw [opened]
    split <;> exact (exactly_eq_some.mp found).2

theorem mem_openedTeams (proper : Proper declared) : t ∈ openedTeams σ declared ↔
    (∃ d ∈ declared, t = opened d (exactly σ.teams d.id)) ∨
      t ∈ σ.teams ∧ ∀ d ∈ declared, weight d.id ≠ t.key := by
  have keys : (declared.map fun d => opened d (exactly σ.teams d.id)).map Schema.Team.key =
      declared.map fun d => weight d.id := by
    rw [List.map_map]
    exact List.map_congr_left fun d _ => congrArg weight (key_opened d σ.teams)
  rw [openedTeams, Table.mem_putAll (keys ▸ proper.ids), keys]
  simp [eq_comm]

theorem team_settled (proper : Proper declared) (member : d ∈ declared) :
    ((settledTeams now σ declared).find? (weight d.id)).isSome := by
  refine isSome_putAll (Table.find?_isSome.mpr ⟨opened d (exactly σ.teams d.id), ?_, ?_⟩)
  · exact (mem_openedTeams proper).mpr (Or.inl ⟨d, member, rfl⟩)
  · exact congrArg weight (key_opened d σ.teams)

/-- The declared administrators a sync leaves pending are members of that team,
and there is one declared. -/
theorem pendingOf_declared (pending : u ∈ pendingOf σ declared) :
    ∃ d ∈ declared, d.id = administrators ∧ u ∈ d.members := by
  obtain ⟨_, d, named, listed, _⟩ := mem_pendingAfter pending
  exact ⟨d, List.mem_of_find?_eq_some named, by simpa using List.find?_some named, listed⟩

theorem nodup_pendingOf (proper : Proper declared) :
    ((pendingOf σ declared).map weight).Nodup := by
  have once : (pendingOf σ declared).Nodup := by
    unfold pendingOf pendingAfter
    split
    · rename_i d named _
      exact (proper.once d (List.mem_of_find?_eq_some named)).filter _
    · exact List.nodup_nil
  refine List.Nodup.map_on (fun u pending u' pending' same => ?_) once
  obtain ⟨d, member, _, listed⟩ := pendingOf_declared pending
  obtain ⟨d', member', _, listed'⟩ := pendingOf_declared pending'
  exact Engine.weight_plain _ _ (proper.plain d member u listed) (proper.plain d' member' u' listed')
    same

/-- Where it is accepted, a sync does this. -/
theorem working_syncing (proper : Proper declared) (accepts : Accepts σ declared) :
    (syncing declared).working now σ = .ok (reported σ declared, synced now σ declared) := by
  have people (d : Declared) (member : d ∈ declared) (m : String)
      (wanted : Wanted (surveyed σ declared) d m) : (σ.user? m).isSome := by
    have known := wanted.2
    rw [knownAs_surveyed member wanted.1] at known
    exact Option.isSome_iff_ne_none.mpr fun absent => known (standing_absent.mpr absent)
  unfold syncing
  rw [Prog.working_query]
  simp only [selectSyncLockForUpdate, accepts.sentinel, if_true, orElse]
  unfold lockAdministrators liveAdministrators
  show (tx selectAdministratorsForUpdate >>= _ : Rpc SyncTeamsResponse).working now σ = _
  rw [Prog.working_query]
  show (tx countLiveAdministrators >>= _ : Rpc SyncTeamsResponse).working now σ = _
  rw [Prog.working_query]
  show (knownUsers (declared.flatMap (·.members)) [] >>= _ : Rpc SyncTeamsResponse).working now σ = _
  rw [Prog.working_bind working_knownUsers]
  show Prog.working now (if (liveMembers σ administrators).length > 0 ∧ liveOf σ declared = 0 then
    _ else _) σ = _
  rw [if_neg fun lockout => accepts.guarded lockout.1 lockout.2,
    Prog.working_bind (working_writeTeams proper accepts.room)]
  show (writeAllMembers (surveyed σ declared) _ declared _ >>= _ : Rpc SyncTeamsResponse).working now
    { σ with teams := settledTeams now σ declared } = _
  rw [Prog.working_bind (working_writeAllMembers (B := σ.teamMembers)
    (W := { σ with teams := settledTeams now σ declared }) (fun _ _ => rfl) proper.ids proper.plain
    people fun d member => team_settled proper member)]
  show (replacePending (pendingOf σ declared) >>= _ : Rpc SyncTeamsResponse).working now
    { σ with
      teams := settledTeams now σ declared
      teamMembers := declared.foldl (rolled (surveyed σ declared) σ.teamMembers) σ.teamMembers } = _
  rw [Prog.working_bind (working_replacePending (nodup_pendingOf proper) fun some => ?_)]
  · rfl
  · obtain ⟨u, pending⟩ := List.exists_mem_of_ne_nil _ some
    obtain ⟨d, member, named, _⟩ := pendingOf_declared pending
    exact named ▸ team_settled proper member

/-- A sync that does something has been accepted. -/
theorem accepts_of_working (proper : Proper declared)
    (ran : (syncing declared).working now σ = .ok out) : Accepts σ declared := by
  unfold syncing at ran
  rw [Prog.working_query] at ran
  cases sentinel : σ.teamSyncLock with
  | false =>
    simp only [selectSyncLockForUpdate, sentinel, Bool.false_eq_true, if_false, orElse] at ran
    cases ran
  | true =>
    simp only [selectSyncLockForUpdate, sentinel, if_true, orElse] at ran
    unfold lockAdministrators liveAdministrators at ran
    have asked : (knownUsers (declared.flatMap (·.members)) [] >>= _ :
      Rpc SyncTeamsResponse).working now σ = .ok out := ran
    rw [Prog.working_bind working_knownUsers] at asked
    have guard : Prog.working now (if (liveMembers σ administrators).length > 0 ∧
      liveOf σ declared = 0 then _ else _) σ = .ok out := asked
    split at guard
    · cases guard
    · rename_i guarded
      obtain ⟨_, _, written, _⟩ := Prog.working_bind_ok.mp guard
      have opened : (openTeams (storedTeams σ.teams) declared _ >>= _ :
        Rpc (List String × Progress)).working now σ = .ok _ := written
      obtain ⟨_, _, opened, _⟩ := Prog.working_bind_ok.mp opened
      exact ⟨sentinel, fun some none => guarded ⟨some, none⟩,
        room_of_openTeams proper.ids (fun _ _ => rfl) opened⟩

theorem rest_syncing : (syncing declared).Rest := by
  refine Prog.Rest.after Prog.inner_query_only fun _ => ?_
  refine Prog.Rest.after Endings.inner_orElse fun _ => ?_
  refine Prog.Rest.after Prog.inner_query_only fun _ => ?_
  refine Prog.Rest.after Prog.inner_query_only fun n => ?_
  refine Prog.Rest.after Endings.inner_knownUsers fun known => ?_
  dsimp only
  split
  · trivial
  · refine Prog.Rest.after ?_ fun written => ?_
    · refine Prog.Inner.bind Prog.inner_query_only fun _ => Endings.inner_openTeams.bind fun _ => ?_
      exact Endings.inner_archiveTeams.bind fun _ => trivial
    · refine Prog.Rest.after Endings.inner_writeAllMembers fun _ => ?_
      exact Prog.Rest.after Endings.inner_replacePending fun _ => ⟨_, rfl⟩

/-- A sync by itself. -/
theorem sync_alone {c : Call} (request : c.request = .syncTeams r)
    (caller : admitted c.caller = .ok ()) (valid : validate r.teams = .ok declared) :
    (service c).alone .fresh σ now = match (syncing declared).working now σ with
      | .ok (a, W) => (.ok (.syncTeams a), W)
      | .error e => (.error e, σ) := by
  have whole : service c = .begin .readCommitted (do pure (.syncTeams (← syncing declared))) := by
    unfold service
    rw [request, caller]
    show (syncTeams r >>= fun answer => pure (.syncTeams answer) : Rpc Response) = _
    unfold syncTeams
    rw [valid]
    rfl
  have steady : (Local.fresh.opened .readCommitted : Local Store Write Res).Steady σ := nofun
  rw [whole]
  show Prog.alone _ (Local.fresh.opened .readCommitted) σ now = _
  rw [(rest_syncing.map _).alone steady, Local.opened_pending, applyAll_nil]
  cases ran : (syncing declared).working now σ with
  | error e =>
    rw [Prog.working_bind_error ran]
  | ok out =>
    rw [Prog.working_bind ran]
    rfl

/-- A sync that answers has done what it answers. -/
theorem synced_of_alone {c : Call} (request : c.request = .syncTeams r)
    (answered : (service c).alone .fresh σ now = (.ok (.syncTeams a), σ')) :
    ∃ declared, validate r.teams = .ok declared ∧ Accepts σ declared ∧ a = reported σ declared ∧
      σ' = synced now σ declared := by
  have fails (e : Status) (failed : service c = .fail e) : False := by
    rw [failed] at answered
    cases answered
  cases caller : admitted c.caller with
  | error e =>
    refine (fails e ?_).elim
    unfold service
    rw [caller]
    rfl
  | ok _ =>
    cases valid : validate r.teams with
    | error e =>
      refine (fails e ?_).elim
      unfold service
      rw [caller, request]
      show (syncTeams r >>= fun answer => pure (.syncTeams answer) : Rpc Response) = _
      unfold syncTeams
      rw [valid]
      rfl
    | ok declared =>
      rw [sync_alone request caller valid] at answered
      cases ran : (syncing declared).working now σ with
      | error e =>
        rw [ran] at answered
        cases answered
      | ok out =>
        have accepts := accepts_of_working (proper_of_valid valid) ran
        rw [working_syncing (proper_of_valid valid) accepts] at answered
        cases answered
        exact ⟨declared, rfl, accepts, rfl, rfl⟩

end

end IamDb.Syncs
