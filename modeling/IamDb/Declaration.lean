import IamDb.KeyIdentityProofs

/-! What a declaration says, apart from any transaction: validated names name
different teams, the maps of a sync hold what was put into them, and turning
teams on and off one by one leaves exactly the declared ones live. -/
namespace IamDb.Declaration
open Txn Schema Messages Service Team

/-! ### Sorted sets and maps -/

theorem mem_insertSorted {l : List String} : x ∈ insertSorted s l ↔ x = s ∨ x ∈ l := by
  induction l with
  | nil => simp [insertSorted]
  | cons head rest ih =>
    simp only [insertSorted]
    split
    · simp
    · split
      · rename_i same
        simp [same]
      · simp only [List.mem_cons, ih]
        exact or_left_comm

theorem mem_extendSorted {set new : List String} : x ∈ extendSorted set new ↔ x ∈ set ∨ x ∈ new := by
  unfold extendSorted
  induction new generalizing set with
  | nil => simp
  | cons head rest ih =>
    rw [List.foldl_cons, ih, mem_insertSorted, List.mem_cons, or_assoc, or_left_comm]

section
variable {α : Type} {m : Map α}

theorem get?_insert : (Map.insert k v m).get? k' = if k = k' then some v else m.get? k' := by
  induction m with
  | nil =>
    by_cases same : k = k' <;> simp [Map.insert, Map.get?, same]
  | cons entry rest ih =>
    obtain ⟨k₀, v₀⟩ := entry
    simp only [Map.insert]
    split
    · by_cases same : k = k' <;> simp [Map.get?, same]
    · split
      · rename_i here
        subst here
        by_cases same : k = k' <;> simp [Map.get?, same]
      · rename_i other
        by_cases first : k₀ = k'
        · have apart : k ≠ k' := fun same => other (same.trans first.symm)
          simp [Map.get?, first, apart]
        · simp only [Map.get?, List.find?_cons, first, decide_false] at ih ⊢
          exact ih

theorem mem_insert (member : e ∈ Map.insert k v m) : e = (k, v) ∨ e ∈ m := by
  induction m with
  | nil => exact Or.inl (List.mem_singleton.mp member)
  | cons entry rest ih =>
    obtain ⟨k₀, v₀⟩ := entry
    simp only [Map.insert] at member
    split at member
    · exact List.mem_cons.mp member
    · split at member
      · rcases List.mem_cons.mp member with same | stored
        · exact Or.inl same
        · exact Or.inr (List.mem_cons_of_mem _ stored)
      · rcases List.mem_cons.mp member with same | stored
        · exact Or.inr (same ▸ List.mem_cons_self)
        · exact (ih stored).imp id (List.mem_cons_of_mem _)

private theorem foldl_insert (entries : List (String × α)) :
    (∀ e ∈ entries.foldl (fun m e => Map.insert e.1 e.2 m) m, e ∈ m ∨ e ∈ entries) ∧
      ∀ k, (entries.foldl (fun m e => Map.insert e.1 e.2 m) m).get? k = none ↔
        m.get? k = none ∧ ∀ e ∈ entries, e.1 ≠ k := by
  induction entries generalizing m with
  | nil => simp
  | cons entry rest ih =>
    obtain ⟨mem, gets⟩ := ih (m := Map.insert entry.1 entry.2 m)
    constructor
    · intro e member
      rcases mem e member with inserted | later
      · rcases mem_insert inserted with rfl | stored
        · exact Or.inr List.mem_cons_self
        · exact Or.inl stored
      · exact Or.inr (List.mem_cons_of_mem _ later)
    · intro k
      rw [List.foldl_cons, gets, get?_insert]
      by_cases same : entry.1 = k
      · simp [same]
      · simp [same]

/-- A map collected from entries holds nothing else. -/
theorem mem_collect {entries : List (String × α)} (member : e ∈ Map.collect entries) :
    e ∈ entries := by
  rcases (foldl_insert (m := []) entries).1 e member with absurd | there
  · cases absurd
  · exact there

theorem perm_insert {m : List (String × α)} {v : α} (new : ∀ e ∈ m, e.1 ≠ k) :
    (Map.insert k v m).Perm ((k, v) :: m) := by
  induction m with
  | nil => exact .refl _
  | cons entry rest ih =>
    obtain ⟨k', v'⟩ := entry
    rw [Map.insert]
    split
    · exact .refl _
    · split
      · rename_i same
        exact absurd same.symm (new _ List.mem_cons_self)
      · exact ((ih fun e member => new e (List.mem_cons_of_mem _ member)).cons _).trans (.swap _ _ _)

/-- A map of entries under distinct keys holds them all. -/
theorem perm_collect {entries : List (String × α)}
    (distinct : (entries.map (·.1)).Nodup) : (Map.collect entries).Perm entries := by
  suffices ∀ m : Map α, (∀ e ∈ m, ∀ e' ∈ entries, e.1 ≠ e'.1) →
      (entries.foldl (fun m e => Map.insert e.1 e.2 m) m).Perm (m ++ entries) from this [] nofun
  induction entries with
  | nil =>
    intro m _
    rw [List.append_nil]
    exact .refl _
  | cons entry rest ih =>
    intro m apart
    obtain ⟨new, distinct'⟩ := List.nodup_cons.mp distinct
    have inserted : (Map.insert entry.1 entry.2 m).Perm (entry :: m) :=
      perm_insert fun e member => apart e member entry List.mem_cons_self
    rw [List.foldl_cons]
    refine (ih distinct' _ fun e member e' member' same => ?_).trans ?_
    · rcases mem_insert member with rfl | old
      · exact new (List.mem_map.mpr ⟨e', member', same.symm⟩)
      · exact apart e old e' (List.mem_cons_of_mem _ member') same
    · exact (inserted.append_right rest).trans List.perm_middle.symm

theorem get?_collect_eq_none {entries : List (String × α)} :
    (Map.collect entries).get? k = none ↔ ∀ e ∈ entries, e.1 ≠ k := by
  have gets := (foldl_insert (m := []) entries).2 k
  simpa [Map.collect, Map.get?] using gets

theorem get?_mem (found : m.get? k = some v) : (k, v) ∈ m := by
  obtain ⟨⟨k', v'⟩, first, rfl⟩ := Option.map_eq_some_iff.mp found
  have same : k' = k := by simpa using List.find?_some first
  exact same ▸ List.mem_of_find?_eq_some first

end

/-! ### Validation -/

theorem validateMembers_ok (valid : validateMembers team j seen ms = .ok ()) :
    ∀ m ∈ ms, canonicalUserId m = true := by
  induction ms generalizing j seen with
  | nil => simp
  | cons head rest ih =>
    simp only [validateMembers] at valid
    split at valid
    · cases valid
    · rename_i canonical
      split at valid
      · cases valid
      · intro m member
        rcases List.mem_cons.mp member with rfl | later
        · simpa using canonical
        · exact ih valid m later

private theorem validateFrom_ok (valid : validateFrom i names teams = .ok declared) :
    (∀ d ∈ declared, d.id = teamPrefix ++ d.name ∧ nameOk d.name = true ∧ d.name ∉ names ∧
      ∀ m ∈ d.members, canonicalUserId m = true) ∧ (declared.map (·.name)).Nodup := by
  induction teams generalizing i names declared with
  | nil =>
    cases valid
    simp
  | cons t rest ih =>
    simp only [validateFrom] at valid
    split at valid
    · cases valid
    · rename_i named
      split at valid
      · cases valid
      · rename_i new
        split at valid
        · cases valid
        · rename_i members
          cases tail : validateFrom (i + 1) (t.name :: names) rest with
          | error e =>
            rw [tail] at valid
            cases valid
          | ok out =>
            rw [tail] at valid
            cases valid
            obtain ⟨each, distinct⟩ := ih tail
            constructor
            · intro d member
              rcases List.mem_cons.mp member with rfl | later
              · exact ⟨rfl, by simpa using named, new, validateMembers_ok members⟩
              · obtain ⟨id, ok, other, canonical⟩ := each d later
                exact ⟨id, ok, fun before => other (List.mem_cons_of_mem _ before), canonical⟩
            · refine List.nodup_cons.mpr ⟨?_, distinct⟩
              intro member
              obtain ⟨d, there, same⟩ := List.mem_map.mp member
              exact (each d there).2.2.1 (same ▸ List.mem_cons_self)

/-- What a valid declaration says of each of its teams. -/
theorem validate_ok (valid : validate teams = .ok declared) (member : d ∈ declared) :
    d.id = teamPrefix ++ d.name ∧ nameOk d.name = true ∧ ∀ m ∈ d.members, canonicalUserId m = true := by
  obtain ⟨id, ok, _, canonical⟩ := (validateFrom_ok valid).1 d member
  exact ⟨id, ok, canonical⟩

theorem validate_nodup (valid : validate teams = .ok declared) : declared.Nodup :=
  List.Nodup.of_map _ (validateFrom_ok valid).2

/-! ### The guard -/

/-- A declaration that leaves live administrators names one. -/
theorem liveAfter_ne_zero (some : liveAfter known admins ≠ 0) :
    ∃ d, admins = .some d ∧ ∃ u ∈ d.members, knownAs known u = .live := by
  cases admins with
  | none => exact absurd rfl some
  | some d =>
    obtain ⟨u, member⟩ := List.exists_mem_of_length_pos (Nat.pos_of_ne_zero some)
    obtain ⟨there, live⟩ := List.mem_filter.mp member
    exact ⟨d, rfl, u, there, by simpa using live⟩

/-- Only declared administrators nobody has the id of are pending, and only
while none of them would be live. -/
theorem mem_pendingAfter (member : u ∈ pendingAfter known admins live) :
    live = 0 ∧ ∃ d, admins = .some d ∧ u ∈ d.members ∧ knownAs known u = .absent := by
  unfold pendingAfter at member
  split at member
  · obtain ⟨there, absent⟩ := List.mem_filter.mp member
    exact ⟨rfl, _, rfl, there, by simpa using absent⟩
  · cases member

/-! ### Names -/

theorem plain_append (left : Plain a) (right : Plain b) : Plain (a ++ b) := by
  intro c member
  rw [String.toList_append, List.mem_append] at member
  exact member.elim (left c) (right c)

theorem plain_teamPrefix : Plain teamPrefix := by
  have all : teamPrefix.toList.all fun c => c.isLower || c.isDigit || c = ':' || c = '-' := by decide
  intro c member
  simpa [or_assoc] using List.all_eq_true.mp all c member

theorem plain_of_nameOk (ok : nameOk s = true) : Plain s := by
  simp only [nameOk, Bool.and_eq_true, List.all_eq_true, Bool.or_eq_true, decide_eq_true_eq] at ok
  intro c member
  rcases ok.2 c member with (lower | digit) | hyphen
  · exact Or.inl lower
  · exact Or.inr (Or.inl digit)
  · exact Or.inr (Or.inr (Or.inr hyphen))

variable [Engine]

/-- Declared ids that are equal to the engine are one team's. -/
theorem declared_unique (valid : validate teams = .ok declared) (left : d ∈ declared)
    (right : d' ∈ declared) (same : weight d.id = weight d'.id) : d = d' := by
  obtain ⟨id, ok, _⟩ := validate_ok valid left
  obtain ⟨id', ok', _⟩ := validate_ok valid right
  have names : d.name = d'.name := by
    have ids : d.id = d'.id := Engine.weight_plain _ _
      (id ▸ plain_append plain_teamPrefix (plain_of_nameOk ok))
      (id' ▸ plain_append plain_teamPrefix (plain_of_nameOk ok')) same
    rw [id, id'] at ids
    have lists := congrArg String.toList ids
    simp only [String.toList_append] at lists
    exact String.toList_inj.mp (List.append_cancel_left lists)
  exact List.inj_on_of_nodup_map (validateFrom_ok valid).2 left right names

/-! ### Turning teams on and off -/

theorem nodup_teamIds (teams : Table Team.key) :
    ((teams.rows.map fun t => (t.id, t.deletedAt.isSome)).map (·.1)).Nodup := by
  refine List.Nodup.of_map weight ?_
  rw [List.map_map, List.map_map]
  exact teams.distinct

/-- A table of teams on the way from `before`: the ids in `on` are live, those
in `off` are not, and every other team is as it was. -/
structure Sweep (declared : List Declared) (before : Table Team.key) (on off : List String)
    (teams : Table Team.key) : Prop where
  kept : ∀ t ∈ before, ∃ t' ∈ teams, t'.id = t.id ∧ t'.name = t.name
  turned : ∀ t ∈ teams, Effects.Turned declared before t
  live : ∀ t ∈ teams, t.id ∈ on → t.deletedAt = none
  dead : ∀ t ∈ teams, t.id ∈ off → t.deletedAt ≠ none
  same : ∀ t ∈ teams, t.id ∉ on → t.id ∉ off → t ∈ before
  present : ∀ i ∈ on, ∃ t ∈ teams, t.id = i

theorem Sweep.refl (declared : List Declared) (before : Table Team.key) :
    Sweep declared before [] [] before :=
  ⟨fun t member => ⟨t, member, rfl, rfl⟩, fun t member => .same member, by simp, by simp,
    fun t member _ _ => member, by simp⟩

section
variable {declared : List Declared} {before teams : Table Team.key} {on off : List String}

/-- A row that is on neither list yet is the one that was there. -/
theorem Sweep.untouched (sweep : Sweep declared before on off teams) (stored : t ∈ before)
    (there : t' ∈ teams) (id : t'.id = t.id) (notOn : t'.id ∉ on) (notOff : t'.id ∉ off) :
    t' ∈ before ∧ t' = t := by
  have old := sweep.same t' there notOn notOff
  exact ⟨old, Table.eq_of_key old stored (congrArg weight id)⟩

/-- A declared team that no row stands for is inserted live. -/
theorem Sweep.insert (sweep : Sweep declared before on off teams) (member : d ∈ declared)
    (absent : teams.find? (weight d.id) = none) (shut : d.id ∉ off) :
    Sweep declared before (d.id :: on) off (teams.put ⟨d.id, 1, d.name, none⟩) := by
  have other : ∀ t ∈ teams, t.key ≠ weight d.id := Table.find?_eq_none.mp absent
  have named : ∀ t ∈ teams, t.id ≠ d.id := fun t there same => other t there (congrArg weight same)
  have stays (t : Schema.Team) (there : t ∈ teams) :
      t ∈ teams.put ⟨d.id, 1, d.name, none⟩ :=
    Table.mem_put.mpr (Or.inr ⟨there, other t there⟩)
  refine ⟨fun t stored => ?_, fun t there => ?_, fun t there isOn => ?_, fun t there isOff => ?_,
    fun t there isOn isOff => ?_, fun i isOn => ?_⟩
  · obtain ⟨t', there, same⟩ := sweep.kept t stored
    exact ⟨t', stays t' there, same⟩
  · rcases Table.mem_put.mp there with rfl | ⟨stored, _⟩
    · refine .inserted member rfl (Table.find?_eq_none.mpr fun x old same => ?_)
      obtain ⟨y, there, id, _⟩ := sweep.kept x old
      exact other y there ((congrArg weight id).trans same)
    · exact sweep.turned t stored
  · rcases Table.mem_put.mp there with rfl | ⟨stored, _⟩
    · rfl
    · exact sweep.live t stored ((List.mem_cons.mp isOn).resolve_left (named t stored))
  · rcases Table.mem_put.mp there with rfl | ⟨stored, _⟩
    · exact absurd isOff shut
    · exact sweep.dead t stored isOff
  · rcases Table.mem_put.mp there with rfl | ⟨stored, _⟩
    · exact absurd List.mem_cons_self isOn
    · exact sweep.same t stored (fun was => isOn (List.mem_cons_of_mem _ was)) isOff
  · rcases List.mem_cons.mp isOn with rfl | was
    · exact ⟨_, Table.mem_put_self, rfl⟩
    · obtain ⟨t, there, same⟩ := sweep.present i was
      exact ⟨t, stays t there, same⟩

/-- One row rewritten under its own id and name. -/
private theorem Sweep.put (sweep : Sweep declared before on off teams) (stored : t ∈ teams)
    (id : t'.id = t.id) (label : t'.name = t.name) (turned : Effects.Turned declared before t')
    (live : t'.id ∈ on' → t'.deletedAt = none) (dead : t'.id ∈ off' → t'.deletedAt ≠ none)
    (named : t'.id ∈ on' ∨ t'.id ∈ off') (onOther : ∀ i, i ≠ t.id → (i ∈ on' ↔ i ∈ on))
    (offOther : ∀ i, i ≠ t.id → (i ∈ off' ↔ i ∈ off)) :
    Sweep declared before on' off' (teams.put t') := by
  have key : t'.key = t.key := congrArg weight id
  have rewritten (x : Schema.Team) (there : x ∈ teams.put t') : x = t' ∨ x ∈ teams ∧ x.id ≠ t.id := by
    rcases Table.mem_put.mp there with rfl | ⟨before, other⟩
    · exact Or.inl rfl
    · exact Or.inr ⟨before, fun same => other (key ▸ congrArg weight same)⟩
  have stays (x : Schema.Team) (there : x ∈ teams) : ∃ y ∈ teams.put t', y.id = x.id ∧ y.name = x.name := by
    by_cases same : x.key = t'.key
    · obtain rfl := Table.eq_of_key there stored (same.trans key)
      exact ⟨t', Table.mem_put_self, id, label⟩
    · exact ⟨x, Table.mem_put.mpr (Or.inr ⟨there, same⟩), rfl, rfl⟩
  refine ⟨fun x old => ?_, fun x there => ?_, fun x there isOn => ?_, fun x there isOff => ?_,
    fun x there isOn isOff => ?_, fun i isOn => ?_⟩
  · obtain ⟨y, there, same, name⟩ := sweep.kept x old
    obtain ⟨z, there', same', name'⟩ := stays y there
    exact ⟨z, there', same'.trans same, name'.trans name⟩
  · rcases rewritten x there with rfl | ⟨there, _⟩
    · exact turned
    · exact sweep.turned x there
  · rcases rewritten x there with rfl | ⟨there, other⟩
    · exact live isOn
    · exact sweep.live x there ((onOther _ other).mp isOn)
  · rcases rewritten x there with rfl | ⟨there, other⟩
    · exact dead isOff
    · exact sweep.dead x there ((offOther _ other).mp isOff)
  · rcases rewritten x there with rfl | ⟨there, other⟩
    · exact absurd named (not_or.mpr ⟨isOn, isOff⟩)
    · exact sweep.same x there (fun was => isOn ((onOther _ other).mpr was))
        fun was => isOff ((offOther _ other).mpr was)
  · by_cases here : i = t.id
    · exact ⟨t', Table.mem_put_self, id.trans here.symm⟩
    · obtain ⟨y, there, rfl⟩ := sweep.present i ((onOther i here).mp isOn)
      obtain ⟨z, there', same, _⟩ := stays y there
      exact ⟨z, there', same⟩

/-- An archived declared team comes back. -/
theorem Sweep.reactivate (sweep : Sweep declared before on off teams) (stored : t ∈ teams)
    (old : t ∈ before) (archived : t.deletedAt ≠ none) (shut : t.id ∉ off) :
    Sweep declared before (t.id :: on) off
      (teams.put { t with deletedAt := none, version := t.version + 1 }) :=
  sweep.put stored rfl rfl (.reactivated old archived rfl) (fun _ => rfl) (fun isOff => absurd isOff shut)
    (Or.inl List.mem_cons_self) (fun i other => by simp [other]) fun _ _ => Iff.rfl

/-- A live team the declaration omits is archived. -/
theorem Sweep.archive (sweep : Sweep declared before on off teams) (stored : t ∈ teams)
    (old : t ∈ before) (live : t.deletedAt = none) (isOpen : t.id ∉ on) :
    Sweep declared before on (t.id :: off)
      (teams.put { t with deletedAt := some now, version := t.version + 1 }) :=
  sweep.put stored rfl rfl (.archived old live rfl) (fun isOn => absurd isOn isOpen) (fun _ => nofun)
    (Or.inr List.mem_cons_self) (fun _ _ => Iff.rfl) fun i other => by simp [other]

/-- A declared team that was live already stays as it is. -/
theorem Sweep.keep_live (sweep : Sweep declared before on off teams) (stored : t ∈ before)
    (live : t.deletedAt = none) (shut : t.id ∉ off) :
    Sweep declared before (t.id :: on) off teams := by
  obtain ⟨t', there, id, _⟩ := sweep.kept t stored
  refine { sweep with live := fun x member isOn => ?_, same := fun x member isOn isOff => ?_, present := fun i isOn => ?_ }
  · by_cases was : x.id ∈ on
    · exact sweep.live x member was
    · have here := (List.mem_cons.mp isOn).resolve_right was
      have old := sweep.same x member was (here ▸ shut)
      obtain rfl := Table.eq_of_key old stored (congrArg weight here)
      exact live
  · exact sweep.same x member (fun was => isOn (List.mem_cons_of_mem _ was)) isOff
  · rcases List.mem_cons.mp isOn with rfl | was
    · exact ⟨t', there, id⟩
    · exact sweep.present i was

/-- An omitted team that was archived already stays as it is. -/
theorem Sweep.keep_dead (sweep : Sweep declared before on off teams) (stored : t ∈ before)
    (dead : t.deletedAt ≠ none) (isOpen : t.id ∉ on) :
    Sweep declared before on (t.id :: off) teams := by
  refine { sweep with dead := fun x member isOff => ?_, same := fun x member isOn isOff => ?_ }
  · by_cases was : x.id ∈ off
    · exact sweep.dead x member was
    · have here := (List.mem_cons.mp isOff).resolve_right was
      have old := sweep.same x member (here ▸ isOpen) was
      obtain rfl := Table.eq_of_key old stored (congrArg weight here)
      exact dead
  · exact sweep.same x member isOn fun was => isOff (List.mem_cons_of_mem _ was)

end

/-! ### Members -/

/-- Whether a team is to have a member: declared, and someone. -/
def Wanted (known : Map Known) (d : Declared) (userId : String) : Prop :=
  userId ∈ d.members ∧ knownAs known userId ≠ .absent

/-- A table of member rows on the way from `before`: the teams in `done` have
exactly the members they are to have, every other team those it had. -/
structure Roll (known : Map Known) (before : Table TeamMember.key) (done : List Declared)
    (members : Table TeamMember.key) : Prop where
  listed : ∀ m ∈ members, (∃ d ∈ done, weight m.teamId = weight d.id ∧ Wanted known d m.userId) ∨
    m ∈ before ∧ ∀ d ∈ done, weight m.teamId ≠ weight d.id
  full : ∀ d ∈ done, ∀ u, Wanted known d u →
    ∃ m ∈ members, weight m.teamId = weight d.id ∧ m.userId = u
  origin : ∀ m ∈ members, m ∈ before ∨ ∃ d ∈ done, m.teamId = d.id
  stays : ∀ m ∈ before, (∀ d ∈ done, weight m.teamId = weight d.id → Wanted known d m.userId) →
    m ∈ members

theorem Roll.refl (known : Map Known) (before : Table TeamMember.key) :
    Roll known before [] before :=
  ⟨fun _ member => Or.inr ⟨member, nofun⟩, nofun, fun _ member => Or.inl member,
    fun _ member _ => member⟩

/-- Only which teams are done matters. -/
theorem Roll.congr {before members : Table TeamMember.key} {done done' : List Declared}
    (roll : Roll known before done members) (same : ∀ d, d ∈ done ↔ d ∈ done') :
    Roll known before done' members := by
  refine ⟨fun m member => ?_, fun d member => roll.full d ((same d).mpr member), fun m member =>
    (roll.origin m member).imp id fun ⟨d, member, mine⟩ => ⟨d, (same d).mp member, mine⟩,
    fun m old wanted => roll.stays m old fun d member => wanted d ((same d).mp member)⟩
  rcases roll.listed m member with ⟨d, member, mine⟩ | ⟨old, other⟩
  · exact Or.inl ⟨d, (same d).mp member, mine⟩
  · exact Or.inr ⟨old, fun d member => other d ((same d).mpr member)⟩

/-- One more team: the rows of people it is not to have are gone, and those of
the people it lacked are there. -/
theorem Roll.next {before members left after : Table TeamMember.key} {done : List Declared}
    {stored wanted : List String} (roll : Roll known before done members) (apart : ∀ d' ∈ done, weight d'.id ≠ weight d.id)
    (current : ∀ u, u ∈ stored ↔ ∃ m ∈ members, weight m.teamId = weight d.id ∧ m.userId = u)
    (desired : ∀ u, u ∈ wanted ↔ Wanted known d u)
    (removed : ∀ m, m ∈ left ↔ m ∈ members ∧
      ∀ g ∈ stored.filter fun c => c ∉ wanted, m.key ≠ (weight d.id, weight g))
    (added : ∀ m, m ∈ after ↔ m ∈ left ∨ ∃ n ∈ wanted.filter fun c => c ∉ stored, m = ⟨d.id, n⟩) :
    Roll known before (d :: done) after := by
  -- A row the removals left is wanted, if it is this team's.
  have stays (m : TeamMember) (there : m ∈ left) (mine : weight m.teamId = weight d.id) :
      Wanted known d m.userId := by
    obtain ⟨was, kept⟩ := (removed m).mp there
    by_contra unwanted
    refine kept m.userId (List.mem_filter.mpr ⟨(current _).mpr ⟨m, was, mine, rfl⟩, ?_⟩) ?_
    · simpa [desired] using unwanted
    · rw [TeamMember.key, mine]
  -- Rows of other teams go neither out nor in.
  have others (m : TeamMember) (there : m ∈ members) (other : weight m.teamId ≠ weight d.id) :
      m ∈ after := by
    refine (added m).mpr (Or.inl ((removed m).mpr ⟨there, fun g _ same => other ?_⟩))
    exact congrArg Prod.fst same
  -- Rows of this team stay where their person is wanted: a removed row with the
  -- same key would be the same row.
  have stayed (m : TeamMember) (was : m ∈ members) (mine : weight m.teamId = weight d.id)
      (want : Wanted known d m.userId) : m ∈ after := by
    refine (added m).mpr (Or.inl ((removed m).mpr ⟨was, fun g gone same => ?_⟩))
    obtain ⟨from_stored, unwanted⟩ := List.mem_filter.mp gone
    obtain ⟨m', was', mine', rfl⟩ := (current g).mp from_stored
    have key : m'.key = m.key := by rw [same, TeamMember.key, mine']
    obtain rfl := Table.eq_of_key was' was key
    simp [(desired m'.userId).mpr want] at unwanted
  refine ⟨?_, ?_, ?_, ?_⟩
  · intro m there
    by_cases mine : weight m.teamId = weight d.id
    · refine Or.inl ⟨d, List.mem_cons_self, mine, ?_⟩
      rcases (added m).mp there with left | ⟨n, new, rfl⟩
      · exact stays m left mine
      · exact (desired n).mp (List.mem_filter.mp new).1
    · have was : m ∈ members := by
        rcases (added m).mp there with left | ⟨n, new, rfl⟩
        · exact ((removed m).mp left).1
        · exact absurd rfl mine
      rcases roll.listed m was with ⟨d', before, same, wanted⟩ | ⟨old, apart'⟩
      · exact Or.inl ⟨d', List.mem_cons_of_mem _ before, same, wanted⟩
      · refine Or.inr ⟨old, fun d' member => ?_⟩
        rcases List.mem_cons.mp member with rfl | before
        · exact mine
        · exact apart' d' before
  · intro d' member u want
    rcases List.mem_cons.mp member with rfl | before
    · by_cases here : u ∈ stored
      · obtain ⟨m, was, mine, rfl⟩ := (current u).mp here
        exact ⟨m, stayed m was mine want, mine, rfl⟩
      · refine ⟨⟨d'.id, u⟩, (added _).mpr (Or.inr ⟨u, List.mem_filter.mpr ⟨?_, ?_⟩, rfl⟩), rfl, rfl⟩
        · exact (desired u).mpr want
        · simpa using here
    · obtain ⟨m, there, same, rfl⟩ := roll.full d' before u want
      exact ⟨m, others m there fun mine => apart d' before (same.symm.trans mine), same, rfl⟩
  · intro m there
    rcases (added m).mp there with left | ⟨n, _, rfl⟩
    · refine (roll.origin m ((removed m).mp left).1).imp id ?_
      exact fun ⟨d', member, mine⟩ => ⟨d', List.mem_cons_of_mem _ member, mine⟩
    · exact Or.inr ⟨d, List.mem_cons_self, rfl⟩
  · intro m old wanted
    have was := roll.stays m old fun d' member => wanted d' (List.mem_cons_of_mem _ member)
    by_cases mine : weight m.teamId = weight d.id
    · exact stayed m was mine (wanted d List.mem_cons_self mine)
    · exact others m was mine

end IamDb.Declaration
