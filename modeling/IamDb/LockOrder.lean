import IamDb.Reasons
import IamDb.Txn.Circles

/-! The order in which the transactions take their locks. The rows that hang
off a user row are locked by sessions that hold the user row already, the team
verbs take the sync lock and then the `administrators` row before any other,
and the rest hold nothing while they wait. A redemption that read its
enrolment's owner before the enrolment was there breaks the order. -/
namespace IamDb.LockOrder
open Txn Schema Messages Service Effects Evolution Interference Handlers Runs

section
variable [Engine]

/-! ### What hangs off a user row -/

/-- The row is the user's, or hangs off it. -/
def Hangs (user : String) (σ : Store) : Res → Prop
  | .user key => key = user
  | .password key => key = user
  | .credential key => ∃ c ∈ σ.credentials, c.key = key ∧ weight c.userId = user
  | .enrolment key => ∃ e ∈ σ.enrolments, e.key = key ∧ weight e.userId = user
  | .secret hash => ∃ e ∈ σ.enrolments, e.secretHash = hash ∧ weight e.userId = user
  | _ => False

/-- A row hangs off one user row only. -/
theorem Hangs.unique {σ : Store} (inv : Integrity σ) (hangs : Hangs user σ r)
    (hangs' : Hangs user' σ r) : user = user' := by
  cases r with
  | user key => exact hangs.symm.trans hangs'
  | password key => exact hangs.symm.trans hangs'
  | credential key =>
    obtain ⟨c, stored, same, owner⟩ := hangs
    obtain ⟨c', stored', same', owner'⟩ := hangs'
    obtain rfl := Table.eq_of_key stored stored' (same.trans same'.symm)
    exact owner.symm.trans owner'
  | enrolment key =>
    obtain ⟨e, stored, same, owner⟩ := hangs
    obtain ⟨e', stored', same', owner'⟩ := hangs'
    obtain rfl := Table.eq_of_key stored stored' (same.trans same'.symm)
    exact owner.symm.trans owner'
  | secret hash =>
    obtain ⟨e, stored, same, owner⟩ := hangs
    obtain ⟨e', stored', same', owner'⟩ := hangs'
    obtain rfl := inv.secrets e stored e' stored' (same.trans same'.symm)
    exact owner.symm.trans owner'
  | _ => cases hangs

/-- Every row that hangs off a user in one store is in another, of the same
user. -/
structure Keeps (σ σ' : Store) : Prop where
  credentials : ∀ c ∈ σ.credentials, ∃ c' ∈ σ'.credentials, c'.key = c.key ∧ c'.userId = c.userId
  enrolments : ∀ e ∈ σ.enrolments, ∃ e' ∈ σ'.enrolments,
    e'.key = e.key ∧ e'.userId = e.userId ∧ e'.secretHash = e.secretHash

theorem Keeps.refl (σ : Store) : Keeps σ σ :=
  ⟨fun c stored => ⟨c, stored, rfl, rfl⟩, fun e stored => ⟨e, stored, rfl, rfl, rfl⟩⟩

theorem keeps_of_evolves {σ σ' : Store} (evolves : Evolves σ σ') : Keeps σ σ' where
  credentials c stored := by
    obtain ⟨c', stored', key, later⟩ := evolves.credentials.mem stored
    exact ⟨c', stored', key, later.userId⟩
  enrolments e stored := by
    obtain ⟨e', stored', key, later⟩ := evolves.enrolments.mem stored
    exact ⟨e', stored', key, later.userId, later.secretHash⟩

theorem Hangs.kept {σ σ' : Store} (hangs : Hangs user σ r) (keeps : Keeps σ σ') :
    Hangs user σ' r := by
  cases r with
  | credential key =>
    obtain ⟨c, stored, same, owner⟩ := hangs
    obtain ⟨c', stored', key, userId⟩ := keeps.credentials c stored
    exact ⟨c', stored', key.trans same, by rw [userId, owner]⟩
  | enrolment key =>
    obtain ⟨e, stored, same, owner⟩ := hangs
    obtain ⟨e', stored', key, userId, _⟩ := keeps.enrolments e stored
    exact ⟨e', stored', key.trans same, by rw [userId, owner]⟩
  | secret hash =>
    obtain ⟨e, stored, same, owner⟩ := hangs
    obtain ⟨e', stored', _, userId, secretHash⟩ := keeps.enrolments e stored
    exact ⟨e', stored', secretHash.trans same, by rw [userId, owner]⟩
  | _ => exact hangs

/-- A write that leaves every row that hangs off a user with that user. -/
def Leaves (σ : Store) : Write → Prop
  | .user _ => True
  | .password _ => True
  | .credential r => ∃ c ∈ σ.credentials, c.key = r.key ∧ c.userId = r.userId
  | .enrolment r =>
    ∃ e ∈ σ.enrolments, e.key = r.key ∧ e.userId = r.userId ∧ e.secretHash = r.secretHash
  | _ => False

theorem Leaves.kept {σ σ' : Store} (leaves : Leaves σ w) (keeps : Keeps σ σ') : Leaves σ' w := by
  cases w with
  | credential r =>
    obtain ⟨c, stored, same, owner⟩ := leaves
    obtain ⟨c', stored', key, userId⟩ := keeps.credentials c stored
    exact ⟨c', stored', key.trans same, userId.trans owner⟩
  | enrolment r =>
    obtain ⟨e, stored, same, owner, secret⟩ := leaves
    obtain ⟨e', stored', key, userId, secretHash⟩ := keeps.enrolments e stored
    exact ⟨e', stored', key.trans same, userId.trans owner, secretHash.trans secret⟩
  | _ => exact leaves

/-- What a session with such writes pending sees hang off a user does so in the
store. -/
theorem keeps_pending {σ τ : Store} (leaves : ∀ w ∈ ws, Leaves σ w) (keeps : Keeps τ σ) :
    Keeps (applyAll ws τ) σ := by
  induction ws generalizing τ with
  | nil => exact keeps
  | cons w ws ih =>
    refine ih (fun w member => leaves w (List.mem_cons_of_mem _ member)) ?_
    have mine := leaves w List.mem_cons_self
    cases w with
    | user r => exact ⟨keeps.credentials, keeps.enrolments⟩
    | password r => exact ⟨keeps.credentials, keeps.enrolments⟩
    | credential r =>
      refine ⟨fun c stored => ?_, keeps.enrolments⟩
      rcases Table.mem_put.mp stored with rfl | ⟨old, _⟩
      · exact mine
      · exact keeps.credentials c old
    | enrolment r =>
      refine ⟨keeps.credentials, fun e stored => ?_⟩
      rcases Table.mem_put.mp stored with rfl | ⟨old, _⟩
      · exact mine
      · exact keeps.enrolments e old
    | _ => cases mine

/-- And a user row there. -/
theorem known_pending {σ τ : Store} (leaves : ∀ w ∈ ws, Leaves σ w)
    (known : (τ.users.find? user).isSome) : ((applyAll ws τ).users.find? user).isSome := by
  induction ws generalizing τ with
  | nil => exact known
  | cons w ws ih =>
    refine ih (fun w member => leaves w (List.mem_cons_of_mem _ member)) ?_
    have mine := leaves w List.mem_cons_self
    cases w with
    | user r =>
      show ((τ.users.put r).find? user).isSome
      rw [Table.find?_put]
      split
      · rfl
      · exact known
    | password r => exact known
    | credential r => exact known
    | enrolment r => exact known
    | _ => cases mine

/-! ### How a session stands -/

/-- A session that holds a user row, and no row that does not hang off it. -/
structure Owning (user : String) (ℓ : Local Store Write Res) (σ : Store) : Prop where
  owner : Holds ℓ.held (.user user) .exclusive
  known : (σ.users.find? user).isSome
  held : ∀ g ∈ ℓ.held, Hangs user σ g.lock.res
  pending : ∀ w ∈ ℓ.pending, Leaves σ w

/-- A row that hangs off no user row, and records no redemption. -/
def Beside : Res → Prop
  | .password _ => False
  | .credential _ => False
  | .enrolment _ => False
  | .secret _ => False
  | .redemption _ => False
  | _ => True

/-- A session that holds the `administrators` row, and no row below a user. -/
structure Writing (ℓ : Local Store Write Res) (σ : Store) : Prop where
  team : Holds ℓ.held (.team (weight Team.administrators)) .exclusive
  there : (σ.team? Team.administrators).isSome
  held : ∀ g ∈ ℓ.held, Beside g.lock.res

/-- A session that holds the sync lock, and the `administrators` row if there is
one. -/
structure Declaring (ℓ : Local Store Write Res) (σ : Store) : Prop where
  synced : Holds ℓ.held .teamSyncLock .exclusive
  team : (σ.team? Team.administrators).isSome →
    Holds ℓ.held (.team (weight Team.administrators)) .exclusive
  held : ∀ g ∈ ℓ.held, Beside g.lock.res

/-- What a session holds when it is about to claim locks, and how far it has
come in the order. -/
inductive Stands (ℓ : Local Store Write Res) (σ : Store) (claims : List (Claim Res)) :
    Nat → Prop where
  | free (none : ℓ.held = []) : Stands ℓ σ claims 0
  | still (none : claims = []) : Stands ℓ σ claims 0
  | syncing (synced : Holds ℓ.held .teamSyncLock .exclusive)
      (only : ∀ g ∈ ℓ.held, g.lock.res = .teamSyncLock) : Stands ℓ σ claims 1
  | writing (writing : Writing ℓ σ) (aside : ∀ k ∈ claims, k.lock.res ≠ .teamSyncLock) :
      Stands ℓ σ claims 2
  | declaring (declaring : Declaring ℓ σ) : Stands ℓ σ claims 2
  | owning (owning : Owning user ℓ σ)
      (below : ∀ k ∈ claims, Hangs user σ k.lock.res ∨ ∃ key, k.lock.res = .redemption key) :
      Stands ℓ σ claims 3

section
variable {ℓ : Local Store Write Res}

theorem Owning.calm (owning : Owning user ℓ σ) (calm : Calm ℓ σ σ') : Owning user ℓ σ' where
  owner := owning.owner
  known := by
    rw [calm.user_row owning.owner]
    exact owning.known
  held g held := (owning.held g held).kept (keeps_of_evolves calm.evolves)
  pending w pending := (owning.pending w pending).kept (keeps_of_evolves calm.evolves)

theorem Writing.calm (writing : Writing ℓ σ) (calm : Calm ℓ σ σ') : Writing ℓ σ' where
  team := writing.team
  there := by
    rw [Store.team?, calm.team_row writing.team]
    exact writing.there
  held := writing.held

theorem Declaring.calm (declaring : Declaring ℓ σ) (calm : Calm ℓ σ σ') : Declaring ℓ σ' where
  synced := declaring.synced
  team there := by
    rw [Store.team?, (calm.roster_synced declaring.synced declaring.team).1] at there
    exact declaring.team there
  held := declaring.held

/-- Under an owned row no session holds a lock but its owner. -/
theorem Owning.alone {ℓ' : Local Store Write Res} (owning : Owning user ℓ σ)
    (room : ℓ.admits ℓ'.held) : ¬Holds ℓ'.held (.user user) mode :=
  room.not_held owning.owner

/-- What hangs off a user row is not beside it. -/
theorem Hangs.not_beside {σ : Store} (hangs : Hangs user σ r) (other : r ≠ .user user) :
    ¬Beside r := by
  cases r with
  | user key => exact absurd (congrArg Res.user hangs) other
  | _ => first | exact id | cases hangs

/-- A session that owns a user row waits for none that holds rows beside it, and
for none that owns another. -/
theorem Owning.not_beside {ℓ' : Local Store Write Res} (owning : Owning user ℓ σ)
    (below : Hangs user σ r ∨ ∃ key, r = .redemption key) (room : ℓ.admits ℓ'.held)
    (holds : Holds ℓ'.held r mode) : ¬Beside r := by
  rcases below with hangs | ⟨key, rfl⟩
  · refine hangs.not_beside ?_
    rintro rfl
    exact owning.alone room holds
  · exact id

theorem Owning.not_owned {ℓ' : Local Store Write Res} (inv : Integrity σ)
    (owning : Owning user ℓ σ) (below : Hangs user σ r ∨ ∃ key, r = .redemption key)
    (room : ℓ.admits ℓ'.held) (owning' : Owning user' ℓ' σ) : ¬Holds ℓ'.held r mode := by
  rintro ⟨t, held⟩
  have hangs' : Hangs user' σ r := owning'.held _ held
  rcases below with hangs | ⟨key, rfl⟩
  · obtain rfl := hangs.unique inv hangs'
    exact owning.alone room owning'.owner
  · cases hangs'

end

/-- A session that is waited for, and waits itself, has come further than the
one that waits for it. -/
theorem Stands.rises {ℓ ℓ' : Local Store Write Res} (inv : Integrity σ)
    (stands : Stands ℓ σ claims n) (stands' : Stands ℓ' σ claims' n') (room : ℓ.admits ℓ'.held)
    (claim : k ∈ claims) (held : g ∈ ℓ'.held) (row : k.lock.res = g.lock.res)
    (waits : claims' ≠ []) : n < n' := by
  have holds : Holds ℓ'.held k.lock.res g.lock.mode := ⟨g.since, row ▸ held⟩
  have moving : ℓ'.held ≠ [] := List.ne_nil_of_mem held
  cases stands with
  | free => cases stands' <;> first | contradiction | omega
  | still => cases stands' <;> first | contradiction | omega
  | syncing synced =>
    cases stands' with
    | free none => exact absurd none moving
    | still none => exact absurd none waits
    | syncing synced' => exact absurd synced' (room.not_held synced)
    | _ => omega
  | writing writing aside =>
    cases stands' with
    | free none => exact absurd none moving
    | still none => exact absurd none waits
    | syncing _ only => exact absurd (row.trans (only g held)) (aside k claim)
    | writing writing' => exact absurd writing'.team (room.not_held writing.team)
    | declaring declaring =>
      exact absurd (declaring.team writing.there) (room.not_held writing.team)
    | owning => omega
  | declaring declaring =>
    cases stands' with
    | free none => exact absurd none moving
    | still none => exact absurd none waits
    | syncing synced => exact absurd synced (room.not_held declaring.synced)
    | writing writing => exact absurd writing.team (room.not_held (declaring.team writing.there))
    | declaring declaring' => exact absurd declaring'.synced (room.not_held declaring.synced)
    | owning => omega
  | owning owning below =>
    have mine := below k claim
    have under : ¬Beside g.lock.res := row ▸ owning.not_beside mine room holds
    cases stands' with
    | free none => exact absurd none moving
    | still none => exact absurd none waits
    | syncing _ only => exact absurd (only g held ▸ trivial) under
    | writing writing => exact absurd (writing.held g held) under
    | declaring declaring => exact absurd (declaring.held g held) under
    | owning owning' => exact absurd holds (owning.not_owned inv mine room owning')

/-! ### The verbs that own a user row -/

/-- The spend of an enrolment is run by a session that holds its owner's row. -/
def Guarded : Instant Store Write Res := fun ℓ n σ now =>
  ∀ secret e, n = .stmt (Enrolment.updateSpentAt secret) →
    ((ℓ.view (Enrolment.updateSpentAt secret) σ).enrolment? secret).filter
      (Enrolment.spendable now (ℓ.view (Enrolment.updateSpentAt secret) σ)) = some e →
    Holds ℓ.held (.user (weight e.userId)) .exclusive

/-- At every point a program comes to, its session has its place in the order. -/
abbrev InOrder (p : Rpc α) (Q : α → Local Store Write Res → Store → Prop)
    (ℓ : Local Store Write Res) (σ : Store) : Prop :=
  along Others Guarded (fun ℓ σ claims => ∃ n, Stands ℓ σ claims n) p Q ℓ σ

/-- Nothing is asked of the end. -/
abbrev Anyhow (_ : α) (_ : Local Store Write Res) (_ : Store) : Prop := True

/-- What a statement claims hangs off a user row, and what it writes stays
there. -/
structure Below (user : String) (s : Sql ρ) (now : Int) (iso : Isolation) (σ : Store) : Prop where
  claims : ∀ k ∈ s.claims now iso σ, Hangs user σ k.lock.res
  writes : ∀ w ∈ (s.exec now σ).2, Leaves σ w

section
variable {ℓ : Local Store Write Res} {Q : α → Local Store Write Res → Store → Prop}
  {k : ρ → Rpc α} {s : Sql ρ}

theorem inOrder_silent {p : Rpc α} (each : p.Each Unclaiming) : InOrder p Anyhow ℓ σ :=
  along_unclaiming (fun _ _ => ⟨0, .still rfl⟩) each fun _ _ _ => trivial

/-- A plain read at READ COMMITTED leaves the session as it was. -/
theorem inOrder_read (iso : ℓ.iso = .readCommitted) (reads : ∀ now σ, (s.exec now σ).2 = [])
    (silent : ∀ now level σ, s.claims now level σ = [])
    (rest : ∀ σ' now, Calm ℓ σ σ' →
      InOrder (k (s.exec now (applyAll ℓ.pending σ')).1) Q ℓ σ') : InOrder (tx s >>= k) Q ℓ σ := by
  rw [InOrder, along_query]
  intro σ' now drift
  refine ⟨⟨0, .still (silent _ _ _)⟩, fun _ => ?_⟩
  rw [Local.after_read iso reads silent, Local.view_committed iso]
  exact rest σ' now (calm_of_drift quiet_others drift)

theorem Owning.after (owning : Owning user ℓ σ)
    (current : s.plain = false ∨ ℓ.iso = .readCommitted)
    (below : Below user s now ℓ.iso (applyAll ℓ.pending σ)) :
    Owning user (ℓ.after s σ now) σ ∧ ∀ k ∈ s.claims now ℓ.iso (ℓ.view s σ),
      Hangs user σ k.lock.res := by
  have view : ℓ.view s σ = applyAll ℓ.pending σ :=
    current.elim Local.view_current Local.view_committed
  have keeps : Keeps (applyAll ℓ.pending σ) σ := keeps_pending owning.pending (.refl σ)
  rw [← view] at below keeps
  refine ⟨⟨Local.holds_after owning.owner, owning.known, fun g held => ?_, fun w pending => ?_⟩,
    fun k claim => (below.claims k claim).kept keeps⟩
  · rcases List.mem_append.mp held with old | new
    · exact owning.held g old
    · obtain ⟨k, member, same, _⟩ := mem_granted.mp new
      exact same ▸ (below.claims k (List.mem_filter.mp member).1).kept keeps
  · rcases List.mem_append.mp pending with old | new
    · exact owning.pending w old
    · exact (below.writes w new).kept keeps

/-- A statement on what hangs off the user row the session owns. -/
theorem inOrder_owning (owning : Owning user ℓ σ)
    (current : s.plain = false ∨ ℓ.iso = .readCommitted)
    (below : ∀ σ' now, Owning user ℓ σ' → Below user s now ℓ.iso (applyAll ℓ.pending σ'))
    (rest : ∀ r ℓ' σ', Evolves σ σ' → Owning user ℓ' σ' → ℓ'.iso = ℓ.iso →
      InOrder (k r) Q ℓ' σ') : InOrder (tx s >>= k) Q ℓ σ := by
  rw [InOrder, along_query]
  intro σ' now drift
  have calm : Calm ℓ σ σ' := calm_of_drift quiet_others drift
  have there := owning.calm calm
  obtain ⟨next, claims⟩ := there.after current (below σ' now there)
  exact ⟨⟨3, .owning there fun k claim => Or.inl (claims k claim)⟩,
    fun _ => rest _ _ σ' calm.evolves next rfl⟩

/-- A session comes to own the row it locks first. -/
theorem owning_locked (none : ℓ.held = []) (clean : ℓ.pending = [])
    (current : s.plain = false) (known : (σ.user? userId).isSome)
    (claims : s.claims now ℓ.iso σ = [⟨⟨.user (weight userId), .exclusive⟩, true⟩])
    (writes : ∀ w ∈ (s.exec now σ).2, Leaves σ w) :
    Owning (weight userId) (ℓ.after s σ now) σ := by
  have view : ℓ.view s σ = σ := by rw [Local.view_current current, clean, applyAll_nil]
  have held : (ℓ.after s σ now).held = [⟨⟨.user (weight userId), .exclusive⟩, now⟩] := by
    rw [Local.after_held, view, claims, none]
    rfl
  refine ⟨⟨now, by rw [held]; exact List.mem_cons_self⟩, known, fun g mine => ?_, fun w mine => ?_⟩
  · rw [held] at mine
    obtain rfl := List.mem_singleton.mp mine
    exact rfl
  · rw [Local.after_pending, view, clean] at mine
    exact writes w mine

end

/-! ### Statements below a user row -/

section
variable {σ : Store}

theorem userRow_known (known : (σ.users.find? (weight userId)).isSome)
    (claim : k ∈ userRow mode userId matched iso σ) : k.lock.res = .user (weight userId) := by
  obtain ⟨u, found⟩ := Option.isSome_iff_exists.mp known
  rw [userRow, Store.user?, found] at claim
  obtain rfl := List.mem_singleton.mp claim
  rfl

theorem below_updateEpoch (known : (σ.users.find? (weight userId)).isSome) :
    Below (weight userId) (Epoch.updateEpoch userId matched) now iso σ where
  claims k claim := by
    rw [userRow_known known claim]
    exact rfl
  writes w write := by
    simp only [Epoch.updateEpoch] at write
    split at write
    · obtain rfl := List.mem_singleton.mp write
      trivial
    · cases write

theorem below_selectUserForUpdate (known : (σ.users.find? (weight userId)).isSome) :
    Below (weight userId) (Epoch.selectUserForUpdate userId) now iso σ where
  claims k claim := by
    rw [userRow_known known claim]
    exact rfl
  writes := nofun

theorem below_updateRevokedAt :
    Below (weight userId) (Epoch.updateRevokedAt userId) now iso σ where
  claims k claim := by
    obtain ⟨c, member, rfl⟩ := List.mem_map.mp claim
    obtain ⟨stored, owned⟩ := List.mem_filter.mp member
    exact ⟨c, stored, rfl, of_decide_eq_true owned⟩
  writes w write := by
    obtain ⟨c, member, rfl⟩ := List.mem_map.mp write
    exact ⟨c, (List.mem_filter.mp member).1, rfl, rfl⟩

theorem below_updateVoidedAt :
    Below (weight userId) (Epoch.updateVoidedAt userId) now iso σ where
  claims k claim := by
    obtain ⟨e, member, rfl⟩ := List.mem_map.mp claim
    obtain ⟨stored, owned⟩ := List.mem_filter.mp member
    exact ⟨e, stored, rfl, of_decide_eq_true owned⟩
  writes w write := by
    obtain ⟨e, member, rfl⟩ := List.mem_map.mp write
    exact ⟨e, (List.mem_filter.mp member).1, rfl, rfl, rfl⟩

theorem below_upsertPassword :
    Below (weight userId) (Enrolment.upsertPassword userId argon2idHash) now iso σ where
  claims k claim := by
    simp only [Enrolment.upsertPassword, List.mem_cons, List.not_mem_nil, or_false] at claim
    rcases claim with rfl | rfl <;> exact rfl
  writes w write := by
    simp only [Enrolment.upsertPassword] at write
    split at write
    · obtain rfl := List.mem_singleton.mp write
      trivial
    · split at write
      · cases write
      · obtain rfl := List.mem_singleton.mp write
        trivial

theorem below_insertPassword (known : (σ.users.find? (weight userId)).isSome) :
    Below (weight userId) (Password.insertPassword userId argon2idHash) now iso σ where
  claims k claim := by
    rcases List.mem_append.mp claim with user | password
    · rw [userRow_known known user]
      exact rfl
    · split at password
      · rename_i u live
        obtain rfl := List.mem_singleton.mp password
        exact (Store.user?_mem (Store.liveUser?_eq_some.mp live).1).2
      · cases password
  writes w write := by
    simp only [Password.insertPassword] at write
    split at write
    · cases write
    · split at write <;> (obtain rfl := List.mem_singleton.mp write; trivial)

end

/-! ### The parts of the verbs -/

section
variable {ℓ : Local Store Write Res} {Q : α → Local Store Write Res → Store → Prop}

theorem inOrder_bump {k : Nat → Rpc α} (owning : Owning (weight userId) ℓ σ)
    (rest : ∀ n ℓ' σ', Evolves σ σ' → Owning (weight userId) ℓ' σ' → ℓ'.iso = ℓ.iso →
      InOrder (k n) Q ℓ' σ') : InOrder (Epoch.bump userId >>= k) Q ℓ σ :=
  inOrder_owning owning (Or.inl rfl) (fun _ _ there => below_updateEpoch
    (known_pending there.pending there.known)) rest

theorem inOrder_updateRevokedAt {k : Nat → Rpc α} (owning : Owning (weight userId) ℓ σ)
    (rest : ∀ n ℓ' σ', Evolves σ σ' → Owning (weight userId) ℓ' σ' → ℓ'.iso = ℓ.iso →
      InOrder (k n) Q ℓ' σ') : InOrder (tx (Epoch.updateRevokedAt userId) >>= k) Q ℓ σ :=
  inOrder_owning owning (Or.inl rfl) (fun _ _ _ => below_updateRevokedAt) rest

theorem inOrder_voidEnrolments {k : Nat → Rpc α} (owning : Owning (weight userId) ℓ σ)
    (rest : ∀ n ℓ' σ', Evolves σ σ' → Owning (weight userId) ℓ' σ' → ℓ'.iso = ℓ.iso →
      InOrder (k n) Q ℓ' σ') : InOrder (Epoch.voidEnrolments userId >>= k) Q ℓ σ := by
  unfold Epoch.voidEnrolments
  rw [bind_assoc]
  exact inOrder_owning owning (Or.inl rfl) (fun _ _ _ => below_updateVoidedAt) fun _ => rest _

theorem inOrder_revokeAll {k : Option Nat → Rpc α} (owning : Owning (weight userId) ℓ σ)
    (rest : ∀ n ℓ' σ', Evolves σ σ' → Owning (weight userId) ℓ' σ' → ℓ'.iso = ℓ.iso →
      InOrder (k n) Q ℓ' σ') : InOrder (Epoch.revokeAll userId >>= k) Q ℓ σ := by
  unfold Epoch.revokeAll
  rw [bind_assoc]
  refine inOrder_owning owning (Or.inl rfl) (fun _ _ there => below_selectUserForUpdate
    (known_pending there.pending there.known)) fun found ℓ₁ σ₁ first owning₁ iso₁ => ?_
  cases found with
  | false => exact rest none ℓ₁ σ₁ first owning₁ iso₁
  | true =>
    exact inOrder_updateRevokedAt owning₁ fun n ℓ₂ σ₂ second owning₂ iso₂ =>
      rest (some n) ℓ₂ σ₂ (first.trans second) owning₂ (iso₂.trans iso₁)

theorem unclaiming_orElse {r : Except DbError ρ} : (orElse e r : Rpc ρ).Each Unclaiming := by
  cases r <;> trivial

theorem unclaiming_liveUser : (liveUser tx userId).Each Unclaiming := by
  refine Prog.each_query.mpr ⟨fun _ _ _ => rfl, fun live => ?_⟩
  cases live <;> trivial

end

end

end IamDb.LockOrder
