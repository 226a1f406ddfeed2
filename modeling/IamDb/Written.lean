import IamDb.Logins

/-! What is stored of a person is what was written last. Two verbs write the
password hash and three the admin flag, each with its commit; whatever else
commits in between leaves them as they are, so in every run the stored value is
that of the last commit that wrote it. -/
namespace IamDb.Written
open Txn Schema Messages Service Effects Evolution Interference Handlers Runs

section
variable [Engine] {S S' : Handlers.System}

/-! ### The password hash -/

/-- A step writes a person's password hash: a new password, or a redemption
that spends an enrolment of theirs. -/
inductive SetsHash (userId : String) (S S' : Handlers.System) : Option String → Prop where
  | setPassword (lands : Lands S i c k S') (request : c.request = .setPassword r)
      (user : weight r.userId = weight userId) : SetsHash userId S S' (some r.argon2idHash)
  | redeem (lands : Lands S i c k S') (request : c.request = .redeemEnrolment r)
      (changed : S'.store ≠ S.store) (answer : k.answer = some (.ok (.redeemEnrolment a)))
      (user : weight a.userId = weight userId) : SetsHash userId S S' (some r.argon2idHash)

/-- The hash stored for a person. -/
def hashOf (userId : String) (S : Handlers.System) : Option String :=
  (S.store.passwords.find? (weight userId)).map (·.argon2idHash)

theorem SetsHash.stores (sets : SetsHash userId S S' h) : hashOf userId S' = h := by
  cases sets with
  | @setPassword _ _ _ r lands request user =>
    obtain ⟨ef, allowed, store, result⟩ := lands_effect lands
    cases allowed with
    | nothing idle => simp [request, mayIdle] at idle
    | setPassword request' owner _ password hash =>
      rw [request] at request'
      cases request'
      have key := (Store.user?_mem owner).2
      rw [hashOf, result]
      show ((Table.put _ _).find? _).map _ = _
      rw [Table.find?_put, if_pos (by rw [password, ← user]; exact key.symm), Option.map_some, hash]
    | _ => simp_all
  | redeem lands request changed answer user =>
    obtain ⟨u, p, _, _, _, password, hash⟩ :=
      Logins.redeemed_leaves lands request changed answer
    rw [hashOf, ← user, password, Option.map_some, hash]

theorem hash_kept (reachable : Reachable S) (step : S.step service act = some S')
    (still : ∀ h, ¬SetsHash userId S S' h) : hashOf userId S' = hashOf userId S := by
  rcases reachable.lands step with ⟨same, _⟩ | ⟨i, c, k, lands⟩
  · rw [hashOf, hashOf, same]
  obtain ⟨ef, allowed, store, result⟩ := lands_effect lands
  have other {p : Password} (apart : p.key ≠ weight userId) :
      (S.store.passwords.put p).find? (weight userId) = S.store.passwords.find? (weight userId) :=
    Table.find?_put_ne (Ne.symm apart)
  rw [hashOf, hashOf, result]
  cases allowed with
  | redeem request _ _ _ _ _ _ owner _ password _ _ _ answer =>
    have key := (Store.user?_mem owner).2
    refine congrArg (Option.map _) (other fun same => still _ (.redeem lands request ?_ answer ?_))
    · -- The redemption has raised the epoch.
      intro unchanged
      rw [unchanged] at result
      rw [store, Store.user?, congrArg Store.users result] at owner
      change (Table.put _ _).find? _ = _ at owner
      rw [Table.find?_put, if_pos (by exact key.symm)] at owner
      have epoch := congrArg User.credentialEpoch (Option.some.inj owner)
      rw [bumped_credentialEpoch] at epoch
      omega
    · exact key.symm.trans (password.symm.trans same)
  | setPassword request owner _ password =>
    have key := (Store.user?_mem owner).2
    exact congrArg (Option.map _) (other fun same => still _
      (.setPassword lands request (key.symm.trans (password.symm.trans same))))
  | @setting _ level claim => cases level <;> cases claim <;> rfl
  | _ => rfl

/-- The password hash follows its history. In every run from the migrated store
a person's stored hash is this one exactly where the last commit that wrote a
password for them, a new password or a redemption that spent their enrolment,
carried it. -/
theorem hash_last_written {hash : String} (ran : run (fresh now) actions = some S) :
    hashOf userId S = some hash ↔ ∃ before T a T' after,
      System.trace service (fresh now) actions = before ++ (T, a, T') :: after ∧
        SetsHash userId T T' (some hash) ∧ ∀ x ∈ after, ∀ h, ¬SetsHash userId x.1 x.2.2 h :=
  System.wrote_iff_trace (fun same => by cases same)
    (fun _ _ _ _ _ _ sets => sets.stores)
    (fun _ _ _ reached step still => hash_kept ((reachable_fresh now).later reached) step still) ran

/-! ### The admin flag -/

/-- The id of the person a `CreateUser` creates: the one it names, or one minted
for it. -/
def createdId (c : Call) (r : CreateUserRequest) : String :=
  if r.userId = "" then Team.userPrefix ++ c.uuid.text else r.userId

/-- The flag it creates them with: the one it carries, and none where it names
an id. -/
def createdFlag (r : CreateUserRequest) : Bool := if r.userId = "" then r.isAdmin else false

/-- A step writes a person's admin flag: it is a `CreateUser` that creates them,
or a `SetUserAdmin`. -/
inductive SetsFlag (userId : String) (S S' : Handlers.System) : Option Bool → Prop where
  | created (lands : Lands S i c k S') (request : c.request = .createUser r)
      (user : weight (createdId c r) = weight userId) : SetsFlag userId S S' (some (createdFlag r))
  | assigned (lands : Lands S i c k S') (request : c.request = .setUserAdmin r)
      (user : weight r.userId = weight userId) : SetsFlag userId S S' (some r.isAdmin)

/-- The flag stored for a person. -/
def flagOf (userId : String) (S : Handlers.System) : Option Bool :=
  (S.store.user? userId).map (·.isAdmin)

theorem SetsFlag.stores (sets : SetsFlag userId S S' flag) : flagOf userId S' = flag := by
  cases sets with
  | @created _ c _ r lands request user =>
    obtain ⟨ef, allowed, store, result⟩ := lands_effect lands
    have put {u : User} (users : S'.store.users = S.store.users.put u)
        (id : u.id = createdId c r) (flag : u.isAdmin = createdFlag r) :
        flagOf userId S' = some (createdFlag r) := by
      have mine : weight userId = u.key := by rw [← user, ← id]; rfl
      rw [flagOf, Store.user?, users, Table.find?_put, if_pos mine, Option.map_some, flag]
    have users := congrArg Store.users result
    cases allowed with
    | nothing idle => simp [request, mayIdle] at idle
    | createUser request' minted new =>
      cases request.symm.trans request'
      refine put users ?_ ?_
      · rw [new, createdId, if_pos minted]
        rfl
      · rw [new, createdFlag, if_pos minted]
        rfl
    | bootstrap request' demanded _ new =>
      cases request.symm.trans request'
      refine put users ?_ ?_
      · rw [new, createdId, if_neg demanded]
        rfl
      · rw [new, createdFlag, if_neg demanded]
        rfl
    | _ => simp_all
  | assigned lands request user =>
    obtain ⟨ef, allowed, store, result⟩ := lands_effect lands
    cases allowed with
    | nothing idle => simp [request, mayIdle] at idle
    | setAdmin request' owner =>
      rw [request] at request'
      cases request'
      have key := (Store.user?_mem owner).2
      rw [flagOf, result]
      show ((Table.put _ _).find? _).map _ = _
      rw [Table.find?_put, if_pos (by exact user.symm.trans key.symm), Option.map_some]
    | _ => simp_all

theorem flag_kept (reachable : Reachable S) (step : S.step service act = some S')
    (still : ∀ flag, ¬SetsFlag userId S S' flag) : flagOf userId S' = flagOf userId S := by
  rcases reachable.lands step with ⟨same, _⟩ | ⟨i, c, k, lands⟩
  · rw [flagOf, flagOf, same]
  obtain ⟨ef, allowed, store, result⟩ := lands_effect lands
  have put {u : User} (users : S'.store.users = S.store.users.put u)
      (flag : u.key = weight userId → ∃ u₀, S.store.user? userId = some u₀ ∧
        u₀.isAdmin = u.isAdmin) : flagOf userId S' = flagOf userId S := by
    rw [flagOf, flagOf, Store.user?, users]
    by_cases mine : u.key = weight userId
    · obtain ⟨u₀, found, same⟩ := flag mine
      rw [Table.find?_put, if_pos mine.symm, found, Option.map_some, Option.map_some, same]
    · rw [Table.find?_put_ne (Ne.symm mine)]
      rfl
  have kept {user : String} {u u' : User} (owner : k.store.user? user = some u)
      (key : u'.key = u.key) (flag : u'.isAdmin = u.isAdmin) (mine : u'.key = weight userId) :
      ∃ u₀, S.store.user? userId = some u₀ ∧ u₀.isAdmin = u'.isAdmin := by
    refine ⟨u, ?_, flag.symm⟩
    rw [store, Store.user?, ← (Store.user?_mem owner).2, ← key, mine] at owner
    exact owner
  have users := congrArg Store.users result
  cases allowed with
  | createUser request minted new =>
    refine put users fun mine => absurd (.created lands request ?_) (still _)
    rw [← mine, new, createdId, if_pos minted]
    rfl
  | bootstrap request demanded _ new =>
    refine put users fun mine => absurd (.created lands request ?_) (still _)
    rw [← mine, new, createdId, if_neg demanded]
    rfl
  | redeem _ _ _ _ _ _ _ owner => exact put users (kept owner rfl rfl)
  | revokeAll _ owner => exact put users (kept owner rfl rfl)
  | setPassword _ owner => exact put users (kept owner rfl rfl)
  | setAdmin request owner =>
    refine put users fun mine => absurd (.assigned lands request ?_) (still _)
    exact (Store.user?_mem owner).2.symm.trans mine
  | @setting _ level claim =>
    rw [flagOf, flagOf, result]
    cases level <;> cases claim <;> rfl
  | _ =>
    rw [flagOf, flagOf, result]
    rfl

/-- The admin flag follows its history. In every run from the migrated store a
person's flag is what the last `SetUserAdmin` for them set, or where there was
none what the `CreateUser` that created them asked for, which is nothing where it
named their id. -/
theorem flag_last_written (ran : run (fresh now) actions = some S) :
    flagOf userId S = some flag ↔ ∃ before T a T' after,
      System.trace service (fresh now) actions = before ++ (T, a, T') :: after ∧
        SetsFlag userId T T' (some flag) ∧ ∀ x ∈ after, ∀ f, ¬SetsFlag userId x.1 x.2.2 f :=
  System.wrote_iff_trace (fun same => by cases same)
    (fun _ _ _ _ _ _ sets => sets.stores)
    (fun _ _ _ reached step still => flag_kept ((reachable_fresh now).later reached) step still) ran

end

/-! ### Runs -/

open Bytewise in
theorem hash_last_written_enrolled : ∃ before T a T' after,
    System.trace service (fresh 0) Enrolments.enrolling = before ++ (T, a, T') :: after ∧
      SetsHash Enrolments.enrolledId T T' (some "$argon2id$") ∧
      ∀ x ∈ after, ∀ h, ¬SetsHash Enrolments.enrolledId x.1 x.2.2 h :=
  (hash_last_written (run_after (by decide +kernel))).mp (by decide +kernel)

open Bytewise in
theorem flag_last_written_enrolled : ∃ before T a T' after,
    System.trace service (fresh 0) Enrolments.enrolling = before ++ (T, a, T') :: after ∧
      SetsFlag Enrolments.enrolledId T T' (some true) ∧
      ∀ x ∈ after, ∀ f, ¬SetsFlag Enrolments.enrolledId x.1 x.2.2 f :=
  (flag_last_written (run_after (by decide +kernel))).mp (by decide +kernel)

end IamDb.Written
