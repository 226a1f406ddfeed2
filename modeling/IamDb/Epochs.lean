import IamDb.Life

/-! The credential epoch. Three verbs raise it by one with each commit and
nothing else changes it, so a password hash goes with its epoch, and a mint
that is told an epoch inserts its row only where that epoch still stands. -/
namespace IamDb.Epochs
open Txn Schema Messages Service Effects Evolution Interference Handlers Runs Life

section
variable [Engine]

/-! ### Bumps -/

/-- A step is a bump of a user: a first redemption of an enrolment of theirs, a
revoke of all their credentials or a new password. -/
inductive Bumps (userId : String) (S S' : Handlers.System) : Prop where
  | redeem (spends : Enrolments.Spends S S' e t) (user : weight e.userId = weight userId)
  | revokeAll (lands : Lands S i c k S') (request : c.request = .revokeAllCredentials r)
      (user : weight r.userId = weight userId)
  | setPassword (lands : Lands S i c k S') (request : c.request = .setPassword r)
      (user : weight r.userId = weight userId)

section
variable {S S' : Handlers.System}

/-- A bump writes the user's row with the next epoch. -/
theorem Bumps.user (bumps : Bumps userId S S') (reachable : Reachable S)
    (step : S.step service act = some S') (found : S.store.user? userId = some u) :
    S'.store.user? userId = some (bumped u) := by
  have written {user : String} {u₁ : User} (owner : S.store.user? user = some u₁)
      (same : weight user = weight userId) (users : S'.store.users = S.store.users.put (bumped u₁)) :
      S'.store.user? userId = some (bumped u) := by
    rw [Store.user?, same] at owner
    obtain rfl := Option.some.inj (owner.symm.trans found)
    rw [Store.user?, users, Table.find?_put,
      if_pos (by exact (Table.find?_eq_some.mp owner).2.symm)]
  cases bumps with
  | redeem spends user =>
    obtain ⟨i, c, k, u₁, p, ledger, revoked, voided, _, store, allowed, result⟩ :=
      Enrolments.spend_effect reachable step spends
    cases allowed with
    | redeem _ _ _ _ _ _ _ owner => exact written (store ▸ owner) user (by rw [result]; rfl)
  | revokeAll lands request user =>
    obtain ⟨ef, allowed, store, result⟩ := lands_effect lands
    cases allowed with
    | nothing idle => simp [request, mayIdle] at idle
    | revokeAll request' owner =>
      rw [request] at request'
      cases request'
      exact written (store ▸ owner) user (by rw [result]; rfl)
    | _ => simp_all
  | setPassword lands request user =>
    obtain ⟨ef, allowed, store, result⟩ := lands_effect lands
    cases allowed with
    | nothing idle => simp [request, mayIdle] at idle
    | setPassword request' owner =>
      rw [request] at request'
      cases request'
      exact written (store ▸ owner) user (by rw [result]; rfl)
    | _ => simp_all

/-- What a user logs in with: the epoch and the password. -/
def Standing (userId : String) (σ σ' : Store) : Prop :=
  (σ'.user? userId).map (·.credentialEpoch) = (σ.user? userId).map (·.credentialEpoch) ∧
    σ'.passwords.find? (weight userId) = σ.passwords.find? (weight userId)

/-- No other step touches the epoch or the password. -/
theorem standing_of_not_bumps (reachable : Reachable S) (step : S.step service act = some S')
    (found : S.store.user? userId = some u) (still : ¬Bumps userId S S') :
    Standing userId S.store S'.store := by
  have key := (Store.user?_mem found).2
  rcases reachable.lands step with ⟨same, _⟩ | ⟨i, c, k, lands⟩
  · rw [same]
    exact ⟨rfl, rfl⟩
  obtain ⟨ef, allowed, store, result⟩ := lands_effect lands
  have commit := allowed
  rw [result]
  have other {u₁ : User} (apart : u₁.key ≠ weight userId) :
      ((S.store.users.put u₁).find? (weight userId)).map (·.credentialEpoch) =
        (S.store.user? userId).map (·.credentialEpoch) := by
    rw [Table.find?_put_ne (Ne.symm apart)]
    rfl
  cases allowed with
  | redeem _ _ _ _ _ _ _ owner _ password =>
    have spends := Enrolments.spends_of_redeem store commit result
    have apart : _ ≠ weight userId := fun same =>
      still (.redeem spends ((Store.user?_mem owner).2.symm.trans same))
    exact ⟨other apart, Table.find?_put_ne fun same => apart (password.symm.trans same.symm)⟩
  | revokeAll request owner =>
    have apart : _ ≠ weight userId := fun same =>
      still (.revokeAll lands request ((Store.user?_mem owner).2.symm.trans same))
    exact ⟨other apart, rfl⟩
  | setPassword request owner _ password =>
    have apart : _ ≠ weight userId := fun same =>
      still (.setPassword lands request ((Store.user?_mem owner).2.symm.trans same))
    exact ⟨other apart, Table.find?_put_ne fun same => apart (password.symm.trans same.symm)⟩
  | createUser _ _ _ absent =>
    refine ⟨other fun same => ?_, rfl⟩
    rw [store, Store.user?, ← User.key, same] at absent
    cases absent.symm.trans found
  | bootstrap _ _ _ _ absent =>
    refine ⟨other fun same => ?_, rfl⟩
    rw [store, Store.user?, ← User.key, same] at absent
    cases absent.symm.trans found
  | @setAdmin r u₁ request owner =>
    refine ⟨?_, rfl⟩
    by_cases same : u₁.key = weight userId
    · have here := (Store.user?_mem owner).2
      rw [store, Store.user?, ← here, same] at owner
      show ((S.store.users.put { u₁ with isAdmin := r.isAdmin }).find? _).map _ = _
      rw [Table.find?_put, if_pos (by exact same.symm), Store.user?, owner]
      rfl
    · exact other (by exact same)
  | @setting _ level claim => cases level <;> cases claim <;> exact ⟨rfl, rfl⟩
  | _ => exact ⟨rfl, rfl⟩

/-- A step raises the epoch by one or leaves epoch and password as they are. -/
theorem epoch_step (reachable : Reachable S) (step : S.step service act = some S')
    (found : S.store.user? userId = some u) :
    ∃ u', S'.store.user? userId = some u' ∧
      (Bumps userId S S' ∧ u'.credentialEpoch = u.credentialEpoch + 1 ∨
        ¬Bumps userId S S' ∧ u'.credentialEpoch = u.credentialEpoch ∧
          S'.store.passwords.find? (weight userId) = S.store.passwords.find? (weight userId)) := by
  by_cases bumps : Bumps userId S S'
  · exact ⟨_, bumps.user reachable step found, Or.inl ⟨bumps, rfl⟩⟩
  · obtain ⟨epoch, password⟩ := standing_of_not_bumps reachable step found bumps
    rw [found, Option.map_some] at epoch
    obtain ⟨u', found', same⟩ := Option.map_eq_some_iff.mp epoch
    exact ⟨u', found', Or.inr ⟨bumps, same, password⟩⟩

/-- The epoch never falls, and while it stays the password does. -/
theorem epoch_since (later : Later S S') (reachable : Reachable S)
    (found : S.store.user? userId = some u) :
    ∃ u', S'.store.user? userId = some u' ∧ u.credentialEpoch ≤ u'.credentialEpoch ∧
      (u'.credentialEpoch = u.credentialEpoch → S'.store.passwords.find? (weight userId) =
        S.store.passwords.find? (weight userId)) := by
  induction later with
  | refl => exact ⟨u, found, Nat.le_refl _, fun _ => rfl⟩
  | step before step _ ih =>
    obtain ⟨u₁, found₁, grown, kept⟩ := ih
    obtain ⟨u₂, found₂, ⟨_, raised⟩ | ⟨_, same, password⟩⟩ :=
      epoch_step (reachable.later before) step found₁
    · exact ⟨u₂, found₂, by omega, fun same => by omega⟩
    · exact ⟨u₂, found₂, by omega, fun all => password.trans (kept (by omega))⟩

end

/-! ### Reading a hash -/

/-- What `GetPasswordHash` says of a store. -/
structure Reads (a : GetPasswordHashResponse) (σ : Store) (u : User) (p : Password) : Prop where
  user : σ.user? a.userId = some u
  live : u.deletedAt = none
  epoch : u.credentialEpoch = a.credentialEpoch
  password : σ.passwords.find? (weight a.userId) = some p
  hash : p.argon2idHash = a.argon2idHash

theorem reads_of_select (selected : ((Password.selectPasswordHash index).exec now σ).1 = some a) :
    ∃ u p, Reads a σ u p := by
  simp only [Password.selectPasswordHash, Option.bind_eq_some_iff, Option.map_eq_some_iff] at selected
  obtain ⟨u, found, p, password, rfl⟩ := selected
  obtain ⟨here, live⟩ := Option.filter_eq_some_iff.mp found
  exact ⟨u, p, Store.user?_self (List.mem_of_find?_eq_some here), by simpa using live, rfl,
    password, rfl⟩

theorem wp_passwordHash {c : Call} (request : c.request = .getPasswordHash r) :
    wp Others (fun _ => True) (service c) (fun result _ σ _ => ∀ a,
      result = .ok (.getPasswordHash a) → a ≠ ⟨"", "", 0⟩ → ∃ u p, Reads a σ u p) .fresh σ t := by
  refine ServiceProofs.wp_service (fun _ _ => nofun) fun _ => ?_
  rw [request]
  refine wp_map (G := fun _ => True) (g := Response.getPasswordHash) ?_
  refine Rules.wp_conn (fun _ _ => rfl) fun _ σ₁ t₁ _ _ => ?_
  rintro a same known
  cases same
  cases selected : ((Password.selectPasswordHash r.usernameBlindIndex).exec t₁ σ₁).1 with
  | none =>
    rw [selected] at known
    exact absurd rfl known
  | some a => exact reads_of_select selected

/-- An answer of `GetPasswordHash` was read at one moment of the run. -/
theorem answered_reads {S : Handlers.System} (reachable : Reachable S) {i : Nat}
    (there : S.sessions[i]? = some ⟨c, ℓ, .answered (.ok (.getPasswordHash a))⟩)
    (request : c.request = .getPasswordHash r) (known : a ≠ ⟨"", "", 0⟩) :
    ∃ T u p, Reachable T ∧ Later T S ∧ Reads a T.store u p := by
  obtain ⟨T, ℓ₀, reached, later, _, post⟩ := reachable.answered there fun _ _ _ =>
    wp_passwordHash request
  obtain ⟨u, p, reads⟩ := post a rfl known
  exact ⟨T, u, p, reached, later, reads⟩

/-- Two answers for one user and one epoch carry one hash. -/
theorem hash_of_epoch {S : Handlers.System} (reachable : Reachable S) {i j : Nat}
    (there : S.sessions[i]? = some ⟨c, ℓ, .answered (.ok (.getPasswordHash a))⟩)
    (there' : S.sessions[j]? = some ⟨c', ℓ', .answered (.ok (.getPasswordHash a'))⟩)
    (request : c.request = .getPasswordHash r) (request' : c'.request = .getPasswordHash r')
    (known : a ≠ ⟨"", "", 0⟩) (known' : a' ≠ ⟨"", "", 0⟩)
    (user : weight a'.userId = weight a.userId) (epoch : a'.credentialEpoch = a.credentialEpoch) :
    a'.argon2idHash = a.argon2idHash := by
  -- Of two moments of a run the one comes after the other.
  have ordered {T T' : Handlers.System} {a a' : GetPasswordHashResponse} {u u' p p'}
      (later : Later T T') (reachable : Reachable T) (reads : Reads a T.store u p)
      (reads' : Reads a' T'.store u' p') (user : weight a'.userId = weight a.userId)
      (epoch : a'.credentialEpoch = a.credentialEpoch) : a'.argon2idHash = a.argon2idHash := by
    obtain ⟨u₁, found, _, kept⟩ := epoch_since later reachable reads.user
    have same : u₁ = u' := by
      have user' := reads'.user
      rw [Store.user?, user] at user'
      exact Option.some.inj (found.symm.trans user')
    have password := kept (by rw [same, reads'.epoch, reads.epoch, epoch])
    have password' := reads'.password
    rw [user, password, reads.password] at password'
    cases password'
    exact reads'.hash.symm.trans reads.hash
  obtain ⟨T, u, p, reached, later, reads⟩ := answered_reads reachable there request known
  by_cases already : T.sessions[j]? = some ⟨c', ℓ', .answered (.ok (.getPasswordHash a'))⟩
  · obtain ⟨T', u', p', reached', later', reads'⟩ := answered_reads reached already request' known'
    exact (ordered later' reached' reads' reads user.symm epoch.symm).symm
  · obtain ⟨T', _, first, _, _, post⟩ :=
      reached.answered_since later there' already fun _ _ _ => wp_passwordHash request'
    obtain ⟨u', p', reads'⟩ := post a' rfl known'
    exact ordered first reached reads reads' user epoch

/-! ### Minting under an epoch -/

/-- A `CreateCredential` for a user under an epoch. -/
structure Asks (userId : String) (epoch : Nat) (c : Call) (r : CreateCredentialRequest) : Prop where
  request : c.request = .createCredential r
  user : weight r.userId = weight userId
  expected : r.expectedCredentialEpoch = some epoch

/-- The label and the token fit their columns, and neither the token nor the id
of the row is taken. -/
def Storable (c : Call) (r : CreateCredentialRequest) (σ : Store) : Prop :=
  fits Credential.maxLabel r.label = true ∧ ∃ token, binary32 r.tokenHash = some token ∧ σ.credential? token = none ∧
    σ.credentials.find? (weight ("yadgar:credential:" ++ c.uuid.text)) = none

/-- A mint under an epoch inserts first, and reads only after that. -/
theorem service_asks {c : Call} (asks : Asks userId epoch c r)
    (caller : admitted c.caller = .ok ()) : ∃ k, service c = .auto defaultIsolation
      (Credential.insertCredential ("yadgar:credential:" ++ c.uuid.text) r) k ∧
      ∀ done, (k done).Idle := by
  unfold service
  rw [asks.request, caller]
  refine ⟨_, rfl, fun done => ?_⟩
  cases done with
  | error e => trivial
  | ok n =>
    show Prog.Idle (Prog.bind (Prog.bind (Prog.ret n) fun done => if done = 0 then _ else _) _)
    rw [Prog.bind]
    split
    · rw [asks.expected]
      refine ⟨fun _ _ => rfl, fun live => ?_⟩
      cases live <;> trivial
    · trivial

theorem earned_asks (asks : Asks userId epoch c r) : (service c).Earned := by
  refine Endings.earned_lift fun _ => ?_
  rw [asks.request]
  exact Prog.Earned.map _ (Endings.earned_mintCredential (by simp [asks.expected]))

section
variable {S S' T U : Handlers.System} {i j : Nat}

/-- What the one commit of a mint under an epoch met. -/
theorem minted_under (lands : Lands S i c k S') (asks : Asks userId epoch c r)
    (found : S.store.user? userId = some u) :
    u.deletedAt = none ∧ u.credentialEpoch = epoch ∧ Storable c r S.store := by
  obtain ⟨row, u', inserted⟩ := inserted_lands lands asks.request
  have user := inserted.user
  rw [Store.user?, asks.user] at user
  obtain rfl := Option.some.inj (user.symm.trans found)
  have mintable := inserted.mintable
  simp only [Credential.mintable, asks.expected, Bool.and_eq_true, Option.isNone_iff_eq_none,
    Option.all_some, decide_eq_true_eq] at mintable
  refine ⟨mintable.1, mintable.2, inserted.label, row.tokenHash, inserted.token, inserted.unused,
    ?_⟩
  rw [← inserted.id]
  exact inserted.absent

/-- It is made under a shared lock on the user's row. -/
theorem minted_shared (lands : Lands S i c k S') (asks : Asks userId epoch c r) :
    Holds k.under (.user (weight userId)) .shared := by
  obtain ⟨ef, allowed, _, _⟩ := lands_effect lands
  have request := asks.request
  cases allowed with
  | nothing idle => simp [request, mayIdle] at idle
  | mintCredential request' user _ _ _ _ _ shared =>
    rw [request] at request'
    cases request'
    rw [(Store.user?_mem user).2, asks.user] at shared
    exact shared
  | _ => simp_all

/-- A session of a mint under an epoch holds no lock. -/
theorem asks_bare (reachable : Reachable S) (there : S.sessions[i]? = some ⟨c, ℓ, .running p⟩)
    (asks : Asks userId epoch c r) : ℓ.held = [] := by
  obtain ⟨σ, now, inv, later⟩ := reachable
  refine (later.bare rfl ?_ there).2
  unfold service
  rw [asks.request]
  exact Prog.Loose.bind Prog.loose_lift fun _ =>
    Prog.Loose.bind Endings.loose_mintCredential fun _ => trivial

/-- It is at its insert, or has nothing left but reads. -/
theorem asks_stands (reachable : Reachable S) (there : S.sessions[i]? = some ⟨c, ℓ, .running p⟩)
    (asks : Asks userId epoch c r) : ℓ.pending = [] ∧ (p = service c ∨ p.Idle) := by
  obtain ⟨σ, now, inv, later⟩ := reachable
  refine later.underway (P := fun c ℓ p => Asks userId epoch c r →
    ℓ.pending = [] ∧ (p = service c ∨ p.Idle)) rfl (fun _ _ => ⟨rfl, Or.inl rfl⟩) ?_ there asks
  intro c p ℓ now σ m before moves running asks
  obtain ⟨pending, rfl | idle⟩ := before asks
  · cases caller : admitted c.caller with
    | error e =>
      rw [service, caller] at moves
      cases moves
    | ok _ =>
      obtain ⟨k, program, idle⟩ := service_asks asks caller
      rw [program] at moves
      cases moves
      exact ⟨pending, Or.inr (idle _)⟩
  · obtain ⟨rest, still, _⟩ := idle.move pending moves
    exact ⟨still, Or.inr rest⟩

/-- The step of the insert inserts a row exactly where the user is live under
the epoch that was asked for, and the row can be stored. -/
theorem mints_iff (reachable : Reachable S)
    (here : S.sessions[i]? = some ⟨c, ℓ, .running (service c)⟩) (asks : Asks userId epoch c r)
    (step : S.step service act = some S') (acts : act = .run i ∨ act = .lose i)
    (found : S.store.user? userId = some u) : (∃ row, Mints r row S S') ↔
      u.deletedAt = none ∧ u.credentialEpoch = epoch ∧ Storable c r S.store := by
  constructor
  · rintro ⟨row, mints⟩
    obtain ⟨j, c', k, lands, _⟩ := mints.lands
    obtain ⟨ℓ', p', there⟩ := lands.running
    obtain rfl : j = i := by
      rcases (lands.acts step).imp (·.1) id with rfl | rfl <;> rcases acts with same | same <;>
        cases same <;> rfl
    cases Option.some.inj (here.symm.trans there)
    exact minted_under lands asks found
  · rintro ⟨live, rfl, label, token, fits, unused, absent⟩
    obtain ⟨m, s, advances, whole⟩ := System.advances_of_step step acts here
    have moves := advances.moves
    have caller : admitted c.caller = .ok () := by
      cases caller : admitted c.caller with
      | ok _ => rfl
      | error e =>
        rw [service, caller] at moves
        cases moves
    obtain ⟨k, program, _⟩ := service_asks asks caller
    have user : S.store.user? r.userId = some u := by
      rw [Store.user?, asks.user]
      exact found
    have store : S'.store = applyAll ((Credential.insertCredential
        ("yadgar:credential:" ++ c.uuid.text) r).exec S.clock S.store).2 S.store := by
      rw [whole]
      rw [program] at moves
      cases moves
      rfl
    have inserts := CredentialProofs.insertCredential_exec ("yadgar:credential:" ++ c.uuid.text) r
      S.clock S.store
    have call : (S.sessions[i]?).map (·.call) = some c := by rw [here]; rfl
    generalize (Credential.insertCredential ("yadgar:credential:" ++ c.uuid.text) r).exec
      S.clock S.store = outcome at inserts store
    cases inserts with
    | unmatched gone =>
      rw [user, Option.filter_some] at gone
      simp [Credential.mintable, live, asks.expected] at gone
    | refused _ _ clash =>
      rcases clash with unfit | long | taken | ⟨token', fits', used⟩
      · rw [fits] at unfit
        cases unfit
      · cases long.symm.trans label
      · rw [absent] at taken
        cases taken
      · obtain rfl := Option.some.inj (fits.symm.trans fits')
        rw [unused] at used
        cases used
    | @done u' token' user' mintable fits' =>
      have fresh : S.store.credentials.find? (CredentialProofs.minted
          ("yadgar:credential:" ++ c.uuid.text) r u' token' S.clock).key = none := absent
      refine ⟨_, mints_of_new reachable step acts call asks.request fresh ?_⟩
      rw [store]
      exact Table.mem_put_self

/-- While another session holds the user's row, a mint does not commit. -/
theorem held_up (reachable : Reachable S) (lands : Lands S i c k S') (asks : Asks userId epoch c r)
    (there : S.sessions[j]? = some ⟨c', ℓ, .running p⟩)
    (holds : Holds ℓ.held (.user (weight userId)) .exclusive) : False := by
  obtain ⟨ℓ', p', here⟩ := lands.running
  by_cases same : j = i
  · subst same
    cases Option.some.inj (there.symm.trans here)
    obtain ⟨t, member⟩ := holds
    rw [asks_bare reachable here asks] at member
    cases member
  · exact (lands.commits.admitted j _ there same).not_held holds (minted_shared lands asks)

/-- An answer OK of a mint under an epoch comes with its commit. -/
theorem asks_lands (reachable : Reachable T) (later : Later T U) (asks : Asks userId epoch c r)
    (there : U.sessions[i]? = some ⟨c, ℓ, .answered (.ok a)⟩)
    (new : T.sessions[i]? ≠ some ⟨c, ℓ, .answered (.ok a)⟩) :
    ∃ V k V', Later T V ∧ Lands V i c k V' ∧ Later V U := by
  obtain ⟨V, act, V', before, step, _, given, fresh, after⟩ := later.answered there new
  obtain ⟨k, lands, _⟩ := answered_commits (reachable.later before) step (earned_asks asks) given
    fresh
  exact ⟨V, k, V', before, lands, (System.Reaches.refl.step step trivial).trans after⟩

/-! ### Bumps under way -/

/-- The calls a bump can be a commit of are one transaction each. -/
theorem Bumps.opens (bumps : Bumps userId S S') (reachable : Reachable S)
    (step : S.step service act = some S') (acts : act = .run j ∨ act = .lose j) :
    ∃ c ℓ p, S.sessions[j]? = some ⟨c, ℓ, .running p⟩ ∧ (service c).Opens := by
  have mine {i c k} (lands : Lands S i c k S') (opens : (service c).Opens) :
      ∃ c ℓ p, S.sessions[j]? = some ⟨c, ℓ, .running p⟩ ∧ (service c).Opens := by
    obtain rfl : i = j := by
      rcases (lands.acts step).imp (·.1) id with rfl | rfl <;> rcases acts with same | same <;>
        cases same <;> rfl
    obtain ⟨ℓ, p, here⟩ := lands.running
    exact ⟨c, ℓ, p, here, opens⟩
  cases bumps with
  | redeem spends =>
    obtain ⟨i, k, ⟨c, r, lands, request, _⟩, _⟩ := Enrolments.spend_lands reachable step spends
    refine mine lands (Prog.Opens.lift fun _ => ?_)
    rw [request]
    exact Prog.Opens.map _ Endings.opens_redeem
  | revokeAll lands request =>
    refine mine lands (Prog.Opens.lift fun _ => ?_)
    rw [request]
    exact Prog.Opens.map _ Endings.opens_revokeAllCredentials
  | setPassword lands request =>
    refine mine lands (Prog.Opens.lift fun _ => ?_)
    rw [request]
    exact Prog.Opens.map _ Endings.opens_storePassword

/-- A bump of a user is committed between two moments, or holds the user's row
at the second of them and is committed before a third. -/
inductive Overtakes (userId : String) (R T U : Handlers.System) : Prop where
  | committed (before : Later R V) (step : V.step service act = some V')
      (bumps : Bumps userId V V') (after : Later V' T)
  | holding {j : Nat} (there : T.sessions[j]? = some ⟨c, ℓ, .running p⟩)
      (holds : Holds ℓ.held (.user (weight userId)) .exclusive) (before : Later T V)
      (acts : act = .run j ∨ act = .lose j) (step : V.step service act = some V')
      (bumps : Bumps userId V V') (after : Later V' U)

/-- A session that holds the user's row and commits a bump holds it all along. -/
theorem holding_between (there : T.sessions[j]? = some ⟨c, ℓ, .running p⟩)
    (holds : Holds ℓ.held (.user (weight userId)) .exclusive) (rest : p.Rest) (before : Later T U)
    (after : Later U V) (last : V.sessions[j]? = some ⟨c', ℓ', .running p'⟩) :
    ∃ ℓ p, U.sessions[j]? = some ⟨c, ℓ, .running p⟩ ∧
      Holds ℓ.held (.user (weight userId)) .exclusive := by
  obtain ⟨⟨c₁, ℓ₁, phase⟩, here, call⟩ := before.session there
  cases phase with
  | running p₁ =>
    obtain rfl : c₁ = c := call
    exact ⟨ℓ₁, p₁, here, holds.mono (before.keeps there rest here).2⟩
  | answered result =>
    have still := after.ended here nofun
    rw [last] at still
    cases still
  | dropped =>
    have still := after.ended here nofun
    rw [last] at still
    cases still

/-- A mint that a bump overtakes is not answered OK. -/
theorem overtaken_refused (reachable : Reachable R) (found : R.store.user? userId = some u)
    (first : Later R T) (second : Later T U) (overtakes : Overtakes userId R T U)
    (asks : Asks userId u.credentialEpoch c r)
    (there : U.sessions[i]? = some ⟨c, ℓ, .answered (.ok a)⟩) :
    T.sessions[i]? = some ⟨c, ℓ, .answered (.ok a)⟩ := by
  -- Once a bump has been committed the epoch that was asked for has gone by.
  have passed {V V' W W' : Handlers.System} {act k} (before : Later R V)
      (step : V.step service act = some V') (bumps : Bumps userId V V') (after : Later V' W)
      (lands : Lands W i c k W') : False := by
    obtain ⟨u₁, found₁, grown, _⟩ := epoch_since before reachable found
    have reached := reachable.later before
    obtain ⟨u₂, found₂, ⟨_, raised⟩ | ⟨still, _⟩⟩ := epoch_step reached step found₁
    · obtain ⟨u₃, found₃, more, _⟩ := epoch_since after (reached.step step) found₂
      have same := (minted_under lands asks found₃).2.1
      omega
    · exact still bumps
  by_contra new
  cases overtakes with
  | committed before step bumps after =>
    obtain ⟨W, k, W', between, lands, _⟩ := asks_lands (reachable.later first) second asks there new
    exact passed before step bumps (after.trans between) lands
  | @holding c' ℓ' p' V act V' j held holds before acts step bumps after =>
    have reached := reachable.later first
    obtain ⟨c₁, ℓ₁, p₁, last, opens⟩ := bumps.opens (reached.later before) step acts
    obtain rfl : c₁ = c' := by
      obtain ⟨s, here, call⟩ := before.session held
      rw [last] at here
      cases here
      exact call
    have rest : p'.Rest := by
      obtain ⟨σ, now, inv, whole⟩ := reached
      rcases whole.inside rfl opens held with ⟨_, none, _⟩ | rest
      · obtain ⟨t, member⟩ := holds
        rw [none] at member
        cases member
      · exact rest
    by_cases bumped : V'.sessions[i]? = some ⟨c, ℓ, .answered (.ok a)⟩
    · by_cases bumping : V.sessions[i]? = some ⟨c, ℓ, .answered (.ok a)⟩
      · obtain ⟨W, k, W', between, lands, later⟩ := asks_lands reached before asks bumping new
        obtain ⟨ℓ₂, p₂, here, holds⟩ := holding_between held holds rest between later last
        exact held_up (reached.later between) lands asks here holds
      · obtain ⟨k, lands, _⟩ := answered_commits (reached.later before) step (earned_asks asks)
          bumped bumping
        obtain ⟨ℓ₂, p₂, here, holds⟩ := holding_between held holds rest before .refl last
        exact held_up (reached.later before) lands asks here holds
    · obtain ⟨W, k, W', between, lands, _⟩ := asks_lands ((reached.later before).step step) after
        asks there bumped
      exact passed (first.trans before) step bumps between lands

/-- A user's epoch never falls: every bump raises it by one, and no other step
touches it. Two hashes read for one user under one epoch are the same. A mint
under an epoch inserts its row, in its first step, exactly where the user is
live, the committed epoch is the one it asks for and the row can be stored; so
it never answers OK when a bump was committed, or held the user's row and was
committed later, between the moment the epoch was read and the insert. -/
theorem minted_under_epoch (reachable : Reachable S) (found : S.store.user? userId = some u) :
    (∀ T, Later S T → ∃ u', T.store.user? userId = some u' ∧
      u.credentialEpoch ≤ u'.credentialEpoch) ∧
    (∀ act S', S.step service act = some S' → ∃ u', S'.store.user? userId = some u' ∧
      (Bumps userId S S' ∧ u'.credentialEpoch = u.credentialEpoch + 1 ∨
        ¬Bumps userId S S' ∧ u'.credentialEpoch = u.credentialEpoch)) ∧
    (∀ (i j : Nat) c c' ℓ ℓ' r r' a a',
      S.sessions[i]? = some ⟨c, ℓ, .answered (.ok (.getPasswordHash a))⟩ →
      S.sessions[j]? = some ⟨c', ℓ', .answered (.ok (.getPasswordHash a'))⟩ →
      c.request = .getPasswordHash r → c'.request = .getPasswordHash r' →
      a ≠ ⟨"", "", 0⟩ → a' ≠ ⟨"", "", 0⟩ → weight a.userId = weight userId →
      weight a'.userId = weight userId → a.credentialEpoch = a'.credentialEpoch →
      a.argon2idHash = a'.argon2idHash) ∧
    (∀ (i : Nat) c ℓ p r epoch act S', S.sessions[i]? = some ⟨c, ℓ, .running p⟩ →
      Asks userId epoch c r → S.step service act = some S' → act = .run i ∨ act = .lose i →
      (p = service c → ((∃ row, Mints r row S S') ↔
        u.deletedAt = none ∧ u.credentialEpoch = epoch ∧ Storable c r S.store)) ∧
      (p ≠ service c → S'.store = S.store)) ∧
    ∀ T U (i : Nat) c ℓ r a, Later S T → Later T U → Overtakes userId S T U →
      Asks userId u.credentialEpoch c r → U.sessions[i]? = some ⟨c, ℓ, .answered (.ok a)⟩ →
      T.sessions[i]? = some ⟨c, ℓ, .answered (.ok a)⟩ := by
  refine ⟨fun T later => ?_, fun act S' step => ?_, ?_, ?_, ?_⟩
  · obtain ⟨u', found', grown, _⟩ := epoch_since later reachable found
    exact ⟨u', found', grown⟩
  · obtain ⟨u', found', bumped | ⟨still, same, _⟩⟩ := epoch_step reachable step found
    · exact ⟨u', found', Or.inl bumped⟩
    · exact ⟨u', found', Or.inr ⟨still, same⟩⟩
  · intro i j c c' ℓ ℓ' r r' a a' there there' request request' known known' user user' epoch
    exact hash_of_epoch reachable there' there request' request known' known
      (user.trans user'.symm) epoch
  · intro i c ℓ p r epoch act S' here asks step acts
    refine ⟨?_, fun past => ?_⟩
    · rintro rfl
      exact mints_iff reachable here asks step acts found
    · obtain ⟨pending, first | idle⟩ := asks_stands reachable here asks
      · exact absurd first past
      · exact (System.Reaches.refl : Later S S).idle here idle pending step acts
  · intro T U i c ℓ r a first second overtakes asks there
    exact overtaken_refused reachable found first second overtakes asks there

end

end

/-! ### Runs -/

open Bytewise in
theorem minted_under_epoch_redeemed : ∃ u, (after Enrolments.enrolling).store.user?
      Enrolments.enrolledId = some u ∧ u.credentialEpoch = 1 ∧
    ∀ T, Later (after Enrolments.enrolling) T → ∃ u',
      T.store.user? Enrolments.enrolledId = some u' ∧ u.credentialEpoch ≤ u'.credentialEpoch := by
  have redeemed : ((after Enrolments.enrolling).store.user? Enrolments.enrolledId).map
      (·.credentialEpoch) = some 1 := by decide +kernel
  obtain ⟨u, found, epoch⟩ := Option.map_eq_some_iff.mp redeemed
  exact ⟨u, found, epoch, (minted_under_epoch (reachable_after Enrolments.enrolling) found).1⟩

/-- A token is minted, and asked for again under the epoch in force. -/
def mintingAgain : CreateCredentialRequest :=
  { expiringAt 60 with expectedCredentialEpoch := some 0 }

def minting : List (Action Call) :=
  asking 60 ++ [.run 1] ++ calling secondUuid (.createCredential mintingAgain) 2 0

open Bytewise in
/-- A token that is taken is not stored again, live as the user is and right as
the epoch. -/
theorem taken_token_refused : ¬∀ (S S' : Handlers.System) (i : Nat) c ℓ r userId u,
    Reachable S → S.sessions[i]? = some ⟨c, ℓ, .running (service c)⟩ →
    Asks userId u.credentialEpoch c r → S.store.user? userId = some u → u.deletedAt = none →
    S.step service (.run i) = some S' → ∃ row, Mints r row S S' := by
  intro inserts
  let c : Call := ⟨some iamCaller, secondUuid, .createCredential mintingAgain⟩
  have asks : Asks Spellings.personId 0 c mintingAgain := ⟨rfl, rfl, rfl⟩
  have here : (after minting).sessions[2]? = some ⟨c, .fresh, .running (service c)⟩ := by
    have arrives : (after (asking 60 ++ [.run 1])).step service (.call c) = some (after minting) :=
      step_after (by decide +kernel)
    have before : (after (asking 60 ++ [.run 1])).sessions.length = 2 := by decide +kernel
    rw [← Option.some.inj arrives]
    show (_ ++ [_])[2]? = _
    obtain ⟨k, program, _⟩ := service_asks asks (by decide +kernel)
    rw [List.getElem?_append_right (by rw [before]), before, program]
    rfl
  have step : (after minting).step service (.run 2) = some (after (minting ++ [.run 2])) :=
    step_after (by decide +kernel)
  have person : ((after minting).store.user? Spellings.personId).map
      (fun u => (u.credentialEpoch, u.deletedAt)) = some (0, none) := by decide +kernel
  obtain ⟨u, found, same⟩ := Option.map_eq_some_iff.mp person
  obtain ⟨epoch, live⟩ := Prod.mk.inj same
  obtain ⟨row, mints⟩ := inserts _ _ _ _ _ _ _ _ (reachable_after minting) here
    (epoch ▸ asks) found live step
  have still : (after (minting ++ [.run 2])).store.credentials.rows =
      (after minting).store.credentials.rows := by decide +kernel
  have stored : row ∈ (after minting).store.credentials := by
    have stored := mints.stored
    rwa [Table.mem_def, still, ← Table.mem_def] at stored
  exact Table.find?_eq_none.mp mints.absent row stored rfl

end IamDb.Epochs
