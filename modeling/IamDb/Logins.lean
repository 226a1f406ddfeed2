import IamDb.Epochs

/-! Logins. A login reads the password hash and its epoch, checks the password
elsewhere and mints a credential under that epoch; a first login redeems an
enrolment and mints under the epoch it is told. Other calls come in between;
the mint is answered OK only where the password that was checked, or chosen,
is still the one in force. -/
namespace IamDb.Logins
open Txn Schema Messages Service Effects Evolution Interference Handlers Runs Life Epochs

section
variable [Engine]

/-- The user is live, under this epoch and with this password hash. -/
structure InForce (userId : String) (epoch : Nat) (hash : String) (S : Handlers.System) (u : User)
    (p : Password) : Prop where
  user : S.store.user? userId = some u
  live : u.deletedAt = none
  epoch : u.credentialEpoch = epoch
  password : S.store.passwords.find? (weight userId) = some p
  hash : p.argon2idHash = hash

section
variable {S T U U' V V' : Handlers.System} {i j : Nat}

/-- The user a mint under an epoch commits for. -/
theorem user_of_lands (lands : Lands V j c k V') (asks : Asks userId epoch c r) :
    ∃ u, V.store.user? userId = some u := by
  obtain ⟨row, u, inserted⟩ := inserted_lands lands asks.request
  have user := inserted.user
  rw [Store.user?, asks.user] at user
  exact ⟨u, user⟩

/-- A mint finds the hash in force that was, under the epoch it asks for, at an
earlier moment. -/
theorem inForce_of_earlier (reachable : Reachable T) (found : T.store.user? userId = some u)
    (password : T.store.passwords.find? (weight userId) = some p) (later : Later T V)
    (lands : Lands V j c k V') (asks : Asks userId u.credentialEpoch c r) :
    ∃ u', InForce userId u.credentialEpoch p.argon2idHash V u' p := by
  obtain ⟨u', found', _, kept⟩ := epoch_since later reachable found
  obtain ⟨live, epoch, _⟩ := minted_under lands asks found'
  exact ⟨u', found', live, epoch, (kept epoch).trans password, rfl⟩

/-- Or that is at a later one. -/
theorem inForce_of_later (reachable : Reachable V) (lands : Lands V j c k V') (later : Later V T)
    (found : T.store.user? userId = some u)
    (password : T.store.passwords.find? (weight userId) = some p)
    (asks : Asks userId u.credentialEpoch c r) :
    ∃ u', InForce userId u.credentialEpoch p.argon2idHash V u' p := by
  obtain ⟨u', found'⟩ := user_of_lands lands asks
  obtain ⟨live, epoch, _⟩ := minted_under lands asks found'
  obtain ⟨u₁, found₁, _, kept⟩ := epoch_since later reachable found'
  obtain rfl := Option.some.inj (found₁.symm.trans found)
  exact ⟨u', found', live, epoch, (kept epoch.symm).symm.trans password, rfl⟩

/-- A login mints on the hash that was checked. Where a `CreateCredential` that
carries the epoch of an answered `GetPasswordHash` is answered OK, its row was
inserted at a moment of the run at which the user was live and the hash of that
answer was the one stored, whatever redemptions, revokes and password changes
ran in between. -/
theorem login_on_current_hash (reachable : Reachable S)
    (there : S.sessions[i]? = some ⟨c, ℓ, .answered (.ok (.getPasswordHash a))⟩)
    (request : c.request = .getPasswordHash r) (known : a ≠ ⟨"", "", 0⟩)
    (asks : Asks a.userId a.credentialEpoch c' r')
    (there' : S.sessions[j]? = some ⟨c', ℓ', .answered (.ok b)⟩) :
    ∃ V k V' u p, Reachable V ∧ Lands V j c' k V' ∧ Later V S ∧
      InForce a.userId a.credentialEpoch a.argon2idHash V u p := by
  obtain ⟨T, u, p, reached, later, reads⟩ := answered_reads reachable there request known
  rw [← reads.epoch] at asks ⊢
  rw [← reads.hash]
  by_cases already : T.sessions[j]? = some ⟨c', ℓ', .answered (.ok b)⟩
  · obtain ⟨σ, now, inv, before⟩ := reached
    have start : Reachable (.start σ now) := ⟨σ, now, inv, .refl⟩
    obtain ⟨V, k, V', first, lands, rest⟩ := asks_lands start before asks already fun here => by cases here
    obtain ⟨u', inForce⟩ := inForce_of_later (start.later first) lands rest reads.user
      reads.password asks
    exact ⟨V, k, V', u', p, start.later first, lands, rest.trans later, inForce⟩
  · obtain ⟨V, k, V', first, lands, rest⟩ := asks_lands reached later asks there' already
    obtain ⟨u', inForce⟩ := inForce_of_earlier reached reads.user reads.password first lands asks
    exact ⟨V, k, V', u', p, reached.later first, lands, rest, inForce⟩

/-- What a redemption that spends its enrolment leaves. -/
theorem redeemed_leaves (lands : Lands U i c k U') (request : c.request = .redeemEnrolment r)
    (changed : U'.store ≠ U.store) (answer : k.answer = some (.ok (.redeemEnrolment a))) :
    ∃ u p, U.store.user? a.userId = some u ∧ a.credentialEpoch = u.credentialEpoch + 1 ∧
      U'.store.user? a.userId = some (bumped u) ∧
      U'.store.passwords.find? (weight a.userId) = some p ∧ p.argon2idHash = r.argon2idHash := by
  obtain ⟨ef, allowed, store, result⟩ := lands_effect lands
  cases allowed with
  | nothing => exact absurd result changed
  | redeem request' _ _ _ _ _ _ owner _ password hash _ _ told =>
    rw [request] at request'
    cases request'
    rw [answer] at told
    cases told
    rw [store] at owner
    have key := (Store.user?_mem owner).2
    refine ⟨_, _, owner, rfl, ?_, ?_, hash⟩
    · rw [result]
      show (Table.put _ _).find? _ = _
      rw [Table.find?_put, if_pos (by exact key.symm)]
    · rw [result]
      show (Table.put _ _).find? _ = _
      rw [Table.find?_put, if_pos (by rw [password]; exact key.symm)]
  | _ => simp_all

/-- A first login mints on the hash that was chosen. Where a `CreateCredential`
that carries the epoch of the redemption that spent an enrolment is answered
OK, its row was inserted after the redemption, at a moment at which the user
was live and the hash of the redemption was the one stored. -/
theorem first_login_on_chosen_hash (reachable : Reachable U) (step : U.step service act = some U')
    (lands : Lands U i c k U') (request : c.request = .redeemEnrolment r)
    (changed : U'.store ≠ U.store) (answer : k.answer = some (.ok (.redeemEnrolment a)))
    (later : Later U' S) (asks : Asks a.userId a.credentialEpoch c' r')
    (there : S.sessions[j]? = some ⟨c', ℓ', .answered (.ok b)⟩) :
    ∃ V k' V' u p, Later U' V ∧ Lands V j c' k' V' ∧ Later V S ∧
      InForce a.userId a.credentialEpoch r.argon2idHash V u p := by
  obtain ⟨u, p, found, epoch, found', password, hash⟩ :=
    redeemed_leaves lands request changed answer
  -- Before the redemption its epoch was still to come.
  have new : U'.sessions[j]? ≠ some ⟨c', ℓ', .answered (.ok b)⟩ := by
    intro there
    have other : j ≠ i := by
      rintro rfl
      have same : c' = c := by
        obtain ⟨_, _, _, here | here⟩ := lands.answer
        · cases there.symm.trans here
          rfl
        · cases there.symm.trans here
      rw [same] at asks
      cases request.symm.trans asks.request
    have acts : act = .run i ∨ act = .lose i := (lands.acts step).imp And.left fun lost => lost
    rw [System.sessions_of_step step acts other] at there
    obtain ⟨σ, now, inv, before⟩ := reachable
    have start : Reachable (.start σ now) := ⟨σ, now, inv, .refl⟩
    obtain ⟨V, k', V', first, lands', rest⟩ := asks_lands start before asks there fun here => by cases here
    obtain ⟨u₁, found₁⟩ := user_of_lands lands' asks
    have same := (minted_under lands' asks found₁).2.1
    obtain ⟨u₂, found₂, grown, _⟩ := epoch_since rest (start.later first) found₁
    obtain rfl := Option.some.inj (found₂.symm.trans found)
    omega
  have reached := reachable.step step
  rw [epoch] at asks ⊢
  obtain ⟨V, k', V', first, lands', rest⟩ := asks_lands reached later asks there new
  obtain ⟨u', inForce⟩ := inForce_of_earlier reached found' password first lands' asks
  rw [hash] at inForce
  exact ⟨V, k', V', u', p, first, lands', rest, inForce⟩

end

end

/-! ### Runs -/

/-- A token is asked for under the first epoch. -/
def login : CreateCredentialRequest :=
  ⟨Enrolments.enrolledId, List.replicate 32 9, "laptop", none, some 1⟩

/-- A password is chosen, checked, and a token minted under its epoch. -/
def loggingIn : List (Action Call) :=
  Enrolments.enrolling ++ calling firstUuid (.getPasswordHash ⟨3 :: List.replicate 31 0⟩) 3 1 ++
    calling secondUuid (.createCredential login) 4 1

open Bytewise in
theorem login_on_current_hash_checked : ∃ V k V' u p, Reachable V ∧
    Lands V 4 ⟨some iamCaller, secondUuid, .createCredential login⟩ k V' ∧
    Later V (after loggingIn) ∧ InForce Enrolments.enrolledId 1 "$argon2id$" V u p := by
  obtain ⟨ℓ, there⟩ : ∃ ℓ, (after loggingIn).sessions[3]? = some ⟨⟨some iamCaller, firstUuid,
      .getPasswordHash ⟨3 :: List.replicate 31 0⟩⟩, ℓ,
      .answered (.ok (.getPasswordHash ⟨Enrolments.enrolledId, "$argon2id$", 1⟩))⟩ :=
    told_eq_some (by decide +kernel)
  obtain ⟨ℓ', there'⟩ : ∃ ℓ', (after loggingIn).sessions[4]? = some ⟨⟨some iamCaller, secondUuid,
      .createCredential login⟩, ℓ',
      .answered (.ok (.createCredential ("yadgar:credential:" ++ secondUuid.text)))⟩ :=
    told_eq_some (by decide +kernel)
  exact login_on_current_hash (reachable_after _) there rfl (by decide) ⟨rfl, rfl, rfl⟩ there'

/-- An enrolment is redeemed up to the commit. -/
def choosing : List (Action Call) :=
  calling firstUuid (.createUser ⟨[1], [2], [3], true, ""⟩) 0 1 ++
  calling firstUuid (.createEnrolment
    ⟨Enrolments.enrolledId, Enrolments.aSecret, some 100, true, false, false⟩) 1 1 ++
  calling firstUuid (.redeemEnrolment ⟨some "key", Enrolments.aSecret, "$argon2id$"⟩) 2 10

/-- A token is minted under the epoch of the redemption. -/
def firstLogin : List (Action Call) :=
  choosing ++ [.run 2] ++ calling secondUuid (.createCredential login) 3 1

open Bytewise in
theorem first_login_on_chosen_hash_chosen : ∃ V k V' u p,
    Later (after (choosing ++ [.run 2])) V ∧
    Lands V 3 ⟨some iamCaller, secondUuid, .createCredential login⟩ k V' ∧
    Later V (after firstLogin) ∧ InForce Enrolments.enrolledId 1 "$argon2id$" V u p := by
  have step : (after choosing).step service (.run 2) = some (after (choosing ++ [.run 2])) :=
    step_after (by decide +kernel)
  have changed : (after (choosing ++ [.run 2])).store ≠ (after choosing).store := by
    intro same
    have ledger : (after (choosing ++ [.run 2])).store.redemptions.rows ≠
        (after choosing).store.redemptions.rows := by decide +kernel
    exact ledger (congrArg (·.redemptions.rows) same)
  obtain ⟨c, k, a, ℓ, lands, answer, here⟩ := (reachable_after choosing).changes step changed
  obtain ⟨ℓ', redeemed⟩ : ∃ ℓ', (after (choosing ++ [.run 2])).sessions[2]? = some ⟨⟨some iamCaller,
      firstUuid, .redeemEnrolment ⟨some "key", Enrolments.aSecret, "$argon2id$"⟩⟩, ℓ',
      .answered (.ok (.redeemEnrolment ⟨.redeemed, Enrolments.enrolledId,
        "yadgar:enrolment:" ++ firstUuid.text, [1], false, 1, 0⟩))⟩ :=
    told_eq_some (by decide +kernel)
  cases Option.some.inj (here.symm.trans redeemed)
  obtain ⟨ℓ'', there⟩ : ∃ ℓ', (after firstLogin).sessions[3]? = some ⟨⟨some iamCaller, secondUuid,
      .createCredential login⟩, ℓ',
      .answered (.ok (.createCredential ("yadgar:credential:" ++ secondUuid.text)))⟩ :=
    told_eq_some (by decide +kernel)
  exact first_login_on_chosen_hash (reachable_after _) step lands rfl changed answer
    (later_after (by decide +kernel)) ⟨rfl, rfl, rfl⟩ there

end IamDb.Logins
