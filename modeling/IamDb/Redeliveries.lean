import IamDb.Deliveries

/-! A redemption takes place once. The first delivery of a secret under a key
that changes anything does all of it in one commit, and no other changes
anything after that. What the others answer rests on what their spend saw: a
secret it found nothing under must name nothing until they have read the reason. -/
namespace IamDb.Redeliveries
open Txn Schema Messages Service Effects Evolution Interference Handlers Runs Deliveries
open RedemptionProofs

section
variable [Engine]

/-- A delivery of a secret under a key. -/
structure Presents (key : String) (secret : Bytes) (c : Call) (r : RedeemEnrolmentRequest) :
    Prop where
  delivers : Delivers c r key
  secret : r.secretHash = secret

/-- An enrolment of the secret turns up behind the spend of one of its deliveries
under the key. -/
def TurnsUp (key : String) (secret : Bytes) (S S' : Handlers.System) : Prop :=
  (∃ (i : Nat) (c : Call) (ℓ : Local Store Write Res) (p : Rpc Response)
    (r : RedeemEnrolmentRequest), S.sessions[i]? = some ⟨c, ℓ, .running p⟩ ∧
      Presents key secret c r ∧ HasSpent ℓ secret) ∧
    S.store.enrolment? secret = none ∧ S'.store.enrolment? secret ≠ none

/-- The runs in which none does. -/
abbrev Steady (key : String) (secret : Bytes) (S : Handlers.System) (_ : Action Call)
    (S' : Handlers.System) : Prop :=
  ¬TurnsUp key secret S S'

/-- A check that the secret names an enrolment or no session has spent it. -/
def steadyNow (secret : Bytes) (S : Handlers.System) (_ : Action Call) (_ : Handlers.System) :
    Bool :=
  (S.store.enrolment? secret).isSome ||
    S.sessions.all fun s => s.loc.seen.all fun g => g.lock.res ≠ .secret secret

theorem steady_of_now {S S' : Handlers.System} (now : steadyNow secret S a S' = true) :
    Steady key secret S a S' := by
  rintro ⟨⟨i, c, ℓ, p, r, there, _, t, ran⟩, absent, _⟩
  simp only [steadyNow, absent, Option.isSome_none, Bool.false_or, List.all_eq_true,
    decide_eq_true_eq] at now
  exact now _ (List.mem_of_getElem? there) _ ran rfl

/-- The commits of the other calls, none of which inserts an enrolment of the
secret behind a spend. -/
def Sparing (secret : Bytes) : Rely Store Write Res := fun ℓ n σ σ' =>
  Others ℓ n σ σ' ∧ (HasSpent ℓ secret → σ.enrolment? secret = none → σ'.enrolment? secret = none)

/-- What a delivery answers: what the ledger says, or why it says nothing. -/
def Replies (key : String) (secret : Bytes) : Post Store Write Res Status Response :=
  fun result ℓ σ _ => match result with
    | .ok (.redeemEnrolment a) => Answered True key secret ℓ σ (.ok a)
    | .ok _ => False
    | .error e => Answered True key secret ℓ σ (.error e)

/-- The answers of the deliveries, while no enrolment turns up. -/
theorem watched_deliveries (key : String) (secret : Bytes) :
    System.Watched service Integrity Others Effective (Steady key secret)
      (fun c => ∃ r, Presents key secret c r) (Sparing secret) (fun _ _ => True)
      (fun _ => Replies key secret) := by
  constructor
  · rintro c ⟨r, delivers, rfl⟩ σ t inv
    refine ServiceProofs.wp_service (fun e refused => ?_) fun _ => ?_
    · rw [delivers.caller] at refused
      cases refused
    rw [delivers.request]
    refine wp_map (wp_mono (wp_redeem (R := Sparing r.secretHash) (fun _ _ _ _ change => change.1)
      delivers.request inv) (fun _ _ _ _ h => h) (fun _ _ => trivial) ?_)
    intro result ℓ σ t post
    have keeps : Keeps (Sparing r.secretHash) r.secretHash := fun _ _ _ _ change => change.2
    have told := post delivers.keyed
    cases result with
    | error e => exact fun row stored keyed => told row stored (keyed.trans delivers.same.symm)
    | ok a =>
      rcases told with ⟨row, agrees⟩ | ⟨fails, why⟩
      · exact Or.inl ⟨row, { agrees with keyed := agrees.keyed.trans delivers.same }⟩
      · refine Or.inr ⟨fails, fun _ => (why keeps).imp id fun doomed => ⟨doomed.dead, ?_⟩⟩
        exact fun row stored keyed => doomed.unrecorded row stored (keyed.trans delivers.same.symm)
  · intro S a S' i j c c' ℓ' p' k sound step steady there watching _ _ store room commits _
    obtain ⟨r, presents⟩ := watching
    have others : Others ℓ' p'.upcoming S.store S'.store :=
      ⟨c, k, commits.store ▸ commits.inv, room, commits.guar, commits.store, store.symm⟩
    refine ⟨others, fun ran absent => ?_⟩
    by_contra present
    exact steady ⟨⟨j, c', ℓ', p', r, there, presents, ran⟩, absent, present⟩

/-- The whole of a redemption under a key and what its delivery answers: the
enrolment is spent, its owner counted up, the password and the ledger row
written, and with the flag everything else of the owner's withdrawn. -/
inductive Redeems (r : RedeemEnrolmentRequest) : Effect → RedeemEnrolmentResponse → Store → Prop
    where
  | intro {σ : Store} (enrolment : e ∈ σ.enrolments) (secret : e.secretHash = r.secretHash)
      (unspent : e.spentAt = none) (unvoided : e.voidedAt = none) (unexpired : spent < e.expiresAt)
      (owner : σ.user? e.userId = some u) (live : u.deletedAt = none) (password : p.key = u.key)
      (hash : p.argon2idHash = r.argon2idHash) :
    Redeems r (.redeem e u p (some ⟨r.idempotency.getD "", e.secretHash, e.id, e.userId,
        u.credentialEpoch + 1⟩) spent revoked voided)
      ⟨.redeemed, e.userId, e.id, u.externalId, e.revokeExistingCredentials, u.credentialEpoch + 1,
        count⟩ σ

section
variable {S S' T : Handlers.System} {i j : Nat}

/-- Once the ledger names the secret, a delivery is answered what it says. -/
theorem replied (reached : ReachableWhile (Steady key secret) S)
    (names : Names key secret S.store)
    (later : System.Reaches service (Steady key secret) S T)
    (there : T.sessions[i]? = some ⟨c, ℓ, .answered result⟩)
    (unanswered : S.sessions[i]? ≠ some ⟨c, ℓ, .answered result⟩)
    (presents : Presents key secret c r) :
    ∃ a row, result = .ok (.redeemEnrolment a) ∧ Agrees key secret a row T.store := by
  obtain ⟨V, ℓ₀, first, rest, given, closed, replies⟩ := reached.answered_since
    (watched_deliveries key secret) later there unanswered ⟨r, presents⟩
  have here : Reachable V := (reached.later first).reachable
  obtain ⟨row, stored, keyed, named⟩ :=
    names.later (Later.evolves (first.mono fun _ _ _ _ => trivial) reached.reachable)
  have recorded : ¬Unrecorded key secret V.store := fun none => none row stored keyed named
  unfold Replies at replies
  split at replies
  · rename_i a
    rcases replies with ⟨row', agrees⟩ | ⟨_, why⟩
    · exact ⟨a, row', rfl,
        agrees.later (Later.evolves (rest.mono fun _ _ _ _ => trivial) here)⟩
    · rcases why trivial with ⟨_, absent⟩ | doomed
      · obtain ⟨e, enrolled, _, same, _⟩ := here.inv.redeemed row stored
        simp [Store.enrolment?, List.find?_eq_none] at absent
        exact absurd (same.trans named) (absent e enrolled)
      · exact absurd doomed.unrecorded recorded
  · cases replies
  · exact absurd replies recorded

/-- A delivery that was told why nobody can redeem is right for good. -/
theorem doomed_stays (reachable : Reachable S) (later : Later S T)
    (there : S.sessions[i]? = some ⟨c, ℓ, .answered result⟩)
    (doomed : Doomed ℓ key secret S.store) : Doomed ℓ key secret T.store := by
  refine System.Reaches.invariant later (P := fun T => Doomed ℓ key secret T.store) doomed ?_
  intro U act U' before doomed step _
  have still : U.sessions[i]? = some ⟨c, ℓ, .answered result⟩ := before.ended there nofun
  have reached := reachable.later before
  rcases reached.lands step with ⟨same, _⟩ | ⟨j, c', k, lands⟩
  · rwa [same]
  · have other : i ≠ j := by
      rintro rfl
      obtain ⟨_, _, running⟩ := lands.running
      rw [still] at running
      cases running
    obtain ⟨ef, allowed, store, effect⟩ := lands_effect lands
    rw [effect, ← store]
    exact Doomed.effect (store ▸ doomed) (store ▸ reached.inv)
      (lands.commits.admitted i _ still other) allowed

/-- Nor does it void anything. -/
theorem voids_nothing (reachable : Reachable S) (names : Names key secret S.store)
    (later : Later S T)
    (there : T.sessions[i]? = some ⟨c, ℓ, .answered (.ok (.redeemEnrolment a))⟩)
    (unanswered : S.sessions[i]? ≠ some ⟨c, ℓ, .answered (.ok (.redeemEnrolment a))⟩)
    (delivers : Delivers c r key) : a.voidedEnrolments = 0 := by
  obtain ⟨U, act, V, first, step, _, given, new, _⟩ := later.answered there unanswered
  have reached := reachable.later first
  have earned : (service c).Earned := Endings.earned_lift fun _ => by
    rw [delivers.request]
    exact Prog.Earned.map _ Endings.atomic_redeem.earned
  obtain ⟨k, lands, told⟩ := answered_commits reached step earned given new
  obtain ⟨ef, allowed, store, result⟩ := lands_effect lands
  have request := delivers.request
  cases allowed with
  | nothing _ answer => exact answer _ told
  | redeem request' _ _ _ _ _ _ _ _ _ _ recorded fresh =>
    rw [request] at request'
    cases request'
    rw [if_neg delivers.keyed] at recorded
    obtain ⟨row, stored, _⟩ := names_iff.mp (names.later (Later.evolves first reachable))
    have absent : U.store.redemptions.find? (weight (r.idempotency.getD "")) = none :=
      store ▸ fresh _ recorded
    rw [delivers.same, stored] at absent
    cases absent
  | _ => simp_all

/-- The first delivery that changes anything does it all: a step of one whose
store is no longer the same is the redemption. -/
theorem redeems (reachable : Reachable S)
    (here : S.sessions[j]? = some ⟨c, ℓ, .running p⟩) (presents : Presents key secret c r)
    (step : S.step service act = some S') (acts : act = .run j ∨ act = .lose j)
    (changed : S'.store ≠ S.store) :
    ∃ k ef a, Lands S j c k S' ∧ Redeems r ef a S.store ∧ S'.store = ef.apply S.store ∧
      k.answer = some (.ok (.redeemEnrolment a)) := by
  rcases reachable.lands step with ⟨same, _⟩ | ⟨i, c', k, lands⟩
  · exact absurd same changed
  obtain ⟨ℓ', p', there⟩ := lands.running
  obtain rfl : i = j := by
    rcases (lands.acts step).imp (·.1) id with rfl | rfl <;> rcases acts with same | same <;>
      cases same <;> rfl
  cases Option.some.inj (here.symm.trans there)
  obtain ⟨ef, allowed, store, result⟩ := lands_effect lands
  have request := presents.delivers.request
  cases allowed with
  | nothing => exact absurd result changed
  | redeem request' enrolment named unspent unvoided unexpired _ owner live password hash recorded
      _ answer =>
    rw [request] at request'
    cases request'
    rw [if_neg presents.delivers.keyed] at recorded
    subst recorded
    exact ⟨k, _, _, lands, ⟨store ▸ enrolment, named, unspent, unvoided, unexpired, store ▸ owner,
      live, password, hash⟩, result, answer⟩
  | _ => simp_all

/-- Behind it no enrolment of the secret turns up. -/
theorem steady_after (reachable : Reachable S) (member : e ∈ S.store.enrolments)
    (named : e.secretHash = secret) (later : Later S T) :
    System.Reaches service (Steady key secret) S T := by
  induction later with
  | refl => exact .refl
  | @step U act V before step _ ih =>
    refine ih.step step fun turnsUp => ?_
    obtain ⟨e', member', _, after⟩ := (Later.evolves before reachable).enrolments.mem member
    have absent := turnsUp.2.1
    simp [Store.enrolment?, List.find?_eq_none] at absent
    exact absent e' member' (after.secretHash.trans named)

theorem Redeems.enrolled {σ : Store} (redeems : Redeems r ef a σ) :
    ∃ e ∈ σ.enrolments, e.secretHash = r.secretHash := by
  cases redeems with
  | intro enrolment secret => exact ⟨_, enrolment, secret⟩

/-- What agrees with the ledger row of a redemption says what its delivery did. -/
theorem Redeems.repeated {σ : Store} (redeems : Redeems r ef a σ)
    (keyed : weight (r.idempotency.getD "") = weight key) (before : Evolves σ T.store)
    (after : Evolves (ef.apply σ) T.store) (agrees : Agrees key secret a' row T.store)
    (voided : a'.voidedEnrolments = 0) : a' = { a with voidedEnrolments := 0 } := by
  cases redeems with
  | @intro e spent u p revoked voided' count _ enrolment _ _ _ _ owner =>
    obtain ⟨row', stored, key', same⟩ := after.redemptions.mem
      (r := ⟨r.idempotency.getD "", e.secretHash, e.id, e.userId, u.credentialEpoch + 1⟩)
      Table.mem_put_self
    cases same
    obtain rfl := Table.eq_of_key agrees.stored stored (agrees.keyed.trans keyed.symm)
    obtain ⟨u', found, externalId⟩ := agrees.externalId
    obtain ⟨u'', found', later⟩ := before.user? owner
    cases Option.some.inj (found.symm.trans found')
    obtain ⟨x, member, named, flag⟩ := agrees.revoked
    obtain ⟨e', member', key, later'⟩ := before.enrolments.mem enrolment
    obtain rfl : e' = x := Table.eq_of_key member' member (key.trans (congrArg weight named.symm))
    cases a'
    simp only [RedeemEnrolmentResponse.mk.injEq]
    exact ⟨agrees.outcome, agrees.userId, agrees.enrolmentId, externalId.trans later.externalId,
      flag.trans later'.flag, agrees.credentialEpoch, voided⟩

/-- A delivery answered before the ledger names the secret found no enrolment, or
failed. -/
theorem answered_before (reached : ReachableWhile (Steady key secret) S)
    (there : S.sessions[i]? = some ⟨c, ℓ, .answered (.ok (.redeemEnrolment a))⟩)
    (presents : Presents key secret c r) (unrecorded : ¬Names key secret S.store)
    (later : Later S S') (names : Names key secret S'.store) : a.outcome = .notFound := by
  obtain ⟨σ, now, inv, before⟩ := reached
  have start : ReachableWhile (Steady key secret) (.start σ now) := ⟨σ, now, inv, .refl⟩
  obtain ⟨V, ℓ₀, first, rest, given, rfl, replies⟩ := start.answered_since
    (watched_deliveries key secret) before there nofun ⟨r, presents⟩
  have here : Reachable V := (start.later first).reachable
  have rest : Later V S := rest.mono fun _ _ _ _ => trivial
  rcases replies with ⟨row, agrees⟩ | ⟨_, why⟩
  · have named : Names key secret V.store := ⟨row, agrees.stored, agrees.keyed, agrees.redeems⟩
    exact absurd (named.later (rest.evolves here)) unrecorded
  · rcases why trivial with ⟨nothing, _⟩ | doomed
    · exact nothing
    · obtain ⟨row, stored, keyed, named⟩ := names
      exact absurd named ((doomed_stays here (rest.trans later) given doomed.closed).unrecorded row
        stored keyed)

/-- Where no enrolment of a secret turns up behind the spend of a delivery of it
under a key, one step of one such delivery is the whole redemption. From then on
no delivery changes anything, and every other one answers what the first did,
having voided nothing, or had found no such enrolment or failed before. -/
theorem redeemed_once (reached : ReachableWhile (Steady key secret) S)
    (here : S.sessions[j]? = some ⟨c, ℓ, .running p⟩) (presents : Presents key secret c r)
    (step : S.step service act = some S') (acts : act = .run j ∨ act = .lose j)
    (changed : S'.store ≠ S.store) :
    ∃ k ef a, Lands S j c k S' ∧ Redeems r ef a S.store ∧ S'.store = ef.apply S.store ∧
      k.answer = some (.ok (.redeemEnrolment a)) ∧ ∀ T, Later S' T →
        (∀ (i : Nat) c ℓ p r act T', T.sessions[i]? = some ⟨c, ℓ, .running p⟩ →
          Presents key secret c r → T.step service act = some T' →
          act = .run i ∨ act = .lose i → T'.store = T.store) ∧
        ∀ (i : Nat) c ℓ r result, T.sessions[i]? = some ⟨c, ℓ, .answered result⟩ → i ≠ j →
          Presents key secret c r →
          result = .ok (.redeemEnrolment { a with voidedEnrolments := 0 }) ∨
          S.sessions[i]? = some ⟨c, ℓ, .answered result⟩ ∧
            ∀ a', result = .ok (.redeemEnrolment a') → a'.outcome = .notFound := by
  have reachable := reached.reachable
  obtain ⟨k, ef, a, lands, redeems, result, answer⟩ := redeems reachable here presents step acts
    changed
  refine ⟨k, ef, a, lands, redeems, result, answer, fun T later => ?_⟩
  have next : Later S S' := .step .refl step trivial
  have reachable' := reachable.step step
  have evolves := Later.evolves next reachable
  have names : Names key secret S'.store :=
    presents.secret ▸ (spends_names reachable here presents.delivers step acts changed).2
  refine ⟨fun i c ℓ p r act T' there presents' step' acts' => ?_,
    fun i c ℓ r result there other presents' => ?_⟩
  · by_contra moved
    obtain ⟨absent, _⟩ := spends_names (reachable'.later later) there presents'.delivers step' acts'
      moved
    obtain ⟨row, found, _⟩ := names_iff.mp (names.later (later.evolves reachable'))
    rw [absent] at found
    cases found
  · by_cases already : S.sessions[i]? = some ⟨c, ℓ, .answered result⟩
    · refine Or.inr ⟨already, ?_⟩
      rintro a' rfl
      refine answered_before reached already presents' (fun named => ?_) next names
      obtain ⟨row, found, _⟩ := names_iff.mp named
      rw [(spends_names reachable here presents.delivers step acts changed).1] at found
      cases found
    · have unanswered : S'.sessions[i]? ≠ some ⟨c, ℓ, .answered result⟩ := by
        intro given
        cases System.turn_of_step step given with
        | kept there => exact already there
        | arrived _ call => rcases acts with rfl | rfl <;> cases call
        | ran _ run => rcases acts with rfl | rfl <;> cases run; exact other rfl
        | ended _ gone => cases gone
      obtain ⟨e, member, named⟩ := redeems.enrolled
      obtain ⟨e', member', _, after⟩ := evolves.enrolments.mem member
      have still := reached.later (steady_after reachable member (named.trans presents.secret) next)
      have steady : System.Reaches service (Steady key secret) S' T :=
        steady_after reachable' member' ((after.secretHash.trans named).trans presents.secret) later
      obtain ⟨a', row, rfl, agrees⟩ := replied still names steady there unanswered presents'
      refine Or.inl (congrArg _ (congrArg _ ?_))
      exact redeems.repeated presents.delivers.same (evolves.trans (later.evolves reachable'))
        (result ▸ later.evolves reachable') agrees
        (voids_nothing reachable' names later there unanswered presents'.delivers)

end

end

/-! ### Runs -/

/-- A person. -/
def created : List (Action Call) :=
  calling firstUuid (.createUser ⟨[1], [2], [3], false, ""⟩) 0 1

/-- Their enrolment. -/
def enrolled (i : Nat) : List (Action Call) :=
  calling firstUuid (.createEnrolment ⟨Enrolments.enrolledId, Enrolments.aSecret, some 100, false,
    false, false⟩) i 1

/-- A delivery is to commit next. -/
def committing : List (Action Call) := created ++ enrolled 1 ++ delivering Enrolments.aSecret 2 10

/-- The call the secret is delivered by. -/
def deliveringCall : Call :=
  ⟨some iamCaller, firstUuid, .redeemEnrolment ⟨some "key", Enrolments.aSecret, "$argon2id$"⟩⟩

open Bytewise in
theorem delivered_presents : Presents "key" Enrolments.aSecret deliveringCall
    ⟨some "key", Enrolments.aSecret, "$argon2id$"⟩ :=
  ⟨⟨rfl, rfl, by decide, rfl⟩, rfl⟩

open Bytewise in
theorem redeemed_once_again : ∃ a : RedeemEnrolmentResponse, a.outcome = .redeemed ∧
    told (after (committing ++ [.run 2] ++ delivering Enrolments.aSecret 3 5)) 3 =
      some (deliveringCall, .ok (.redeemEnrolment { a with voidedEnrolments := 0 })) := by
  have reached : ReachableWhile (Steady "key" Enrolments.aSecret) (after committing) :=
    ⟨migrated, 0, integrity_migrated, reaches_after (steadyNow Enrolments.aSecret)
      (fun _ _ _ => steady_of_now) (by decide +kernel)⟩
  have step : (after committing).step service (.run 2) = some (after (committing ++ [.run 2])) :=
    step_after (by decide +kernel)
  have later : Later (after (committing ++ [.run 2]))
      (after (committing ++ [.run 2] ++ delivering Enrolments.aSecret 3 5)) :=
    later_after (by decide +kernel)
  have changed : (after (committing ++ [.run 2])).store ≠ (after committing).store := by
    intro same
    have ledger : (after (committing ++ [.run 2])).store.redemptions.rows ≠
        (after committing).store.redemptions.rows := by decide +kernel
    exact ledger (congrArg (·.redemptions.rows) same)
  obtain ⟨c, k, _, _, lands, _⟩ := reached.reachable.changes step changed
  obtain ⟨ℓ, p, here⟩ := lands.running
  have call : ((after committing).sessions[2]?).map (·.call) = some deliveringCall := by
    decide +kernel
  rw [here] at call
  cases Option.some.inj call
  obtain ⟨_, _, a, _, redeems, _, _, rest⟩ :=
    redeemed_once reached here delivered_presents step (Or.inl rfl) changed
  have called : (told (after (committing ++ [.run 2] ++ delivering Enrolments.aSecret 3 5)) 3).map
      (·.1) = some deliveringCall := by decide +kernel
  obtain ⟨⟨_, result⟩, answered, rfl⟩ := Option.map_eq_some_iff.mp called
  obtain ⟨ℓ', there⟩ := told_eq_some answered
  have absent : (after committing).sessions[3]? = none := by decide +kernel
  refine ⟨a, by cases redeems; rfl, ?_⟩
  rcases (rest _ later).2 3 _ _ _ _ there (by decide) delivered_presents with rfl | ⟨early, _⟩
  · exact answered
  · rw [absent] at early
    cases early

/-- The enrolment turns up behind the spend of a delivery, and another delivery
redeems it. -/
def behind : List (Action Call) :=
  created ++ delivering Enrolments.aSecret 1 5 ++ enrolled 2 ++ delivering Enrolments.aSecret 3 10

open Bytewise in
/-- The first delivery then finds it spent. -/
theorem redeemed_twice : ¬∀ (S S' T : Handlers.System) (i j : Nat) key secret c ℓ p r c' ℓ' r' a,
    Reachable S → S.sessions[j]? = some ⟨c, ℓ, .running p⟩ → Presents key secret c r →
    S.step service (.run j) = some S' → S'.store ≠ S.store → Later S' T →
    T.sessions[i]? = some ⟨c', ℓ', .answered (.ok (.redeemEnrolment a))⟩ → i ≠ j →
    Presents key secret c' r' → a.outcome = .redeemed := by
  intro once
  have step : (after behind).step service (.run 3) = some (after (behind ++ [.run 3])) :=
    step_after (by decide +kernel)
  have changed : (after (behind ++ [.run 3])).store ≠ (after behind).store := by
    intro same
    have ledger : (after (behind ++ [.run 3])).store.redemptions.rows ≠
        (after behind).store.redemptions.rows := by decide +kernel
    exact ledger (congrArg (·.redemptions.rows) same)
  obtain ⟨c, k, _, _, lands, _⟩ := (reachable_after behind).changes step changed
  obtain ⟨ℓ, p, here⟩ := lands.running
  have call : ((after behind).sessions[3]?).map (·.call) = some deliveringCall := by
    decide +kernel
  rw [here] at call
  cases Option.some.inj call
  obtain ⟨ℓ', there⟩ : ∃ ℓ, (after (behind ++ [.run 3] ++ .replicate 2 (.run 1))).sessions[1]? =
      some ⟨deliveringCall, ℓ, .answered (.ok (.redeemEnrolment
        ⟨.spent, "", "", [], false, 0, 0⟩))⟩ :=
    told_eq_some (by decide +kernel)
  have redeemed := once _ _ _ _ _ _ _ _ _ _ _ _ _ _ _ (reachable_after behind) here
    delivered_presents step changed (later_after (by decide +kernel)) there (by decide)
    delivered_presents
  cases redeemed

end IamDb.Redeliveries
