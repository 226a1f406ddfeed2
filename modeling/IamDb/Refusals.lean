import IamDb.Enrolments

/-! A refusal writes nothing. A call changes a table in one step at most, the one
it answers OK with; and where its answer only reports an earlier call's work,
not even there. -/
namespace IamDb.Refusals
open Txn Schema Messages Service Effects Evolution Interference Handlers Runs

section
variable [Engine]

/-- What the answer of a call that changed a table says it did: of the verbs
that may answer for an earlier call, that this one did the work. -/
def Fresh (c : Call) (r : Response) (σ σ' : Store) : Prop :=
  match c.request with
  | .redeemEnrolment _ => ∃ a, r = .redeemEnrolment a ∧ a.outcome = .redeemed ∧
      ∃ e ∈ σ.enrolments, e.id = a.enrolmentId ∧ e.spentAt = none ∧
        ∃ e' ∈ σ'.enrolments, e'.id = e.id ∧ e'.spentAt ≠ none
  | .setKeyIdentity _ => r = .setKeyIdentity .recorded ∧ σ.keyIdentity.rows = []
  | .adoptKeyIdentity _ => r = .adoptKeyIdentity .recorded ∧ σ.keyIdentity.rows = []
  | _ => True

theorem fresh_of_allowed {c : Call} {k : Committed} (allowed : Allowed c k ef)
    (answered : k.answer = some (.ok r)) :
    ef.apply k.store = k.store ∨ Fresh c r k.store (ef.apply k.store) := by
  have same {r'} (answer : k.answer = some (.ok r')) : r = r' := by
    rw [answered] at answer
    cases answer
    rfl
  cases allowed with
  | nothing => exact Or.inl rfl
  | @redeem r' e t _ _ _ _ _ _ request enrolment _ unspent _ _ _ _ _ _ _ _ _ answer =>
    refine Or.inr ?_
    rw [Fresh, request, same answer]
    refine ⟨_, rfl, rfl, e, enrolment, rfl, unspent, spentAt t e, ?_, rfl, nofun⟩
    simp only [Effect.apply]
    split
    · exact (Table.mem_update (f := voidedAt _) fun _ => rfl).mpr
        ⟨_, Table.mem_put_self, by simp [openOf, spentAt]⟩
    · exact Table.mem_put_self
  | record request _ _ absent _ answer =>
    refine Or.inr ?_
    rw [Fresh, request]
    exact ⟨same answer, Marker.unmarked.mp absent⟩
  | adopt request _ _ _ absent _ answer =>
    refine Or.inr ?_
    rw [Fresh, request]
    exact ⟨same answer, Marker.unmarked.mp absent⟩
  | _ request => exact Or.inr (by rw [Fresh, request]; trivial)

theorem fresh_of_lands {S S' : Handlers.System} (lands : Lands S i c k S')
    (answered : k.answer = some (.ok r)) :
    S'.store = S.store ∨ Fresh c r S.store S'.store := by
  obtain ⟨ef, allowed, store, result⟩ := lands_effect lands
  rw [result, ← store]
  exact fresh_of_allowed allowed answered

/-- An action of one call alone: its steps, its end by the engine or the caller,
or time. -/
def Own (i : Nat) (a : Action Call) : Prop :=
  a = .run i ∨ a = .drop i ∨ ∃ seconds, a = .tick seconds

/-- A step of a call changes nothing, or answers OK and has done what it says. -/
theorem step_changes {S S' : Handlers.System} (reachable : Reachable S)
    (step : S.step service (.run i) = some S') : S'.store = S.store ∨
      ∃ c ℓ r, S'.sessions[i]? = some ⟨c, ℓ, .answered (.ok r)⟩ ∧ Fresh c r S.store S'.store := by
  by_cases changed : S'.store = S.store
  · exact Or.inl changed
  · obtain ⟨c, k, r, ℓ, lands, answered, there⟩ := reachable.changes step changed
    exact Or.inr ⟨c, ℓ, r, there, (fresh_of_lands lands answered).resolve_left changed⟩

/-- A settings call whose ledger read found its key writes nothing. -/
theorem idle_replay {c : Call} {r : SetInheritedSettingRequest} {p : Rpc Response}
    (request : c.request = .setInheritedSetting r) (opens : service c = .begin iso p)
    (recorded : σ.settingWrites.find? (weight (r.idempotency.getD "")) = some w)
    (key : r.idempotency.getD "" ≠ "") (pending : ℓ.pending = []) (current : ℓ.iso = .readCommitted)
    (moves : p.move now σ ℓ = some m) : m.next.Idle ∧ m.loc.pending = [] ∧ m.writes = [] := by
  unfold service at opens
  rw [request] at opens
  cases caller : admitted c.caller with
  | error e => rw [caller] at opens; cases opens
  | ok _ =>
    rw [caller] at opens
    cases valid : Setting.checkInheritedSetting r with
    | error e =>
      simp only [verb, Setting.storeSetting, valid] at opens
      cases opens
    | ok scope =>
      have keyed : (Setting.Claim.of r).key ≠ "" := key
      simp only [verb, Setting.storeSetting, valid, Setting.Claim.alreadyRecorded, if_neg keyed]
        at opens
      cases opens
      cases moves
      have found : ((Setting.selectSettingWrite (Setting.Claim.of r).key .no).exec now
          (ℓ.view (Setting.selectSettingWrite (Setting.Claim.of r).key .no) σ)) = (some w, []) := by
        rw [Local.view_committed current, pending, applyAll_nil]
        exact congrArg (·, []) recorded
      dsimp only
      rw [Local.after_pending, found, pending]
      refine ⟨?_, rfl, rfl⟩
      show (Prog.bind (Prog.bind (Prog.bind (Prog.lift ((Setting.Claim.of r).agreesWith _))
        fun _ => pure true) _) _).Idle
      cases (Setting.Claim.of r).agreesWith _ with
      | error e => trivial
      | ok _ => exact ⟨fun _ _ => rfl, fun _ => ⟨fun _ _ => rfl, fun _ => trivial⟩⟩

/-- A replay is a call whose ledger read, the first statement of its
transaction, finds its key. -/
def Replays (S : Handlers.System) (i : Nat) : Prop :=
  ∃ c ℓ p r iso, S.sessions[i]? = some ⟨c, ℓ, .running p⟩ ∧ c.request = .setInheritedSetting r ∧
    service c = .begin iso p ∧ r.idempotency.getD "" ≠ "" ∧
    (S.store.settingWrites.find? (weight (r.idempotency.getD ""))).isSome

theorem begin_level {c : Call} {r : SetInheritedSettingRequest} {p : Rpc Response}
    (request : c.request = .setInheritedSetting r) (opens : service c = .begin iso p) :
    iso = .readCommitted := by
  unfold service at opens
  rw [request] at opens
  cases caller : admitted c.caller with
  | error e => rw [caller] at opens; cases opens
  | ok _ =>
    rw [caller] at opens
    cases valid : Setting.checkInheritedSetting r with
    | error e =>
      simp only [verb, Setting.storeSetting, valid] at opens
      cases opens
    | ok scope =>
      simp only [verb, Setting.storeSetting, valid] at opens
      cases opens
      rfl

/-- The ledger read of a replay changes nothing. -/
theorem replay_reads {S S' : Handlers.System} (reachable : Reachable S) (replays : Replays S i)
    (step : S.step service (.run i) = some S') : S'.store = S.store := by
  obtain ⟨c, ℓ, p, r, iso, there, request, opens, key, recorded⟩ := replays
  obtain ⟨w, recorded⟩ := Option.isSome_iff_exists.mp recorded
  obtain ⟨σ, now, inv, before⟩ := reachable
  obtain ⟨pending, current⟩ := before.opened rfl there opens
  rw [begin_level request opens] at current
  cases System.steps_of_step step with
  | @run _ c' ℓ' p' m advances =>
    cases Option.some.inj (there.symm.trans advances.here)
    obtain ⟨_, _, silent⟩ := idle_replay request opens recorded key pending current advances.moves
    simp [System.moved, silent]

/-- From its ledger read on a replay changes nothing. -/
theorem replay_changes_nothing {S S' U U' : Handlers.System} (reachable : Reachable S)
    (replays : Replays S i) (step : S.step service (.run i) = some S') (later : Later S' U)
    (next : U.step service a = some U') (acts : a = .run i ∨ a = .lose i) :
    U'.store = U.store := by
  obtain ⟨c, ℓ, p, r, iso, there, request, opens, key, recorded⟩ := replays
  obtain ⟨w, recorded⟩ := Option.isSome_iff_exists.mp recorded
  obtain ⟨σ, now, inv, before⟩ := reachable
  obtain ⟨pending, current⟩ := before.opened rfl there opens
  rw [begin_level request opens] at current
  cases System.steps_of_step step with
  | @run _ c' ℓ' p' m advances =>
    cases Option.some.inj (there.symm.trans advances.here)
    obtain ⟨idle, pending, _⟩ := idle_replay request opens recorded key pending current advances.moves
    have here := (List.getElem?_eq_some_iff.mp there).1
    have now : (S.moved i c m (.reached c m.loc m.next)).sessions[i]? =
        some (.reached c m.loc m.next) := by simp [System.moved, here]
    have ceased (answered : ∀ p, (Session.reached c m.loc m.next).phase ≠ .running p) :
        U'.store = U.store := by
      have still := later.ended now answered
      rcases acts with rfl | rfl
      · cases System.steps_of_step next with
        | run ended =>
          exact absurd (congrArg Session.phase (Option.some.inj (still.symm.trans ended.here)))
            (answered _)
      · cases System.steps_of_step next with
        | lose ended =>
          exact absurd (congrArg Session.phase (Option.some.inj (still.symm.trans ended.here)))
            (answered _)
    cases rest : m.next with
    | ret a => exact ceased (by rw [rest]; rintro _ ⟨⟩)
    | fail e => exact ceased (by rw [rest]; rintro _ ⟨⟩)
    | _ =>
      rw [rest] at now idle later
      exact later.idle now idle pending next acts

/-- A call no other overlaps with changes nothing, or has answered OK and done
what it says. -/
theorem alone_changes {S S₁ S' : Handlers.System} (reachable : Reachable S)
    (arrives : S.step service (.call c) = some S₁)
    (alone : System.Reaches service (fun _ a _ => Own S.sessions.length a) S₁ S') :
    S'.store = S.store ∨
      ∃ ℓ r, S'.sessions[S.sessions.length]? = some ⟨c, ℓ, .answered (.ok r)⟩ ∧
        Fresh c r S.store S'.store := by
  have first : S₁.sessions[S.sessions.length]? = some (.reached c .fresh (service c)) ∧
      S₁.store = S.store := by
    cases arrives
    simp
  have named : (Session.reached c .fresh (service c)).call = c := by cases service c <;> rfl
  have start := reachable.step arrives
  induction alone with
  | refl => exact Or.inl first.2
  | @step T a T' before step own ih =>
    obtain ⟨s, here, same⟩ := before.session first.1
    have reached : Reachable T := start.later (before.mono fun _ _ _ _ => trivial)
    rcases own with rfl | rfl | ⟨seconds, rfl⟩
    · rcases step_changes reached step with unchanged | ⟨c', ℓ, r, there, fresh⟩
      · rcases ih with nothing | ⟨ℓ, r, answered, _⟩
        · exact Or.inl (unchanged.trans nothing)
        · cases System.steps_of_step step with
          | run advances => cases Option.some.inj (answered.symm.trans advances.here)
      · rcases ih with nothing | ⟨ℓ, r, answered, _⟩
        · have next : Later T T' := .step .refl step trivial
          obtain ⟨s', there', same'⟩ := next.session here
          obtain rfl := Option.some.inj (there.symm.trans there')
          obtain rfl : c' = c := same'.trans (same.trans named)
          exact Or.inr ⟨ℓ, r, there, nothing ▸ fresh⟩
        · cases System.steps_of_step step with
          | run advances => cases Option.some.inj (answered.symm.trans advances.here)
    · cases System.steps_of_step step with
      | drop running =>
        rcases ih with nothing | ⟨ℓ, r, answered, _⟩
        · exact Or.inl nothing
        · cases Option.some.inj (answered.symm.trans running)
    · cases step
      exact ih

/-- A refusal writes nothing. A step of a call, or its end at any point, leaves
the store as it is unless the call answers OK in that step with the work it
reports done: a redemption freshly, a recording of the key identity as the
first, no replay of a setting at all. So a call no other overlaps with leaves
the store as it found it unless it has so answered. -/
theorem refusals_write_nothing {S : Handlers.System} (reachable : Reachable S) :
    (∀ i a S', S.step service a = some S' → a = .run i ∨ a = .drop i →
      S'.store = S.store ∨ ∃ c ℓ r, S'.sessions[i]? = some ⟨c, ℓ, .answered (.ok r)⟩ ∧
        Fresh c r S.store S'.store) ∧
    (∀ i S', Replays S i → S.step service (.run i) = some S' → S'.store = S.store ∧
      ∀ T a T', Later S' T → T.step service a = some T' → a = .run i ∨ a = .lose i →
        T'.store = T.store) ∧
    ∀ c S₁ S', S.step service (.call c) = some S₁ →
      System.Reaches service (fun _ a _ => Own S.sessions.length a) S₁ S' →
      S'.store = S.store ∨ ∃ ℓ r, S'.sessions[S.sessions.length]? =
        some ⟨c, ℓ, .answered (.ok r)⟩ ∧ Fresh c r S.store S'.store := by
  refine ⟨?_, ?_, fun c S₁ S' arrives alone => alone_changes reachable arrives alone⟩
  · rintro i a S' step (rfl | rfl)
    · exact step_changes reachable step
    · cases System.steps_of_step step with
      | drop _ => exact Or.inl rfl
  · intro i S' replays step
    exact ⟨replay_reads reachable replays step, fun T a T' later next acts =>
      replay_changes_nothing reachable replays step later next acts⟩

end

/-! ### A run -/

def settingRequest : SetInheritedSettingRequest :=
  ⟨some "key", 1, none, ownerReadsOwnRecord, some 1, some true, false⟩

/-- A setting is written under a key and delivered once more, up to the second
delivery's ledger read. -/
def redelivering : List (Action Call) :=
  calling firstUuid (.setInheritedSetting settingRequest) 0 7 ++
  calling firstUuid (.setInheritedSetting settingRequest) 1 1

open Bytewise in
theorem refusals_write_nothing_redelivered :
    (after (redelivering ++ [.run 1])).store = (after redelivering).store :=
  ((refusals_write_nothing (reachable_after redelivering)).2.1 1 _
    ⟨_, _, _, settingRequest, _, rfl, rfl, rfl, by decide, by decide +kernel⟩
    (step_after (by decide +kernel))).1

end IamDb.Refusals
