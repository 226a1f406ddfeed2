import IamDb.Keys
import IamDb.Txn.Waiting

/-! Losing a ledger race. An insert refused as a duplicate leaves its
transaction a shared lock on the row that is there. A settings call then reads
the row for update, so two losers of one key wait for each other; as long as no
insert is refused while another loser still holds its lock, each answers. A
recording call reads the marker under the shared lock it has, and always
answers. -/
namespace IamDb.Losers
open Txn Schema Messages Service Setting Effects Evolution Interference Handlers Runs

section
variable [Engine]

/-- Whether a session under way holds a shared lock on a row. -/
def shares (S : Handlers.System) (i : Nat) (row : Res) : Option Bool :=
  match S.sessions[i]? with
  | some ⟨_, ℓ, .running _⟩ => some (ℓ.held.any fun g => g.lock = ⟨row, .shared⟩)
  | _ => none

theorem shares_eq_some {S : Handlers.System} {i : Nat} (shares : shares S i row = some b) :
    ∃ c ℓ p, S.sessions[i]? = some ⟨c, ℓ, .running p⟩ ∧
      (b = true ↔ Holds ℓ.held row .shared) := by
  unfold Losers.shares at shares
  split at shares
  · rename_i c ℓ p here
    refine ⟨c, ℓ, p, here, ?_⟩
    rw [← Option.some.inj shares, List.any_eq_true]
    constructor
    · rintro ⟨⟨lock, since⟩, member, same⟩
      obtain rfl : lock = _ := of_decide_eq_true same
      exact ⟨since, member⟩
    · rintro ⟨since, member⟩
      exact ⟨_, member, decide_eq_true rfl⟩
  · cases shares

/-- A step of a session that leaves it a shared lock on a row: its insert of the
row was refused, or it has read the row that kept it from inserting. -/
structure Loses (S S' : Handlers.System) (i : Nat) (c : Call) (row : Res) : Prop where
  call : S.sessions[i]?.map (·.call) = some c
  step : S.step service (.run i) = some S'
  before : shares S i row = some false
  after : shares S' i row = some true

/-- The step of a loser claims the shared lock. -/
theorem Loses.claims {S S' : Handlers.System} {i : Nat} (loses : Loses S S' i c row) :
    ∃ ℓ p m, S.Advances i c ℓ p m ∧ S'.sessions[i]? = some ⟨c, m.loc, .running m.next⟩ ∧
      m.next.upcoming ≠ .done ∧ Holds m.loc.held row .shared ∧
      ∃ k ∈ m.claims, k.lock = ⟨row, .shared⟩ := by
  obtain ⟨c', ℓ, p, here, free⟩ := shares_eq_some loses.before
  obtain ⟨c'', ℓ', p', there, held⟩ := shares_eq_some loses.after
  obtain rfl : c' = c := by
    have call := loses.call
    rw [here] at call
    exact Option.some.inj call
  obtain ⟨t, held⟩ := held.mp rfl
  cases System.turn_of_step loses.step there with
  | kept _ notRun => exact absurd rfl notRun
  | arrived absent => rw [here] at absent; cases absent
  | ran advances _ _ new =>
    obtain ⟨rfl, rfl, rfl, running⟩ := Session.reached_running new.symm
    cases Option.some.inj (here.symm.trans advances.here)
    refine ⟨ℓ, p, _, advances, there, running, ⟨t, held⟩, ?_⟩
    rcases (System.move_grants advances.moves).1 _ (Or.inl held) with old | ⟨_, claim⟩
    · exact absurd (free.mpr ⟨t, old⟩) nofun
    · exact claim
  | ended _ gone => cases gone

/-! ### The settings ledger -/

/-- A row of the settings ledger. -/
def Ledger (row : Res) : Prop := ∃ key, row = .settingWrite key

/-- The ledger row of a request. -/
def ledgerRow (r : SetInheritedSettingRequest) : Res :=
  .settingWrite (weight (r.idempotency.getD ""))

/-- A settings call from its ledger row on. -/
def inserting (r : SetInheritedSettingRequest) : Rpc Response := do
  recordClaim (Claim.of r)
  let setting ← answer r.name
  pure (.setInheritedSetting setting)

/-- A settings call whose insert was refused. -/
def relooking (r : SetInheritedSettingRequest) : Rpc Response := do
  let prior ← recorded (r.idempotency.getD "") .yes
  let _ ← (match prior with
    | none => refuse ⟨.unavailable, "storage unavailable"⟩
    | some prior => .lift ((Claim.of r).agreesWith prior) : Rpc Unit)
  let setting ← answer r.name
  pure (.setInheritedSetting setting)

/-- A statement that locks a row exclusively if it locks it. -/
def Excludes (row : Res) (ρ : Type) (s : Sql ρ) : Prop :=
  ∀ now iso σ, ∀ k ∈ s.claims now iso σ, k.lock.res = row → k.lock.mode = .exclusive

theorem aside_reads {s : Sql ρ} (reads : ∀ now iso σ, s.claims now iso σ = []) :
    Aside row ρ s := by
  intro now iso σ k claim
  rw [reads] at claim
  cases claim

theorem aside_excludes {s : Sql ρ} (aside : Aside row ρ s) : Excludes row ρ s :=
  fun now iso σ k claim same => absurd same (aside now iso σ k claim)

theorem each_answer {Q : ∀ ρ : Type, Sql ρ → Prop} (settingName : String)
    (org : Q _ (Credential.selectOrgSetting settingName))
    (overrides : Q _ (Credential.selectOverrides settingName)) :
    (answer settingName >>= fun setting => pure (.setInheritedSetting setting) :
      Rpc Response).Each Q :=
  ⟨org, fun _ => ⟨overrides, fun _ => trivial⟩⟩

theorem aside_teamRow {iso : Isolation} {σ : Store}
    (claim : k ∈ teamRow mode teamId matched iso σ) : k.lock.res ≠ .settingWrite key := by
  unfold teamRow at claim
  split at claim <;> (obtain rfl := List.mem_singleton.mp claim; intro same; cases same)

theorem aside_single {s : Sql ρ} {r : Res} (claims : ∀ now iso σ, ∀ k ∈ s.claims now iso σ,
    k.lock.res = r) (other : r ≠ row) : Aside row ρ s :=
  fun now iso σ k claim same => other ((claims now iso σ k claim).symm.trans same)

theorem aside_writeAtScope : (writeAtScope r scope).Each (Aside (.settingWrite key)) := by
  unfold writeAtScope
  split
  · refine Prog.each_query.mpr ⟨aside_single (r := .orgSetting (weight r.name)) ?_ (by simp),
      fun _ => Keys.each_orElse⟩
    intro now iso σ k claim
    obtain rfl := List.mem_singleton.mp claim
    rfl
  · refine Prog.each_query.mpr ⟨aside_single
      (r := .override (weight r.name, weight (r.teamId.getD ""))) ?_ (by simp),
      fun _ => Keys.each_orElse⟩
    intro now iso σ k claim
    obtain rfl := List.mem_singleton.mp claim
    rfl
  · refine Prog.each_query.mpr ⟨?_, fun _ => Prog.Each.bind Keys.each_orElse fun done => ?_⟩
    · intro now iso σ k claim
      rcases List.mem_append.mp claim with claim | claim
      · exact aside_teamRow claim
      · split at claim
        · obtain rfl := List.mem_singleton.mp claim
          intro same
          cases same
        · cases claim
    · split
      · refine Prog.Each.bind (Prog.each_query.mpr ⟨aside_reads fun _ _ _ => rfl, ?_⟩)
          fun _ => trivial
        intro live
        cases live <;> trivial
      · trivial

/-- Before its ledger row a settings call takes no lock on it. -/
theorem until_inserting (request : c.request = .setInheritedSetting r) :
    (service c).Until (Aside (ledgerRow r)) fun p => p = inserting r := by
  refine .after Prog.each_lift fun _ => ?_
  rw [request]
  show (storeSetting r >>= fun setting => pure (.setInheritedSetting setting) :
    Rpc Response).Until _ _
  unfold storeSetting
  simp only [bind_assoc]
  refine .after Prog.each_lift fun scope => .after trivial fun _ => .after ?_ ?_
  · unfold Claim.alreadyRecorded recorded
    split
    · trivial
    · refine Prog.Each.bind (Prog.each_query.mpr ⟨?_, fun _ => trivial⟩) fun prior => ?_
      · exact aside_reads fun _ _ _ => by simp [selectSettingWrite]
      · cases prior with
        | none => trivial
        | some prior => exact Prog.Each.bind Prog.each_lift fun _ => trivial
  · intro replayed
    split
    · exact (each_answer r.name (aside_reads fun _ _ _ => rfl) (aside_reads fun _ _ _ => rfl)).until
    · simp only [bind_assoc]
      exact .after aside_writeAtScope fun _ => Prog.until_here rfl

theorem relook_claims (now : Int) (iso : Isolation) (σ : Store)
    (claim : k ∈ (selectSettingWrite key .yes).claims now iso σ) :
    k.lock = ⟨.settingWrite (weight key), .exclusive⟩ := by
  simp only [selectSettingWrite, reduceCtorEq, if_false, List.mem_singleton] at claim
  rw [claim]

/-- From its ledger row on it takes no shared lock on it but the one of a
refused insert. -/
theorem excludes_relooking : (relooking r).Each (Excludes (ledgerRow r)) := by
  refine Prog.Each.bind (Prog.each_query.mpr ⟨?_, fun _ => trivial⟩) fun prior =>
    Prog.Each.bind ?_ fun _ => each_answer r.name ?_ ?_
  · intro now iso σ k claim _
    rw [relook_claims now iso σ claim]
  · cases prior with
    | none => trivial
    | some prior => exact Prog.each_lift
  · exact aside_excludes (aside_reads fun _ _ _ => rfl)
  · exact aside_excludes (aside_reads fun _ _ _ => rfl)

theorem inserting_keyed (keyed : r.idempotency.getD "" ≠ "") :
    ∃ k, inserting r = .stmt (insertSettingWrite (Claim.of r)) k ∧
      k (.error (.duplicate true)) = relooking r ∧
      ∀ done, (k done).Each (Excludes (ledgerRow r)) := by
  have named : (Claim.of r).key ≠ "" := keyed
  refine ⟨_, by rw [inserting, recordClaim, if_neg named]; rfl, rfl, fun done => ?_⟩
  cases done with
  | ok _ =>
    exact each_answer r.name (aside_excludes (aside_reads fun _ _ _ => rfl))
      (aside_excludes (aside_reads fun _ _ _ => rfl))
  | error e =>
    cases e with
    | duplicate primary => exact excludes_relooking
    | other => trivial

/-- An insert that takes a shared lock finds its key taken. -/
theorem insert_refused {claim : Setting.Claim} (now : Int) (iso : Isolation) (σ : Store)
    (claims : k ∈ (insertSettingWrite claim).claims now iso σ) (shared : k.lock.mode = .shared) :
    (∃ w, σ.settingWrites.find? (weight claim.key) = some w) ∧
      (insertSettingWrite claim).exec now σ = (.error (.duplicate true), []) := by
  simp only [insertSettingWrite] at claims ⊢
  split at claims
  · rename_i fits
    rw [List.mem_singleton] at claims
    cases found : σ.settingWrites.find? (weight claim.key) with
    | none =>
      rw [claims] at shared
      simp [found, insertRow, exclude] at shared
    | some w => exact ⟨⟨w, rfl⟩, by simp [fits]⟩
  · cases claims

theorem excludes_unkeyed (unkeyed : r.idempotency.getD "" = "") :
    (inserting r).Each (Excludes (ledgerRow r)) := by
  have named : (Claim.of r).key = "" := unkeyed
  rw [inserting, recordClaim, if_pos named]
  exact each_answer r.name (aside_excludes (aside_reads fun _ _ _ => rfl))
    (aside_excludes (aside_reads fun _ _ _ => rfl))

section
variable {S S' : Handlers.System}

/-- A settings call has not come to its ledger row yet, or takes no shared lock
on it any more. -/
theorem settings_stand {cond : Handlers.System → Action Call → Handlers.System → Prop}
    (reached : System.Reaches service cond (.start σ now) S) {i : Nat}
    (there : S.sessions[i]? = some ⟨c, ℓ, .running p⟩)
    (request : c.request = .setInheritedSetting r) :
    p.Until (Aside (ledgerRow r)) (· = inserting r) ∧ ℓ.Clear (ledgerRow r) ∨
      p.Each (Excludes (ledgerRow r)) := by
  refine reached.stands (W := fun c => c.request = .setInheritedSetting r)
    (r := fun _ => ledgerRow r) (Q := fun _ p => p = inserting r)
    (P := fun _ _ p => p.Each (Excludes (ledgerRow r))) rfl (fun _ => until_inserting) ?_
    (fun _ _ _ _ _ _ _ past moves => past.move moves) there request
  rintro c ℓ p now σ m _ rfl _ moves
  by_cases keyed : r.idempotency.getD "" = ""
  · exact (excludes_unkeyed keyed).move moves
  · obtain ⟨k, whole, _, past⟩ := inserting_keyed keyed
    rw [whole] at moves
    cases moves
    exact past _

/-- A settings call loses by its insert: the row is there, and it goes on to
read it for update. -/
theorem settings_lose {cond : Handlers.System → Action Call → Handlers.System → Prop}
    (reached : System.Reaches service cond (.start σ now) S)
    (request : c.request = .setInheritedSetting r) {i : Nat}
    (loses : Loses S S' i c (ledgerRow r)) : ∃ w ℓ,
      S.store.settingWrites.find? (weight (r.idempotency.getD "")) = some w ∧
      S'.sessions[i]? = some ⟨c, ℓ, .running (relooking r)⟩ ∧
      (∀ w ∈ ℓ.pending, w.res ≠ ledgerRow r) ∧ Holds ℓ.held (ledgerRow r) .shared := by
  obtain ⟨ℓ, p, m, advances, there, _, held, k, claim, shared⟩ := loses.claims
  have never (past : p.Each (Excludes (ledgerRow r))) : False := by
    obtain ⟨ρ, s, iso, σ', excludes, claim⟩ := past.claims advances.moves claim
    have exclusive := excludes _ iso σ' k claim (by rw [shared])
    rw [shared] at exclusive
    cases exclusive
  rcases settings_stand reached advances.here request with ⟨way, clear⟩ | past
  case inr => exact (never past).elim
  rcases way.move clear advances.moves with rfl | ⟨_, _, aside⟩
  case inr => exact absurd (by rw [shared]) (aside k claim)
  by_cases keyed : r.idempotency.getD "" = ""
  · exact (never (excludes_unkeyed keyed)).elim
  obtain ⟨next, whole, refused, _⟩ := inserting_keyed keyed
  have moves := advances.moves
  rw [whole] at moves
  cases moves
  have seen : (ℓ.view (insertSettingWrite (Claim.of r)) S.store).settingWrites.find?
      (weight (r.idempotency.getD "")) =
        S.store.settingWrites.find? (weight (r.idempotency.getD "")) := by
    rw [Local.view_current rfl]
    exact clear.frame (f := fun σ : Store => σ.settingWrites.find? (weight (r.idempotency.getD "")))
      (fun w other σ => settingWrites_outside other σ) S.store
  obtain ⟨⟨w, found⟩, exec⟩ := insert_refused S.clock ℓ.iso _ claim (by rw [shared])
  rw [exec, refused] at there
  refine ⟨w, _, seen.symm.trans found, there, ?_, held⟩
  rw [Local.after_pending, exec, List.append_nil]
  exact clear.pending

omit [Engine] in
/-- A request that differs from what its key recorded is refused. -/
theorem differs {r : SetInheritedSettingRequest} {w : SettingWrite} (key : String)
    (other : ¬SameRequest r w) :
    ∃ e, (Claim.of r).agreesWith ⟨key, w.scope, w.teamId, w.name, w.value, w.locked,
      w.clearRequested⟩ = .error e ∧ e.code = .invalidArgument := by
  cases agrees : (Claim.of r).agreesWith ⟨key, w.scope, w.teamId, w.name, w.value, w.locked,
      w.clearRequested⟩ with
  | ok _ => exact absurd (SettingProofs.agreesWith_ok agrees) other
  | error e =>
    refine ⟨e, rfl, ?_⟩
    unfold Claim.agreesWith at agrees
    split at agrees
    · cases agrees
    · cases agrees
      rfl

/-- A settings call whose insert was refused reads the row for update, and ends
there if it is of another request. -/
theorem relooking_reads : ∃ k, relooking r =
    .stmt (selectSettingWrite (r.idempotency.getD "") .yes) k ∧
      ∀ w e, (Claim.of r).agreesWith ⟨r.idempotency.getD "", w.scope, w.teamId, w.name, w.value,
        w.locked, w.clearRequested⟩ = .error e → k (some w) = .fail e := by
  refine ⟨_, rfl, fun w e refused => ?_⟩
  show (Prog.lift ((Claim.of r).agreesWith _) >>= fun _ => _ : Rpc Response) = _
  rw [refused]
  rfl

/-- A settings call that lost to another request is not held up, and is refused
for its argument. -/
theorem settings_refused (inv : Integrity σ)
    (reached : System.Reaches service (System.Lone Ledger) (.start σ now) S')
    {i : Nat} (there : S'.sessions[i]? = some ⟨c, ℓ, .running (relooking r)⟩)
    (pending : ∀ w ∈ ℓ.pending, w.res ≠ ledgerRow r) (held : Holds ℓ.held (ledgerRow r) .shared)
    (found : S'.store.settingWrites.find? (weight (r.idempotency.getD "")) = some w)
    (other : ¬SameRequest r w) (later : System.Reaches service (System.Lone Ledger) S' T) :
    System.Proceeds service T i c fun result =>
      ∃ e, result = .error e ∧ e.code = .invalidArgument := by
  refine later.proceeds (P := fun ℓ p => p = relooking r ∧
    (∀ w ∈ ℓ.pending, w.res ≠ ledgerRow r) ∧ Holds ℓ.held (ledgerRow r) .shared) there
    ⟨rfl, pending, held⟩ ?_
  rintro U ℓ p before here ⟨rfl, pending, t, mine⟩
  have evolves : Evolves S'.store U.store :=
    Later.evolves (before.mono fun _ _ _ _ => trivial)
      ⟨σ, now, inv, reached.mono fun _ _ _ _ => trivial⟩
  obtain ⟨w', found', same⟩ := evolves.settingWrites _ _ found
  cases same
  have seen : (applyAll ℓ.pending U.store).settingWrites.find?
      (weight (r.idempotency.getD "")) = some w := by
    rw [applyAll_frame
      (f := fun σ : Store => σ.settingWrites.find? (weight (r.idempotency.getD "")))
      (fun w member σ => settingWrites_outside (pending w member) σ)]
    exact found'
  have read : ((selectSettingWrite (r.idempotency.getD "") .yes).exec U.clock
      (ℓ.view (selectSettingWrite (r.idempotency.getD "") .yes) U.store)).1 = some w := by
    rw [Local.view_current rfl]
    exact seen
  obtain ⟨e, refused, code⟩ := differs (r.idempotency.getD "") other
  obtain ⟨next, whole, ends⟩ := relooking_reads (r := r)
  have moves : (relooking r).move U.clock U.store ℓ = some
      ⟨(selectSettingWrite (r.idempotency.getD "") .yes).claims U.clock ℓ.iso
        (ℓ.view (selectSettingWrite (r.idempotency.getD "") .yes) U.store), [], [],
      .fail e, ℓ.after (selectSettingWrite (r.idempotency.getD "") .yes) U.store U.clock,
      false⟩ := by
    rw [whole, Prog.move, read, ends w e refused]
  refine ⟨_, ⟨here, moves, ?_⟩, fun running => absurd rfl running, ?_⟩
  · intro j s there other g theirs k claim
    have alone := System.Reaches.lone rfl (reached.trans before) here there (Ne.symm other) mine
      theirs ⟨_, rfl⟩
    rw [relook_claims U.clock ℓ.iso _ claim]
    exact Lock.conflicts_of_ne (Ne.symm alone)
  · intro result answer
    cases answer
    exact ⟨e, rfl, code⟩

end

/-! ### The marker -/

section
open KeyIdentity KeyIdentityProofs Marker

/-- The end of a recording call that has its outcome. -/
def concluding (c : Call) (refusal : Status) : Option KeyIdentityOutcome → Rpc Response
  | none => refuse refusal
  | some outcome => do
    commit
    pure (wrap c outcome)

/-- A recording call from its insert on. -/
def marking (c : Call) (p : Presented) (holds : Store → Bool) (refusal : Status) :
    Rpc Response := do
  let attempt ← tx (insertMarker p holds)
  let outcome ← outcomeOf attempt p
  concluding c refusal outcome

/-- A recording call that compares with the marker that is there. -/
def comparing (c : Call) (p : Presented) (refusal : Status) : Rpc Response := do
  let outcome ← againstTheStoredMarker p
  concluding c refusal outcome

theorem record_marks (wraps : wrap c = w) : (KeyIdentity.record p holds refusal >>= fun outcome =>
    pure (w outcome) : Rpc Response) = (begin defaultIsolation >>= fun _ =>
      marking c p holds refusal) := by
  subst wraps
  unfold KeyIdentity.record marking
  simp only [bind_assoc]
  congr
  funext _
  congr
  funext attempt
  congr
  funext outcome
  cases outcome <;> rfl

/-- Before its insert a recording call takes no lock on the marker. -/
theorem until_marking (presented : presents c = some p) :
    (service c).Until (Aside .keyIdentity) fun q =>
      ∃ holds refusal, q = marking c p holds refusal := by
  refine .after Prog.each_lift fun _ => ?_
  cases request : c.request with
  | setKeyIdentity r =>
    obtain rfl : setPresented r = p := by simpa [presents, request] using presented
    have wraps : wrap c = .setKeyIdentity := by simp [wrap, request]
    show (recordKeyIdentity r >>= fun outcome => pure (.setKeyIdentity outcome) :
      Rpc Response).Until _ _
    unfold recordKeyIdentity
    rw [bind_assoc]
    refine .after Prog.each_lift fun _ => ?_
    rw [record_marks wraps]
    exact .after trivial fun _ => Prog.until_here ⟨_, _, rfl⟩
  | adoptKeyIdentity r =>
    obtain rfl : adoptPresented r = p := by simpa [presents, request] using presented
    have wraps : wrap c = .adoptKeyIdentity := by simp [wrap, request]
    show (recordAdoption r >>= fun outcome => pure (.adoptKeyIdentity outcome) :
      Rpc Response).Until _ _
    unfold recordAdoption
    simp only [bind_assoc]
    refine .after Prog.each_lift fun _ => .after Prog.each_lift fun _ => ?_
    rw [record_marks wraps]
    exact .after trivial fun _ => Prog.until_here ⟨_, _, rfl⟩
  | _ => simp [presents, request] at presented

/-- A recording call about to compare with the marker, of which it has written
nothing and may hold a shared lock. -/
structure Compares (c : Call) (p : Presented) (ℓ : Local Store Write Res) (q : Rpc Response) :
    Prop where
  next : ∃ refusal, q = comparing c p refusal
  held : ∀ g ∈ ℓ.held, g.lock.res = .keyIdentity → g.lock.mode = .shared
  pending : ∀ w ∈ ℓ.pending, w.res ≠ .keyIdentity

theorem insertMarker_claims (p : Presented) (holds : Store → Bool) (now : Int) (iso : Isolation)
    (σ : Store) : ∀ k ∈ (insertMarker p holds).claims now iso σ, k.lock.res = .keyIdentity →
      (holds σ = true ∧ fits KeyIdentity.maxIdempotencyKey p.key = true) ∧
        k = insertRow .keyIdentity (σ.keyIdentity.find? ()).isSome := by
  intro k claim row
  simp only [insertMarker, List.cons_append, List.mem_cons, List.mem_append, List.mem_map] at claim
  rcases claim with rfl | ⟨u, _, rfl⟩ | claim
  · cases row
  · cases row
  · split at claim
    · rename_i met
      exact ⟨Bool.and_eq_true_iff.mp met, List.mem_singleton.mp claim⟩
    · cases claim

/-- The insert writes the marker under an exclusive lock, fails, or leaves at
most a shared one and a comparison to make. -/
theorem insertMarker_cases (p : Presented) (holds : Store → Bool) (now : Int) (iso : Isolation)
    (σ : Store) :
    (outcomeOf ((insertMarker p holds).exec now σ).1 p = againstTheStoredMarker p ∧
      ((insertMarker p holds).exec now σ).2 = [] ∧
      ∀ k ∈ (insertMarker p holds).claims now iso σ, k.lock.res = .keyIdentity →
        k.lock.mode = .shared ∧ ∃ row, σ.keyIdentity.find? () = some row) ∨
    (((insertMarker p holds).exec now σ).1 = .ok 1 ∨
        ((insertMarker p holds).exec now σ).1 = .error .other) ∧
      ∀ k ∈ (insertMarker p holds).claims now iso σ, k.lock.res = .keyIdentity →
        k.lock.mode = .exclusive := by
  have claims := insertMarker_claims p holds now iso σ
  have inserts := insertMarker_exec p holds now iso σ
  generalize (insertMarker p holds).exec now σ = outcome at inserts ⊢
  cases inserts with
  | unmet fails =>
    refine Or.inl ⟨rfl, rfl, fun k claim row => ?_⟩
    rw [(claims k claim row).1.1] at fails
    cases fails
  | unfit _ long =>
    refine Or.inr ⟨Or.inr rfl, fun k claim row => ?_⟩
    rw [(claims k claim row).1.2] at long
    cases long
  | @taken row _ stored =>
    refine Or.inl ⟨rfl, rfl, fun k claim same => ⟨?_, row, stored⟩⟩
    rw [(claims k claim same).2, stored]
    rfl
  | done _ _ absent =>
    refine Or.inr ⟨Or.inl rfl, fun k claim same => ?_⟩
    rw [(claims k claim same).2, absent]
    rfl

/-- What a comparison comes to. -/
def compared (c : Call) : Except Status KeyIdentityOutcome → Rpc Response
  | .error e => .fail e
  | .ok outcome => .commit (.ret (wrap c outcome))

theorem comparing_reads (c : Call) (p : Presented) (refusal : Status) :
    ∃ k, comparing c p refusal = .stmt (selectMarker .yes) k ∧ k none = .fail refusal ∧
      ∀ row, k (some row) = compared c (replayedOrCompared row p) := by
  refine ⟨_, rfl, rfl, fun row => ?_⟩
  show ((Prog.lift (replayedOrCompared row p) >>= fun outcome => pure (some outcome)) >>=
    concluding c refusal : Rpc Response) = _
  cases replayedOrCompared row p <;> rfl

/-- A recording call has not come to its insert yet, compares with the marker,
or takes no lock on it any more. -/
theorem recording_stand {S : Handlers.System}
    {cond : Handlers.System → Action Call → Handlers.System → Prop}
    (reached : System.Reaches service cond (.start σ now) S) {i : Nat}
    (there : S.sessions[i]? = some ⟨c, ℓ, .running q⟩) (presented : presents c = some p) :
    q.Until (Aside .keyIdentity) (fun q => ∃ holds refusal, q = marking c p holds refusal) ∧
        ℓ.Clear .keyIdentity ∨
      Compares c p ℓ q ∨ q.Each (Aside .keyIdentity) := by
  refine reached.stands (W := fun c => presents c = some p) (r := fun _ => .keyIdentity)
    (Q := fun c q => ∃ holds refusal, q = marking c p holds refusal)
    (P := fun c ℓ q => Compares c p ℓ q ∨ q.Each (Aside .keyIdentity)) rfl
    (fun _ => until_marking) ?_ ?_ there presented
  · rintro c ℓ q now σ m _ ⟨holds, refusal, rfl⟩ clear moves
    cases moves
    rcases insertMarker_cases p holds now ℓ.iso (ℓ.view (insertMarker p holds) σ) with
      ⟨compares, silent, claims⟩ | ⟨wrote, _⟩
    · refine Or.inl ⟨⟨refusal, congrArg (fun q => q >>= concluding c refusal) compares⟩, ?_, ?_⟩
      · intro g held row
        rcases List.mem_append.mp held with old | new
        · exact absurd row (clear.held g old)
        · obtain ⟨k, member, same, _⟩ := mem_granted.mp new
          rw [← same] at row ⊢
          exact (claims k (List.mem_filter.mp member).1 row).1
      · intro w pending
        rw [Local.after_pending, silent, List.append_nil] at pending
        exact clear.pending w pending
    · refine Or.inr ?_
      dsimp only
      rcases wrote with wrote | failed
      · rw [wrote]
        trivial
      · rw [failed]
        trivial
  · rintro c ℓ q now σ m _ (⟨⟨refusal, rfl⟩, _⟩ | past) moves
    · obtain ⟨k, whole, absent, stored⟩ := comparing_reads c p refusal
      rw [whole] at moves
      cases moves
      refine Or.inr ?_
      dsimp only
      cases ((selectMarker .yes).exec now (ℓ.view (selectMarker .yes) σ)).1 with
      | none =>
        rw [absent]
        trivial
      | some row =>
        rw [stored]
        cases replayedOrCompared row p <;> trivial
    · exact Or.inr (past.move moves)

theorem marker_claims (now : Int) (iso : Isolation) (σ : Store) :
    ∀ k ∈ (selectMarker .yes).claims now iso σ, k.lock = ⟨.keyIdentity, .shared⟩ := by
  intro k claim
  simp only [selectMarker, reduceCtorEq, if_false, List.mem_singleton] at claim
  rw [claim]

/-- A recording call and another session never wait for each other on the
marker. -/
theorem marker_waits {S : Handlers.System} (inv : Integrity σ) (later : Later (.start σ now) S)
    {i j : Nat} (there : S.sessions[i]? = some s) (presented : presents s.call = some p) :
    ¬(S.waits i j .keyIdentity = true ∧ S.waits j i .keyIdentity = true) := by
  rintro ⟨first, second⟩
  obtain ⟨c, ℓ, q, s₁, k, g, waits⟩ := System.waits_cases first
  obtain ⟨_, _, _, s₂, _, g', waits'⟩ := System.waits_cases second
  cases Option.some.inj (there.symm.trans waits.here)
  cases Option.some.inj (waits.here.symm.trans waits'.there)
  obtain ⟨m, moves, claim⟩ := waits.claim
  rcases recording_stand later waits.here presented with ⟨_, clear⟩ | compares | past
  · exact clear.held g' waits'.held waits'.same_row
  · obtain ⟨refusal, rfl⟩ := compares.next
    cases moves
    have shared := compares.held g' waits'.held waits'.same_row
    have same : g'.lock = ⟨.keyIdentity, .shared⟩ := by
      cases held : g'.lock with
      | mk res mode =>
        have row := waits'.same_row
        rw [held] at row shared
        cases row
        cases shared
        rfl
    have apart := ((Reachable.sound ⟨σ, now, inv, later⟩).ordered.apart i j _ s₁ waits.here
      waits.there waits.other).1 g' waits'.held g waits.held
    rw [same, ← marker_claims S.clock ℓ.iso _ k claim, waits.conflict] at apart
    cases apart
  · obtain ⟨_, _, iso, σ', aside, claim⟩ := past.claims moves claim
    exact aside _ iso σ' k claim waits.row

/-- A recording call that lost to a marker: it is about to compare with it under
its shared lock, or has done so. -/
inductive Lost (c : Call) (p : Presented) (row : Schema.KeyIdentity) (ℓ : Local Store Write Res) :
    Rpc Response → Prop where
  | comparing (pending : ∀ w ∈ ℓ.pending, w.res ≠ .keyIdentity)
      (held : Holds ℓ.held .keyIdentity .shared) : Lost c p row ℓ (comparing c p refusal)
  | told (same : replayedOrCompared row p = .ok outcome) : Lost c p row ℓ (compared c (.ok outcome))

/-- A recording call loses to the marker that is stored. -/
theorem recording_loses {S S' : Handlers.System}
    {cond : Handlers.System → Action Call → Handlers.System → Prop}
    (reached : System.Reaches service cond (.start σ now) S) (presented : presents c = some p)
    {i : Nat} (loses : Loses S S' i c .keyIdentity) : ∃ row ∈ S.store.keyIdentity, ∃ ℓ q,
      S'.sessions[i]? = some ⟨c, ℓ, .running q⟩ ∧ Lost c p row ℓ q := by
  obtain ⟨ℓ, q, m, advances, there, running, held, k, claim, shared⟩ := loses.claims
  have moves := advances.moves
  have seen {ℓ : Local Store Write Res} (pending : ∀ w ∈ ℓ.pending, w.res ≠ .keyIdentity) :
      (applyAll ℓ.pending S.store).keyIdentity.find? () = S.store.keyIdentity.find? () :=
    applyAll_frame (f := fun σ : Store => σ.keyIdentity.find? ())
      (fun w member σ => keyIdentity_outside (pending w member) σ) S.store
  rcases recording_stand reached advances.here presented with ⟨way, clear⟩ | compares | past
  · rcases way.move clear moves with ⟨holds, refusal, rfl⟩ | ⟨_, _, aside⟩
    · cases moves
      rcases insertMarker_cases p holds S.clock ℓ.iso
        (ℓ.view (insertMarker p holds) S.store) with ⟨compares, silent, claims⟩ | ⟨_, claims⟩
      · obtain ⟨_, row, stored⟩ := claims k claim (by rw [shared])
        rw [Local.view_current rfl, seen clear.pending] at stored
        change S'.sessions[i]? =
          some ⟨c, _, .running (outcomeOf _ p >>= concluding c refusal)⟩ at there
        rw [compares] at there
        refine ⟨row, find?_marker.mp stored, _, _, there, .comparing ?_ held⟩
        rw [Local.after_pending, silent, List.append_nil]
        exact clear.pending
      · have exclusive := claims k claim (by rw [shared])
        rw [shared] at exclusive
        cases exclusive
    · exact absurd (by rw [shared]) (aside k claim)
  · obtain ⟨refusal, rfl⟩ := compares.next
    obtain ⟨next, whole, absent, reads⟩ := comparing_reads c p refusal
    rw [whole] at moves
    cases moves
    have read : ((selectMarker .yes).exec S.clock (ℓ.view (selectMarker .yes) S.store)).1 =
        S.store.keyIdentity.find? () := by
      rw [Local.view_current rfl]
      exact seen compares.pending
    dsimp only at running there
    rw [read] at running there
    cases stored : S.store.keyIdentity.find? () with
    | none =>
      rw [stored, absent] at running
      exact absurd rfl running
    | some row =>
      rw [stored, reads] at running there
      cases told : replayedOrCompared row p with
      | error e =>
        rw [told] at running
        exact absurd rfl running
      | ok outcome =>
        rw [told] at there
        exact ⟨row, find?_marker.mp stored, _, _, there, .told told⟩
  · obtain ⟨_, _, iso, σ', aside, claim⟩ := past.claims moves claim
    exact absurd (by rw [shared]) (aside _ iso σ' k claim)

/-- A recording call that lost is not held up, and is answered its comparison. -/
theorem recording_answered {S' : Handlers.System} (inv : Integrity σ)
    (reached : Later (.start σ now) S') {i : Nat}
    (there : S'.sessions[i]? = some ⟨c, ℓ, .running q⟩) (lost : Lost c p row ℓ q)
    (stored : row ∈ S'.store.keyIdentity) (later : Later S' T) :
    System.Proceeds service T i c fun result =>
      result = (replayedOrCompared row p).map (wrap c) := by
  refine later.proceeds (P := Lost c p row) there lost ?_
  intro U ℓ q before here lost
  have reachable : Reachable S' := ⟨σ, now, inv, reached⟩
  obtain ⟨row', found, same⟩ :=
    (Later.evolves before reachable).keyIdentity _ _ (find?_marker.mpr stored)
  cases same
  cases lost with
  | @comparing refusal pending held =>
    obtain ⟨next, whole, _, reads⟩ := comparing_reads c p refusal
    have read : ((selectMarker .yes).exec U.clock (ℓ.view (selectMarker .yes) U.store)).1 =
        some row := by
      rw [Local.view_current rfl]
      exact (applyAll_frame (f := fun σ : Store => σ.keyIdentity.find? ())
        (fun w member σ => keyIdentity_outside (pending w member) σ) U.store).trans found
    have moves : (comparing c p refusal).move U.clock U.store ℓ = some
        ⟨(selectMarker .yes).claims U.clock ℓ.iso (ℓ.view (selectMarker .yes) U.store), [], [],
        compared c (replayedOrCompared row p), ℓ.after (selectMarker .yes) U.store U.clock,
        false⟩ := by
      rw [whole, Prog.move, read, reads]
    refine ⟨_, ⟨here, moves, ?_⟩, ?_, ?_⟩
    · intro j s there other g theirs k claim
      obtain ⟨t, mine⟩ := held
      have apart := ((reachable.later before).sound.ordered.apart i j _ s here there
        (Ne.symm other)).1 _ mine g theirs
      rw [marker_claims U.clock ℓ.iso _ k claim]
      exact apart
    · intro running
      cases told : replayedOrCompared row p with
      | error e =>
        rw [told] at running
        exact absurd rfl running
      | ok outcome => exact .told told
    · intro result answer
      cases told : replayedOrCompared row p with
      | error e =>
        rw [told] at answer
        cases answer
        rfl
      | ok outcome =>
        rw [told] at answer
        cases answer
  | @told outcome same =>
    refine ⟨_, ⟨here, rfl, fun _ _ _ _ _ _ _ claim => ?_⟩, fun running => absurd rfl running, ?_⟩
    · cases claim
    · intro result answer
      cases answer
      rw [same]
      rfl

end

/-- In every run in which no insert into the settings ledger is refused while
another session holds a lock on the row, no two sessions wait for each other on
a ledger row, and a delivery that lost to another request is never held up and
is refused for its argument; and in every run at all no recording call and
another session wait for each other on the marker, and a recording call that
lost is never held up and is answered its comparison. -/
theorem losers_answer (inv : Integrity σ) :
    (∀ S, System.Reaches service (System.Lone Ledger) (.start σ now) S →
      (∀ i j key, ¬(S.waits i j (.settingWrite key) = true ∧
        S.waits j i (.settingWrite key) = true)) ∧
      ∀ i c r S', c.request = .setInheritedSetting r → Loses S S' i c (ledgerRow r) →
        System.Lone Ledger S (.run i) S' →
        ∃ w, S.store.settingWrites.find? (weight (r.idempotency.getD "")) = some w ∧
          (¬SameRequest r w → ∀ T, System.Reaches service (System.Lone Ledger) S' T →
            System.Proceeds service T i c fun result =>
              ∃ e, result = .error e ∧ e.code = .invalidArgument)) ∧
    ∀ S, Later (.start σ now) S →
      (∀ (i j : Nat) s, S.sessions[i]? = some s → (Marker.presents s.call).isSome →
        ¬(S.waits i j .keyIdentity = true ∧ S.waits j i .keyIdentity = true)) ∧
      ∀ i c p S', Marker.presents c = some p → Loses S S' i c .keyIdentity →
        ∃ row ∈ S.store.keyIdentity, ∀ T, Later S' T →
          System.Proceeds service T i c fun result =>
            result = (KeyIdentity.replayedOrCompared row p).map (Marker.wrap c) := by
  refine ⟨fun S reached => ⟨?_, ?_⟩, fun S later => ⟨?_, ?_⟩⟩
  · rintro i j key ⟨first, second⟩
    obtain ⟨c, ℓ, p, s, k, g, waits⟩ := System.waits_cases first
    obtain ⟨_, _, _, s', _, g', waits'⟩ := System.waits_cases second
    have ledger : Ledger g'.lock.res := ⟨key, waits'.same_row⟩
    have alone := System.Reaches.lone rfl reached waits'.there waits.there waits.other waits'.held
      waits.held ledger
    exact alone (waits.same_row.trans waits'.same_row.symm)
  · intro i c r S' request loses lone
    obtain ⟨w, ℓ, found, there, pending, held⟩ := settings_lose reached request loses
    refine ⟨w, found, fun other T rest => ?_⟩
    have reachable : Reachable S := ⟨σ, now, inv, reached.mono fun _ _ _ _ => trivial⟩
    obtain ⟨w', found', same⟩ := (Later.evolves (.step .refl loses.step trivial)
      reachable).settingWrites _ _ found
    cases same
    exact settings_refused inv (reached.step loses.step lone) there pending held found' other rest
  · intro i j s there presented
    obtain ⟨p, presented⟩ := Option.isSome_iff_exists.mp presented
    exact marker_waits inv later there presented
  · intro i c p S' presented loses
    obtain ⟨row, stored, ℓ, q, there, lost⟩ := recording_loses later presented loses
    have step : Later S S' := .step .refl loses.step trivial
    obtain ⟨row', still, _, same⟩ :=
      (Later.evolves step ⟨σ, now, inv, later⟩).keyIdentity.mem stored
    refine ⟨row, stored, fun T rest => ?_⟩
    exact recording_answered inv (later.step loses.step trivial) there lost (same ▸ still) rest

end

/-! ### Deliveries under one key -/

/-- The organisation's value set under a key. -/
def settingOrg : SetInheritedSettingRequest :=
  ⟨some "key", 1, none, ownerReadsOwnRecord, some 1, some true, false⟩

/-- A team's override cleared under the same key. -/
def clearing (team : String) : SetInheritedSettingRequest :=
  ⟨some "key", 2, some team, ownerReadsOwnRecord, none, none, true⟩

/-- The first delivery is answered after the second has looked for the key. -/
def overtaken : List (Action Call) :=
  calling firstUuid (.setInheritedSetting settingOrg) 0 3 ++
    calling secondUuid (.setInheritedSetting (clearing "search")) 1 3 ++ .replicate 4 (.run 0)

open Bytewise in
theorem losers_answer_overtaken : System.Proceeds service
    (after ((overtaken ++ [.run 1]) ++ [.run 1])) 1
    ⟨some iamCaller, secondUuid, .setInheritedSetting (clearing "search")⟩ fun result =>
      ∃ e, result = .error e ∧ e.code = .invalidArgument := by
  have reached : System.Reaches service (System.Lone Ledger) (fresh 0) (after overtaken) :=
    reaches_after System.loneNow (fun _ _ _ => System.lone_of_now) (by decide +kernel)
  have loses : Loses (after overtaken) (after (overtaken ++ [.run 1])) 1
      ⟨some iamCaller, secondUuid, .setInheritedSetting (clearing "search")⟩
      (ledgerRow (clearing "search")) :=
    ⟨by decide +kernel, step_after (by decide +kernel), by decide +kernel, by decide +kernel⟩
  obtain ⟨w, found, answers⟩ := ((losers_answer integrity_migrated).1 _ reached).2 1 _
    (clearing "search") _ rfl loses (System.lone_of_now (by decide +kernel))
  have recorded : (after overtaken).store.settingWrites.find? "key" =
      some (settingWrite settingOrg) := by decide +kernel
  obtain rfl : settingWrite settingOrg = w := Option.some.inj (recorded.symm.trans found)
  refine answers (by unfold SameRequest; decide) _ (.step .refl (step_after (by decide +kernel)) ?_)
  exact System.lone_of_now (by decide +kernel)

def thirdUuid : Uuid := ⟨"0192f3c4-1a2b-7c3d-8e4f-0123456789ad", by decide⟩

/-- Two deliveries have looked for the key before the first is answered, and
their inserts are refused one after the other. -/
def race : List (Action Call) :=
  calling firstUuid (.setInheritedSetting settingOrg) 0 3 ++
    calling secondUuid (.setInheritedSetting (clearing "search")) 1 3 ++
    calling thirdUuid (.setInheritedSetting (clearing "billing")) 2 3 ++
    .replicate 4 (.run 0) ++ [.run 1, .run 2]

/-- Whether a session ends in a step without being answered. -/
def cancels : Action Call → Bool
  | .lose _ | .drop _ => true
  | _ => false

open Bytewise in
/-- Two losers of one key wait for each other: each holds the row shared and
reads it for update. -/
theorem losers_wait : ¬∀ actions S, run (fresh 0) actions = some S →
    (∀ a ∈ actions, cancels a = false) → ∀ i j key,
      ¬(S.waits i j (.settingWrite key) = true ∧ S.waits j i (.settingWrite key) = true) := by
  intro never
  exact never race (after race) (run_after (by decide +kernel)) (by decide +kernel) 1 2 "key"
    ⟨by decide +kernel, by decide +kernel⟩

end IamDb.Losers
