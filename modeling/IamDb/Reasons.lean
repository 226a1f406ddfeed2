import IamDb.Bootstrap
import IamDb.Deliveries

/-! Why a redemption failed. The spend comes first and the reason is read in a
later statement. What that statement finds spent, voided or gone is so for good;
that the deadline passed is told by elimination, and so only as long as the
enrolment it finds is one the spend has looked at. -/
namespace IamDb.Reasons
open Txn Schema Messages Service Effects Evolution Interference Handlers Runs Enrolments

section
variable [Engine]

/-! ### A redemption after a spend in vain -/

/-- The end of a redemption that failed. -/
def telling (outcome : RedeemOutcome) : Rpc Response := do
  commit
  pure (.redeemEnrolment ⟨outcome, "", "", [], false, 0, 0⟩)

/-- A redemption that is to read why it failed. -/
def classifying (secret : Bytes) : Rpc Response := do
  let outcome ← Enrolment.unredeemable secret
  telling outcome

/-- A redemption whose spend has matched nothing. -/
def failing (r : RedeemEnrolmentRequest) : Rpc Response := do
  pure (.redeemEnrolment (← Enrolment.unspent (r.idempotency.getD "") r))

/-- Whether an answer is a redemption's, and redeemed. -/
def Redeemed (answer : Response) : Prop :=
  ∃ a, answer = .redeemEnrolment a ∧ a.outcome = .redeemed

/-- The secret names no enrolment that a spend could match. -/
def Past (secret : Bytes) (S : Handlers.System) : Prop :=
  ∀ e, S.store.enrolment? secret = some e → e.spentAt ≠ none ∨ e.voidedAt ≠ none ∨
    S.store.liveUser? e.userId = none ∨ e.expiresAt ≤ S.clock

/-- A redemption of the secret has spent in vain and is yet to read why. -/
def Undecided (secret : Bytes) (S : Handlers.System) : Prop :=
  ∃ (i : Nat) (c : Call) (ℓ : Local Store Write Res) (p : Rpc Response)
    (r : RedeemEnrolmentRequest), S.sessions[i]? = some ⟨c, ℓ, .running p⟩ ∧
      r.secretHash = secret ∧ (p = failing r ∨ p = classifying secret)

/-- A step inserts an enrolment for the secret whose deadline is yet to come. -/
def Sneaks (secret : Bytes) (S S' : Handlers.System) : Prop :=
  S.store.enrolment? secret = none ∧
    ∃ e, S'.store.enrolment? secret = some e ∧ S.clock < e.expiresAt

/-- A step inserts no enrolment of this kind while a redemption of the secret
has yet to read why it failed. -/
def Clear (secret : Bytes) (S : Handlers.System) (_ : Action Call) (S' : Handlers.System) : Prop :=
  Undecided secret S → ¬Sneaks secret S S'

/-- A check that the secret names an enrolment already. -/
def storedNow (secret : Bytes) (S : Handlers.System) (_ : Action Call) (_ : Handlers.System) : Bool :=
  (S.store.enrolment? secret).isSome

theorem clear_of_now {S : Handlers.System} (now : storedNow secret S a S' = true) :
    Clear secret S a S' := by
  rintro - ⟨absent, _⟩
  rw [storedNow, absent] at now
  cases now

theorem failing_unkeyed (unkeyed : r.idempotency.getD "" = "") :
    failing r = classifying r.secretHash := by
  unfold failing Enrolment.unspent classifying
  rw [if_pos unkeyed]
  simp only [pure_bind, bind_assoc]
  rfl

theorem failing_keyed (keyed : r.idempotency.getD "" ≠ "") : failing r = (do
    let replayed ← Enrolment.replay (r.idempotency.getD "") r.secretHash .yes
    match replayed with
    | some replayed => do
      commit
      pure (.redeemEnrolment replayed)
    | none => classifying r.secretHash) := by
  unfold failing Enrolment.unspent classifying
  rw [if_neg keyed]
  simp only [bind_assoc]
  refine bind_congr fun replayed => ?_
  cases replayed with
  | none =>
    simp only [bind_assoc]
    rfl
  | some a => rfl

/-! ### What the spend left out -/

theorem past_of_spend (vain : (S.store.enrolment? secret).filter
    (Enrolment.spendable S.clock S.store) = none) : Past secret S := by
  intro e found
  rw [found, Option.filter_some] at vain
  have unmatched : Enrolment.spendable S.clock S.store e = false := by
    by_contra matched
    rw [if_pos (by simpa using matched)] at vain
    cases vain
  simp only [Enrolment.spendable, Bool.and_eq_false_iff, decide_eq_false_iff_not,
    Option.isNone_eq_false_iff, Option.isSome_eq_false_iff, Option.isNone_iff_eq_none] at unmatched
  rcases unmatched with ((spent | late) | voided) | gone
  · exact Or.inl (Option.isSome_iff_ne_none.mp spent)
  · exact Or.inr (Or.inr (Or.inr (Int.not_lt.mp late)))
  · exact Or.inr (Or.inl (Option.isSome_iff_ne_none.mp voided))
  · exact Or.inr (Or.inr (Or.inl gone))

/-- What a spend could not match it cannot match later, unless an enrolment
appears. -/
theorem Past.step {S S' : Handlers.System} (past : Past secret S) (reachable : Reachable S)
    (step : S.step service a = some S') (clear : ¬Sneaks secret S S') : Past secret S' := by
  intro e' found'
  have clock := System.clock_le_of_step step
  cases found : S.store.enrolment? secret with
  | none =>
    refine Or.inr (Or.inr (Or.inr (Int.not_lt.mp fun ahead => clear ⟨found, e', found', ?_⟩)))
    omega
  | some e =>
    obtain ⟨member, named⟩ := Store.enrolment?_mem found
    obtain ⟨member', named'⟩ := Store.enrolment?_mem found'
    have evolves : Evolves S.store S'.store := Later.evolves (.step .refl step trivial) reachable
    obtain ⟨e'', there, _, later⟩ := evolves.enrolments.mem member
    obtain rfl := (reachable.step step).inv.secrets e'' there e' member'
      (later.secretHash.trans (named.trans named'.symm))
    rcases past e found with spent | voided | gone | late
    · exact Or.inl (later.ended (Or.inl spent) ▸ spent)
    · exact Or.inr (Or.inl (later.ended (Or.inr voided) ▸ voided))
    · refine Or.inr (Or.inr (Or.inl ?_))
      rw [later.userId]
      exact RedemptionProofs.not_live_later evolves (reachable.inv.enrolmentOwner e member) gone
    · refine Or.inr (Or.inr (Or.inr ?_))
      rw [later.expiresAt]
      omega

/-! ### The stages of a redemption -/

/-- What the statement that reads the reason finds, by what it answers; with
`P`, that the deadline has passed too. -/
def Found (P : Prop) (secret : Bytes) (S : Handlers.System) : RedeemOutcome → Prop
  | .expired => ∃ e, S.store.enrolment? secret = some e ∧ e.spentAt = none ∧ e.voidedAt = none ∧
      (P → e.expiresAt ≤ S.clock)
  | .voided => ∃ e, S.store.enrolment? secret = some e ∧ e.spentAt = none ∧ e.voidedAt ≠ none
  | .spent => ∃ e, S.store.enrolment? secret = some e ∧ e.spentAt ≠ none
  | .notFound => ∀ e, S.store.enrolment? secret = some e → S.store.liveUser? e.userId = none
  | .redeemed => False

/-- The moment of a run at which a session runs the statement that reads the
reason. -/
structure Reading (S₀ S : Handlers.System) (i : Nat) (c : Call) (secret : Bytes)
    (T : Handlers.System) : Prop where
  first : Later S₀ T
  running : ∃ ℓ, T.sessions[i]? = some ⟨c, ℓ, .running (classifying secret)⟩
  reads : ∃ T', T.step service (.run i) = some T' ∧ Later T' S

/-- The reason was read, by this session, at a moment of the run. -/
def Read (P : Prop) (S₀ S : Handlers.System) (i : Nat) (c : Call) (secret : Bytes)
    (outcome : RedeemOutcome) : Prop :=
  ∃ T, Reading S₀ S i c secret T ∧ Found P secret T outcome

theorem Read.later (read : Read P S₀ S i c secret outcome) (later : Later S S') :
    Read P S₀ S' i c secret outcome := by
  obtain ⟨T, ⟨first, running, T', step, second⟩, found⟩ := read
  exact ⟨T, ⟨first, running, T', step, second.trans later⟩, found⟩

/-- A session that reads the latest store and has written nothing. -/
structure Clean (ℓ : Local Store Write Res) : Prop where
  iso : ℓ.iso = .readCommitted
  pending : ℓ.pending = []

/-- A redemption up to its spend. -/
inductive Early (r : RedeemEnrolmentRequest) : Rpc Response → Prop where
  | ledger : Early r (do
      let replayed ← Enrolment.replay (r.idempotency.getD "") r.secretHash .no
      Deliveries.settled r replayed)
  | owner : Early r (do
      Enrolment.lockOwner r.secretHash
      Deliveries.spending r)
  | locking (userId : String) : Early r (do
      let _ ← tx (Epoch.selectUserForUpdate userId)
      Deliveries.spending r)
  | spend : Early r (Deliveries.spending r)

/-- Where a redemption can have come to. -/
inductive Stage (P : Prop) (S₀ S : Handlers.System) (i : Nat) (c : Call)
    (r : RedeemEnrolmentRequest) (ℓ : Local Store Write Res) : Rpc Response → Prop where
  | arrived : Stage P S₀ S i c r ℓ (service c)
  | early (clean : Clean ℓ) (early : Early r p) : Stage P S₀ S i c r ℓ p
  | undecided (clean : Clean ℓ) (whole : p = failing r ∨ p = classifying r.secretHash)
      (past : P → Past r.secretHash S) : Stage P S₀ S i c r ℓ p
  | told (read : Read P S₀ S i c r.secretHash outcome) : Stage P S₀ S i c r ℓ (telling outcome)
  | answered (read : Read P S₀ S i c r.secretHash outcome) :
      Stage P S₀ S i c r ℓ (.ret (.redeemEnrolment ⟨outcome, "", "", [], false, 0, 0⟩))
  | redeemed (yields : p.Yields Redeemed) : Stage P S₀ S i c r ℓ p

/-- What a redemption begins with. -/
def opening (r : RedeemEnrolmentRequest) : Rpc Response :=
  if r.idempotency.getD "" = "" then Deliveries.settled r none
  else do
    let replayed ← Enrolment.replay (r.idempotency.getD "") r.secretHash .no
    Deliveries.settled r replayed

theorem service_redeem (request : c.request = .redeemEnrolment r) :
    service c = .begin .readCommitted (opening r) ∨ ∃ e, service c = .fail e := by
  unfold service
  rw [request]
  cases admitted c.caller with
  | error e => exact Or.inr ⟨e, rfl⟩
  | ok u =>
    refine Or.inl ?_
    show (Enrolment.redeem r >>= fun answer => pure (.redeemEnrolment answer) : Rpc Response) = _
    unfold Enrolment.redeem opening
    by_cases unkeyed : r.idempotency.getD "" = ""
    · simp only [if_pos unkeyed]
      rfl
    · simp only [if_neg unkeyed, bind_assoc]
      refine congrArg (Prog.begin _) (bind_congr fun replayed => ?_)
      cases replayed <;> rfl

theorem settled_none (r : RedeemEnrolmentRequest) :
    (∃ e, Deliveries.settled r none = .fail e) ∨ Early r (Deliveries.settled r none) := by
  unfold Deliveries.settled Enrolment.redeemFresh
  cases fits : fitsPasswordColumn r.argon2idHash with
  | error e => exact Or.inl ⟨e, rfl⟩
  | ok _ =>
    have owner : (do pure (.redeemEnrolment (← (do
        .lift (.ok ())
        Enrolment.lockOwner r.secretHash
        let spent ← Enrolment.spend r
        if spent = 0 then Enrolment.unspent (r.idempotency.getD "") r
        else Enrolment.redeemed (r.idempotency.getD "") r))) : Rpc Response) = (do
        Enrolment.lockOwner r.secretHash
        Deliveries.spending r) := by
      show ((Enrolment.lockOwner r.secretHash >>= fun _ => (do
        let spent ← Enrolment.spend r
        if spent = 0 then Enrolment.unspent (r.idempotency.getD "") r
        else Enrolment.redeemed (r.idempotency.getD "") r)) >>= fun answer =>
          pure (.redeemEnrolment answer) : Rpc Response) = _
      simp only [bind_assoc]
      refine bind_congr fun _ => bind_congr fun spent => ?_
      split <;> rfl
    exact Or.inr (owner ▸ .owner)

/-- An answer of the ledger is a redemption's. -/
theorem yields_settled (replayed : a.outcome = .redeemed) :
    (Deliveries.settled r (some a)).Yields Redeemed :=
  ⟨a, rfl, replayed⟩

theorem yields_redeemed (key : String) : (do
    pure (.redeemEnrolment (← Enrolment.redeemed key r)) : Rpc Response).Yields Redeemed := by
  have recorded (a : RedeemEnrolmentResponse) (row : Redemption) (outcome : a.outcome = .redeemed) :
      (do
        if key = "" then pure () else do
          let recorded ← tx (Enrolment.insertRedemption row)
          orElse db recorded
        commit
        pure a : Rpc RedeemEnrolmentResponse).Yields fun a => a.outcome = .redeemed := by
    split
    · exact outcome
    · exact Prog.Yields.after fun _ => Prog.Yields.after fun _ => outcome
  refine Prog.Yields.bind (P := fun a => a.outcome = .redeemed) ?_ fun a outcome => ⟨a, rfl, outcome⟩
  unfold Enrolment.redeemed
  refine Prog.Yields.after fun _ => Prog.Yields.after fun row => ?_
  obtain ⟨enrolmentId, userId, externalId, revoking⟩ := row
  refine Prog.Yields.after fun _ => Prog.Yields.after fun epoch => ?_
  have stored (voided : Nat) : (do
      let stored ← tx (Enrolment.upsertPassword userId r.argon2idHash)
      orElse db stored
      if key = "" then pure () else do
        let recorded ← tx (Enrolment.insertRedemption ⟨key, r.secretHash, enrolmentId, userId, epoch⟩)
        orElse db recorded
      commit
      pure ⟨.redeemed, userId, enrolmentId, externalId, revoking, epoch, voided⟩ :
        Rpc RedeemEnrolmentResponse).Yields fun a => a.outcome = .redeemed :=
    Prog.Yields.after fun _ => Prog.Yields.after fun _ => recorded _ _ rfl
  dsimp only
  split
  · exact Prog.Yields.after fun _ => Prog.Yields.after stored
  · exact stored 0

theorem Clean.view (clean : Clean ℓ) (s : Sql ρ) (σ : Store) : ℓ.view s σ = σ := by
  rw [Local.view_committed clean.iso, clean.pending, applyAll_nil]

theorem Clean.after (clean : Clean ℓ) {s : Sql ρ} (reads : (s.exec now σ).2 = []) :
    Clean (ℓ.after s σ now) where
  iso := clean.iso
  pending := by
    rw [Local.after_pending, clean.view, reads, clean.pending]
    rfl

/-- What a replay makes of the ledger row it finds. -/
def replayed (presented : Bytes) : Option Redemption → Rpc (Option RedeemEnrolmentResponse)
  | none => pure none
  | some prior =>
    if prior.secretHash ≠ presented then
      refuse ⟨.invalidArgument, "this idempotency key was used with a different enrolment secret"⟩
    else do
      let ciphertext ← tx (Enrolment.selectExternalId prior.userId)
      let externalId ← orElse db ciphertext
      let flag ← tx (Enrolment.selectRevoking prior.enrolmentId)
      let revoked ← orElse db flag
      pure (some ⟨.redeemed, prior.userId, prior.enrolmentId, externalId, revoked,
        prior.credentialEpoch, 0⟩)

/-- A ledger read of a redemption goes on where it finds nothing, or with the
answer it finds. -/
theorem replay_move {k : Option RedeemEnrolmentResponse → Rpc Response} (clean : Clean ℓ)
    (moves : (Enrolment.replay key secret lock >>= k).move now σ ℓ = some m)
    (yields : ∀ a, a.outcome = .redeemed → (k (some a)).Yields Redeemed) :
    Clean m.loc ∧ m.writes = [] ∧ (m.next = k none ∨ m.next.Yields Redeemed) := by
  cases moves
  refine ⟨clean.after rfl, rfl, ?_⟩
  show Prog.bind (replayed secret ((Enrolment.selectRedemption key lock).exec now
    (ℓ.view (Enrolment.selectRedemption key lock) σ)).1) k = k none ∨
      Prog.Yields Redeemed (Prog.bind (replayed secret ((Enrolment.selectRedemption key lock).exec
        now (ℓ.view (Enrolment.selectRedemption key lock) σ)).1) k)
  cases ((Enrolment.selectRedemption key lock).exec now
    (ℓ.view (Enrolment.selectRedemption key lock) σ)).1 with
  | none => exact Or.inl rfl
  | some prior =>
    refine Or.inr (Prog.Yields.bind (P := fun o => ∃ a, o = some a ∧ a.outcome = .redeemed) ?_ ?_)
    · show Prog.Yields _ (if prior.secretHash ≠ secret then _ else _)
      split
      · trivial
      · exact Prog.Yields.after fun _ => Prog.Yields.after fun _ => Prog.Yields.after fun _ =>
          Prog.Yields.after fun _ => ⟨_, rfl, rfl⟩
    · rintro _ ⟨a, rfl, outcome⟩
      exact yields a outcome

theorem Past.same (past : Past secret S) (store : S'.store = S.store) (clock : S'.clock = S.clock) :
    Past secret S' := by
  intro e found
  rw [store] at found ⊢
  rw [clock]
  exact past e found

/-- What the reading of the reason comes to. -/
theorem classifying_move {S : Handlers.System} (clean : Clean ℓ) (past : P → Past secret S)
    (moves : (classifying secret).move S.clock S.store ℓ = some m) :
    m.writes = [] ∧ ∃ outcome, m.next = telling outcome ∧ Found P secret S outcome := by
  cases moves
  refine ⟨rfl, ?_⟩
  show ∃ outcome, Prog.bind (Prog.bind (Prog.ret ((Enrolment.selectUnredeemable secret).exec S.clock
    (ℓ.view (Enrolment.selectUnredeemable secret) S.store)).1) _) telling = _ ∧ _
  rw [clean.view]
  cases found : S.store.enrolment? secret with
  | none =>
    simp only [Enrolment.selectUnredeemable, found]
    refine ⟨.notFound, rfl, fun e there => ?_⟩
    rw [found] at there
    cases there
  | some e =>
    cases live : S.store.liveUser? e.userId with
    | none =>
      simp only [Enrolment.selectUnredeemable, found, Option.filter_some, live]
      refine ⟨.notFound, rfl, fun e' there => ?_⟩
      obtain rfl := Option.some.inj (found.symm.trans there)
      exact live
    | some u =>
      simp only [Enrolment.selectUnredeemable, found, Option.filter_some, live, Option.isSome_some,
        if_true, Option.map_some]
      cases spent : e.spentAt with
      | some t => exact ⟨.spent, rfl, e, found, by rw [spent]; nofun⟩
      | none =>
        cases voided : e.voidedAt with
        | some t => exact ⟨.voided, rfl, e, found, spent, by rw [voided]; nofun⟩
        | none =>
          refine ⟨.expired, rfl, e, found, spent, voided, fun holds => ?_⟩
          rcases past holds e found with h | h | h | late
          · exact absurd spent h
          · exact absurd voided h
          · rw [live] at h
            cases h
          · exact late

/-- What a redemption up to its spend comes to. -/
theorem Early.move {S : Handlers.System} (early : Early r p) (clean : Clean ℓ)
    (moves : p.move S.clock S.store ℓ = some m) :
    m.next.Yields Redeemed ∨ Clean m.loc ∧ m.writes = [] ∧
      (Early r m.next ∨ m.next = failing r ∧ Past r.secretHash S) := by
  cases early with
  | ledger =>
    obtain ⟨clean, writes, next | yields⟩ := replay_move clean moves fun _ => yields_settled
    · rw [next]
      rcases settled_none r with ⟨e, failed⟩ | early
      · rw [failed]
        exact Or.inl trivial
      · exact Or.inr ⟨clean, writes, Or.inl early⟩
    · exact Or.inl yields
  | owner =>
    cases moves
    have clean : Clean (ℓ.after (Enrolment.selectOwner r.secretHash) S.store S.clock) :=
      clean.after rfl
    refine Or.inr ⟨clean, rfl, Or.inl ?_⟩
    show Early r (Prog.bind (Prog.bind (Prog.ret _) fun owner => match owner with
      | none => pure ()
      | some userId => do let _ ← tx (Epoch.selectUserForUpdate userId); pure ()) fun _ =>
        Deliveries.spending r)
    cases ((Enrolment.selectOwner r.secretHash).exec S.clock
      (ℓ.view (Enrolment.selectOwner r.secretHash) S.store)).1 with
    | none => exact .spend
    | some userId => exact .locking userId
  | locking userId =>
    cases moves
    exact Or.inr ⟨clean.after rfl, rfl, Or.inl .spend⟩
  | spend =>
    cases moves
    dsimp only
    rw [clean.view]
    cases vain : (S.store.enrolment? r.secretHash).filter
        (Enrolment.spendable S.clock S.store) with
    | none =>
      have nothing : (Enrolment.updateSpentAt r.secretHash).exec S.clock S.store = (0, []) := by
        simp only [Enrolment.updateSpentAt, vain]
      rw [nothing]
      exact Or.inr ⟨clean.after (by rw [nothing]), rfl, Or.inr ⟨rfl, past_of_spend vain⟩⟩
    | some e =>
      left
      simp only [Enrolment.updateSpentAt, vain]
      exact yields_redeemed _

/-- A redemption goes from one stage to another. -/
theorem Stage.move {S S' : Handlers.System} (stage : Stage P S₀ S i c r ℓ p)
    (request : c.request = .redeemEnrolment r) (here : S.sessions[i]? = some ⟨c, ℓ, .running p⟩)
    (moves : p.move S.clock S.store ℓ = some m) (before : Later S₀ S)
    (step : S.step service (.run i) = some S') (store : S'.store = applyAll m.writes S.store)
    (clock : S'.clock = S.clock) : Stage P S₀ S' i c r m.loc m.next := by
  have reads {secret} (clean : Clean ℓ) (past : P → Past secret S)
      (moves : (classifying secret).move S.clock S.store ℓ = some m)
      (whole : p = classifying secret) (same : secret = r.secretHash) :
      Stage P S₀ S' i c r m.loc m.next := by
    obtain ⟨-, outcome, next, found⟩ := classifying_move clean past moves
    subst same whole
    rw [next]
    exact .told ⟨S, ⟨before, ⟨ℓ, here⟩, S', step, .refl⟩, found⟩
  cases stage with
  | arrived =>
    rcases service_redeem request with opens | ⟨e, failed⟩
    · rw [opens] at moves
      cases moves
      unfold opening
      split
      · rcases settled_none r with ⟨e, failed⟩ | early
        · rw [failed]
          exact .redeemed trivial
        · exact .early ⟨rfl, rfl⟩ early
      · exact .early ⟨rfl, rfl⟩ .ledger
    · rw [failed] at moves
      cases moves
  | early clean early =>
    rcases early.move clean moves with yields | ⟨clean, writes, early | ⟨next, past⟩⟩
    · exact .redeemed yields
    · exact .early clean early
    · rw [writes] at store
      exact .undecided clean (Or.inl next) fun _ => past.same store clock
  | undecided clean whole past =>
    rcases whole with rfl | rfl
    · by_cases keyed : r.idempotency.getD "" = ""
      · exact reads clean past (failing_unkeyed keyed ▸ moves) (failing_unkeyed keyed) rfl
      · rw [failing_keyed keyed] at moves
        obtain ⟨clean, writes, next | yields⟩ :=
          replay_move clean moves fun _ => yields_settled (r := r)
        · rw [writes] at store
          exact .undecided clean (Or.inr next) fun holds => (past holds).same store clock
        · exact .redeemed yields
    · exact reads clean past moves rfl rfl
  | told read =>
    cases moves
    exact .answered (read.later (.step .refl step trivial))
  | answered read => cases moves
  | redeemed yields => exact .redeemed (yields.move moves)

/-- And stays where it is while others take steps. -/
theorem Stage.later {S S' : Handlers.System} (stage : Stage P S₀ S i c r ℓ p)
    (reachable : Reachable S) (here : S.sessions[i]? = some ⟨c, ℓ, .running p⟩)
    (step : S.step service a = some S')
    (clear : P → Clear r.secretHash S a S') : Stage P S₀ S' i c r ℓ p := by
  have later : Later S S' := .step .refl step trivial
  cases stage with
  | arrived => exact .arrived
  | early clean early => exact .early clean early
  | undecided clean whole past =>
    refine .undecided clean whole fun holds => (past holds).step reachable step ?_
    exact clear holds ⟨i, c, ℓ, p, r, here, rfl, whole⟩
  | told read => exact .told (read.later later)
  | answered read => exact .answered (read.later later)
  | redeemed yields => exact .redeemed yields

/-- Every redemption that arrived in a run is at one of the stages. -/
theorem stage_reached {S₀ S : Handlers.System} (reachable : Reachable S₀)
    (reached : System.Reaches service (fun S a S' => P → Clear r.secretHash S a S') S₀ S)
    {i : Nat} (there : S.sessions[i]? = some ⟨c, ℓ, .running p⟩)
    (absent : S₀.sessions[i]? = none) (request : c.request = .redeemEnrolment r) :
    Stage P S₀ S i c r ℓ p := by
  induction reached generalizing ℓ p with
  | refl =>
    rw [absent] at there
    cases there
  | @step S a S' before step clear ih =>
    have first : Later S₀ S := before.mono fun _ _ _ _ => trivial
    cases System.turn_of_step step there with
    | kept here => exact (ih here).later (reachable.later first) here step clear
    | arrived _ _ _ _ new =>
      obtain ⟨rfl, rfl, rfl, _⟩ := Session.reached_running new.symm
      exact .arrived
    | ran advances run whole new =>
      obtain ⟨rfl, rfl, rfl, running⟩ := Session.reached_running new.symm
      refine (ih advances.here).move request advances.here advances.moves first (run ▸ step) ?_ ?_
      · rw [whole]
        rfl
      · rw [whole]
        rfl
    | ended _ gone => cases gone

theorem Early.running (early : Early r p) : p.upcoming ≠ .done := by
  cases early <;> nofun

theorem failing_running (whole : p = failing r ∨ p = classifying r.secretHash) :
    p.upcoming ≠ .done := by
  rcases whole with rfl | rfl
  · by_cases keyed : r.idempotency.getD "" = ""
    · rw [failing_unkeyed keyed]
      nofun
    · rw [failing_keyed keyed]
      nofun
  · nofun

/-- What has its answer has read it, or is redeemed. -/
theorem Stage.read (stage : Stage P S₀ S i c r ℓ p) (whole : p = .ret (.redeemEnrolment a))
    (request : c.request = .redeemEnrolment r) (failed : a.outcome ≠ .redeemed) :
    Read P S₀ S i c r.secretHash a.outcome := by
  cases stage with
  | arrived =>
    rcases service_redeem request with opens | ⟨e, fails⟩
    · rw [opens] at whole
      cases whole
    · rw [fails] at whole
      cases whole
  | early _ early => exact absurd (congrArg Prog.upcoming whole) early.running
  | undecided _ failing => exact absurd (congrArg Prog.upcoming whole) (failing_running failing)
  | told => cases whole
  | answered read =>
    cases whole
    exact read
  | redeemed yields =>
    subst whole
    obtain ⟨_, same, redeemed⟩ := yields
    cases same
    exact absurd redeemed failed

/-- So one that was answered, and not redeemed, has read its reason. -/
theorem read_of_answered {S₀ S : Handlers.System} (reachable : Reachable S₀)
    (reached : System.Reaches service (fun S a S' => P → Clear r.secretHash S a S') S₀ S)
    {i : Nat} (there : S.sessions[i]? = some ⟨c, ℓ, .answered (.ok (.redeemEnrolment a))⟩)
    (absent : S₀.sessions[i]? = none) (request : c.request = .redeemEnrolment r)
    (failed : a.outcome ≠ .redeemed) : Read P S₀ S i c r.secretHash a.outcome := by
  obtain ⟨U, act, U', first, step, _, given, new, rest⟩ :=
    reached.answered there (by rw [absent]; nofun)
  have before : Later S₀ U := first.mono fun _ _ _ _ => trivial
  have after : Later U' S := rest.mono fun _ _ _ _ => trivial
  cases System.turn_of_step step given with
  | kept here => exact absurd here new
  | @arrived c' _ _ _ _ fresh =>
    obtain rfl : c = c' := by
      cases h : service c' <;> rw [h] at fresh <;> cases fresh
      rfl
    rcases service_redeem request with opens | ⟨e, failed⟩
    · rw [opens] at fresh
      cases fresh
    · rw [failed] at fresh
      cases fresh
  | @ran c' ℓ' p m advances run whole fresh =>
    obtain rfl : c = c' := by
      cases h : m.next <;> rw [h] at fresh <;> cases fresh
      rfl
    have next : m.next = .ret (.redeemEnrolment a) := by
      cases h : m.next <;> rw [h] at fresh <;> cases fresh
      rfl
    have stage : Stage P S₀ U' i c r m.loc m.next :=
      (stage_reached reachable first advances.here absent request).move request advances.here
        advances.moves before (run ▸ step) (by rw [whole]; rfl) (by rw [whole]; rfl)
    exact (stage.read next request failed).later after
  | ended _ gone => cases gone

/-- An enrolment is spent by another session than `i`, in a run or before it. -/
inductive SpentElsewhere (S₀ T : Handlers.System) (i : Nat) (e : Enrolment) : Prop where
  | before (stored : e ∈ S₀.store.enrolments)
  | delivered (first : Later S₀ U) (step : U.step service a = some U') (rest : Later U' T)
      (spends : Spends U U' e₀ t) (same : e₀.id = e.id) (spend : Spend U j e₀ t k U')
      (other : j ≠ i)

/-- A row that is spent in the store after a step, and was not there before, is
of an enrolment the step spends. -/
theorem spends_of_new {S S' : Handlers.System} (reachable : Reachable S)
    (step : S.step service a = some S') (stored : e ∈ S'.store.enrolments)
    (new : e ∉ S.store.enrolments) (spent : e.spentAt = some t) :
    ∃ e₀, e₀.id = e.id ∧ Spends S S' e₀ t := by
  rcases reachable.lands step with ⟨same, _⟩ | ⟨i, c, k, lands⟩
  · exact absurd (same ▸ stored) new
  · obtain ⟨ef, allowed, store, result⟩ := lands_effect lands
    have after : e ∈ (ef.apply k.store).enrolments := by rwa [store, ← result]
    rcases spent_row allowed after spent with before | ⟨e₀, _, _, _, _, _, rfl, rfl⟩
    · exact absurd (store ▸ before) new
    · cases allowed with
      | redeem request enrolment secret unspent =>
        exact ⟨e₀, rfl, store ▸ enrolment, unspent, _, stored, rfl, spent⟩

/-- A session that is still running has spent nothing. -/
theorem spent_elsewhere {S₀ T : Handlers.System} (reachable : Reachable S₀) (later : Later S₀ T)
    (stored : e ∈ T.store.enrolments) (spent : e.spentAt = some t) {i : Nat}
    (running : T.sessions[i]? = some ⟨c, ℓ, .running p⟩) : SpentElsewhere S₀ T i e := by
  suffices ∀ U, Later S₀ U → Later U T → e ∈ U.store.enrolments → SpentElsewhere S₀ T i e from
    this T later .refl stored
  intro U first
  induction first with
  | refl => exact fun _ => .before
  | @step U a U' first step _ ih =>
    intro rest stored'
    by_cases old : e ∈ U.store.enrolments
    · exact ih ((System.Reaches.step .refl step trivial).trans rest) old
    · obtain ⟨e₀, same, spends⟩ := spends_of_new (reachable.later first) step stored' old spent
      obtain ⟨j, k, spend⟩ := spend_lands (reachable.later first) step spends
      refine .delivered first step rest spends same spend ?_
      rintro rfl
      obtain ⟨c', _, lands, _⟩ := spend.commit
      obtain ⟨_, ℓ', _, there | there⟩ := lands.answer
      · cases running.symm.trans (rest.ended there nofun)
      · cases running.symm.trans (rest.ended there nofun)

/-- A failed redemption says why. For every redemption answered with a failure
there is the moment at which its session, whose spend had matched nothing, read
the reason. By the store of that moment, SPENT means that the secret's
enrolment was spent by another session, VOIDED that it was voided and neither
was nor will be spent by any, NOT_FOUND that the secret names none of a live
user, and EXPIRED that it was neither spent nor voided. In a run whose steps
insert no enrolment for the secret, with a deadline to come, between a spend of
it in vain and the reading of the reason, EXPIRED means that its deadline was
not after the clock too. -/
theorem failed_redemption_says_why {S₀ S : Handlers.System} (reachable : Reachable S₀) {i : Nat}
    (absent : S₀.sessions[i]? = none)
    (there : S.sessions[i]? = some ⟨c, ℓ, .answered (.ok (.redeemEnrolment a))⟩)
    (request : c.request = .redeemEnrolment r) (failed : a.outcome ≠ .redeemed) :
    (Later S₀ S → ∃ T, Reading S₀ S i c r.secretHash T ∧
      (a.outcome = .expired → ∃ e ∈ T.store.enrolments, e.secretHash = r.secretHash ∧
        e.spentAt = none ∧ e.voidedAt = none) ∧
      (a.outcome = .voided → ∃ e ∈ T.store.enrolments, e.secretHash = r.secretHash ∧
        e.voidedAt ≠ none ∧ ∀ U, Later S₀ U → Later U T ∨ Later T U →
          ∀ e' ∈ U.store.enrolments, e'.id = e.id → e'.spentAt = none) ∧
      (a.outcome = .spent → ∃ e ∈ T.store.enrolments, e.secretHash = r.secretHash ∧
        e.spentAt ≠ none ∧ SpentElsewhere S₀ T i e) ∧
      (a.outcome = .notFound → ∀ e ∈ T.store.enrolments, e.secretHash = r.secretHash →
        T.store.liveUser? e.userId = none)) ∧
    (System.Reaches service (Clear r.secretHash) S₀ S → a.outcome = .expired →
      ∃ T, Reading S₀ S i c r.secretHash T ∧
        ∃ e ∈ T.store.enrolments, e.secretHash = r.secretHash ∧ e.spentAt = none ∧
          e.voidedAt = none ∧ e.expiresAt ≤ T.clock) := by
  constructor
  · intro later
    obtain ⟨T, reading, found⟩ := read_of_answered (P := False) reachable
      (later.mono fun _ _ _ _ => False.elim) there absent request failed
    have inv := (reachable.later reading.first).inv
    refine ⟨T, reading, fun outcome => ?_, fun outcome => ?_, fun outcome => ?_, fun outcome => ?_⟩
    · rw [outcome] at found
      obtain ⟨e, found, unspent, unvoided, _⟩ := found
      obtain ⟨member, named⟩ := Store.enrolment?_mem found
      exact ⟨e, member, named, unspent, unvoided⟩
    · rw [outcome] at found
      obtain ⟨e, found, unspent, voided⟩ := found
      obtain ⟨member, named⟩ := Store.enrolment?_mem found
      refine ⟨e, member, named, voided, fun U before either e' stored same => ?_⟩
      rcases either with earlier | after
      · obtain ⟨e'', member', id, kept⟩ :=
          (earlier.evolves (reachable.later before)).enrolments.mem stored
        obtain rfl : e'' = e := Table.eq_of_key member' member (id.trans (congrArg weight same))
        by_contra spent
        exact spent (kept.ended (Or.inl spent) ▸ unspent)
      · obtain ⟨e'', member', id, kept⟩ :=
          (after.evolves (reachable.later reading.first)).enrolments.mem member
        obtain rfl := kept.ended (Or.inr voided)
        obtain rfl : e' = e'' := Table.eq_of_key stored member' (congrArg weight same)
        exact unspent
    · rw [outcome] at found
      obtain ⟨e, found, spent⟩ := found
      obtain ⟨member, named⟩ := Store.enrolment?_mem found
      obtain ⟨t, at_t⟩ := Option.ne_none_iff_exists'.mp spent
      obtain ⟨ℓ', running⟩ := reading.running
      exact ⟨e, member, named, spent, spent_elsewhere reachable reading.first member at_t running⟩
    · rw [outcome] at found
      intro e member named
      cases stored : T.store.enrolment? r.secretHash with
      | none =>
        have missing := List.find?_eq_none.mp stored e member
        simp [named] at missing
      | some e' =>
        obtain ⟨member', named'⟩ := Store.enrolment?_mem stored
        obtain rfl := inv.secrets e member e' member' (named.trans named'.symm)
        exact found e stored
  · intro clear outcome
    obtain ⟨T, reading, found⟩ := read_of_answered (P := True) reachable
      (clear.mono fun _ _ _ holds _ => holds) there absent request failed
    rw [outcome] at found
    obtain ⟨e, found, unspent, unvoided, late⟩ := found
    obtain ⟨member, named⟩ := Store.enrolment?_mem found
    exact ⟨T, reading, e, member, named, unspent, unvoided, late trivial⟩

end

/-! ### An enrolment past its deadline, and one inserted late -/

/-- A person has an enrolment that nobody redeems in time. -/
def outdated : List (Action Call) :=
  calling firstUuid (.createUser ⟨[1], [2], [3], false, ""⟩) 0 1 ++
  calling firstUuid (.createEnrolment ⟨enrolledId, aSecret, some 100, false, false, false⟩) 1 1 ++
  [.tick 200]

/-- A redemption of the secret, without a key. -/
def redeeming : RedeemEnrolmentRequest := ⟨none, aSecret, "$argon2id$"⟩

/-- The redemption that has spent in vain when the enrolment is inserted. -/
def misread : List (Action Call) :=
  calling firstUuid (.createUser ⟨[1], [2], [3], false, ""⟩) 0 1 ++
  calling firstUuid (.redeemEnrolment redeeming) 1 3 ++
  calling firstUuid (.createEnrolment ⟨enrolledId, aSecret, some 100, false, false, false⟩) 2 1 ++
  .replicate 2 (.run 1)

/-- The answer that the deadline has passed. -/
def expiredAnswer : Except Status Response :=
  .ok (.redeemEnrolment ⟨.expired, "", "", [], false, 0, 0⟩)

open Bytewise in
theorem failed_redemption_says_why_expired :
    ∃ T, Reading (after outdated)
        (after (outdated ++ calling firstUuid (.redeemEnrolment redeeming) 2 6)) 2
        ⟨some iamCaller, firstUuid, .redeemEnrolment redeeming⟩ aSecret T ∧
      ∃ e ∈ T.store.enrolments, e.secretHash = aSecret ∧ e.spentAt = none ∧
        e.voidedAt = none ∧ e.expiresAt ≤ T.clock := by
  have absent : (after outdated).sessions[2]? = none := by decide +kernel
  obtain ⟨ℓ, there⟩ : ∃ ℓ, (after (outdated ++
      calling firstUuid (.redeemEnrolment redeeming) 2 6)).sessions[2]? =
      some ⟨⟨some iamCaller, firstUuid, .redeemEnrolment redeeming⟩, ℓ,
        .answered expiredAnswer⟩ := told_eq_some (by decide +kernel)
  have reached : System.Reaches service (Clear aSecret) (after outdated)
      (after (outdated ++ calling firstUuid (.redeemEnrolment redeeming) 2 6)) :=
    reaches_more (storedNow aSecret) (fun _ _ _ => clear_of_now) (by decide +kernel)
      (by decide +kernel)
  exact (failed_redemption_says_why (reachable_after outdated) absent there rfl (by decide)).2
    reached rfl

open Bytewise in
/-- A redemption spends in vain, an enrolment with its deadline to come is
inserted for its secret, and it answers EXPIRED. -/
theorem failed_redemption_says_why_not : ¬∀ (S : Handlers.System) (i : Nat) c ℓ a r,
    Later (fresh 0) S → S.sessions[i]? = some ⟨c, ℓ, .answered (.ok (.redeemEnrolment a))⟩ →
    c.request = .redeemEnrolment r → a.outcome = .expired →
    ∃ T, Later (fresh 0) T ∧ Later T S ∧ ∃ e ∈ T.store.enrolments,
      e.secretHash = r.secretHash ∧ e.expiresAt ≤ T.clock := by
  intro truthful
  obtain ⟨ℓ, there⟩ : ∃ ℓ, (after misread).sessions[1]? =
      some ⟨⟨some iamCaller, firstUuid, .redeemEnrolment redeeming⟩, ℓ,
        .answered expiredAnswer⟩ := told_eq_some (by decide +kernel)
  have open_still : ∀ e ∈ (after misread).store.enrolments.rows,
      (after misread).clock < e.expiresAt := by decide +kernel
  obtain ⟨T, first, rest, e, member, _, late⟩ :=
    truthful _ _ _ _ _ _ (later_fresh (by decide +kernel)) there rfl rfl
  obtain ⟨e', member', _, kept⟩ :=
    (rest.evolves ((reachable_fresh 0).later first)).enrolments.mem member
  have ahead := open_still e' member'
  have clock := rest.clock_le
  rw [kept.expiresAt] at ahead
  omega

end IamDb.Reasons
