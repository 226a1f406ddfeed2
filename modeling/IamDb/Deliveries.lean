import IamDb.Refusals

/-! A redemption key belongs to one secret. The first spend under a key leaves
a ledger row, and from then on no delivery under the key changes anything. One
of another secret finds the row by either of its ledger reads and is refused,
unless it spent before the row landed, or looked the second time before. -/
namespace IamDb.Deliveries
open Txn Schema Messages Service Effects Evolution Interference Handlers Runs

section
variable [Engine]

/-- A call that is admitted and delivers a redemption under a key, or one the
ledger takes for it. -/
structure Delivers (c : Call) (r : RedeemEnrolmentRequest) (key : String) : Prop where
  request : c.request = .redeemEnrolment r
  caller : admitted c.caller = .ok ()
  keyed : r.idempotency.getD "" ≠ ""
  same : weight (r.idempotency.getD "") = weight key

/-- The ledger names a secret under a key. -/
def Names (key : String) (secret : Bytes) (σ : Store) : Prop :=
  ∃ row ∈ σ.redemptions, row.key = weight key ∧ row.secretHash = secret

theorem names_iff : Names key secret σ ↔
    ∃ row, σ.redemptions.find? (weight key) = some row ∧ row.secretHash = secret := by
  constructor
  · rintro ⟨row, stored, keyed, named⟩
    exact ⟨row, keyed ▸ Table.find?_of_mem stored, named⟩
  · rintro ⟨row, found, named⟩
    obtain ⟨stored, keyed⟩ := Table.find?_eq_some.mp found
    exact ⟨row, stored, keyed, named⟩

theorem Names.respelled (names : Names key secret σ) (same : weight key = weight key') :
    Names key' secret σ := by
  obtain ⟨row, stored, keyed, named⟩ := names
  exact ⟨row, stored, keyed.trans same, named⟩

/-- It names one. -/
theorem Names.unique (names : Names key secret σ) (other : Names key secret' σ) :
    secret = secret' := by
  obtain ⟨row, stored, named⟩ := names_iff.mp names
  obtain ⟨row', stored', named'⟩ := names_iff.mp other
  obtain rfl := Option.some.inj (stored.symm.trans stored')
  exact named.symm.trans named'

/-- And for good. -/
theorem Names.later {σ σ' : Store} (names : Names key secret σ) (evolves : Evolves σ σ') :
    Names key secret σ' := by
  obtain ⟨row, stored, named⟩ := names_iff.mp names
  obtain ⟨row', stored', same⟩ := evolves.redemptions _ _ stored
  cases same
  exact names_iff.mpr ⟨row, stored', named⟩

/-! ### Spending -/

/-- A step of a delivery that changes anything spends under its key, of which
the ledger knew nothing before. -/
theorem spends_names {S S' : Handlers.System} (reachable : Reachable S) {i : Nat}
    (here : S.sessions[i]? = some ⟨c, ℓ, .running p⟩) (delivers : Delivers c r key)
    (step : S.step service a = some S') (acts : a = .run i ∨ a = .lose i)
    (changed : S'.store ≠ S.store) :
    S.store.redemptions.find? (weight key) = none ∧ Names key r.secretHash S'.store := by
  rcases reachable.lands step with ⟨same, _⟩ | ⟨j, c', k, lands⟩
  · exact absurd same changed
  obtain rfl : i = j := by
    rcases lands.acts step with ⟨run, _⟩ | lost
    · rcases acts with rfl | rfl <;> cases run
      rfl
    · rcases acts with rfl | rfl <;> cases lost
      rfl
  obtain ⟨ℓ', p', here'⟩ := lands.running
  cases Option.some.inj (here.symm.trans here')
  obtain ⟨ef, allowed, store, result⟩ := lands_effect lands
  rw [result] at changed ⊢
  rw [← store] at changed ⊢
  cases allowed with
  | nothing => exact absurd rfl changed
  | redeem request enrolment secret _ _ _ _ _ _ _ _ recorded fresh =>
    cases delivers.request.symm.trans request
    rw [if_neg delivers.keyed] at recorded
    cases recorded
    refine ⟨delivers.same ▸ fresh _ rfl, _, Table.mem_put_self, delivers.same, secret⟩
  | _ request => cases delivers.request.symm.trans request

/-! ### A delivery before its spend, and after a spend in vain -/

/-- The refusal of a delivery whose key is another secret's. -/
def conflict : Status :=
  ⟨.invalidArgument, "this idempotency key was used with a different enrolment secret"⟩

/-- What a delivery goes on with after its first ledger read. -/
def settled (r : RedeemEnrolmentRequest) : Option RedeemEnrolmentResponse → Rpc Response
  | some replayed => do
    commit
    pure (.redeemEnrolment replayed)
  | none => do pure (.redeemEnrolment (← Enrolment.redeemFresh (r.idempotency.getD "") r))

/-- What a delivery does with the owner it reads. -/
def owned : Option String → Rpc Unit
  | none => pure ()
  | some userId => do
    let _ ← tx (Epoch.selectUserForUpdate userId)
    pure ()

/-- A delivery from its spend on. -/
def spending (r : RedeemEnrolmentRequest) : Rpc Response := do
  let spent ← Enrolment.spend r
  let answer ← if spent = 0 then Enrolment.unspent (r.idempotency.getD "") r
    else Enrolment.redeemed (r.idempotency.getD "") r
  pure (.redeemEnrolment answer)

/-- A delivery up to its spend, and after a spend in vain up to its second
ledger read. -/
inductive Early (c : Call) (r : RedeemEnrolmentRequest) :
    Local Store Write Res → Rpc Response → Prop where
  | arrived : Early c r ℓ (service c)
  | first (iso : ℓ.iso = .readCommitted) : Early c r ℓ (do
      let replayed ← Enrolment.replay (r.idempotency.getD "") r.secretHash .no
      settled r replayed)
  | owner : Early c r ℓ (do
      Enrolment.lockOwner r.secretHash
      spending r)
  | locking (userId : String) : Early c r ℓ (do
      let _ ← tx (Epoch.selectUserForUpdate userId)
      spending r)
  | spend : Early c r ℓ (spending r)
  | second : Early c r ℓ (do
      pure (.redeemEnrolment (← Enrolment.unspent (r.idempotency.getD "") r)))

/-- A session that has spent nothing and asked for no lock on the ledger row. -/
structure Unasked (key : String) (ℓ : Local Store Write Res) : Prop where
  pending : ℓ.pending = []
  seen : ∀ g ∈ ℓ.seen, g.lock.res ≠ .redemption (weight key)

theorem service_delivers (delivers : Delivers c r key) :
    service c = .begin .readCommitted (do
      let replayed ← Enrolment.replay (r.idempotency.getD "") r.secretHash .no
      settled r replayed) := by
  unfold service
  rw [delivers.request, delivers.caller]
  show (Enrolment.redeem r >>= fun answer => pure (.redeemEnrolment answer) : Rpc Response) = _
  unfold Enrolment.redeem
  simp only [if_neg delivers.keyed, bind_assoc]
  refine congrArg (Prog.begin _) (bind_congr fun replayed => ?_)
  cases replayed <;> rfl

/-- What a ledger read of a delivery comes to. -/
theorem replay_move {k : Option RedeemEnrolmentResponse → Rpc Response}
    (current : lock = .yes ∨ ℓ.iso = .readCommitted) (pending : ℓ.pending = [])
    (moves : (Enrolment.replay key secret lock >>= k).move now σ ℓ = some m) :
    m.loc = ℓ.after (Enrolment.selectRedemption key lock) σ now ∧
      (m.next = k none ∧ σ.redemptions.find? (weight key) = none ∨
        Names key secret σ ∧ m.next.upcoming ≠ .done ∨
        m.next = .fail conflict ∧ ∃ other, Names key other σ ∧ other ≠ secret) := by
  cases moves
  have view : ℓ.view (Enrolment.selectRedemption key lock) σ = σ := by
    have current : ℓ.view (Enrolment.selectRedemption key lock) σ = applyAll ℓ.pending σ := by
      rcases current with rfl | iso
      · exact Local.view_current rfl
      · exact Local.view_committed iso
    rw [current, pending, applyAll_nil]
  refine ⟨rfl, ?_⟩
  dsimp only
  rw [view]
  cases prior : σ.redemptions.find? (weight key) with
  | none => exact Or.inl ⟨by simp only [Enrolment.selectRedemption, prior]; rfl, rfl⟩
  | some row =>
    by_cases same : row.secretHash = secret
    · refine Or.inr (Or.inl ⟨names_iff.mpr ⟨row, prior, same⟩, ?_⟩)
      simp only [Enrolment.selectRedemption, prior]
      show Prog.upcoming (Prog.bind (if row.secretHash ≠ secret then _ else _) k) ≠ .done
      rw [if_neg (not_not.mpr same)]
      rintro ⟨⟩
    · refine Or.inr (Or.inr ⟨?_, _, names_iff.mpr ⟨row, prior, rfl⟩, same⟩)
      simp only [Enrolment.selectRedemption, prior]
      show Prog.bind (if row.secretHash ≠ secret then _ else _) k = .fail conflict
      rw [if_pos same]
      rfl

/-- What a delivery under way has come to: it has spent or has asked for the
ledger row, or the ledger names its secret, or it is early. -/
def Stage (c : Call) (r : RedeemEnrolmentRequest) (key : String) (σ : Store)
    (ℓ : Local Store Write Res) (p : Rpc Response) : Prop :=
  ℓ.pending ≠ [] ∧ p.Rest ∨ (∃ g ∈ ℓ.seen, g.lock.res = .redemption (weight key)) ∨
    Names key r.secretHash σ ∨ ℓ.pending = [] ∧ Early c r ℓ p

/-- The spend answers zero and writes nothing, or one and writes something. -/
theorem spend_cases (spent : (Enrolment.updateSpentAt secret).exec now σ = (n, ws)) :
    n = 0 ∧ ws = [] ∨ n = 1 ∧ ws ≠ [] := by
  simp only [Enrolment.updateSpentAt] at spent
  split at spent
  · cases spent
    exact Or.inr ⟨rfl, List.cons_ne_nil _ _⟩
  · cases spent
    exact Or.inl ⟨rfl, rfl⟩

/-- An early delivery takes a step to another stage, or ends: refused, for the
ledger names another secret, or while it names none. -/
theorem Early.move (early : Early c r ℓ p) (delivers : Delivers c r key)
    (unasked : Unasked key ℓ) (moves : p.move now σ ℓ = some m) :
    m.next.upcoming ≠ .done ∧ Stage c r key σ m.loc m.next ∨
      m.next = .fail conflict ∧ (∃ other, Names key other σ ∧ other ≠ r.secretHash) ∨
      (∃ e, m.next = .fail e) ∧ σ.redemptions.find? (weight key) = none := by
  cases early with
  | arrived =>
    rw [service_delivers delivers] at moves
    cases moves
    exact Or.inl ⟨by rintro ⟨⟩, Or.inr (Or.inr (Or.inr ⟨rfl, .first rfl⟩))⟩
  | first iso =>
    obtain ⟨loc, next⟩ := replay_move (Or.inr iso) unasked.pending moves
    rcases next with ⟨next, absent⟩ | ⟨names, running⟩ | ⟨next, other, names, differs⟩
    · rw [delivers.same] at absent
      cases fits : fitsPasswordColumn r.argon2idHash with
      | error e =>
        refine Or.inr (Or.inr ⟨⟨e, ?_⟩, absent⟩)
        rw [next, settled, Enrolment.redeemFresh, fits]
        rfl
      | ok _ =>
        have owner : m.next = (do
            Enrolment.lockOwner r.secretHash
            spending r) := by
          rw [next, settled, Enrolment.redeemFresh, fits]
          show ((Enrolment.lockOwner r.secretHash >>= fun _ => (do
            let spent ← Enrolment.spend r
            if spent = 0 then Enrolment.unspent (r.idempotency.getD "") r
            else Enrolment.redeemed (r.idempotency.getD "") r)) >>= fun answer =>
              pure (.redeemEnrolment answer) : Rpc Response) = _
          simp only [bind_assoc]
          refine bind_congr fun _ => bind_congr fun spent => ?_
          split <;> rfl
        rw [owner, loc]
        refine Or.inl ⟨by rintro ⟨⟩, Or.inr (Or.inr (Or.inr ⟨?_, .owner⟩))⟩
        rw [Local.after_pending, unasked.pending]
        rfl
    · exact Or.inl ⟨running, Or.inr (Or.inr (Or.inl (names.respelled delivers.same)))⟩
    · exact Or.inr (Or.inl ⟨next, other, names.respelled delivers.same, differs⟩)
  | owner =>
    cases moves
    have pending : (ℓ.after (Enrolment.selectOwner r.secretHash) σ now).pending = [] := by
      rw [Local.after_pending, unasked.pending]
      rfl
    left
    show Prog.upcoming (Prog.bind (owned _) fun _ => spending r) ≠ .done ∧
      Stage c r key σ _ (Prog.bind (owned _) fun _ => spending r)
    cases ((Enrolment.selectOwner r.secretHash).exec now
      (ℓ.view (Enrolment.selectOwner r.secretHash) σ)).1 with
    | none => exact ⟨by rintro ⟨⟩, Or.inr (Or.inr (Or.inr ⟨pending, .spend⟩))⟩
    | some userId => exact ⟨by rintro ⟨⟩, Or.inr (Or.inr (Or.inr ⟨pending, .locking userId⟩))⟩
  | locking userId =>
    cases moves
    refine Or.inl ⟨by rintro ⟨⟩, Or.inr (Or.inr (Or.inr ⟨?_, .spend⟩))⟩
    rw [Local.after_pending, unasked.pending]
    rfl
  | spend =>
    cases moves
    left
    cases spent : (Enrolment.updateSpentAt r.secretHash).exec now
        (ℓ.view (Enrolment.updateSpentAt r.secretHash) σ) with
    | mk n ws =>
      have pending : (ℓ.after (Enrolment.updateSpentAt r.secretHash) σ now).pending = ws := by
        rw [Local.after_pending, spent, unasked.pending]
        rfl
      rcases spend_cases spent with ⟨rfl, rfl⟩ | ⟨rfl, writes⟩
      · refine ⟨?_, Or.inr (Or.inr (Or.inr ⟨pending, .second⟩))⟩
        show Prog.upcoming (Enrolment.unspent (r.idempotency.getD "") r >>= fun answer =>
          pure (.redeemEnrolment answer) : Rpc Response) ≠ .done
        unfold Enrolment.unspent
        rw [if_neg delivers.keyed]
        rintro ⟨⟩
      · refine ⟨by rintro ⟨⟩, Or.inl ⟨pending ▸ writes, ?_⟩⟩
        exact (Endings.rest_redeemed _).map _
  | second =>
    unfold Enrolment.unspent at moves
    simp only [if_neg delivers.keyed, bind_assoc] at moves
    obtain ⟨loc, next⟩ := replay_move (Or.inl rfl) unasked.pending moves
    rcases next with ⟨next, absent⟩ | ⟨names, running⟩ | ⟨next, other, names, differs⟩
    · rw [next]
      left
      refine ⟨by rintro ⟨⟩, Or.inr (Or.inl ?_)⟩
      rw [loc, Local.after_seen]
      refine ⟨⟨⟨.redemption (weight key), .exclusive⟩, now⟩, List.mem_append_right _ ?_, rfl⟩
      rw [← delivers.same]
      exact mem_granted.mpr ⟨_, List.mem_singleton.mpr rfl, rfl, rfl⟩
    · exact Or.inl ⟨running, Or.inr (Or.inr (Or.inl (names.respelled delivers.same)))⟩
    · exact Or.inr (Or.inl ⟨next, other, names.respelled delivers.same, differs⟩)

theorem seen_move {p : Rpc Response} (moves : p.move now σ ℓ = some m) (seen : g ∈ ℓ.seen) :
    g ∈ m.loc.seen := by
  cases p with
  | ret a => cases moves
  | fail e => cases moves
  | begin iso p => cases moves; exact seen
  | stmt s k => cases moves; exact List.mem_append_left _ seen
  | auto iso s k => cases moves; exact List.mem_append_left _ seen
  | commit p => cases moves; exact seen

/-- A delivery that goes on takes a step to another stage. -/
theorem Stage.move (stage : Stage c r key σ ℓ p) (delivers : Delivers c r key)
    (moves : p.move now σ ℓ = some m) (running : m.next.upcoming ≠ .done) :
    Stage c r key σ m.loc m.next := by
  rcases stage with ⟨spent, rest⟩ | ⟨g, seen, asked⟩ | names | ⟨pending, early⟩
  · obtain ⟨rest, ws, grown⟩ := rest.move moves running
    exact Or.inl ⟨by rw [grown]; simp [spent], rest⟩
  · exact Or.inr (Or.inl ⟨g, seen_move moves seen, asked⟩)
  · exact Or.inr (Or.inr (Or.inl names))
  · by_cases asked : ∃ g ∈ ℓ.seen, g.lock.res = .redemption (weight key)
    · obtain ⟨g, seen, asked⟩ := asked
      exact Or.inr (Or.inl ⟨g, seen_move moves seen, asked⟩)
    · have unasked : Unasked key ℓ := ⟨pending, fun g seen on => asked ⟨g, seen, on⟩⟩
      rcases early.move delivers unasked moves with ⟨_, stage⟩ | ⟨next, _⟩ | ⟨⟨e, next⟩, _⟩
      · exact stage
      · rw [next] at running
        exact absurd rfl running
      · rw [next] at running
        exact absurd rfl running

theorem Stage.later {σ σ' : Store} (stage : Stage c r key σ ℓ p) (evolves : Evolves σ σ') :
    Stage c r key σ' ℓ p :=
  stage.imp id (Or.imp id (Or.imp (·.later evolves) id))

/-- Every delivery under way is at one of the stages. -/
theorem stage_reached {S : Handlers.System} (reachable : Reachable S) {i : Nat}
    (there : S.sessions[i]? = some ⟨c, ℓ, .running p⟩) (delivers : Delivers c r key) :
    Stage c r key S.store ℓ p := by
  obtain ⟨σ, now, inv, later⟩ := reachable
  induction later generalizing i c ℓ p with
  | refl => cases there
  | @step S a S' before step _ ih =>
    have reachable : Reachable S := ⟨σ, now, inv, before⟩
    have evolves : Evolves S.store S'.store :=
      Later.evolves (.step .refl step trivial) reachable
    cases System.turn_of_step step there with
    | kept here => exact (ih here delivers).later evolves
    | arrived _ _ _ _ new =>
      obtain ⟨rfl, rfl, rfl, _⟩ := Session.reached_running new.symm
      exact Or.inr (Or.inr (Or.inr ⟨rfl, .arrived⟩))
    | ran advances _ _ new =>
      obtain ⟨rfl, rfl, rfl, running⟩ := Session.reached_running new.symm
      exact ((ih advances.here delivers).move delivers advances.moves running).later evolves
    | ended _ gone => cases gone

/-! ### Once the ledger names a secret -/

/-- A delivery that has spent, or has asked for a lock on the ledger row, while
the ledger names another secret under its key. -/
def Overtaken (key : String) (S : Handlers.System) : Prop :=
  ∃ (i : Nat) (c : Call) (ℓ : Local Store Write Res) (p : Rpc Response)
    (r : RedeemEnrolmentRequest) (other : Bytes),
    S.sessions[i]? = some ⟨c, ℓ, .running p⟩ ∧ Delivers c r key ∧ Names key other S.store ∧
      other ≠ r.secretHash ∧
      (ℓ.pending ≠ [] ∨ ∃ g ∈ ℓ.seen, g.lock.res = .redemption (weight key))

/-- A check that no delivery has been overtaken, for none has spent or asked. -/
def clearNow (key : String) (S : Handlers.System) (_ : Action Call) (_ : Handlers.System) : Bool :=
  S.sessions.all fun s => match s.phase with
    | .running _ => s.loc.pending.isEmpty &&
      s.loc.seen.all fun g => g.lock.res ≠ .redemption (weight key)
    | _ => true

theorem clear_of_now {S : Handlers.System} (now : clearNow key S a S' = true) :
    ¬Overtaken key S := by
  rintro ⟨i, c, ℓ, p, r, other, there, _, _, _, asked⟩
  have idle := List.all_eq_true.mp now _ (List.mem_of_getElem? there)
  simp only [Bool.and_eq_true, List.isEmpty_iff, List.all_eq_true, decide_eq_true_eq] at idle
  rcases asked with spent | ⟨g, seen, on⟩
  · exact spent idle.1
  · exact idle.2 g seen on

end

/-! ### Two secrets under one key -/

/-- A delivery of a secret under one key. -/
def delivering (secret : Bytes) (i n : Nat) : List (Action Call) :=
  calling firstUuid (.redeemEnrolment ⟨some "key", secret, "$argon2id$"⟩) i n

end IamDb.Deliveries
