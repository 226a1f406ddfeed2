import IamDb.Overrides
import IamDb.Txn.Working

/-! Idempotency keys in the ledgers. A ledger finds a key by the sort key of its
text column, so two keys that it can hold are distinct requests exactly if they
differ by more than letter case and trailing spaces: then a call behaves, step by
step, as if the other key had never been used. -/
namespace IamDb.Folding
open Schema

/-- A text column that takes no notice of letter case and trailing spaces. -/
def fold (s : String) : String :=
  String.ofList ((s.toList.reverse.dropWhile (· = ' ')).reverse.map Char.toLower)

theorem toLower_plain (plain : c.isLower ∨ c.isDigit ∨ c = ':' ∨ c = '-') :
    Char.toLower c = c ∧ c ≠ ' ' := by
  have low : ¬(c.val ≥ 'A'.val ∧ c.val ≤ 'Z'.val) ∧ c ≠ ' ' := by
    rcases plain with lower | digit | rfl | rfl
    · have lower := isLower_iff.mp lower
      constructor
      · rintro ⟨_, upper⟩
        exact absurd (UInt32.le_trans lower.1 upper) (by decide)
      · rintro rfl
        exact absurd lower.1 (by decide)
    · simp only [Char.isDigit, Bool.and_eq_true, decide_eq_true_eq, ge_iff_le] at digit
      constructor
      · rintro ⟨upper, _⟩
        exact absurd (UInt32.le_trans upper digit.2) (by decide)
      · rintro rfl
        exact absurd digit.1 (by decide)
    · decide
    · decide
  exact ⟨dif_neg low.1, low.2⟩

theorem fold_plain (plain : Plain s) : fold s = s := by
  have kept : s.toList.reverse.dropWhile (· = ' ') = s.toList.reverse := by
    cases shape : s.toList.reverse with
    | nil => rfl
    | cons c rest =>
      have member : c ∈ s.toList := by
        rw [← List.mem_reverse, shape]
        exact List.mem_cons_self
      rw [List.dropWhile_cons, if_neg (by simpa using (toLower_plain (plain c member)).2)]
  have same : s.toList.map Char.toLower = s.toList := by
    rw [List.map_congr_left fun c member => (toLower_plain (plain c member)).1]
    exact List.map_id' _
  rw [fold, kept, List.reverse_reverse, same, String.ofList_toList]

/-- An engine that compares text that way. -/
scoped instance folding : Engine where
  weight := fold
  weight_plain _ _ plain plain' same := by rwa [fold_plain plain, fold_plain plain'] at same
  maxTimestamp := 2147483647
  fits := withinWidth
  fits_short := withinWidth_short
  lowercase := id
  printable c := ' ' ≤ c && c ≤ '~'

end IamDb.Folding

namespace IamDb.Keys
open Txn Schema Messages Service Effects Evolution Handlers Runs

section
variable [Engine]

/-- The key of a call that a ledger honours. -/
def keyOf (c : Call) : Option String :=
  match c.request with
  | .redeemEnrolment r => r.idempotency
  | .setInheritedSetting r => r.idempotency
  | _ => none

/-- The store without what was recorded under a key. -/
def forget (key : String) (σ : Store) : Store :=
  { σ with
    redemptions := σ.redemptions.eraseAll
      ((σ.redemptions.rows.filter fun row => row.idempotencyKey = key).map (·.key))
    settingWrites := σ.settingWrites.eraseAll
      ((σ.settingWrites.rows.filter fun row => row.idempotencyKey = key).map (·.key)) }

/-! ### Stores a key does not tell apart -/

/-- Two stores that differ in the ledgers only, and there not under a key. -/
structure Agree (key : String) (σ σ' : Store) : Prop where
  rest : σ' = { σ with redemptions := σ'.redemptions, settingWrites := σ'.settingWrites }
  redemption : σ'.redemptions.find? (weight key) = σ.redemptions.find? (weight key)
  settingWrite : σ'.settingWrites.find? (weight key) = σ.settingWrites.find? (weight key)

theorem Agree.refl (key : String) (σ : Store) : Agree key σ σ := ⟨rfl, rfl, rfl⟩

/-- Every key a ledger holds fits its column. -/
structure Held (σ : Store) : Prop where
  redemptions : ∀ row ∈ σ.redemptions,
    fits Enrolment.maxIdempotencyKey row.idempotencyKey = true
  settingWrites : ∀ row ∈ σ.settingWrites,
    fits Setting.maxIdempotencyKey row.idempotencyKey = true

theorem agree_forget {key key' : String} {σ : Store} (held : Held σ)
    (apart : weight key ≠ weight key' ∨ fits Setting.maxIdempotencyKey key' = false) :
    Agree key σ (forget key' σ) := by
  refine ⟨rfl, ?_, ?_⟩
  · refine Table.find?_eraseAll fun gone => ?_
    obtain ⟨row, member, same⟩ := List.mem_map.mp gone
    obtain ⟨stored, named⟩ := List.mem_filter.mp member
    have key' := of_decide_eq_true named
    rcases apart with other | long
    · exact other (same.symm.trans (congrArg weight key'))
    · cases (key' ▸ long).symm.trans (held.redemptions row stored)
  · refine Table.find?_eraseAll fun gone => ?_
    obtain ⟨row, member, same⟩ := List.mem_map.mp gone
    obtain ⟨stored, named⟩ := List.mem_filter.mp member
    have key' := of_decide_eq_true named
    rcases apart with other | long
    · exact other (same.symm.trans (congrArg weight key'))
    · cases (key' ▸ long).symm.trans (held.settingWrites row stored)

theorem agree_apply {key : String} {σ σ' : Store} (agree : Agree key σ σ') (w : Write) :
    Agree key (w.apply σ) (w.apply σ') := by
  obtain ⟨rest, redemption, settingWrite⟩ := agree
  rw [rest]
  cases w with
  | redemption row =>
    refine ⟨rfl, ?_, settingWrite⟩
    simp only [Write.apply, Table.find?_put, redemption]
  | settingWrite row =>
    refine ⟨rfl, redemption, ?_⟩
    simp only [Write.apply, Table.find?_put, settingWrite]
  | _ => exact ⟨rfl, redemption, settingWrite⟩

theorem agree_applyAll {key : String} {σ σ' : Store} (agree : Agree key σ σ') (ws : List Write) :
    Agree key (applyAll ws σ) (applyAll ws σ') := by
  induction ws generalizing σ σ' with
  | nil => exact agree
  | cons w ws ih => exact ih (agree_apply agree w)

/-- A statement that claims, answers and writes the same on stores a key does
not tell apart. -/
def Unaware (key : String) (ρ : Type) (s : Sql ρ) : Prop :=
  ∀ now iso σ σ', Agree key σ σ' →
    s.claims now iso σ' = s.claims now iso σ ∧ s.exec now σ' = s.exec now σ

/-- A statement that does not read the ledgers. -/
theorem unaware_of_blind {s : Sql ρ} (blind : ∀ now iso σ t t',
    s.claims now iso { σ with redemptions := t, settingWrites := t' } = s.claims now iso σ ∧
      s.exec now { σ with redemptions := t, settingWrites := t' } = s.exec now σ) :
    Unaware key ρ s := by
  intro now iso σ σ' agree
  rw [agree.rest]
  exact blind now iso σ _ _

/-! ### The statements of a redemption and of a settings call -/

section
variable {key : String}

theorem unaware_selectRedemption : Unaware key _ (Enrolment.selectRedemption key lock) := by
  intro now iso σ σ' agree
  simp only [Enrolment.selectRedemption, agree.redemption, and_self]

theorem unaware_insertRedemption (named : row.idempotencyKey = key) :
    Unaware key _ (Enrolment.insertRedemption row) := by
  intro now iso σ σ' agree
  have same : σ'.redemptions.find? row.key = σ.redemptions.find? row.key := by
    rw [Redemption.key, named]
    exact agree.redemption
  have enrolments : σ'.enrolments = σ.enrolments := by rw [agree.rest]
  simp only [Enrolment.insertRedemption, same, enrolments, and_self]

theorem unaware_selectSettingWrite : Unaware key _ (Setting.selectSettingWrite key lock) := by
  intro now iso σ σ' agree
  simp only [Setting.selectSettingWrite, agree.settingWrite, and_self]

theorem unaware_insertSettingWrite {claim : Setting.Claim} (named : claim.key = key) :
    Unaware key _ (Setting.insertSettingWrite claim) := by
  intro now iso σ σ' agree
  simp only [Setting.insertSettingWrite, named, agree.settingWrite, and_self]

@[simp] theorem each_orElse {Q : ∀ ρ : Type, Sql ρ → Prop} {e : DbError → Status}
    {r : Except DbError ρ} : (orElse e r : Rpc ρ).Each Q := by
  cases r <;> trivial

/-- No statement of the rest of a program is aware of other keys. -/
abbrev Blind (key : String) (p : Rpc α) : Prop := p.Each (Unaware key)

theorem blind_query {s : Sql ρ} {k : ρ → Rpc α} (unaware : Unaware key ρ s)
    (rest : ∀ r, Blind key (k r)) : Blind key (tx s >>= k) := ⟨unaware, rest⟩

theorem blind_read {s : Sql ρ} {k : ρ → Rpc α} (blind : ∀ now iso σ t t',
      s.claims now iso { σ with redemptions := t, settingWrites := t' } = s.claims now iso σ ∧
        s.exec now { σ with redemptions := t, settingWrites := t' } = s.exec now σ)
    (rest : ∀ r, Blind key (k r)) : Blind key (tx s >>= k) :=
  blind_query (unaware_of_blind blind) rest

theorem blind_replay : Blind key (Enrolment.replay key secret lock) := by
  refine blind_query unaware_selectRedemption fun prior => ?_
  cases prior with
  | none => trivial
  | some prior =>
    dsimp only
    split
    · trivial
    · refine blind_read (fun _ _ _ _ _ => ⟨rfl, rfl⟩) fun _ => Prog.Each.bind each_orElse fun _ => ?_
      exact blind_read (fun _ _ _ _ _ => ⟨rfl, rfl⟩) fun _ => Prog.Each.bind each_orElse fun _ =>
        trivial

theorem blind_lockOwner : Blind key (Enrolment.lockOwner secret) := by
  refine blind_read (fun _ _ _ _ _ => ⟨rfl, rfl⟩) fun owner => ?_
  cases owner with
  | none => trivial
  | some userId => exact blind_read (fun _ _ _ _ _ => ⟨rfl, rfl⟩) fun _ => trivial

theorem blind_unspent : Blind key (Enrolment.unspent key r) := by
  have explained : Blind key (do
      let outcome ← Enrolment.unredeemable r.secretHash
      commit
      pure ⟨outcome, "", "", [], false, 0, 0⟩ : Rpc RedeemEnrolmentResponse) := by
    refine Prog.Each.bind ?_ fun _ => trivial
    refine blind_read (fun _ _ _ _ _ => ⟨rfl, rfl⟩) fun row => ?_
    split <;> trivial
  unfold Enrolment.unspent
  dsimp only
  split
  · exact explained
  · refine Prog.Each.bind blind_replay fun replayed => ?_
    cases replayed with
    | some a => trivial
    | none => exact explained

theorem blind_redeemed : Blind key (Enrolment.redeemed key r) := by
  unfold Enrolment.redeemed
  refine blind_read (fun _ _ _ _ _ => ⟨rfl, rfl⟩) fun _ => Prog.Each.bind each_orElse fun row => ?_
  obtain ⟨enrolmentId, userId, externalId, revoking⟩ := row
  refine blind_read (fun _ _ _ _ _ => ⟨rfl, rfl⟩) fun _ => ?_
  refine blind_read (fun _ _ _ _ _ => ⟨rfl, rfl⟩) fun _ => Prog.Each.bind each_orElse fun epoch => ?_
  have stored (voided : Nat) : Blind key (do
      let stored ← tx (Enrolment.upsertPassword userId r.argon2idHash)
      orElse db stored
      if key = "" then pure () else do
        let recorded ← tx (Enrolment.insertRedemption
          ⟨key, r.secretHash, enrolmentId, userId, epoch⟩)
        orElse db recorded
      commit
      pure ⟨.redeemed, userId, enrolmentId, externalId, revoking, epoch, voided⟩ :
        Rpc RedeemEnrolmentResponse) := by
    refine blind_read (fun _ _ _ _ _ => ⟨rfl, rfl⟩) fun _ => Prog.Each.bind each_orElse fun _ => ?_
    dsimp only
    split
    · trivial
    · exact blind_query (unaware_insertRedemption rfl) fun _ => Prog.Each.bind each_orElse fun _ =>
        trivial
  dsimp only
  split
  · refine Prog.Each.bind ?_ fun _ => Prog.Each.bind ?_ fun voided => stored voided
    · refine blind_read (fun _ _ _ _ _ => ⟨rfl, rfl⟩) fun user => ?_
      cases user with
      | false => trivial
      | true => exact blind_read (fun _ _ _ _ _ => ⟨rfl, rfl⟩) fun _ => trivial
    · exact blind_read (fun _ _ _ _ _ => ⟨rfl, rfl⟩) fun _ => trivial
  · exact stored 0

theorem blind_redeem (named : r.idempotency = some key) : Blind key (Enrolment.redeem r) := by
  have fresh : Blind key (Enrolment.redeemFresh key r) := by
    refine Prog.Each.bind Prog.each_lift fun _ => Prog.Each.bind blind_lockOwner fun _ => ?_
    refine blind_read (fun _ _ _ _ _ => ⟨rfl, rfl⟩) fun spent => ?_
    split
    · exact blind_unspent
    · exact blind_redeemed
  unfold Enrolment.redeem
  rw [named]
  rw [Blind, Prog.each_start]
  dsimp only [Option.getD_some]
  split
  · exact fresh
  · refine Prog.Each.bind blind_replay fun replayed => ?_
    cases replayed with
    | some a => trivial
    | none => exact fresh

theorem blind_recorded : Blind key (Setting.recorded key lock) :=
  blind_query unaware_selectSettingWrite fun _ => trivial

theorem blind_alreadyRecorded {claim : Setting.Claim} (named : claim.key = key) :
    Blind key claim.alreadyRecorded := by
  unfold Setting.Claim.alreadyRecorded
  rw [named]
  split
  · trivial
  · refine Prog.Each.bind blind_recorded fun prior => ?_
    cases prior with
    | none => trivial
    | some prior => exact Prog.Each.bind Prog.each_lift fun _ => trivial

theorem blind_recordClaim {claim : Setting.Claim} (named : claim.key = key) :
    Blind key (Setting.recordClaim claim) := by
  unfold Setting.recordClaim
  split
  · trivial
  · refine blind_query (unaware_insertSettingWrite named) fun done => ?_
    cases done with
    | ok _ => trivial
    | error e =>
      dsimp only
      split
      · trivial
      · rw [named]
        refine Prog.Each.bind blind_recorded fun prior => ?_
        cases prior with
        | none => trivial
        | some prior => exact Prog.each_lift

theorem blind_writeAtScope : Blind key (Setting.writeAtScope r scope) := by
  unfold Setting.writeAtScope
  split
  · exact blind_read (fun _ _ _ _ _ => ⟨rfl, rfl⟩) fun _ => each_orElse
  · exact blind_read (fun _ _ _ _ _ => ⟨rfl, rfl⟩) fun _ => each_orElse
  · refine blind_read (fun _ _ _ _ _ => ⟨rfl, rfl⟩) fun _ => Prog.Each.bind each_orElse fun done => ?_
    split
    · refine Prog.Each.bind ?_ fun _ => trivial
      refine blind_read (fun _ _ _ _ _ => ⟨rfl, rfl⟩) fun live => ?_
      cases live <;> trivial
    · trivial

theorem blind_answer : Blind key (Setting.answer settingName) := by
  refine Prog.Each.bind ?_ fun _ => trivial
  refine blind_read (fun _ _ _ _ _ => ⟨rfl, rfl⟩) fun _ => ?_
  exact blind_read (fun _ _ _ _ _ => ⟨rfl, rfl⟩) fun _ => trivial

theorem blind_storeSetting (named : r.idempotency = some key) :
    Blind key (Setting.storeSetting r) := by
  have claimed : (Setting.Claim.of r).key = key := by simp [Setting.Claim.of, named]
  refine Prog.Each.bind Prog.each_lift fun scope => ?_
  rw [Prog.each_start]
  refine Prog.Each.bind (blind_alreadyRecorded claimed) fun replayed => ?_
  split
  · exact blind_answer
  · exact Prog.Each.bind blind_writeAtScope fun _ =>
      Prog.Each.bind (blind_recordClaim claimed) fun _ => blind_answer

end

/-- A call that carries a key is blind to every other. -/
theorem blind_service (carries : keyOf c = some key) : Blind key (service c) := by
  refine Prog.Each.bind Prog.each_lift fun _ => ?_
  unfold keyOf at carries
  split at carries
  · rename_i r request
    rw [request]
    exact Prog.Each.bind (blind_redeem carries) fun _ => trivial
  · rename_i r request
    rw [request]
    exact Prog.Each.bind (blind_storeSetting carries) fun _ => trivial
  · cases carries

/-! ### Steps -/

/-- What a step claims, writes and goes on with, and what its session holds and
has pending after it. -/
def sight (m : Move Store Write Res Status Response) :
    List (Claim Res) × List Write × Rpc Response × List (Grant Res) × List Write :=
  (m.claims, m.writes, m.next, m.loc.held, m.loc.pending)

/-- A program blind to other keys takes the same step from stores its key does
not tell apart. -/
theorem sight_of_agree {p : Rpc Response} (blind : Blind key p) (agree : Agree key σ σ')
    (now : Int) (ℓ : Local Store Write Res) :
    (p.move now σ' ℓ).map sight = (p.move now σ ℓ).map sight := by
  cases p with
  | stmt s k =>
    have base : Agree key (ℓ.base s.plain σ) (ℓ.base s.plain σ') := by
      unfold Local.base
      split
      · cases ℓ.snapshot with
        | none => exact agree
        | some snap => exact .refl key snap.store
      · exact agree
    obtain ⟨claims, exec⟩ := blind.1 now ℓ.iso _ _ (agree_applyAll base ℓ.pending)
    have claims' : s.claims now ℓ.iso (ℓ.view s σ') = s.claims now ℓ.iso (ℓ.view s σ) := claims
    have exec' : s.exec now (ℓ.view s σ') = s.exec now (ℓ.view s σ) := exec
    simp only [Prog.move, Option.map_some, sight, Local.after_held, Local.after_pending, claims',
      exec']
  | auto iso s k =>
    obtain ⟨claims, exec⟩ := blind.1 now iso _ _ agree
    simp only [Prog.move, Option.map_some, sight, claims, exec]
    rfl
  | _ => rfl

/-- A call is blind to every key but the one it carries, at every point. -/
theorem blind_underway {S : Handlers.System} (reachable : Reachable S) {i : Nat}
    (there : S.sessions[i]? = some ⟨c, ℓ, .running p⟩) (carries : keyOf c = some key) :
    Blind key p := by
  obtain ⟨σ, now, inv, before⟩ := reachable
  exact before.underway (P := fun c _ p => ∀ key, keyOf c = some key → Blind key p) rfl
    (fun _ _ => blind_service) (fun _ _ _ _ _ _ blind moves _ key carries =>
      (blind key carries).move moves) there key carries

/-! ### What the ledgers hold -/

theorem held_of_allowed {c : Call} {k : Committed} (allowed : Allowed c k ef)
    (held : Held k.store) : Held (ef.apply k.store) := by
  cases allowed with
  | @redeem r e spent u _ blank p revoked voided _ _ _ _ _ _ _ _ _ _ _ recorded _ _ width =>
    subst recorded
    refine ⟨fun row stored => ?_, held.settingWrites⟩
    by_cases unkeyed : r.idempotency.getD "" = ""
    · simp only [Effect.apply, if_pos unkeyed] at stored
      exact held.redemptions row stored
    · simp only [Effect.apply, if_neg unkeyed] at stored
      rcases Table.mem_put.mp stored with rfl | ⟨old, _⟩
      · exact width unkeyed
      · exact held.redemptions row old
  | @setting r level claim _ settles fresh width =>
    have kept : (level.apply k.store).redemptions = k.store.redemptions ∧
        (level.apply k.store).settingWrites = k.store.settingWrites := by
      cases level <;> exact ⟨rfl, rfl⟩
    cases claim with
    | none =>
      refine ⟨fun row stored => held.redemptions row ?_, fun row stored =>
        held.settingWrites row ?_⟩
      · exact kept.1 ▸ stored
      · exact kept.2 ▸ stored
    | some w =>
      refine ⟨fun row stored => held.redemptions row (kept.1 ▸ stored), fun row stored => ?_⟩
      rcases Table.mem_put.mp stored with rfl | ⟨old, _⟩
      · rw [(fresh row rfl).1]
        exact (Bool.and_eq_true_iff.mp (width (Option.some_ne_none row))).1
      · exact held.settingWrites row (kept.2 ▸ old)
  | _ => exact ⟨held.redemptions, held.settingWrites⟩

theorem held_later {S : Handlers.System} (later : Later (fresh now) S) : Held S.store := by
  induction later with
  | refl => exact ⟨nofun, nofun⟩
  | @step T a T' before step _ ih =>
    rcases ((reachable_fresh now).later before).lands step with ⟨same, _⟩ | ⟨i, c, k, lands⟩
    · rwa [same]
    · obtain ⟨ef, allowed, store, result⟩ := lands_effect lands
      rw [result, ← store]
      exact held_of_allowed allowed (store ▸ ih)

/-! ### A settings call under a key -/

theorem working_alreadyRecorded {claim : Setting.Claim} {W : Store}
    (absent : W.settingWrites.find? (weight claim.key) = none) :
    claim.alreadyRecorded.working now W = .ok (false, W) := by
  unfold Setting.Claim.alreadyRecorded
  split
  · rfl
  · have read : (Setting.recorded claim.key .no).working now W = .ok (none, W) := by
      simp only [Setting.recorded, Prog.working_query, Setting.selectSettingWrite, absent]
      rfl
    rw [Prog.working_bind read]
    rfl

theorem working_writeAtScope {W : Store} (stores : Setting.storable (r.value.getD 0) = true) :
    ∃ n row, (Setting.writeAtScope r .org).working now W =
      .ok (n, { W with orgSettings := W.orgSettings.put row }) := by
  simp only [Setting.writeAtScope, Prog.working_query, Setting.upsertOrgSetting, stores]
  cases W.orgSettings.find? (weight r.name) with
  | some s => exact ⟨_, _, rfl⟩
  | none => exact ⟨_, _, rfl⟩

theorem working_recordClaim {claim : Setting.Claim} {W : Store} (keyed : claim.key ≠ "")
    (held : claim.fits = true) (absent : W.settingWrites.find? (weight claim.key) = none) :
    (Setting.recordClaim claim).working now W =
      .ok ((), { W with settingWrites := W.settingWrites.put ⟨claim.key, claim.scope, claim.teamId,
        claim.name, claim.value, claim.locked, claim.clear⟩ }) := by
  simp only [Setting.recordClaim, if_neg keyed, Prog.working_query, Setting.insertSettingWrite, held,
    absent]
  rfl

/-- What an accepted settings call of the organisation leaves in the ledger. -/
theorem working_storeSetting {W : Store} (valid : Setting.checkInheritedSetting r = .ok .org)
    (stores : Setting.storable (r.value.getD 0) = true) (keyed : r.idempotency.getD "" ≠ "")
    (held : (Setting.Claim.of r).fits = true)
    (absent : W.settingWrites.find? (weight (r.idempotency.getD "")) = none) :
    ∃ a W', (Setting.storeSetting r).working now W = .ok (a, W') ∧
      W'.settingWrites = W.settingWrites.put (settingWrite r) := by
  obtain ⟨n, row, wrote⟩ : ∃ n row, (Setting.writeAtScope r .org).working now W =
      .ok (n, { W with orgSettings := W.orgSettings.put row }) := working_writeAtScope stores
  have looked : (Setting.Claim.of r).alreadyRecorded.working now W = .ok (false, W) :=
    working_alreadyRecorded absent
  let W' : Store := { W with
    orgSettings := W.orgSettings.put row
    settingWrites := W.settingWrites.put (settingWrite r) }
  have recorded : (Setting.recordClaim (.of r)).working now
      { W with orgSettings := W.orgSettings.put row } = .ok ((), W') :=
    working_recordClaim keyed held absent
  obtain ⟨a, answered⟩ : ∃ a, (Setting.answer r.name).working now W' = .ok (a, W') := ⟨_, rfl⟩
  refine ⟨a, W', ?_, rfl⟩
  unfold Setting.storeSetting
  rw [valid]
  show ((Setting.Claim.of r).alreadyRecorded >>= _ : Rpc _).working now W = _
  rw [Prog.working_bind looked]
  show (Setting.writeAtScope r .org >>= _ : Rpc _).working now W = _
  rw [Prog.working_bind wrote]
  exact (Prog.working_bind recorded).trans answered

/-- A settings call at the organisation's scope, under a key. -/
def settingUnder (key : String) (value : Int) : Call :=
  ⟨some iamCaller, firstUuid, .setInheritedSetting
    ⟨some key, 1, none, ownerReadsOwnRecord, some value, some true, false⟩⟩

/-- By itself on a new database it leaves its row in the ledger. -/
theorem recorded_under (nonempty : key ≠ "")
    (held : fits Setting.maxIdempotencyKey key = true) :
    ∃ S : Handlers.System, Later (fresh 0) S ∧ S.store.settingWrites.find? (weight key) =
      some ⟨key, 1, none, ownerReadsOwnRecord, some 1, some true, false⟩ := by
  let r : SetInheritedSettingRequest :=
    ⟨some key, 1, none, ownerReadsOwnRecord, some 1, some true, false⟩
  have idle : (fresh 0).Unlocked := fun s there => by cases there
  obtain ⟨S, ⟨n, ℓ, ran, _⟩, store, _⟩ : ∃ S : Handlers.System,
      System.Performs service (fresh 0) (settingUnder key 1) _ S ∧ _ ∧ S.Unlocked :=
    System.performs_alone idle (settingUnder key 1)
  refine ⟨S, .of_run ran, ?_⟩
  obtain ⟨a, W, worked, rows⟩ : ∃ a W, (Setting.storeSetting r).working 0 migrated = .ok (a, W) ∧
      W.settingWrites = migrated.settingWrites.put (settingWrite r) :=
    working_storeSetting rfl rfl nonempty
      (by simpa [Setting.Claim.fits, Setting.Claim.of, r] using held) rfl
  have alone := (Endings.opens_storeSetting.map Response.setInheritedSetting).alone_ok
    (ℓ := Local.fresh) ((Prog.working_bind worked).trans rfl)
  have left : S.store = W := store.trans (congrArg Prod.snd alone)
  rw [left, rows]
  exact Table.find?_put_self

/-- What a call under a key does with what it finds there. -/
theorem settingUnder_reads (nonempty : key ≠ "") : ∃ k : Option SettingWrite → Rpc Response,
    service (settingUnder key 2) =
      .begin .readCommitted (.stmt (Setting.selectSettingWrite key .no) k) ∧
    (k none).answer? = none ∧ ∀ row, row.value = some 1 → (k (some row)).answer? ≠ none := by
  let r : SetInheritedSettingRequest :=
    ⟨some key, 1, none, ownerReadsOwnRecord, some 2, some true, false⟩
  have claimed : (Setting.Claim.of r).alreadyRecorded = _ := if_neg nonempty
  let rest (replayed : Bool) : Rpc InheritedSetting :=
    if replayed then
      Setting.answer r.name
    else do
      let _ ← Setting.writeAtScope r .org
      Setting.recordClaim (Setting.Claim.of r)
      Setting.answer r.name
  have whole : service (settingUnder key 2) = Prog.begin .readCommitted
      (((Setting.Claim.of r).alreadyRecorded >>= rest) >>= fun a =>
        pure (.setInheritedSetting a)) := rfl
  rw [claimed] at whole
  refine ⟨_, whole, rfl, fun row other => ?_⟩
  have refuses : (Setting.Claim.of r).agreesWith ⟨key, row.scope, row.teamId, row.name, row.value,
      row.locked, row.clearRequested⟩ = .error _ := if_neg (by simp [Setting.Claim.of, r, other])
  show (Prog.bind (Prog.bind (Prog.bind (Prog.lift ((Setting.Claim.of r).agreesWith ⟨key, row.scope,
    row.teamId, row.name, row.value, row.locked, row.clearRequested⟩)) _) _) _).answer? ≠ none
  rw [refuses]
  exact Option.some_ne_none _

/-- A key another has the sort key of is found under it, once a call has recorded
it: a later call under the other is answered because of that one. -/
theorem told_apart (nonempty : key ≠ "") (nonempty' : key' ≠ "")
    (held : fits Setting.maxIdempotencyKey key' = true) (same : weight key = weight key') :
    ∃ (S : Handlers.System) (i : Nat) (ℓ : Local Store Write Res) (p : Rpc Response),
      Later (fresh 0) S ∧ S.sessions[i]? = some ⟨settingUnder key 2, ℓ, .running p⟩ ∧
      (p.move S.clock (forget key' S.store) ℓ).map sight ≠ (p.move S.clock S.store ℓ).map sight := by
  obtain ⟨S₀, first, found⟩ := recorded_under nonempty' held
  obtain ⟨k, whole, goes, stops⟩ := settingUnder_reads nonempty
  let arrived : Handlers.System := { S₀ with
    sessions := S₀.sessions ++ [.reached (settingUnder key 2) .fresh (service (settingUnder key 2))] }
  have queued : arrived.sessions = S₀.sessions ++ [.reached (settingUnder key 2) .fresh
      (.begin .readCommitted (.stmt (Setting.selectSettingWrite key .no) k))] := by
    rw [← whole]
  obtain ⟨S, opens, sessions, store, _⟩ := System.step_alone service queued rfl
    fun _ _ _ _ _ claim => by cases claim
  have arrives : S₀.step service (.call (settingUnder key 2)) = some arrived := rfl
  refine ⟨S, S₀.sessions.length, Local.fresh.opened .readCommitted,
    .stmt (Setting.selectSettingWrite key .no) k,
    (first.step arrives trivial).step opens trivial, ?_, fun same' => ?_⟩
  · rw [sessions]
    exact List.getElem?_concat_length
  have there : S.store.settingWrites.find? (weight key) =
      some ⟨key', 1, none, ownerReadsOwnRecord, some 1, some true, false⟩ := by
    rw [store, same]
    exact found
  have gone : (forget key' S.store).settingWrites.find? (weight key) = none := by
    rw [Table.find?_eq_none]
    intro row member named
    obtain ⟨stored, other⟩ := Table.mem_eraseAll.mp member
    have row' : row = ⟨key', 1, none, ownerReadsOwnRecord, some 1, some true, false⟩ := by
      rw [← named, Table.find?_of_mem stored] at there
      exact Option.some.inj there
    exact other (List.mem_map.mpr ⟨row, List.mem_filter.mpr ⟨stored, by simp [row']⟩, rfl⟩)
  have answers : some (k (S.store.settingWrites.find? (weight key))).answer? =
      some (k ((forget key' S.store).settingWrites.find? (weight key))).answer? :=
    congrArg (Option.map fun m : List (Claim Res) × List Write × Rpc Response ×
      List (Grant Res) × List Write => m.2.2.1.answer?) same'.symm
  rw [there, gone, goes] at answers
  exact stops _ rfl (Option.some.inj answers)

/-- Keys are distinct requests exactly if their sort keys are, or if the other is
longer than a ledger's column: then, at every point of every run, a call takes
its next step as it would had the other key never been used. -/
theorem keys_apart_iff (nonempty : key ≠ "") (nonempty' : key' ≠ "") :
    (∀ now (S : Handlers.System) (i : Nat) c ℓ p, Later (fresh now) S →
      S.sessions[i]? = some ⟨c, ℓ, .running p⟩ → keyOf c = some key →
      (p.move S.clock (forget key' S.store) ℓ).map sight = (p.move S.clock S.store ℓ).map sight) ↔
    weight key ≠ weight key' ∨ fits Setting.maxIdempotencyKey key' = false := by
  constructor
  · intro behaves
    by_contra neither
    rw [not_or, not_not, Bool.not_eq_false] at neither
    obtain ⟨S, i, ℓ, p, later, there, other⟩ :=
      told_apart nonempty nonempty' neither.2 neither.1
    exact other (behaves 0 S i _ ℓ p later there rfl)
  · intro apart now S i c ℓ p later there carries
    exact sight_of_agree (blind_underway ((reachable_fresh now).later later) there carries)
      (agree_forget (held_later later) apart) _ _

end

/-! ### A run -/

/-- Whether each call so far has been answered OK. -/
def succeeded [Engine] (S : Handlers.System) : List Bool :=
  S.sessions.map fun s =>
    match s.answer with
    | some (.ok _) => true
    | _ => false

/-- A settings call at the organisation's scope. -/
def stating (key : String) (value : Int) : Request :=
  .setInheritedSetting ⟨some key, 1, none, ownerReadsOwnRecord, some value, some true, false⟩

/-- Two keys that differ in letter case and a trailing space. -/
def folded : List (Action Call) :=
  calling firstUuid (stating "key" 1) 0 7 ++ calling firstUuid (stating "KEY " 2) 1 2

open Folding in
/-- The second call is refused because of the first; alone it is not. -/
theorem keys_folded : "KEY " ≠ "key" ∧ succeeded (after folded) = [true, false] ∧
    succeeded (after (calling firstUuid (stating "KEY " 2) 0 7)) = [true] := by
  decide +kernel

open Bytewise in
theorem keys_apart_iff_folded : weight "key" ≠ weight "KEY " ∧
    ∀ now (S : Handlers.System) (i : Nat) c ℓ p, Later (fresh now) S →
      S.sessions[i]? = some ⟨c, ℓ, .running p⟩ → keyOf c = some "key" →
      (p.move S.clock (forget "KEY " S.store) ℓ).map sight = (p.move S.clock S.store ℓ).map sight :=
  ⟨by decide, (keys_apart_iff (by decide) (by decide)).mpr (Or.inl (by decide))⟩

end IamDb.Keys
