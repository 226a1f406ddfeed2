import IamDb.Membership
import Mathlib.Data.List.Perm.Subperm

/-! The key-identity marker over a run. It is written once, over a store without
users or on exactly the oldest ones, it stays as it was written, and every
recording call is told what it is. -/
namespace IamDb.Marker
open Txn Schema Messages Service KeyIdentity Effects Evolution Interference Handlers Runs
open KeyIdentityProofs

section
variable [Engine]

/-! ### Evidence -/

/-- The ids name, one each, the oldest rows of the store by creation and then
by id. -/
def Oldest (ids : List String) (σ : Store) : Prop :=
  ∃ oldest rest : List User, (oldest ++ rest).Perm σ.users.rows ∧
    (∀ u ∈ oldest, ∀ u' ∈ rest, olderOrSame u u' = true) ∧
    (oldest.map User.key).Perm (ids.map weight)

instance : Std.Total fun a b : User => olderOrSame a b = true where
  total a b := by
    simp only [olderOrSame, Bool.or_eq_true, Bool.and_eq_true, decide_eq_true_eq]
    rcases lt_trichotomy a.createdAt b.createdAt with earlier | same | later
    · exact Or.inl (Or.inl earlier)
    · rcases String.le_total a.key b.key with before | after
      · exact Or.inl (Or.inr ⟨same, before⟩)
      · exact Or.inr (Or.inr ⟨same.symm, after⟩)
    · exact Or.inr (Or.inl later)

instance : IsTrans User fun a b => olderOrSame a b = true where
  trans a b c first second := by
    simp only [olderOrSame, Bool.or_eq_true, Bool.and_eq_true, decide_eq_true_eq] at *
    rcases first with first | ⟨same, before⟩ <;> rcases second with second | ⟨same', before'⟩
    · exact Or.inl (by omega)
    · exact Or.inl (by omega)
    · exact Or.inl (by omega)
    · exact Or.inr ⟨by omega, String.le_trans before before'⟩

theorem oldestFirst_sorted (σ : Store) :
    (oldestFirst σ).Pairwise fun a b => olderOrSame a b = true :=
  List.pairwise_insertionSort _ _

theorem oldestFirst_distinct (σ : Store) : ((oldestFirst σ).map User.key).Nodup :=
  ((List.perm_insertionSort _ σ.users.rows).map User.key).nodup_iff.mpr σ.users.distinct

/-- The predicate of an adoption: the ids name, one each, as many of the oldest
rows as there are ids. -/
theorem oldestAre_iff {ids : List String} {σ : Store} : oldestAre ids σ = true ↔
    (((oldestFirst σ).take ids.length).map User.key).Perm (ids.map weight) := by
  have distinct : (((oldestFirst σ).take ids.length).map User.key).Nodup := by
    rw [List.map_take]
    exact (oldestFirst_distinct σ).sublist (List.take_sublist _ _)
  rw [oldestAre, decide_eq_true_eq]
  constructor
  · intro count
    -- As many rows as ids, and every one of them named.
    have full : ((oldestFirst σ).take ids.length).length = ids.length := by
      refine Nat.le_antisymm (List.length_take_le _ _) ?_
      conv_lhs => rw [← count]
      exact List.length_filter_le _ _
    have named : ((oldestFirst σ).take ids.length).map User.key ⊆ ids.map weight := by
      intro key there
      obtain ⟨u, member, rfl⟩ := List.mem_map.mp there
      have holds := List.length_filter_eq_length_iff.mp (count.trans full.symm) u member
      obtain ⟨userId, presented, same⟩ := List.any_eq_true.mp holds
      exact List.mem_map.mpr ⟨userId, presented, of_decide_eq_true same⟩
    refine (List.subperm_of_subset distinct named).perm_of_length_le ?_
    rw [List.length_map, List.length_map, full]
  · intro perm
    have full : ((oldestFirst σ).take ids.length).length = ids.length := by
      simpa using perm.length_eq
    rw [List.filter_eq_self.mpr, full]
    intro u member
    obtain ⟨userId, presented, same⟩ := List.mem_map.mp (perm.subset (List.mem_map_of_mem member))
    exact List.any_eq_true.mpr ⟨userId, presented, decide_eq_true same⟩

/-- Ids that count as many of the oldest rows as there are ids are those rows. -/
theorem oldest_of_count {ids : List String} {σ : Store} (counted : oldestAre ids σ = true) :
    Oldest ids σ := by
  have sorted := oldestFirst_sorted σ
  rw [← List.take_append_drop ids.length (oldestFirst σ), List.pairwise_append] at sorted
  refine ⟨(oldestFirst σ).take ids.length, (oldestFirst σ).drop ids.length, ?_, sorted.2.2,
    oldestAre_iff.mp counted⟩
  rw [List.take_append_drop]
  exact List.perm_insertionSort _ _

/-! ### The marker over a run -/

/-- What a call that writes the marker rests on. -/
def Evident (c : Call) (row : Schema.KeyIdentity) (σ : Store) : Prop :=
  (∃ r, c.request = .setKeyIdentity r ∧ row = presentedRow (setPresented r) ∧ σ.users.rows = []) ∨
    ∃ r, c.request = .adoptKeyIdentity r ∧ row = presentedRow (adoptPresented r) ∧
      Oldest r.evidenceUserIds σ

/-- The markers a store holds are one. -/
theorem marker_unique {σ : Store} (left : row ∈ σ.keyIdentity) (right : row' ∈ σ.keyIdentity) :
    row = row' :=
  Table.eq_of_key left right rfl

theorem find?_marker {σ : Store} : σ.keyIdentity.find? () = some row ↔ row ∈ σ.keyIdentity := by
  rw [Table.find?_eq_some]
  exact and_iff_left rfl

theorem unmarked {σ : Store} : σ.keyIdentity.find? () = none ↔ σ.keyIdentity.rows = [] := by
  rw [Table.find?_eq_none]
  exact ⟨fun none => List.eq_nil_iff_forall_not_mem.mpr fun r there => none r there rfl,
    fun none r there => by rw [Table.mem_def, none] at there; cases there⟩

/-- An effect leaves the marker alone, or writes the first one. -/
theorem marker_of_allowed {c : Call} {k : Committed} (allowed : Allowed c k ef) :
    (ef.apply k.store).keyIdentity = k.store.keyIdentity ∨
      ∃ row, ef = .mark row ∧ k.store.keyIdentity.rows = [] ∧ Evident c row k.store := by
  cases allowed with
  | record request new empty absent =>
    exact Or.inr ⟨_, rfl, unmarked.mp absent, Or.inl ⟨_, request, new, empty⟩⟩
  | adopt request new _ oldest absent =>
    exact Or.inr ⟨_, rfl, unmarked.mp absent, Or.inr ⟨_, request, new, oldest_of_count oldest⟩⟩
  | @setting _ level claim => cases level <;> cases claim <;> exact Or.inl rfl
  | _ => exact Or.inl rfl

/-- A store holds one marker at most, a marker stays as it is whatever is
called, and one that is there now and was not before was written, in a step in
between, over no users or on exactly the oldest ones. -/
theorem marker_written_once {S : Handlers.System} (reachable : Reachable S) :
    (∀ row ∈ S.store.keyIdentity, ∀ row' ∈ S.store.keyIdentity, row = row') ∧
    ∀ S', Later S S' → (∀ row ∈ S.store.keyIdentity, row ∈ S'.store.keyIdentity) ∧
      ∀ row ∈ S'.store.keyIdentity, row ∈ S.store.keyIdentity ∨
        ∃ T a T' i c k, Later S T ∧ T.step service a = some T' ∧ Later T' S' ∧
          Lands T i c k T' ∧ T.store.keyIdentity.rows = [] ∧
          T'.store.keyIdentity.rows = [row] ∧ Evident c row T.store := by
  refine ⟨fun row left row' right => marker_unique left right, fun S' later => ⟨?_, ?_⟩⟩
  · intro row there
    obtain ⟨row', still, _, same⟩ := (later.evolves reachable).keyIdentity.mem there
    exact same ▸ still
  · induction later with
    | refl => exact fun row there => Or.inl there
    | @step T a T' before step _ ih =>
      intro row there
      have kept (same : T'.store.keyIdentity = T.store.keyIdentity) :
          row ∈ S.store.keyIdentity ∨ ∃ U a U' i c k, Later S U ∧ U.step service a = some U' ∧
            Later U' T' ∧ Lands U i c k U' ∧ U.store.keyIdentity.rows = [] ∧
            U'.store.keyIdentity.rows = [row] ∧ Evident c row U.store := by
        rcases ih row (same ▸ there) with old | ⟨U, b, U', i, c, k, first, taken, rest, written⟩
        · exact Or.inl old
        · exact Or.inr ⟨U, b, U', i, c, k, first, taken, rest.step step trivial, written⟩
      rcases (reachable.later before).lands step with ⟨store, _⟩ | ⟨i, c, k, lands⟩
      · exact kept (by rw [store])
      · obtain ⟨ef, allowed, store, result⟩ := lands_effect lands
        rw [← store] at result
        rcases marker_of_allowed allowed with same | ⟨row', rfl, absent, evident⟩
        · exact kept (by rw [result, same, store])
        · have only : T'.store.keyIdentity.rows = [row'] := by
            rw [result]
            simp [Effect.apply, Table.put, absent]
          obtain rfl : row = row' := by simpa [Table.mem_def, only] using there
          rw [store] at absent evident
          exact Or.inr ⟨T, a, T', i, c, k, before, step, .refl, lands, absent, only, evident⟩

/-! ### What a recording call is told -/

/-- What a recording call presents. -/
def presents (c : Call) : Option Presented :=
  match c.request with
  | .setKeyIdentity r => some (setPresented r)
  | .adoptKeyIdentity r => some (adoptPresented r)
  | _ => none

/-- A recording call the service admits, with a request that keeps the rules. -/
def WellFormed (c : Call) : Prop :=
  admitted c.caller = .ok () ∧
    match c.request with
    | .setKeyIdentity r => presented r.keyFingerprint r.derivationVersion = .ok ()
    | .adoptKeyIdentity r => presented r.keyFingerprint r.derivationVersion = .ok () ∧
        KeyIdentity.evidence r.evidenceUserIds = .ok ()
    | _ => False

instance : DecidablePred WellFormed := fun c => by
  unfold WellFormed
  cases c.request <;> infer_instance

/-- One whose key the marker's column holds. -/
def Recordable (c : Call) : Prop :=
  WellFormed c ∧ (presents c).any fun p => fits maxIdempotencyKey p.key

instance : DecidablePred Recordable := fun c => inferInstanceAs (Decidable (WellFormed c ∧ _))

/-- How a recording call wraps its outcome. -/
def wrap (c : Call) : KeyIdentityOutcome → Response :=
  match c.request with
  | .setKeyIdentity _ => .setKeyIdentity
  | _ => .adoptKeyIdentity

/-- A recording call is given up over a store with users, or on other evidence. -/
def unmet (c : Call) (σ : Store) : Prop :=
  match c.request with
  | .setKeyIdentity _ => σ.users.rows ≠ []
  | _ => True

/-- Whether a call carries the key a marker was written with. -/
def SameKey (p : Presented) (row : Schema.KeyIdentity) : Prop :=
  p.key ≠ "" ∧ p.key = row.idempotencyKey

/-- Whether a call presents the pair of a marker. -/
def SamePair (p : Presented) (row : Schema.KeyIdentity) : Prop :=
  row.derivationVersion = p.version ∧ row.keyFingerprint = p.fingerprint

/-- The last step of a recording call: what it answers, by the marker that is
stored, and what it changes. -/
inductive Verdict (c : Call) (p : Presented) (σ σ' : Store) :
    Except Status KeyIdentityOutcome → Prop where
  | wrote (absent : σ.keyIdentity.rows = [])
      (result : σ' = { σ with keyIdentity := σ.keyIdentity.put (presentedRow p) }) :
    Verdict c p σ σ' (.ok .recorded)
  | replayed (stored : row ∈ σ.keyIdentity) (key : SameKey p row) (pair : SamePair p row)
      (same : σ' = σ) : Verdict c p σ σ' (.ok .recorded)
  | refused (stored : row ∈ σ.keyIdentity) (key : SameKey p row) (pair : ¬SamePair p row)
      (code : e.code = .invalidArgument) (same : σ' = σ) : Verdict c p σ σ' (.error e)
  | compared (stored : row ∈ σ.keyIdentity) (key : ¬SameKey p row) (same : σ' = σ) :
    Verdict c p σ σ' (.ok (comparedWith row p.fingerprint p.version))
  | unmet (absent : σ.keyIdentity.rows = []) (unmet : unmet c σ) (code : e.code = .failedPrecondition)
      (same : σ' = σ) : Verdict c p σ σ' (.error e)

/-- What a call with a marker to compare with is answered, it is answered by the
rule. -/
theorem verdict_of_stored {c : Call} {p : Presented} {σ : Store} (stored : row ∈ σ.keyIdentity)
    (answered : replayedOrCompared row p = result) : Verdict c p σ σ result := by
  unfold replayedOrCompared at answered
  split at answered
  · rename_i other
    subst answered
    exact .compared stored (fun key => other.elim key.1 fun ne => ne key.2) rfl
  · rename_i same
    rw [not_or, not_not] at same
    split at answered
    · rename_i pair
      subst answered
      exact .replayed stored same pair rfl
    · rename_i other
      subst answered
      exact .refused stored same other rfl rfl

/-- A commit of a recording call, as the service answers it. -/
def Records (c : Call) (k : Committed) : Prop :=
  ∀ p, presents c = some p →
    k.writes = [.keyIdentity (presentedRow p)] ∧ k.store.keyIdentity.rows = [] ∧
        k.answer = some (.ok (wrap c .recorded)) ∨
      k.writes = [] ∧ ∃ row outcome, row ∈ k.store.keyIdentity ∧
        replayedOrCompared row p = .ok outcome ∧ k.answer = some (.ok (wrap c outcome))

theorem records_of_marks {k : Commit Store Write Res Status KeyIdentityOutcome} {c : Call}
    (presents : presents c = some p) (marks : Marks p k) :
    Records c (k.answering (k.answer.map (Except.map (wrap c)))) := by
  intro p' same
  obtain rfl := Option.some.inj (presents.symm.trans same)
  rcases marks with ⟨writes, absent, answer⟩ | ⟨writes, row, outcome, stored, told, answer⟩
  · exact Or.inl ⟨writes, unmarked.mp absent, by simp [Commit.answering, answer, Except.map]⟩
  · exact Or.inr ⟨writes, row, outcome, find?_marker.mp stored, told,
      by simp [Commit.answering, answer, Except.map]⟩

theorem watched_recordings :
    System.Watched service Integrity Others Effective (fun _ _ _ => True) Recordable Others Records
      (fun c result _ σ _ => ∀ p, presents c = some p →
        ∃ outcome, result = outcome.map (wrap c) ∧ Told p (unmet c) σ outcome) := by
  refine System.watched_of_verified ServiceProofs.verified ?_
  rintro c ⟨⟨caller, formed⟩, held⟩ σ t inv
  refine ServiceProofs.wp_service (fun e refused => by rw [caller] at refused; cases refused)
    fun _ => ?_
  cases request : c.request with
  | setKeyIdentity r =>
    rw [request] at formed
    have wraps : wrap c = .setKeyIdentity := by simp [wrap, request]
    refine wp_map (wp_mono (wp_recordKeyIdentity quiet_others request) (fun _ _ _ _ h => h) ?_ ?_)
    · intro k does
      rw [← wraps]
      exact records_of_marks (by simp [presents, request]) does.2
    · intro result ℓ σ t told p same
      obtain rfl : setPresented r = p := by simpa [presents, request] using same
      have unmets : unmet c = fun σ => σ.users.rows ≠ [] := by
        funext σ
        simp [unmet, request]
      exact ⟨result, by rw [wraps], unmets ▸ told formed (by simpa [presents, request] using held)⟩
  | adoptKeyIdentity r =>
    rw [request] at formed
    have wraps : wrap c = .adoptKeyIdentity := by simp [wrap, request]
    refine wp_map (wp_mono (wp_recordAdoption quiet_others request) (fun _ _ _ _ h => h) ?_ ?_)
    · intro k does
      rw [← wraps]
      exact records_of_marks (by simp [presents, request]) does.2
    · intro result ℓ σ t told p same
      obtain rfl : adoptPresented r = p := by simpa [presents, request] using same
      have unmets : unmet c = fun _ => True := by
        funext σ
        simp [unmet, request]
      exact ⟨result, by rw [wraps],
        unmets ▸ told formed.1 formed.2 (by simpa [presents, request] using held)⟩
  | _ => simp [request] at formed

theorem atomic_recording (formed : WellFormed c) : (service c).Atomic := by
  refine Endings.atomic_lift fun _ => ?_
  obtain ⟨_, formed⟩ := formed
  cases request : c.request with
  | setKeyIdentity r => exact Prog.Atomic.map _ Endings.atomic_recordKeyIdentity
  | adoptKeyIdentity r => exact Prog.Atomic.map _ Endings.atomic_recordAdoption
  | _ => simp [request] at formed

/-- A recording call answers by the marker its last step found. -/
theorem recording_told {S : Handlers.System} {i : Nat} (inv : Integrity σ)
    (later : Later (.start σ now) S) (recordable : Recordable c) (presented : presents c = some p)
    (there : S.sessions[i]? = some ⟨c, ℓ, .answered result⟩) :
    ∃ T a T' outcome, Later (.start σ now) T ∧ T.step service a = some T' ∧ Later T' S ∧
      T.sessions[i]? ≠ some ⟨c, ℓ, .answered result⟩ ∧
      T'.sessions[i]? = some ⟨c, ℓ, .answered result⟩ ∧ result = outcome.map (wrap c) ∧
      Verdict c p T.store T'.store outcome := by
  have sound : (System.start σ now : Handlers.System).Sound Integrity Others Effective :=
    System.sound_start inv
  obtain ⟨T, a, T', before, step, _, given, new, rest⟩ := later.answered there nofun
  suffices ∃ outcome, result = outcome.map (wrap c) ∧ Verdict c p T.store T'.store outcome by
    obtain ⟨outcome, same, verdict⟩ := this
    exact ⟨T, a, T', outcome, before, step, rest, new, given, same, verdict⟩
  have ready := before.ready_watched ServiceProofs.verified watched_recordings sound rfl
  cases result with
  | error e =>
    have same := (before.refused ServiceProofs.verified sound rfl Endings.service_ends step given
      new).1
    obtain ⟨_, _, post⟩ := ready.answer step (fun c _ watching =>
      watched_recordings.program c watching _ _ (before.sound ServiceProofs.verified sound).inv)
      given new recordable
    obtain ⟨outcome, answered, told⟩ := post p presented
    refine ⟨outcome, answered, ?_⟩
    rw [same] at told ⊢
    cases outcome with
    | ok outcome => cases answered
    | error e' =>
      rcases told with ⟨row, stored, told⟩ | ⟨absent, code, unmet⟩
      · exact verdict_of_stored (find?_marker.mp stored) told
      · exact .unmet (unmarked.mp absent) unmet code rfl
  | ok answer =>
    obtain ⟨k, lands, answers⟩ := before.answered_lands ServiceProofs.verified sound rfl
      Endings.service_ends step (atomic_recording recordable.1).earned given new
    have store := lands.commits.store
    have result := lands.result
    rcases lands.meets _ _ _ _ ready recordable p presented with
      ⟨writes, absent, told⟩ | ⟨writes, row, outcome, stored, told, answered⟩
    · refine ⟨.ok .recorded, ?_, .wrote (store ▸ absent) ?_⟩
      · rw [answers] at told
        exact Option.some.inj told
      · rw [result, Commit.result, writes, store]
        rfl
    · refine ⟨.ok outcome, ?_, ?_⟩
      · rw [answers] at answered
        exact Option.some.inj answered
      · rw [result, Commit.result, writes, applyAll_nil, store]
        exact verdict_of_stored (store ▸ stored) told

/-! ### One writer -/

/-- The session whose step changes the marker, if it does. -/
def writer (S S' : Handlers.System) : Action Call → List Nat
  | .run i | .lose i => if S'.store.keyIdentity = S.store.keyIdentity then [] else [i]
  | _ => []

/-- The sessions whose steps change the marker, in a run of actions. -/
def writers (S : Handlers.System) : List (Action Call) → List Nat
  | [] => []
  | a :: rest =>
    match S.step service a with
    | none => []
    | some S' => writer S S' a ++ writers S' rest

/-- A step keeps the marker as it is, or is a session writing the first. -/
theorem marker_step {S S' : Handlers.System} (reachable : Reachable S)
    (step : S.step service a = some S') : S'.store.keyIdentity = S.store.keyIdentity ∨
      S.store.keyIdentity.rows = [] ∧ S'.store.keyIdentity.rows ≠ [] ∧
        ∃ i, a = .run i ∨ a = .lose i := by
  rcases reachable.lands step with ⟨same, _⟩ | ⟨i, c, k, lands⟩
  · exact Or.inl (by rw [same])
  · obtain ⟨ef, allowed, store, result⟩ := lands_effect lands
    rw [result, ← store]
    rcases marker_of_allowed allowed with same | ⟨row, rfl, absent, _⟩
    · exact Or.inl same
    · refine Or.inr ⟨absent, ?_, i, ?_⟩
      · simp [Effect.apply, Table.put, absent]
      · rcases lands.acts step with ⟨run, _⟩ | lost
        · exact Or.inl run
        · exact Or.inr lost

/-- A run writes a marker once where there was none before and is one after,
and never otherwise. -/
theorem writers_length {S S' : Handlers.System} (reachable : Reachable S)
    (ran : S.run service as = some S') : (writers S as).length =
      if S.store.keyIdentity.rows = [] ∧ S'.store.keyIdentity.rows ≠ [] then 1 else 0 := by
  induction as generalizing S with
  | nil =>
    cases ran
    rw [if_neg fun both => both.2 both.1]
    rfl
  | cons a as ih =>
    rw [System.run, Option.bind_eq_some_iff] at ran
    obtain ⟨T, step, rest⟩ := ran
    have later := ih (reachable.step step) rest
    have now : writers S (a :: as) = writer S T a ++ writers T as := by
      simp [writers, step]
    rw [now, List.length_append]
    rcases marker_step reachable step with same | ⟨absent, written, i, acts⟩
    · have silent : writer S T a = [] := by
        cases a <;> simp [writer, same]
      rw [silent, later, same]
      exact Nat.zero_add _
    · have still : S'.store.keyIdentity.rows ≠ [] := by
        obtain ⟨row, there⟩ := List.exists_mem_of_ne_nil _ written
        obtain ⟨row', still, _⟩ := (Later.evolves (.of_run rest)
          (reachable.step step)).keyIdentity.mem there
        exact List.ne_nil_of_mem still
      have changed : T.store.keyIdentity ≠ S.store.keyIdentity := by
        intro same
        exact written (by rw [same, absent])
      rw [if_neg (fun both => written both.1)] at later
      rw [if_pos ⟨absent, still⟩, later]
      rcases acts with rfl | rfl <;> simp [writer, changed]

/-- Recording calls change no user. -/
theorem users_of_recording {k : Committed} (allowed : Allowed c k ef)
    (presented : presents c = some p) : (ef.apply k.store).users = k.store.users := by
  cases allowed with
  | nothing => rfl
  | record => rfl
  | adopt => rfl
  | _ => simp_all [presents]

theorem users_stay_empty {S : Handlers.System} (inv : Integrity σ) (nobody : σ.users.rows = [])
    (later : Later (.start σ now) S) (recordings : ∀ s ∈ S.sessions, Recordable s.call) :
    S.store.users.rows = [] := by
  suffices ∀ T, Later (.start σ now) T → Later T S → T.store.users.rows = [] from
    this S later .refl
  intro T before rest
  induction before with
  | refl => exact nobody
  | @step T a T' before step _ ih =>
    have reachable : Reachable T := ⟨σ, now, inv, before⟩
    have ih := ih ((System.Reaches.step .refl step trivial).trans rest)
    rcases reachable.lands step with ⟨same, _⟩ | ⟨i, c, k, lands⟩
    · rw [same]
      exact ih
    · obtain ⟨ef, allowed, store, result⟩ := lands_effect lands
      obtain ⟨ℓ, p, here⟩ := lands.running
      obtain ⟨s, there, call⟩ := ((System.Reaches.step .refl step trivial).trans rest).session here
      have recordable := recordings s (List.mem_of_getElem? there)
      rw [call] at recordable
      obtain ⟨p, presented, _⟩ := (Option.any_eq_true _ _).mp recordable.2
      rw [result, ← store, users_of_recording allowed presented, store]
      exact ih

/-- A store a recording call was made on holds a marker afterwards, or the call
was refused over users or over evidence. -/
theorem marked_of_verdict {σ σ' : Store} (verdict : Verdict c p σ σ' outcome) :
    (∃ row, row ∈ σ'.keyIdentity) ∨ unmet c σ := by
  cases verdict with
  | wrote _ result => exact Or.inl ⟨presentedRow p, result ▸ Table.mem_put_self⟩
  | replayed stored _ _ same => exact Or.inl ⟨_, same ▸ stored⟩
  | refused stored _ _ _ same => exact Or.inl ⟨_, same ▸ stored⟩
  | compared stored _ same => exact Or.inl ⟨_, same ▸ stored⟩
  | unmet _ unmet => exact Or.inr unmet

theorem verdict_present {σ σ' : Store} (verdict : Verdict c p σ σ' outcome) :
    outcome ≠ .ok .absent := by
  cases verdict with
  | compared =>
    unfold comparedWith
    split
    · split <;> nofun
    · nofun
  | _ => nofun

/-- Every recording call whose key fits answers by the marker its last step
found, never that none is there, and can change the store in that step alone;
and of any number of them on a store without users and without a marker, one at
least a `SetKeyIdentity`, exactly one writes the marker. -/
theorem recordings_agree (inv : Integrity σ) :
    (∀ (S : Handlers.System) (i : Nat) c p ℓ result, Later (.start σ now) S → Recordable c →
      presents c = some p → S.sessions[i]? = some ⟨c, ℓ, .answered result⟩ →
      (∃ T a T' outcome, Later (.start σ now) T ∧ T.step service a = some T' ∧ Later T' S ∧
        T.sessions[i]? ≠ some ⟨c, ℓ, .answered result⟩ ∧
        T'.sessions[i]? = some ⟨c, ℓ, .answered result⟩ ∧ result = outcome.map (wrap c) ∧
        outcome ≠ .ok .absent ∧ Verdict c p T.store T'.store outcome) ∧
      ∀ U U', Later (.start σ now) U → U.step service (.run i) = some U' → Later U' S →
        U'.store ≠ U.store → U'.sessions[i]? = some ⟨c, ℓ, .answered result⟩) ∧
    (σ.users.rows = [] → σ.keyIdentity.rows = [] →
      ∀ actions S, System.run service (.start σ now) actions = some S →
        (∀ s ∈ S.sessions, Recordable s.call ∧ s.answer.isSome) →
        (∃ s ∈ S.sessions, ∃ r, s.call.request = .setKeyIdentity r) →
        ∃ i, writers (.start σ now) actions = [i]) := by
  constructor
  · intro S i c p ℓ result later recordable presented there
    constructor
    · obtain ⟨T, a, T', outcome, before, step, rest, new, given, same, verdict⟩ :=
        recording_told inv later recordable presented there
      exact ⟨T, a, T', outcome, before, step, rest, new, given, same, verdict_present verdict,
        verdict⟩
    · intro U U' before step rest changed
      obtain ⟨c', k, b, ℓ', _, _, now⟩ := Reachable.changes ⟨σ, _, inv, before⟩ step changed
      have still := rest.ended now nofun
      rw [there] at still
      rw [now, still]
  · intro nobody unmarked actions S ran all some
    have later : Later (.start σ now) S := .of_run ran
    have empty := users_stay_empty inv nobody later fun s there => (all s there).1
    obtain ⟨⟨c, ℓ, phase⟩, there, r, request⟩ := some
    obtain ⟨recordable, answered⟩ := all _ there
    obtain ⟨i, here⟩ := List.mem_iff_getElem?.mp there
    obtain ⟨result, rfl⟩ : ∃ result, phase = .answered result := by
      cases phase <;> simp_all [Session.answer]
    have request : c.request = .setKeyIdentity r := request
    have presented : presents c = .some (setPresented r) := by simp [presents, request]
    obtain ⟨T, a, T', outcome, before, step, rest, _, _, _, verdict⟩ :=
      recording_told inv later recordable presented here
    have written : S.store.keyIdentity.rows ≠ [] := by
      rcases marked_of_verdict verdict with ⟨row, stored⟩ | populated
      · obtain ⟨row', still, _⟩ := (Later.evolves rest ⟨σ, _, inv, before.step step trivial⟩).keyIdentity.mem stored
        exact List.ne_nil_of_mem still
      · rw [unmet, request] at populated
        obtain ⟨u, member⟩ := List.exists_mem_of_ne_nil _ populated
        obtain ⟨u', still, _⟩ := (Later.evolves ((System.Reaches.step .refl step trivial).trans rest)
          ⟨σ, _, inv, before⟩).users.mem member
        rw [Table.mem_def, empty] at still
        cases still
    have one := writers_length ⟨σ, _, inv, .refl⟩ ran
    rw [if_pos ⟨unmarked, written⟩] at one
    exact List.length_eq_one_iff.mp one

end

/-- Two recordings at once on a new store, of different pairs. -/
def recordings : List (Action Call) :=
  calling firstUuid (.setKeyIdentity ⟨none, [1], 1⟩) 0 1 ++
    calling secondUuid (.setKeyIdentity ⟨none, [2], 1⟩) 1 1 ++ [.run 0, .run 0, .run 1, .run 1, .run 1]

/-- A person, and a third pair to record. -/
def afterwards : List (Action Call) :=
  calling firstUuid (.createUser ⟨.replicate 32 7, [1], [2], false, ""⟩) 2 1 ++
    calling secondUuid (.setKeyIdentity ⟨none, [3], 1⟩) 3 3

open Bytewise in
/-- The recordings leave one marker, written over no users, and it stays. -/
theorem marker_written_once_recorded :
    (∀ row ∈ (after recordings).store.keyIdentity, ∀ row' ∈ (after recordings).store.keyIdentity,
      row = row') ∧
    (∃ row ∈ (after recordings).store.keyIdentity, ∃ T a T' i c k, Later (fresh 0) T ∧
      T.step service a = some T' ∧ Later T' (after recordings) ∧ Lands T i c k T' ∧
      T.store.keyIdentity.rows = [] ∧ T'.store.keyIdentity.rows = [row] ∧ Evident c row T.store) ∧
    ∀ row ∈ (after recordings).store.keyIdentity,
      row ∈ (after (recordings ++ afterwards)).store.keyIdentity := by
  refine ⟨(marker_written_once (reachable_after recordings)).1, ?_,
    ((marker_written_once (reachable_after recordings)).2 _
      (later_after (by decide +kernel))).1⟩
  obtain ⟨row, there⟩ := List.exists_mem_of_ne_nil (after recordings).store.keyIdentity.rows
    (by decide +kernel)
  rcases ((marker_written_once (reachable_fresh 0)).2 _ (later_fresh (by decide +kernel))).2 row
    there with before | written
  · cases before
  · exact ⟨row, there, written⟩

open Bytewise in
theorem recordings_agree_recorded : ∃ i, writers (fresh 0) recordings = [i] :=
  (recordings_agree integrity_migrated).2 rfl rfl recordings (after recordings)
    (run_after (by decide +kernel)) (by decide +kernel) ⟨_, List.mem_cons_self, _, rfl⟩

/-- An adoption alone on a new store. -/
def lonelyAdoption : List (Action Call) :=
  calling firstUuid (.adoptKeyIdentity ⟨none, [1], 1, [Team.userPrefix ++ firstUuid.text]⟩) 0 3

/-- A recording under a key of 256 characters, alone on a new store. -/
def longKey : SetKeyIdentityRequest := ⟨some (String.ofList (.replicate 256 'k')), [1], 1⟩

def longKeyed : List (Action Call) := calling firstUuid (.setKeyIdentity longKey) 0 2

open Bytewise in
/-- Recordings on an empty store need not write a marker when all are adoptions,
since there is no row to adopt, nor under keys the column does not hold. -/
theorem recordings_agree_unmarked :
    (¬∀ actions S, run (fresh 0) actions = some S →
      S.sessions ≠ [] → (∀ s ∈ S.sessions, WellFormed s.call ∧ s.answer.isSome) →
      ∃ i, writers (fresh 0) actions = [i]) ∧
    ¬∀ actions S, run (fresh 0) actions = some S →
      (∀ s ∈ S.sessions, WellFormed s.call ∧ s.answer.isSome) →
      (∃ s ∈ S.sessions, ∃ r, s.call.request = .setKeyIdentity r) →
      ∃ i, writers (fresh 0) actions = [i] := by
  constructor
  · intro always
    obtain ⟨i, one⟩ := always lonelyAdoption (after lonelyAdoption) (run_after (by decide +kernel))
      (List.cons_ne_nil _ _) (by decide +kernel)
    have none : writers (fresh 0) lonelyAdoption = [] := by decide +kernel
    rw [none] at one
    cases one
  · intro always
    have ran : (run (fresh 0) longKeyed).isSome ∧
        (∀ s ∈ (after longKeyed).sessions, WellFormed s.call ∧ s.answer.isSome) ∧
        (after longKeyed).sessions.map (·.call) =
          [⟨some iamCaller, firstUuid, .setKeyIdentity longKey⟩] ∧
        writers (fresh 0) longKeyed = [] := by decide +kernel
    obtain ⟨possible, all, there, none⟩ := ran
    obtain ⟨s, member, named⟩ := List.mem_map.mp (there ▸ List.mem_cons_self)
    obtain ⟨i, one⟩ := always longKeyed (after longKeyed) (run_after possible) all
      ⟨s, member, longKey, by rw [named]⟩
    rw [none] at one
    cases one

end IamDb.Marker
