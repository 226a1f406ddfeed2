import IamDb.Inherited
import IamDb.Txn.Sightings

/-! What a refused bootstrap tells its caller. The demands are decided by
different statements in different orders, but whichever of them refuses, and
whatever the store holds, the caller hears one sentence. -/
namespace IamDb.Bootstrap
open Txn Schema Messages Service Team Handlers Runs

section
variable [Engine]

/-- The store a statement sees has the administrators' team, and it is live. -/
def TeamLive (σ : Store) : Prop := (σ.liveTeam? administrators).isSome

/-- Where the declared demand is refused by its predicate: no live team, no live
user or no member, as its first three statements see them. -/
def DeclaredRefused (r : CreateEnrolmentRequest) (sees : Nat → Snapshot Store) : Prop :=
  ¬TeamLive (sees 0).store ∨ ((sees 1).store.liveUser? r.userId).isNone ∨
    ((sees 2).store.teamMembers.find? (weight administrators, weight r.userId)).isNone

/-- Where the demand by flag is refused by its predicate: the insert finds no
live administrator without credentials, and the re-read finds the target live. -/
def FlaggedRefused (r : CreateEnrolmentRequest) (sees : Nat → Snapshot Store) : Prop :=
  (∀ u, (sees 0).store.user? r.userId = some u → Enrolment.demanded (sees 0).store u = false) ∧
    ((sees 1).store.liveUser? r.userId).isSome

/-- Where the bootstrap `CreateUser` is refused by its predicate: at the team, at
an existing administrator, or at the declared id. -/
def CreationRefused (r : CreateUserRequest) (sees : Nat → Snapshot Store) : Prop :=
  ¬TeamLive (sees 0).store ∨ liveMembers (sees 1).store administrators ≠ [] ∨
    (sees 2).store.user? r.userId = none ∧
      ((sees 3).store.pendingMembers.find? (weight administrators, weight r.userId)).isNone

/-- A request that makes a bootstrap demand, refused by the demand's predicate. -/
inductive Refused (sees : Nat → Snapshot Store) : Request → Prop
  | declared (demand : r.requireZeroCredentialAdmin = true) (fromTeam : r.adminFromTeam = true)
      (expires : r.expiresAt.isSome) (refused : DeclaredRefused r sees) :
      Refused sees (.createEnrolment r)
  | flagged (demand : r.requireZeroCredentialAdmin = true) (byFlag : r.adminFromTeam = false)
      (alone : r.revokeExistingCredentials = false) (expires : r.expiresAt.isSome)
      (refused : FlaggedRefused r sees) : Refused sees (.createEnrolment r)
  | creation (demand : r.userId ≠ "") (canonical : canonicalUserId r.userId = true)
      (refused : CreationRefused r sees) : Refused sees (.createUser r)

theorem lockAdministrators_live (σ : Store) (now : Int) :
    (selectAdministratorsForUpdate.exec now σ).1 = some true ↔ TeamLive σ := by
  unfold TeamLive selectAdministratorsForUpdate
  rw [Option.isSome_iff_exists]
  simp only [Store.liveTeam?_eq_some, Option.map_eq_some_iff, Option.isNone_iff_eq_none]

/-- The declared demand, refused. -/
theorem answering_issue (refused : DeclaredRefused r sees) :
    (Enrolment.issue enrolmentId r seconds).answering sees 0 =
      .error ⟨.permissionDenied, Enrolment.refusal⟩ := by
  unfold Enrolment.issue Enrolment.predicate lockAdministrators
  simp only [Prog.answering_start, bind_assoc, Prog.answering_query]
  by_cases team : TeamLive (sees 0).store
  · rw [if_neg (not_not.mpr ((lockAdministrators_live _ _).mpr team))]
    simp only [bind_assoc, Prog.answering_query, Enrolment.selectLiveUserShared, Nat.reduceAdd]
    by_cases user : (sees 1).store.liveUser? r.userId = none
    · simp only [user]
      rfl
    · have absent := (refused.resolve_left (not_not.mpr team)).resolve_left (by simpa using user)
      rw [← Option.not_isSome, Bool.not_eq_true'] at absent
      simp only [Option.isSome_iff_ne_none.mpr user, Bool.not_true, Bool.false_eq_true, if_false,
        bind_assoc, Prog.answering_query, Enrolment.selectAdministrator, Nat.reduceAdd, absent]
      rfl
  · rw [if_pos ((lockAdministrators_live _ _).not.mpr team)]
    rfl

/-- The demand by flag, refused; the last re-read changes nothing. -/
theorem answering_demand (demand : r.requireZeroCredentialAdmin = true)
    (byFlag : r.adminFromTeam = false) (alone : r.revokeExistingCredentials = false)
    (expires : r.expiresAt = some seconds) (refused : FlaggedRefused r sees) :
    (Enrolment.mintEnrolment uuid r).answering sees 0 =
      .error ⟨.permissionDenied, Enrolment.refusal⟩ := by
  obtain ⟨unmatched, live⟩ := refused
  have inserted : ((Enrolment.demand ("yadgar:enrolment:" ++ uuid) r seconds).exec (sees 0).since
      (sees 0).store).1 = .ok 0 := by
    have gone : ((sees 0).store.user? r.userId).filter (Enrolment.demanded (sees 0).store) =
        none := by
      rw [Option.filter_eq_none_iff]
      exact fun u found => by simp [unmatched u found]
    simp only [Enrolment.demand, Enrolment.insertEnrolment, gone]
  unfold Enrolment.mintEnrolment
  rw [expires]
  simp only [demand, byFlag, alone, Enrolment.compatible, Enrolment.statement, Bool.and_false,
    Bool.false_eq_true, if_false]
  show Prog.answering sees 0
    (conn (Enrolment.demand ("yadgar:enrolment:" ++ uuid) r seconds) >>= _) = _
  rw [Prog.answering_single, inserted]
  show Prog.answering sees 1
    (liveUser conn r.userId >>= fun _ => Enrolment.refuseDemand r.userId) = _
  simp only [liveUser, bind_assoc, Prog.answering_single, selectLiveUser, live, if_true]
  rfl

/-- The bootstrap `CreateUser`, refused. -/
theorem answering_creation (canonical : canonicalUserId r.userId = true)
    (refused : CreationRefused r sees) : (Identity.insertDeclaredUser r).answering sees 0 =
      .error ⟨.permissionDenied, Identity.refusal⟩ := by
  unfold Identity.insertDeclaredUser Identity.predicate lockAdministrators liveAdministrators
  simp only [canonical, Bool.not_true, Bool.false_eq_true, if_false, Prog.answering_start,
    bind_assoc, Prog.answering_query]
  by_cases team : TeamLive (sees 0).store
  · rw [if_neg (not_not.mpr ((lockAdministrators_live _ _).mpr team))]
    simp only [bind_assoc, Prog.answering_query, countLiveAdministrators, Nat.reduceAdd]
    by_cases nobody : liveMembers (sees 1).store administrators = []
    · obtain ⟨absent, undeclared⟩ :=
        (refused.resolve_left (not_not.mpr team)).resolve_left (not_not.mpr nobody)
      rw [← Option.not_isSome, Bool.not_eq_true'] at undeclared
      simp only [nobody, List.length_nil, Nat.lt_irrefl, if_false, bind_assoc, Prog.answering_query,
        Identity.selectUserId, Nat.reduceAdd, absent, Option.isSome_none, Bool.false_eq_true,
        Identity.selectPending, undeclared]
      rfl
    · rw [if_pos (List.length_pos_iff.mpr nobody)]
      rfl
  · rw [if_pos ((lockAdministrators_live _ _).not.mpr team)]
    rfl

/-- An admitted call answers what its verb does. -/
theorem answering_service (caller : c.caller = some iamCaller)
    (failed : (verb c.uuid.text c.request).answering sees 0 = .error status) :
    (service c).answering sees 0 = .error status := by
  unfold service admitted
  rw [if_pos caller]
  exact failed

/-- Every refusal of a demand's predicate is one sentence of the request. -/
theorem answering_refused (caller : c.caller = some iamCaller) (refused : Refused sees c.request) :
    (service c).answering sees 0 = .error ⟨.permissionDenied, match c.request with
      | .createUser _ => Identity.refusal
      | _ => Enrolment.refusal⟩ := by
  refine answering_service caller ?_
  cases refused' : c.request with
  | createEnrolment r =>
    refine Prog.answering_error ?_
    rw [refused'] at refused
    cases refused with
    | declared demand fromTeam expires refused =>
      obtain ⟨seconds, expires⟩ := Option.isSome_iff_exists.mp expires
      unfold Enrolment.mintEnrolment
      rw [expires]
      simp only [demand, fromTeam, Bool.and_self, if_true]
      exact answering_issue refused
    | flagged demand byFlag alone expires refused =>
      obtain ⟨seconds, expires⟩ := Option.isSome_iff_exists.mp expires
      exact answering_demand demand byFlag alone expires refused
  | createUser r =>
    refine Prog.answering_error ?_
    rw [refused'] at refused
    cases refused with
    | creation demand canonical refused =>
      unfold Identity.insertUser
      rw [if_pos demand]
      exact answering_creation canonical refused
  | _ =>
    rw [refused'] at refused
    cases refused

/-- A refused bootstrap caller learns nothing. Every answer in a run is decided
by what the session's statements saw; whatever that was, in two runs in which the
predicate refuses one request the answers are the same; the naming re-read does
not change the refusal, whether it finds the target, does not, or fails; and a
demand that carries the revoke instruction is refused before any statement. -/
theorem refused_bootstrap_learns_nothing :
    (∀ S₀ S (i : Nat) c ℓ r, Later S₀ S → S₀.sessions[i]? = none →
      S.sessions[i]? = some ⟨c, ℓ, .answered r⟩ →
      ∃ (n : Nat) (seen : Nat → Snapshot Store),
        (∀ k, k < n → System.Sighted service (fun _ _ _ => True) S₀ S i (seen k)) ∧
        ∀ sees : Nat → Snapshot Store, (∀ k, k < n → sees k = seen k) →
          (service c).answering sees 0 = r) ∧
    (∀ (c c' : Call) sees sees', c.caller = some iamCaller → c'.caller = some iamCaller →
      c.request = c'.request → Refused sees c.request → Refused sees' c'.request →
      ∃ status, (service c).answering sees 0 = .error status ∧
        (service c').answering sees' 0 = .error status) ∧
    (∀ userId, ∃ next : Except DbError (Option Bool) → Rpc String,
      Enrolment.refuseDemand userId =
        .auto defaultIsolation (Enrolment.selectAdminFlag userId) next ∧
      ∀ flag, next flag = .fail ⟨.permissionDenied, Enrolment.refusal⟩) ∧
    ∀ (c : Call) r, c.caller = some iamCaller → c.request = .createEnrolment r →
      r.expiresAt.isSome → r.requireZeroCredentialAdmin = true → r.adminFromTeam = false →
      r.revokeExistingCredentials = true → ∃ message,
        service c = .fail ⟨.invalidArgument, message⟩ := by
  refine ⟨fun S₀ S i c ℓ r later absent there => System.answered_seen later absent there,
    ?_, ?_, ?_⟩
  · intro c c' sees sees' caller caller' same refused refused'
    refine ⟨_, answering_refused caller refused, ?_⟩
    rw [same]
    exact answering_refused caller' refused'
  · exact fun userId => ⟨_, rfl, fun flag => rfl⟩
  · intro c r caller request expires demand byFlag revoke
    obtain ⟨seconds, expires⟩ := Option.isSome_iff_exists.mp expires
    refine ⟨"`revoke_existing_credentials` cannot be combined with " ++
      "`require_zero_credential_admin`", ?_⟩
    unfold service admitted verb Enrolment.mintEnrolment Enrolment.compatible
    rw [if_pos caller, request]
    simp only [expires, demand, byFlag, revoke, Bool.and_false, Bool.false_eq_true, if_false,
      Bool.and_self, if_true]
    rfl

end

/-! ### A demand -/

/-- A declared demand for somebody. -/
def demanding (userId : String) : Call :=
  ⟨some iamCaller, secondUuid, .createEnrolment ⟨userId, Enrolments.aSecret, some 100, true, false,
    true⟩⟩

open Bytewise in
/-- Without a team and as no member of it, a stranger hears the same. -/
theorem refused_bootstrap_learns_nothing_unknown : ∃ status,
    (service (demanding "yadgar:user:stranger")).answering (fun _ => ⟨migrated, 0⟩) 0 =
      .error status ∧
    (service (demanding "yadgar:user:stranger")).answering
      (fun _ => ⟨(after Administrators.founding).store, 0⟩) 0 = .error status := by
  have unfounded : ¬TeamLive migrated := by
    unfold TeamLive
    decide +kernel
  have unknown :
      ((after Administrators.founding).store.liveUser? "yadgar:user:stranger").isNone := by
    decide +kernel
  exact refused_bootstrap_learns_nothing.2.1 _ _ _ _ rfl rfl rfl
    (.declared rfl rfl rfl (Or.inl unfounded)) (.declared rfl rfl rfl (Or.inr (Or.inl unknown)))

end IamDb.Bootstrap
