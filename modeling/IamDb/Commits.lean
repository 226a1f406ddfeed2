import IamDb.Enrolments
import IamDb.Txn.Erased
import IamDb.Txn.Serial

/-! The service as one atomic store. Whatever the interleaving, a run does to
the store what its commits do one at a time, each in full and under the call it
is the commit of, in an order that agrees with the order in which the calls
came and went; and it does the same without the calls of anybody but `iam`. -/
namespace IamDb.Commits
open Txn Schema Messages Service Effects Evolution Interference Handlers Runs ServiceProofs Endings

section
variable [Engine]

/-! ### Answers that stand for a commit -/

/-- The requests that are answered OK only with a commit. A mint that is told
no epoch and an enrolment that demands nothing are answered OK also where they
matched no row; the other writes by one statement say nothing about it. -/
def committing : Request → Bool
  | .setPassword _ => true
  | .createEnrolment r => r.requireZeroCredentialAdmin
  | .redeemEnrolment _ => true
  | .createCredential r => r.expectedCredentialEpoch.isSome
  | .revokeAllCredentials _ => true
  | .createUser _ => true
  | .setInheritedSetting _ => true
  | .setKeyIdentity _ => true
  | .adoptKeyIdentity _ => true
  | .syncTeams _ => true
  | _ => false

/-- A user that is created was stored. -/
theorem earned_insertUser {uuid : String} : (Identity.insertUser uuid r).Earned := by
  unfold Identity.insertUser
  split
  · exact atomic_insertDeclaredUser.earned
  · intro now σ silent
    have inserts := IdentityProofs.insertUserRow_exec (Team.userPrefix ++ uuid) r r.isAdmin now
      defaultIsolation σ
    generalize (Identity.insertUserRow (Team.userPrefix ++ uuid) r r.isAdmin).exec now σ = outcome
      at inserts silent ⊢
    cases inserts with
    | refused => trivial
    | done => cases silent

theorem earned_committing {c : Call} (commits : committing c.request = true) :
    (service c).Earned := by
  refine earned_lift fun _ => ?_
  unfold verb
  cases named : c.request with
  | setPassword r => exact Prog.Earned.map _ atomic_storePassword.earned
  | createEnrolment r =>
    rw [named] at commits
    exact Prog.Earned.map _ (earned_mintEnrolment commits)
  | redeemEnrolment r => exact Prog.Earned.map _ atomic_redeem.earned
  | createCredential r =>
    rw [named] at commits
    exact Prog.Earned.map _ (earned_mintCredential commits)
  | revokeAllCredentials r => exact Prog.Earned.map _ atomic_revokeAllCredentials.earned
  | createUser r => exact Prog.Earned.map _ earned_insertUser
  | setInheritedSetting r => exact Prog.Earned.map _ atomic_storeSetting.earned
  | setKeyIdentity r => exact Prog.Earned.map _ atomic_recordKeyIdentity.earned
  | adoptKeyIdentity r => exact Prog.Earned.map _ atomic_recordAdoption.earned
  | syncTeams r => exact Prog.Earned.map _ atomic_syncTeams.earned
  | _ => simp [named, committing] at commits

/-! ### The order of the commits -/

/-- The sessions that commit in a run from a store, in the order they do. -/
def order (σ : Store) (now : Int) (actions : List (Action Call)) : List Nat :=
  System.committers service (.start σ now) actions

/-- A run is strictly serializable. Its store is what the commits of its log
make of the first one, one at a time, each with an effect that its call may
have on the store it meets. Each is the commit of a session of its own, which
has ended with an answer OK or one that nobody received; a refusal is never
among them, an answer OK of a call that is only answered so with a commit is.
And a session that had ended when another arrived comes before it. -/
theorem commits_serialize (inv : Integrity σ)
    (ran : run (.start σ now) actions = some S) :
    Serial Integrity Effective σ S.log S.store ∧
    List.Forall₂ S.Committed (order σ now actions) S.log ∧ (order σ now actions).Nodup ∧
    (∀ (i : Nat) c ℓ a, S.sessions[i]? = some ⟨c, ℓ, .answered (.ok a)⟩ →
      committing c.request = true → i ∈ order σ now actions) ∧
    ∀ before after T (i j : Nat) s, actions = before ++ after →
      run (.start σ now) before = some T → T.sessions[i]? = some s →
      (∀ p, s.phase ≠ .running p) → T.sessions.length ≤ j → i ∈ order σ now actions →
      (order σ now actions).idxOf i < (order σ now actions).idxOf j := by
  have sound : (System.start σ now : Handlers.System).Sound Integrity Others Effective :=
    System.sound_start inv
  have each := System.committers_committed verified sound rfl service_ends rfl ran
  refine ⟨System.serial_of_run verified sound rfl service_ends rfl ran, each.1, each.2, ?_, ?_⟩
  · intro i c ℓ a there commits
    exact System.earned_committers verified sound rfl service_ends ran there
      (earned_committing commits)
  · rintro before after T i j s rfl first ended stopped absent member
    exact System.committers_ordered verified sound rfl service_ends rfl first ended stopped absent
      member

/-! ### The one caller -/

/-- Whether a call carries the name the service admits. -/
def fromIam (c : Call) : Bool := c.caller = some iamCaller

theorem service_refuses {c : Call} (stranger : fromIam c = false) :
    ∃ text, service c = .fail ⟨.permissionDenied, text⟩ := by
  have other : c.caller ≠ some iamCaller := by simpa [fromIam] using stranger
  obtain ⟨text, refused⟩ :
      ∃ text, admitted c.caller = .error ⟨.permissionDenied, text⟩ := ⟨_, if_neg other⟩
  refine ⟨text, ?_⟩
  rw [service, refused]
  rfl

/-- Nobody but `iam` gets anything or does anything. Another caller's session
is refused as it arrives and stays as it arrived, with no lock, no read and no
commit; and what the run comes to, it comes to without such calls. -/
theorem strangers_leave_nothing (later : Later (.start σ now) S) :
    (∀ (i : Nat) s, S.sessions[i]? = some s → fromIam s.call = false →
      ∃ text, s = ⟨s.call, .fresh, .answered (.error ⟨.permissionDenied, text⟩)⟩) ∧
    System.Reaches service (fun _ a _ => ∀ c, a = .call c → fromIam c = true) (.start σ now)
      { S with sessions := S.sessions.filter (fromIam ·.call) } := by
  refine ⟨fun i s there stranger => ?_, ?_⟩
  · obtain ⟨text, refuses⟩ := service_refuses stranger
    exact ⟨text, later.turned_away rfl there refuses⟩
  · refine later.erased (fun c (stranger : fromIam c = false) => ?_) rfl
    obtain ⟨text, refuses⟩ := service_refuses stranger
    exact ⟨_, refuses⟩

end

/-! ### Runs -/

open Bytewise in
theorem commits_serialize_enrolled :
    Serial Integrity Effective migrated (after Enrolments.enrolling).log
      (after Enrolments.enrolling).store ∧ order migrated 0 Enrolments.enrolling = [0, 1, 2] :=
  ⟨(commits_serialize integrity_migrated (run_after (by decide +kernel))).1, by decide +kernel⟩

/-- A module with a leaf of its own asks for the user's password hash. -/
def snooping : List (Action Call) :=
  Enrolments.enrolling ++ [.call ⟨some "task-caller", secondUuid, .getPasswordHash ⟨[1]⟩⟩]

open Bytewise in
theorem strangers_leave_nothing_snooping : ∃ c ℓ r, (after snooping).sessions[3]? =
    some ⟨c, ℓ, .answered r⟩ ∧ fromIam c = false ∧
    System.Reaches service (fun _ a _ => ∀ c, a = .call c → fromIam c = true) (fresh 0)
      { after snooping with sessions := (after snooping).sessions.filter (fromIam ·.call) } := by
  have later : Later (.start migrated 0) (after snooping) := later_fresh (by decide +kernel)
  have asked : ((after snooping).sessions[3]?).map (fun s => fromIam s.call) = some false := by
    decide +kernel
  obtain ⟨s, there, stranger⟩ := Option.map_eq_some_iff.mp asked
  obtain ⟨refused, without⟩ := strangers_leave_nothing later
  obtain ⟨text, whole⟩ := refused 3 s there stranger
  exact ⟨s.call, _, _, there.trans (congrArg some whole), stranger, without⟩

end IamDb.Commits
