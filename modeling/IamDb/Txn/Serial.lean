import Mathlib.Data.List.Forall2
import IamDb.Txn.History

/-! The commits of a run, one after the other. A session commits at most once
and ends with it, so a run orders the sessions that commit; applied in this
order to the store the run started from, each on what the one before it left,
the commits make the store the run comes to. The order is the one of time: what
ended before another session arrived stands before it. -/
namespace Txn

section
variable {Call Store Write Res ε α : Type} [Locking Write Res]

/-- A store that commits lead to one at a time, each the commit of a call and
one the call guarantees. -/
inductive Serial [Writes Store Write] (Inv : Store → Prop)
    (G : Call → Guar Store Write Res ε α) (σ : Store) :
    List Call → Store → Prop where
  | nil : Serial Inv G σ [] σ
  | snoc (before : Serial Inv G σ log k.store) (inv : Inv k.store) (guar : G c k) :
    Serial Inv G σ (log ++ [c]) k.result

/-- The session an action is a step of. -/
def Action.session : Action Call → Option Nat
  | .run i => some i
  | .lose i => some i
  | .drop i => some i
  | _ => none

/-- A session that has ended with an answer OK, or with one nobody received. -/
def Session.Concluded (s : Session Call Store Write Res ε α) : Prop :=
  (∃ a, s.phase = .answered (.ok a)) ∨ s.phase = .dropped

namespace System

variable [DecidableEq Res] [Writes Store Write]
  {service : Call → Prog Store Write Res ε α} {R : Rely Store Write Res}
  {G : Call → Guar Store Write Res ε α} {Inv : Store → Prop}
  {cond : System Call Store Write Res ε α → Action Call → System Call Store Write Res ε α → Prop}
  {S₀ S S' T : System Call Store Write Res ε α}

/-- The session whose commit a step is: the log grows with it. -/
def committer (S : System Call Store Write Res ε α) (a : Action Call)
    (S' : System Call Store Write Res ε α) : Option Nat :=
  if S'.log.length = S.log.length then none else a.session

/-- The sessions that commit in a run, in the order they do. -/
def committers (service : Call → Prog Store Write Res ε α) (S : System Call Store Write Res ε α)
    (actions : List (Action Call)) : List Nat :=
  (S.trace service actions).filterMap fun x => committer x.1 x.2.1 x.2.2

/-- Session `i` is the session of call `c` and has ended with its commit. -/
def Committed (S : System Call Store Write Res ε α) (i : Nat) (c : Call) : Prop :=
  ∃ s, S.sessions[i]? = some s ∧ s.call = c ∧ s.Concluded

theorem committers_append (ran : S.run service as = some T) :
    S.committers service (as ++ bs) = S.committers service as ++ T.committers service bs := by
  rw [committers, trace_append ran, List.filterMap_append]
  rfl

theorem committers_concat (ran : S.run service as = some T) (step : T.step service a = some S') :
    S.committers service (as ++ [a]) =
      S.committers service as ++ (committer T a S').toList := by
  rw [committers, trace_concat ran step, List.filterMap_append]
  cases named : committer T a S' <;> simp [committers, named]

/-- What has ended stays as it is. -/
theorem Committed.mono (committed : S.Committed i c) (later : Reaches service cond S S') :
    S'.Committed i c := by
  obtain ⟨s, there, call, concluded⟩ := committed
  refine ⟨s, later.ended there ?_, call, concluded⟩
  rintro p running
  rcases concluded with ⟨a, answered⟩ | dropped
  · rw [running] at answered
    cases answered
  · rw [running] at dropped
    cases dropped

omit [DecidableEq Res] [Writes Store Write] in
/-- A session under way has not committed. -/
theorem Committed.not_running (committed : S.Committed i c)
    (here : S.sessions[i]? = some ⟨c', ℓ, .running p⟩) : False := by
  obtain ⟨s, there, _, ⟨a, answered⟩ | dropped⟩ := committed
  · cases Option.some.inj (here.symm.trans there)
    cases answered
  · cases Option.some.inj (here.symm.trans there)
    cases dropped

omit [DecidableEq Res] [Writes Store Write] in
theorem committed_of_mem {order : List Nat} {log : List Call}
    (each : List.Forall₂ S.Committed order log) (member : i ∈ order) : ∃ c, S.Committed i c := by
  induction each with
  | nil => cases member
  | cons committed _ ih =>
    rcases List.mem_cons.mp member with rfl | member
    · exact ⟨_, committed⟩
    · exact ih member

theorem Lands.committed (lands : S.Lands Inv G i c k S') : S'.Committed i c := by
  obtain ⟨a, ℓ, _, there | there⟩ := lands.answer
  · exact ⟨_, there, rfl, Or.inl ⟨a, rfl⟩⟩
  · exact ⟨_, there, rfl, Or.inr rfl⟩

theorem Lands.committer (lands : S.Lands Inv G i c k S') (step : S.step service act = some S') :
    System.committer S act S' = some i := by
  rw [System.committer, lands.log, if_neg (by simp)]
  rcases lands.acts step with ⟨rfl, _⟩ | rfl <;> rfl

/-- Only a session under way commits. -/
theorem committer_running (step : S.step service a = some S') (named : committer S a S' = some i)
    (there : S.sessions[i]? = some s) : ∃ p, s.phase = .running p := by
  rw [committer] at named
  split at named
  · cases named
  · rename_i grown
    cases steps_of_step step with
    | call c => exact absurd rfl grown
    | run advances =>
      cases named
      cases Option.some.inj (advances.here.symm.trans there)
      exact ⟨_, rfl⟩
    | lose advances =>
      cases named
      cases Option.some.inj (advances.here.symm.trans there)
      exact ⟨_, rfl⟩
    | drop here => exact absurd rfl grown
    | tick seconds => exact absurd rfl grown

/-- A session that has ended commits nothing more. -/
theorem not_committers_of_ended {i : Nat} (there : S.sessions[i]? = some s)
    (stopped : ∀ p, s.phase ≠ .running p) : i ∉ S.committers service actions := by
  induction actions generalizing S with
  | nil => exact List.not_mem_nil
  | cons a as ih =>
    rw [committers, trace]
    cases step : S.step service a with
    | none => exact List.not_mem_nil
    | some S' =>
      intro member
      rw [List.filterMap_cons] at member
      have last : Reaches service (fun _ _ _ => True) S S' := .step .refl step trivial
      have past := ih (last.ended there stopped)
      dsimp only at member
      cases named : committer S a S' with
      | none =>
        rw [named] at member
        exact past member
      | some j =>
        rw [named] at member
        rcases List.mem_cons.mp member with rfl | member
        · obtain ⟨p, running⟩ := committer_running step named there
          exact stopped p running
        · exact past member

section
variable (verified : Verified service Inv R G) (sound : S₀.Sound Inv R G)
  (none : S₀.sessions = []) (ends : ∀ c, (service c).Ends)
include verified sound none ends

/-- A step is the commit of one session, or leaves the store, the log and the
order alone. -/
theorem Reaches.commits_or (reached : Reaches service cond S₀ S)
    (step : S.step service a = some S') :
    (S'.store = S.store ∧ S'.log = S.log ∧ committer S a S' = .none) ∨
      ∃ i c k, S.Lands Inv G i c k S' ∧ committer S a S' = some i := by
  rcases reached.lands verified sound none ends step with ⟨store, log⟩ | ⟨i, c, k, lands⟩
  · exact Or.inl ⟨store, log, by rw [committer, log, if_pos rfl]⟩
  · exact Or.inr ⟨i, c, k, lands, lands.committer step⟩

/-- Every session of the order has ended with the call that is logged for it,
and no session is in it twice. -/
theorem committers_committed (log : S₀.log = []) (ran : S₀.run service actions = some S) :
    List.Forall₂ S.Committed (S₀.committers service actions) S.log ∧
      (S₀.committers service actions).Nodup := by
  induction actions using List.reverseRecOn generalizing S with
  | nil =>
    cases ran
    rw [log]
    exact ⟨.nil, List.nodup_nil⟩
  | append_singleton as a ih =>
    obtain ⟨T, earlier, step⟩ := run_concat.mp ran
    obtain ⟨each, once⟩ := ih earlier
    have last : Reaches service (fun _ _ _ => True) T S := .step .refl step trivial
    have kept : List.Forall₂ S.Committed (S₀.committers service as) T.log :=
      List.Forall₂.imp (fun _ _ committed => committed.mono last) each
    rw [committers_concat earlier step]
    rcases Reaches.commits_or verified sound none ends (.of_run earlier) step with
      ⟨_, same, nobody⟩ | ⟨i, c, k, lands, named⟩
    · rw [nobody, same]
      simpa using ⟨kept, once⟩
    · rw [named, lands.log]
      refine ⟨List.rel_append kept (.cons lands.committed .nil), ?_⟩
      refine List.nodup_append.mpr ⟨once, by simp, ?_⟩
      rintro j member _ last rfl
      obtain rfl := List.mem_singleton.mp last
      -- A session that is still to commit has not committed before.
      obtain ⟨c', committed⟩ := committed_of_mem each member
      obtain ⟨ℓ, p, here⟩ := lands.running
      exact committed.not_running here

/-- The commits of a run in their order lead from its first store to its last. -/
theorem serial_of_run (log : S₀.log = []) (ran : S₀.run service actions = some S) :
    Serial Inv G S₀.store S.log S.store := by
  induction actions using List.reverseRecOn generalizing S with
  | nil =>
    cases ran
    rw [log]
    exact .nil
  | append_singleton as a ih =>
    obtain ⟨T, earlier, step⟩ := run_concat.mp ran
    have before := ih earlier
    rcases Reaches.commits_or verified sound none ends (.of_run earlier) step with
      ⟨store, same, _⟩ | ⟨i, c, k, lands, _⟩
    · rw [store, same]
      exact before
    · rw [lands.log, lands.result]
      have whole := lands.commits.store
      exact .snoc (whole ▸ before) (whole ▸ lands.commits.inv) lands.commits.guar

/-- An answer OK of a call that earns it puts its session into the order. -/
theorem earned_committers (ran : S₀.run service actions = some S) {i : Nat}
    (there : S.sessions[i]? = some ⟨c, ℓ, .answered (.ok b)⟩) (earned : (service c).Earned) :
    i ∈ S₀.committers service actions := by
  induction actions using List.reverseRecOn generalizing S with
  | nil =>
    cases ran
    rw [none] at there
    cases there
  | append_singleton as a ih =>
    obtain ⟨T, earlier, step⟩ := run_concat.mp ran
    rw [committers_concat earlier step]
    by_cases already : T.sessions[i]? = some ⟨c, ℓ, .answered (.ok b)⟩
    · exact List.mem_append_left _ (ih earlier already)
    · obtain ⟨k, lands, _⟩ := Reaches.answered_lands verified sound none ends (.of_run earlier) step
        earned there already
      rw [lands.committer step]
      exact List.mem_append_right _ (List.mem_singleton_self i)

/-- What had ended before a session arrived stands before it in the order. -/
theorem committers_ordered (log : S₀.log = []) (first : S₀.run service as = some T) {i j : Nat} (ended : T.sessions[i]? = some s)
    (stopped : ∀ p, s.phase ≠ .running p) (absent : T.sessions.length ≤ j)
    (member : i ∈ S₀.committers service (as ++ bs)) :
    (S₀.committers service (as ++ bs)).idxOf i < (S₀.committers service (as ++ bs)).idxOf j := by
  obtain ⟨each, _⟩ := committers_committed verified sound none ends log first
  rw [committers_append first] at member ⊢
  have later : j ∉ S₀.committers service as := by
    intro early
    obtain ⟨c, s', there, _⟩ := committed_of_mem each early
    have := (List.getElem?_eq_some_iff.mp there).1
    omega
  have here := (List.mem_append.mp member).resolve_right (not_committers_of_ended ended stopped)
  rw [List.idxOf_append_of_mem here, List.idxOf_append_of_notMem later]
  have := List.idxOf_lt_length_of_mem here
  omega

end

end System

end

end Txn
