import IamDb.Runs

/-! Who administers. Nothing but a sync and the first administrator's bootstrap
touches the teams and their members: once `administrators` has a live member it
keeps one, and no bootstrap commits again. -/
namespace IamDb.Administrators
open Txn Schema Messages Service Effects Evolution Interference Handlers Runs

section
variable [Engine] {S S' : Handlers.System}

/-- The members of `administrators` whose user and team are live. -/
abbrev administrating (σ : Store) : List TeamMember := Team.liveMembers σ Team.administrators

/-- A `CreateUser` that demands an id. -/
def bootstrap (c : Call) : Bool :=
  match c.request with
  | .createUser r => r.userId ≠ ""
  | _ => false

/-- Once there is a live administrator no commit takes the last one away. -/
theorem administrating_kept (allowed : Allowed c k ef) (inv : Integrity k.store)
    (some : administrating k.store ≠ []) : administrating (ef.apply k.store) ≠ [] := by
  have evolves := evolves_of_allowed allowed
  rcases roster_of_allowed allowed with kept | ⟨u, rfl⟩ | ⟨teams, members, pending, rfl⟩
  · rwa [administrating, kept.live_members evolves inv]
  · cases allowed with
    | bootstrap _ _ _ _ _ _ _ _ nobody => exact absurd nobody some
  · cases allowed with
    | sync _ _ synced =>
      refine fun none => synced.guard some ?_
      exact none

/-- A bootstrap commits where nobody administers, and leaves somebody who does. -/
theorem bootstrap_effect (allowed : Allowed c k ef) (demand : bootstrap c = true) :
    administrating k.store = [] ∧ administrating (ef.apply k.store) ≠ [] := by
  cases allowed with
  | createUser request minted => simp [bootstrap, request, minted] at demand
  | @bootstrap r u _ _ _ _ _ new absent _ _ team nobody =>
    refine ⟨nobody, List.ne_nil_of_mem (a := ⟨Team.administrators, u.id⟩) ?_⟩
    obtain ⟨t, live⟩ := Option.isSome_iff_exists.mp team
    have person : ((Effect.bootstrap u).apply k.store).liveUser? u.id = some u := by
      refine Store.liveUser?_eq_some.mpr ⟨Table.find?_put_self, ?_⟩
      rw [new]
      rfl
    have stands : ((Effect.bootstrap u).apply k.store).liveTeam? Team.administrators = some t := live
    simp only [administrating, Team.liveMembers, List.mem_filter, person, stands]
    exact ⟨Table.mem_put_self, by simp⟩
  | nothing idle => cases named : c.request <;> simp_all [bootstrap, mayIdle]
  | _ => simp_all [bootstrap]

/-- The bootstraps among the commits of a run. -/
def bootstraps (log : List Call) : List Call := log.filter fun c => bootstrap c

theorem bootstraps_lands (lands : Lands S i c k S') :
    bootstraps S'.log = bootstraps S.log ++ if bootstrap c then [c] else [] := by
  rw [lands.log, bootstraps, List.filter_append]
  cases demand : bootstrap c <;> simp [bootstraps, demand]

/-- A commit keeps somebody administering, and while somebody does it is no
bootstrap. -/
theorem administrating_lands (reachable : Reachable S) (lands : Lands S i c k S')
    (some : administrating S.store ≠ []) :
    administrating S'.store ≠ [] ∧ bootstraps S'.log = bootstraps S.log := by
  obtain ⟨ef, allowed, store, result⟩ := lands_effect lands
  have inv := reachable.inv
  rw [← store] at some inv result
  refine ⟨result ▸ administrating_kept allowed inv some, ?_⟩
  cases demand : bootstrap c with
  | true => exact absurd (bootstrap_effect allowed demand).1 some
  | false => simp [bootstraps_lands lands, demand]

theorem administrating_later (reachable : Reachable S) (some : administrating S.store ≠ [])
    (later : Later S S') :
    administrating S'.store ≠ [] ∧ bootstraps S'.log = bootstraps S.log := by
  refine later.invariant (P := fun T => administrating T.store ≠ [] ∧
    bootstraps T.log = bootstraps S.log) reachable ⟨some, rfl⟩ ?_ ?_
  · rintro T T' store log ⟨some, same⟩
    exact ⟨store ▸ some, log ▸ same⟩
  · rintro T i c k T' here lands ⟨some, same⟩
    obtain ⟨some', same'⟩ := administrating_lands here lands some
    exact ⟨some', same'.trans same⟩

/-- Until the first bootstrap none is logged; from then on somebody administers. -/
theorem bootstraps_bounded (reachable : Reachable S) :
    bootstraps S.log = [] ∨ (bootstraps S.log).length = 1 ∧ administrating S.store ≠ [] := by
  refine reachable.invariant (P := fun T => bootstraps T.log = [] ∨
    (bootstraps T.log).length = 1 ∧ administrating T.store ≠ []) (fun _ _ _ => Or.inl rfl) ?_ ?_
  · intro T T' store log before
    rwa [store, log]
  · intro T i c k T' here lands before
    rcases before with none | ⟨one, some⟩
    · cases demand : bootstrap c with
      | false => exact Or.inl (by simp [bootstraps_lands lands, demand, none])
      | true =>
        obtain ⟨ef, allowed, store, result⟩ := lands_effect lands
        refine Or.inr ⟨by simp [bootstraps_lands lands, demand, none], ?_⟩
        rw [result, ← store]
        exact (bootstrap_effect allowed demand).2
    · obtain ⟨some', same⟩ := administrating_lands here lands some
      exact Or.inr ⟨same ▸ one, some'⟩

/-- A bootstrap answers OK only with its commit. -/
theorem bootstrap_answers (reachable : Reachable S) (step : S.step service act = some S')
    (demand : bootstrap c = true) (there : S'.sessions[i]? = some ⟨c, ℓ, .answered (.ok a)⟩)
    (new : S.sessions[i]? ≠ some ⟨c, ℓ, .answered (.ok a)⟩) : ∃ k, Lands S i c k S' := by
  have atomic : (service c).Atomic := by
    refine Endings.atomic_lift fun _ => ?_
    unfold bootstrap at demand
    split at demand
    · rename_i r request
      rw [request]
      refine Prog.Atomic.map _ ?_
      rw [Identity.insertUser, if_pos (by simpa using demand)]
      exact Endings.atomic_insertDeclaredUser
    · cases demand
  obtain ⟨k, lands, _⟩ := answered_commits reachable step atomic.earned there new
  exact ⟨k, lands⟩

/-- At most one bootstrap ever commits; and from any state in which somebody
administers, somebody always does, and every bootstrap that has not already
answered is refused and commits nothing. -/
theorem administrators_stay (reachable : Reachable S) :
    (bootstraps S.log).length ≤ 1 ∧ (administrating S.store ≠ [] → ∀ S', Later S S' →
      administrating S'.store ≠ [] ∧ bootstraps S'.log = bootstraps S.log ∧
      ∀ (i : Nat) c ℓ r, bootstrap c = true → S'.sessions[i]? = some ⟨c, ℓ, .answered r⟩ →
        S.sessions[i]? = some ⟨c, ℓ, .answered r⟩ ∨ ∃ e, r = .error e) := by
  constructor
  · rcases bootstraps_bounded reachable with none | ⟨one, _⟩
    · simp [none]
    · exact Nat.le_of_eq one
  · intro some S' later
    obtain ⟨some', same⟩ := administrating_later reachable some later
    refine ⟨some', same, fun i c ℓ r demand there => ?_⟩
    cases r with
    | error e => exact Or.inr ⟨e, rfl⟩
    | ok a =>
      refine Or.inl ?_
      clear some' same
      induction later with
      | refl => exact there
      | @step T act T' before step _ ih =>
        refine ih ?_
        by_contra new
        obtain ⟨k, lands⟩ := bootstrap_answers (reachable.later before) step demand there new
        have kept := administrating_later reachable some before
        have kept' := administrating_lands (reachable.later before) lands kept.1
        simp [bootstraps_lands lands, demand] at kept'

end

/-- A declaration with one administrator, and the bootstrap it allows. -/
def founding : List (Action Call) :=
  calling firstUuid (.syncTeams ⟨[⟨"administrators", [Team.userPrefix ++ firstUuid.text]⟩]⟩) 0 11 ++
  calling firstUuid (.createUser ⟨[1], [2], [3], false, Team.userPrefix ++ firstUuid.text⟩) 1 9

open Bytewise in
theorem administrators_stay_founded :
    administrating (after (founding ++ calling secondUuid (.syncTeams ⟨[]⟩) 2 4)).store ≠ [] :=
  ((administrators_stay (reachable_after founding)).2 (by decide +kernel) _
    (later_after (by decide +kernel))).1

end IamDb.Administrators
