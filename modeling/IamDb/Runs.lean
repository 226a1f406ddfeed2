import IamDb.Endings
import IamDb.Txn.Sequential

/-! Runs of the service. A state is reachable when calls lead to it from a
sound store, the migrated one for instance; every change of the store on the
way is one commit of one call with an effect the call may have, and the call
answers OK with it. -/

namespace IamDb.Bytewise
open Schema

/-- An engine that compares text byte for byte, for runs on given calls. -/
scoped instance bytewise : Engine where
  weight := id
  weight_plain _ _ _ _ same := same
  maxTimestamp := 2147483647
  fits := withinWidth
  fits_short := withinWidth_short
  lowercase := id
  printable c := ' ' ≤ c && c ≤ '~'

end IamDb.Bytewise

namespace IamDb.Runs
open Txn Schema Messages Service Effects Evolution Interference Handlers ServiceProofs Endings

variable [Engine]

/-- A state that calls, in any interleaving, can lead to from another. -/
abbrev Later (S S' : Handlers.System) : Prop :=
  System.Reaches service (fun _ _ _ => True) S S'

/-- A state that calls can lead to from a store that keeps what the constraints
of the schema and the verbs keep; `migrated` is one. -/
def Reachable (S : Handlers.System) : Prop :=
  ∃ σ now, Integrity σ ∧ Later (.start σ now) S

/-- One commit of a run. -/
abbrev Lands (S : Handlers.System) (i : Nat) (c : Call) (k : Committed) (S' : Handlers.System) :
    Prop :=
  System.Lands Integrity Effective S i c k S'

theorem reachable_fresh (now : Int) : Reachable (fresh now) :=
  ⟨migrated, now, integrity_migrated, .refl⟩

/-- A call of the admitted caller, and some steps of its session, the `i`th. -/
def calling (uuid : Uuid) (request : Request) (i n : Nat) : List (Action Call) :=
  .call ⟨some iamCaller, uuid, request⟩ :: .replicate n (.run i)

def firstUuid : Uuid := ⟨"0192f3c4-1a2b-7c3d-8e4f-0123456789ab", by decide⟩

def secondUuid : Uuid := ⟨"0192f3c4-1a2b-7c3d-8e4f-0123456789ac", by decide⟩

/-- The state actions lead to right after the migrations; they have to be
possible there. -/
def after (actions : List (Action Call)) : Handlers.System :=
  (run (fresh 0) actions).getD (fresh 0)

theorem reachable_after (actions : List (Action Call)) : Reachable (after actions) := by
  unfold after
  cases possible : run (fresh 0) actions with
  | none => exact reachable_fresh 0
  | some S => exact ⟨migrated, 0, integrity_migrated, .of_run possible⟩

theorem run_after (possible : (run (fresh 0) actions).isSome) :
    run (fresh 0) actions = some (after actions) := by
  obtain ⟨S', whole⟩ := Option.isSome_iff_exists.mp possible
  rw [after, whole, Option.getD_some]

theorem later_fresh (possible : (run (fresh 0) actions).isSome) :
    Later (fresh 0) (after actions) :=
  .of_run (run_after possible)

theorem reaches_after {cond : Handlers.System → Action Call → Handlers.System → Prop}
    (check : Handlers.System → Action Call → Handlers.System → Bool)
    (checks : ∀ S a S', check S a S' = true → cond S a S')
    (possible : ((fresh 0).runWhile service check actions).isSome) :
    System.Reaches service cond (fresh 0) (after actions) := by
  obtain ⟨S', whole⟩ := Option.isSome_iff_exists.mp possible
  rw [after, run, System.Reaches.run_of_runWhile whole, Option.getD_some]
  exact .of_runWhile checks whole

theorem later_after (possible : (run (fresh 0) (actions ++ more)).isSome) :
    Later (after actions) (after (actions ++ more)) := by
  obtain ⟨S', whole⟩ := Option.isSome_iff_exists.mp possible
  have split := whole
  rw [run, System.run_append, Option.bind_eq_some_iff] at split
  obtain ⟨S, first, second⟩ := split
  rw [after, after, whole, run, first]
  exact .of_run second

theorem reaches_more {cond : Handlers.System → Action Call → Handlers.System → Prop}
    (check : Handlers.System → Action Call → Handlers.System → Bool)
    (checks : ∀ S a S', check S a S' = true → cond S a S')
    (before : (run (fresh 0) actions).isSome)
    (possible : ((after actions).runWhile service check more).isSome) :
    System.Reaches service cond (after actions) (after (actions ++ more)) := by
  obtain ⟨S', whole⟩ := Option.isSome_iff_exists.mp possible
  have there : run (fresh 0) (actions ++ more) = some S' := by
    rw [run, System.run_append, ← run, run_after before]
    exact System.Reaches.run_of_runWhile whole
  have same : after (actions ++ more) = S' := by rw [after, there, Option.getD_some]
  rw [same]
  exact .of_runWhile checks whole

theorem step_after (possible : (run (fresh 0) (actions ++ [a])).isSome) :
    (after actions).step service a = some (after (actions ++ [a])) := by
  obtain ⟨S', whole⟩ := Option.isSome_iff_exists.mp possible
  have split := whole
  rw [run, System.run_append, Option.bind_eq_some_iff] at split
  obtain ⟨S, first, second⟩ := split
  rw [after, after, whole, run, first]
  simpa [System.run] using second

/-- The call of a session that was answered, and its answer. -/
def told (S : Handlers.System) (i : Nat) : Option (Call × Except Status Response) :=
  match S.sessions[i]? with
  | some ⟨c, _, .answered result⟩ => some (c, result)
  | _ => none

theorem told_eq_some {S : Handlers.System} {i : Nat} (answered : told S i = some (c, result)) :
    ∃ ℓ, S.sessions[i]? = some ⟨c, ℓ, .answered result⟩ := by
  unfold told at answered
  split at answered
  · rename_i ℓ _ there
    cases answered
    exact ⟨ℓ, there⟩
  · cases answered

section
variable {S S' : Handlers.System}

theorem Reachable.later (reachable : Reachable S) (later : Later S S') : Reachable S' := by
  obtain ⟨σ, now, inv, before⟩ := reachable
  exact ⟨σ, now, inv, before.trans later⟩

theorem Reachable.step (reachable : Reachable S) (step : S.step service a = some S') :
    Reachable S' :=
  reachable.later (.step .refl step trivial)

theorem Reachable.sound (reachable : Reachable S) : S.Sound Integrity Others Effective := by
  obtain ⟨σ, now, inv, before⟩ := reachable
  exact before.sound verified (System.sound_start inv)

theorem Reachable.inv (reachable : Reachable S) : Integrity S.store := reachable.sound.inv

/-- A step leaves the store and the log alone, or is one commit. -/
theorem Reachable.lands (reachable : Reachable S) (step : S.step service a = some S') :
    S'.store = S.store ∧ S'.log = S.log ∨ ∃ i c k, Lands S i c k S' := by
  obtain ⟨σ, now, inv, before⟩ := reachable
  exact before.lands verified (System.sound_start inv) rfl service_ends step

/-- What a step of another session changes, a session under way puts up with. -/
theorem Reachable.calm (reachable : Reachable S) (step : S.step service a = some S') {i : Nat}
    (here : S.sessions[i]? = some ⟨c, ℓ, .running p⟩)
    (still : S'.sessions[i]? = some ⟨c, ℓ, .running p⟩) : Calm ℓ S.store S'.store := by
  rcases reachable.lands step with ⟨same, _⟩ | ⟨j, c', k, lands⟩
  · rw [same]
    exact .refl _ _
  have other : i ≠ j := by
    rintro rfl
    obtain ⟨_, _, _, ended | ended⟩ := lands.answer
    · cases still.symm.trans ended
    · cases still.symm.trans ended
  refine .single ⟨c', k, lands.commits.store ▸ lands.commits.inv,
    lands.commits.admitted i _ here other, lands.commits.guar, lands.commits.store, ?_⟩
  exact lands.result.symm

/-- A call that earns its answer answers OK in the step that commits. -/
theorem answered_commits (reachable : Reachable S) (step : S.step service a = some S')
    (earned : (service c).Earned) {i : Nat}
    (there : S'.sessions[i]? = some ⟨c, ℓ, .answered (.ok r)⟩)
    (new : S.sessions[i]? ≠ some ⟨c, ℓ, .answered (.ok r)⟩) :
    ∃ k, Lands S i c k S' ∧ k.answer = some (.ok r) := by
  obtain ⟨σ, now, inv, before⟩ := reachable
  exact before.answered_lands verified (System.sound_start inv) rfl service_ends step earned there
    new

/-- A new answer met the postcondition of its call at the moment it was given. -/
theorem Reachable.answered_since {Q : Post Store Write Res Status Response}
    (reachable : Reachable S) (later : Later S S') {i : Nat}
    (there : S'.sessions[i]? = some ⟨c, ℓ, .answered result⟩)
    (unanswered : S.sessions[i]? ≠ some ⟨c, ℓ, .answered result⟩)
    (program : ∀ σ t, Integrity σ → wp Others (fun _ => True) (service c) Q .fresh σ t) :
    ∃ T ℓ₀, Later S T ∧ Later T S' ∧ ℓ = ℓ₀.closed ∧ Q result ℓ₀ T.store T.clock := by
  obtain ⟨σ, now, inv, before⟩ := reachable
  have watch : System.Watched service Integrity Others Effective (fun _ _ _ => True) (· = c) Others
      (fun _ _ => True) (fun _ => Q) :=
    System.watched_of_verified verified fun _ same σ t inv => same ▸ program σ t inv
  obtain ⟨T₀, a, T, ℓ₀, first, step, _, _, closed, post, rest⟩ := before.postcondition verified watch
    (System.sound_start inv) rfl later there unanswered rfl
  exact ⟨T, ℓ₀, first.step step trivial, rest, closed, post⟩

/-- An answer met the postcondition of its call at the moment it was given. -/
theorem Reachable.answered {Q : Post Store Write Res Status Response} (reachable : Reachable S)
    {i : Nat} (there : S.sessions[i]? = some ⟨c, ℓ, .answered result⟩)
    (program : ∀ σ t, Integrity σ → wp Others (fun _ => True) (service c) Q .fresh σ t) :
    ∃ T ℓ₀, Reachable T ∧ Later T S ∧ ℓ = ℓ₀.closed ∧ Q result ℓ₀ T.store T.clock := by
  obtain ⟨σ, now, inv, later⟩ := reachable
  have start : Reachable (.start σ now) := ⟨σ, now, inv, .refl⟩
  obtain ⟨T, ℓ₀, first, rest, post⟩ := start.answered_since later there nofun program
  exact ⟨T, ℓ₀, start.later first, rest, post⟩

/-- What a commit holds a lock on is what it was when the lock was granted. -/
theorem lands_since {f : Store → β} (reachable : Reachable S) (lands : Lands S i c k S')
    (held : ⟨⟨r, mode⟩, t⟩ ∈ k.under)
    (outside : ∀ w : Write, w.res ≠ r → ∀ σ, f (w.apply σ) = f σ) :
    ∃ T, Reachable T ∧ Later T S ∧ T.clock = t ∧ f T.store = f S.store := by
  obtain ⟨ℓ, p, here⟩ := lands.running
  obtain ⟨σ, now, inv, before⟩ := reachable
  rcases lands.held ℓ p here _ held with mine | just
  · obtain ⟨T, first, rest, clock, same⟩ := before.since verified (System.sound_start inv) rfl
      service_ends (fun _ _ effective => effective.1) outside here mine
    exact ⟨T, ⟨σ, now, inv, first⟩, rest, clock, same⟩
  · exact ⟨S, ⟨σ, now, inv, before⟩, .refl, just.symm, rfl⟩

/-- What a session changes of the store it changes in the step it ends with. -/
theorem Reachable.changes (reachable : Reachable S) (step : S.step service (.run i) = some S')
    (changed : S'.store ≠ S.store) :
    ∃ c k a ℓ, Lands S i c k S' ∧ k.answer = some (.ok a) ∧
      S'.sessions[i]? = some ⟨c, ℓ, .answered (.ok a)⟩ := by
  rcases reachable.lands step with ⟨same, _⟩ | ⟨j, c, k, lands⟩
  · exact absurd same changed
  · rcases lands.acts step with ⟨run, a, ℓ, answer, there⟩ | lost
    · cases run
      exact ⟨c, k, a, ℓ, lands, answer, there⟩
    · cases lost

/-- The effect of a commit. -/
theorem lands_effect (lands : Lands S i c k S') :
    ∃ ef, Allowed c k ef ∧ k.store = S.store ∧ S'.store = ef.apply S.store := by
  obtain ⟨_, ef, allowed, result⟩ := lands.commits.guar
  exact ⟨ef, allowed, lands.commits.store, by rw [lands.result, result, lands.commits.store]⟩

/-- What every effect carries over, every run carries over. -/
theorem Later.effects {P : Store → Store → Prop} (later : Later S S') (reachable : Reachable S)
    (refl : ∀ σ, P σ σ) (trans : ∀ σ σ' σ'', P σ σ' → P σ' σ'' → P σ σ'')
    (one : ∀ c (k : Committed) ef, Integrity k.store → k.Locked → Allowed c k ef →
      P k.store (ef.apply k.store)) : P S.store S'.store := by
  induction later with
  | refl => exact refl _
  | step before step _ ih =>
    refine trans _ _ _ ih ?_
    have inv := (reachable.later before).inv
    rcases (reachable.later before).lands step with ⟨same, _⟩ | ⟨i, c, k, lands⟩
    · rw [same]
      exact refl _
    · obtain ⟨ef, allowed, store, result⟩ := lands_effect lands
      rw [result, ← store]
      exact one c k ef (store ▸ inv) lands.commits.guar.1 allowed

/-- What every commit keeps, every run keeps. -/
theorem Later.invariant {P : Handlers.System → Prop} (later : Later S S') (reachable : Reachable S)
    (start : P S) (still : ∀ T T' : Handlers.System, T'.store = T.store → T'.log = T.log → P T → P T')
    (commit : ∀ T i c k T', Reachable T → Lands T i c k T' → P T → P T') : P S' := by
  induction later with
  | refl => exact start
  | step before step _ ih =>
    have here := reachable.later before
    rcases here.lands step with ⟨store, log⟩ | ⟨i, c, k, lands⟩
    · exact still _ _ store log ih
    · exact commit _ _ _ _ _ here lands ih

theorem Reachable.invariant {P : Handlers.System → Prop} (reachable : Reachable S)
    (start : ∀ σ now, Integrity σ → P (.start σ now))
    (still : ∀ T T' : Handlers.System, T'.store = T.store → T'.log = T.log → P T → P T')
    (commit : ∀ T i c k T', Reachable T → Lands T i c k T' → P T → P T') : P S := by
  obtain ⟨σ, now, inv, later⟩ := reachable
  exact later.invariant ⟨σ, now, inv, .refl⟩ (start σ now inv) still commit

theorem Later.evolves (later : Later S S') (reachable : Reachable S) :
    Evolves S.store S'.store :=
  later.effects reachable .refl (fun _ _ _ => .trans)
    fun _ _ _ _ _ allowed => evolves_of_allowed allowed

/-- A run all of whose states satisfy something. -/
theorem Later.within {P : Handlers.System → Prop} (later : Later S S')
    (all : ∀ T, Later S T → Later T S' → P T) :
    System.Reaches service (fun _ _ T => P T) S S' := by
  induction later with
  | refl => exact .refl
  | step before step _ ih =>
    have rest := ih fun T first rest => all T first (rest.step step trivial)
    exact rest.step step (all _ (before.step step trivial) .refl)

/-! ### Runs whose steps meet a condition -/

/-- A state that calls lead to from a sound store by steps that all meet a
condition. -/
def ReachableWhile (cond : Handlers.System → Action Call → Handlers.System → Prop)
    (S : Handlers.System) : Prop :=
  ∃ σ now, Integrity σ ∧ System.Reaches service cond (.start σ now) S

section
variable {cond : Handlers.System → Action Call → Handlers.System → Prop} {watched : Call → Prop}
  {R₂ : Rely Store Write Res} {G₂ : Call → Guar Store Write Res Status Response}
  {Q : Call → Post Store Write Res Status Response}

theorem ReachableWhile.reachable (reached : ReachableWhile cond S) : Reachable S := by
  obtain ⟨σ, now, inv, before⟩ := reached
  exact ⟨σ, now, inv, before.mono fun _ _ _ _ => trivial⟩

theorem ReachableWhile.later (reached : ReachableWhile cond S)
    (later : System.Reaches service cond S S') : ReachableWhile cond S' := by
  obtain ⟨σ, now, inv, before⟩ := reached
  exact ⟨σ, now, inv, before.trans later⟩

/-- A new answer of a watched call met its postcondition when it was given. -/
theorem ReachableWhile.answered_since (reached : ReachableWhile cond S)
    (watch : System.Watched service Integrity Others Effective cond watched R₂ G₂ Q)
    (later : System.Reaches service cond S S') {i : Nat}
    (there : S'.sessions[i]? = some ⟨c, ℓ, .answered result⟩)
    (unanswered : S.sessions[i]? ≠ some ⟨c, ℓ, .answered result⟩) (watching : watched c) :
    ∃ T ℓ₀, System.Reaches service cond S T ∧ System.Reaches service cond T S' ∧
      T.sessions[i]? = some ⟨c, ℓ, .answered result⟩ ∧ ℓ = ℓ₀.closed ∧
      Q c result ℓ₀ T.store T.clock := by
  obtain ⟨σ, now, inv, before⟩ := reached
  obtain ⟨T₀, a, T, ℓ₀, first, step, met, given, closed, post, rest⟩ := before.postcondition
    verified watch (System.sound_start inv) rfl later there unanswered watching
  exact ⟨T, ℓ₀, first.step step met, rest, given, closed, post⟩

/-- An answer a watched call is given in a step meets its postcondition there. -/
theorem ReachableWhile.answer (reached : ReachableWhile cond S)
    (watch : System.Watched service Integrity Others Effective cond watched R₂ G₂ Q)
    (step : S.step service a = some S') {i : Nat}
    (there : S'.sessions[i]? = some ⟨c, ℓ, .answered result⟩)
    (new : S.sessions[i]? ≠ some ⟨c, ℓ, .answered result⟩) (watching : watched c) :
    ∃ ℓ₀, ℓ = ℓ₀.closed ∧ Q c result ℓ₀ S'.store S'.clock := by
  have inv := reached.reachable.inv
  obtain ⟨σ, now, start, before⟩ := reached
  have ready := before.ready_watched verified watch (System.sound_start start) rfl
  exact ready.answer step (fun c _ watching => watch.program c watching _ _ inv) there new watching

/-- A commit of a watched call is one it guarantees. -/
theorem ReachableWhile.meets (reached : ReachableWhile cond S)
    (watch : System.Watched service Integrity Others Effective cond watched R₂ G₂ Q)
    (lands : Lands S i c k S') (watching : watched c) : G₂ c k := by
  obtain ⟨σ, now, inv, before⟩ := reached
  exact lands.meets R₂ G₂ Q watched
    (before.ready_watched verified watch (System.sound_start inv) rfl) watching

end

/-! ### Answers of a resolve -/

/-- What a resolve says of a moment of the run. -/
def Says (r : ResolveCredentialRequest) (a : ResolveCredentialResponse) (S : Handlers.System) :
    Prop :=
  a = .default ∧ CredentialProofs.Unknown r ⟨S.store, S.clock⟩ ∨
    ∃ row u, CredentialProofs.Resolves r ⟨S.store, S.clock⟩ row u a

/-- A resolve answers what the store was at one moment of the run, after every
state in which it had not read anything yet. -/
theorem resolved {cond : Handlers.System → Action Call → Handlers.System → Prop}
    (reachable : Reachable S) (later : System.Reaches service cond S S') {i : Nat}
    (there : S'.sessions[i]? = some ⟨c, ℓ, .answered (.ok (.resolveCredential a))⟩)
    (request : c.request = .resolveCredential r)
    (unread : ∀ s, S.sessions[i]? = some s → s.loc.snapshot = none) :
    ∃ S₁, System.Reaches service cond S S₁ ∧ System.Reaches service cond S₁ S' ∧ Says r a S₁ := by
  obtain ⟨σ, now, inv, before⟩ := reachable
  have watch : System.Watched service Integrity Others Effective (fun _ _ _ => True)
      (fun c => ∃ r, c.request = .resolveCredential r) Others (fun _ _ => True)
      (fun c result ℓ _ _ => ∀ r a, c.request = .resolveCredential r →
        result = .ok (.resolveCredential a) → ∃ snap, ℓ.snapshot = some snap ∧
          (a = .default ∧ CredentialProofs.Unknown r snap ∨
            ∃ row u, CredentialProofs.Resolves r snap row u a)) := by
    refine System.watched_of_verified verified ?_
    rintro c ⟨r, request⟩ σ t inv
    refine wp_service (fun _ _ _ _ _ => nofun) fun _ => ?_
    rw [request]
    refine wp_map (wp_mono (CredentialProofs.wp_resolve (Q := fun result ℓ _ _ => ∀ a,
      result = .ok a → ∃ snap, ℓ.snapshot = some snap ∧
        (a = .default ∧ CredentialProofs.Unknown r snap ∨
          ∃ row u, CredentialProofs.Resolves r snap row u a)) quiet_others request ?_ ?_)
      (fun _ _ _ _ h => h) (fun _ _ => trivial) ?_)
    · rintro ℓ σ t snap taken _ unknown a same
      cases same
      exact ⟨snap, taken, Or.inl ⟨rfl, unknown⟩⟩
    · rintro ℓ σ t snap row u a taken _ resolves a' same
      cases same
      exact ⟨snap, taken, Or.inr ⟨row, u, resolves⟩⟩
    · intro result ℓ σ t post r' a named same
      cases named
      cases result with
      | error e => cases same
      | ok a' =>
        cases same
        exact post _ rfl
  have whole : Later (.start σ now) S' := before.trans (later.mono fun _ _ _ _ => trivial)
  obtain ⟨_, _, _, ℓ₀, _, _, _, _, rfl, post, _⟩ := System.Reaches.postcondition verified
    watch (System.sound_start inv) rfl .refl whole there nofun ⟨r, request⟩
  obtain ⟨snap, taken, told⟩ := post r a request rfl
  obtain ⟨S₁, first, store, clock, rest⟩ := later.snapshot there nofun taken unread
  refine ⟨S₁, first, rest, ?_⟩
  rw [Says, store, clock]
  exact told

/-! ### Calls made one after the other -/

/-- Between the calls of a sequential run, each has done what it does by itself
where it arrived. -/
theorem chain_of_sequential
    {cond : Handlers.System → Action Call → Handlers.System → Prop}
    {Q : Call → Store → Except Status Response → Store → Prop} (reachable : Reachable S₀)
    (rest : S₀.Idle) (reached : System.Reaches service cond S₀ S) (idle : S.Idle)
    (sequential : ∀ T a T', cond T a T' → System.Sequential T a T')
    (program : ∀ (T : Handlers.System) c T', Integrity T.store → cond T (.call c) T' →
      wp Rely.none (fun _ => True) (service c) (fun r _ σ' _ => Q c T.store r σ') .fresh T.store
        T.clock) :
    ∃ new, S.sessions = S₀.sessions ++ new ∧
      Chain (System.Solo Effective Q) S₀.store (System.answers new) S.store := by
  refine reached.chain rest idle sequential fun T c T' before met => ?_
  have inv : Integrity T.store := (reachable.later (before.mono fun _ _ _ _ => trivial)).inv
  have both := wp_and (wp_mono (verified.program c T.store T.clock inv)
    (fun _ _ _ _ none => none.elim) (fun _ h => h) (fun _ _ _ _ h => h)) (program T c T' inv met)
  exact wp_mono both (fun _ _ _ _ h => h) (fun _ guar => guar.1) fun _ _ _ _ post => post.2

/-- What every effect of a call carries over, the call does. -/
theorem changes_effects {P : Store → Store → Prop} {c : Call}
    (changes : System.Changes (Effective c) σ σ') (refl : ∀ σ, P σ σ)
    (trans : ∀ σ σ' σ'', P σ σ' → P σ' σ'' → P σ σ'')
    (one : ∀ (k : Committed) ef, Allowed c k ef → P k.store (ef.apply k.store)) : P σ σ' := by
  induction changes with
  | refl => exact refl _
  | tail _ last ih =>
    obtain ⟨k, ⟨_, ef, allowed, result⟩, rfl, rfl⟩ := last
    rw [result]
    exact trans _ _ _ ih (one k ef allowed)

end

end IamDb.Runs
