import IamDb.Progress
import IamDb.Spellings
import IamDb.Txn.Glances

/-! The verbs that read. Each of them looks at the store once, a resolve by the
snapshot its transaction takes, so its answer is what the whole verb would say
of one moment between the call and the answer, whatever is committed in the
meantime. -/
namespace IamDb.Reads
open Txn Schema Messages Service Handlers Runs Progress

section
variable [Engine]

theorem glance_resolve : (Credential.resolve r).Glance := by
  refine ⟨rfl, rfl, fun _ _ => rfl, fun row => ?_⟩
  cases row with
  | none => trivial
  | some row =>
    refine ⟨rfl, fun _ _ => rfl, fun _ _ _ => rfl, fun teamIds => ?_⟩
    refine ⟨rfl, fun _ _ => rfl, fun _ _ _ => rfl, fun rateLimits => ?_⟩
    refine ⟨rfl, fun _ _ => rfl, fun _ _ _ => rfl, fun org => ?_⟩
    exact ⟨rfl, fun _ _ => rfl, fun _ _ _ => rfl, fun overrides => trivial⟩

theorem glance_keyIdentity : (KeyIdentity.keyIdentity r).Glance := by
  unfold KeyIdentity.keyIdentity
  refine Prog.Glance.lift fun _ => ⟨fun _ _ => rfl, fun stored => ?_⟩
  cases stored <;> trivial

theorem glance_evidencePage : (KeyIdentity.evidencePage r).Glance := by
  unfold KeyIdentity.evidencePage
  exact Prog.Glance.lift fun _ => ⟨fun _ _ => rfl, fun _ => trivial⟩

theorem glance_reading {c : Call} (reads : reading c.request = true) : (service c).Glance := by
  refine Prog.Glance.lift fun _ => ?_
  cases request : c.request with
  | resolveCredential r => exact glance_resolve.map
  | getPasswordHash r => exact ⟨fun _ _ => rfl, fun _ => trivial⟩
  | listCredentials r => exact ⟨fun _ _ => rfl, fun _ => trivial⟩
  | getKeyIdentity r => exact glance_keyIdentity.map
  | listKeyIdentityEvidence r => exact glance_evidencePage.map
  | _ =>
    rw [request] at reads
    cases reads

/-- What a read answers, OK or a refusal, it answers of one moment of the run
between its arrival and its answer: all of its statements, run on the store of
that moment at the time of that moment, give that answer. -/
theorem reads_linearize (reachable : Reachable S) (later : Later S S') {i : Nat}
    (absent : S.sessions.length ≤ i)
    (there : S'.sessions[i]? = some ⟨c, ℓ, .answered result⟩)
    (reads : reading c.request = true) :
    ∃ T, Later S T ∧ Later T S' ∧ (service c).answerAt ⟨T.store, T.clock⟩ = result := by
  obtain ⟨σ, now, inv, before⟩ := reachable
  exact before.glanced rfl later absent there (glance_reading reads)

/-- Whether a session has answered a read. -/
def answeredRead (S : Handlers.System) (i : Nat) : Bool :=
  match S.sessions[i]? with
  | some ⟨c, _, .answered _⟩ => reading c.request
  | _ => false

theorem read_of_answered {S : Handlers.System} (answered : answeredRead S i = true) :
    ∃ c ℓ result, S.sessions[i]? = some ⟨c, ℓ, .answered result⟩ ∧ reading c.request = true := by
  unfold answeredRead at answered
  split at answered
  · rename_i here
    exact ⟨_, _, _, here, answered⟩
  · cases answered

end

/-! ### Runs -/

/-- A credential is resolved, and revoked while its resolve is under way. -/
def resolving : List (Action Call) :=
  Spellings.crediting ++
    calling firstUuid (.resolveCredential ⟨List.replicate 32 7, false⟩) 2 2 ++
    calling firstUuid (.revokeCredential ⟨Spellings.credentialId, Spellings.personId⟩) 3 1 ++
    List.replicate 5 (.run 2)

open Bytewise in
theorem reads_linearize_resolving : ∃ c ℓ result T,
    (after resolving).sessions[2]? = some ⟨c, ℓ, .answered result⟩ ∧
    Later (after Spellings.crediting) T ∧ Later T (after resolving) ∧
      (service c).answerAt ⟨T.store, T.clock⟩ = result := by
  obtain ⟨c, ℓ, result, there, reads⟩ :=
    read_of_answered (S := after resolving) (i := 2) (by decide +kernel)
  have arrived : (after Spellings.crediting).sessions.length ≤ 2 := by decide +kernel
  have later : Later (after Spellings.crediting) (after resolving) := by
    unfold resolving
    rw [List.append_assoc, List.append_assoc]
    exact later_after (by decide +kernel)
  obtain ⟨T, first, rest, told⟩ := reads_linearize (reachable_after _) later arrived there reads
  exact ⟨c, ℓ, result, T, there, first, rest, told⟩

end IamDb.Reads
