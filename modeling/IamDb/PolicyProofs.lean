import IamDb.CredentialProofs

/-! The administrator flag and the rate limits: one statement each on the live
user row it matches, and a re-read when it matched none. -/
namespace IamDb.PolicyProofs
open Txn Schema Messages Service Effects Evolution Interference Rules

variable [Engine]

section
variable {R : Rely Store Write Res} {c : Call} {ℓ : Local Store Write Res}

theorem wp_setAdmin {Q : Post Store Write Res Status Unit}
    (request : c.request = .setUserAdmin r) (failed : ∀ e ℓ' σ t, Q (.error e) ℓ' σ t)
    (done : ∀ ℓ' (σ : Store) t u, σ.user? r.userId = some u → u.isAdmin = r.isAdmin →
      Q (.ok ()) ℓ' σ t)
    (passed : ∀ ℓ₁ ℓ₂ (σ₁ σ₂ : Store) t₂, σ₁.liveUser? r.userId = none →
      Drift R ℓ₁ (.auto (selectLiveUser r.userId)) σ₁ σ₂ → (σ₂.liveUser? r.userId).isSome →
      Q (.ok ()) ℓ₂ σ₂ t₂) :
    wp R (Does c fun () => .setUserAdmin) (Policy.setAdmin r) Q ℓ σ t := by
  unfold Policy.setAdmin
  rw [wp_single]
  intro σ₁ t₁ _ _
  cases found : σ₁.liveUser? r.userId with
  | none =>
    simp only [Policy.updateIsAdmin, found, if_true]
    refine ⟨fun writes => absurd rfl writes, ?_⟩
    rw [← bind_pure (liveUser conn r.userId)]
    refine wp_liveUser_conn (fun _ _ _ _ _ => failed _ _ _ _) fun ℓ₂ σ₂ t₂ drift _ live => ?_
    exact passed _ ℓ₂ σ₁ σ₂ t₂ found drift live
  | some u =>
    obtain ⟨row, live⟩ := Store.liveUser?_eq_some.mp found
    simp only [Policy.updateIsAdmin, found]
    refine ⟨fun _ => ⟨.setAdmin u r.isAdmin, .setAdmin request row live, rfl⟩, ?_⟩
    have here : weight r.userId = u.key := (Store.user?_mem row).2.symm
    refine done _ _ t₁ { u with isAdmin := r.isAdmin } ?_ rfl
    exact (congrArg _ here).trans Table.find?_put_self

/-- The upsert of a limit on a live user's row: refused for the width of the
module's column, or the row written. -/
theorem upsertRateLimit_exec (r : SetRateLimitOverrideRequest) (limit : RateLimit) (now : Int)
    (σ : Store) (live : σ.liveUser? r.userId = some u) :
    (Policy.upsertRateLimit r.userId r.module r.kind limit).exec now σ =
      if fits Policy.maxModule r.module then (.ok 1, [.rateLimit (limited r limit σ u)])
      else (.error .other, []) := by
  simp only [Policy.upsertRateLimit, live, limited]
  cases fits Policy.maxModule r.module with
  | false => rfl
  | true =>
    cases σ.rateLimits.find? (u.key, weight r.module, r.kind) with
    | none => rfl
    | some o => rfl

/-- Every write of an override call is on the row it names. -/
def Named (r : SetRateLimitOverrideRequest) (k : Commit Store Write Res Status α) : Prop :=
  ∀ w ∈ k.writes, w.res = .rateLimit (limitKey r)

theorem wp_setRateLimit {Q : Post Store Write Res Status Unit}
    (request : c.request = .setRateLimitOverride r) (failed : ∀ e ℓ' σ t, Q (.error e) ℓ' σ t)
    (cleared : ∀ ℓ' σ t, r.limit = none → Q (.ok ()) ℓ' σ t)
    (done : ∀ ℓ' (σ : Store) t limit o, r.limit = some limit → o ∈ σ.rateLimits →
      o.key = limitKey r → o.rate = limit.rate →
      o.burst = limit.burst → Q (.ok ()) ℓ' σ t)
    (passed : ∀ ℓ₁ ℓ₂ (σ₁ σ₂ : Store) t₂, σ₁.liveUser? r.userId = none →
      Drift R ℓ₁ (.auto (selectLiveUser r.userId)) σ₁ σ₂ → (σ₂.liveUser? r.userId).isSome →
      Q (.ok ()) ℓ₂ σ₂ t₂) :
    wp R (fun k => Does c (fun () => .setRateLimitOverride) k ∧ Named r k) (Policy.setRateLimit r)
      Q ℓ σ t := by
  unfold Policy.setRateLimit
  cases kind : Policy.refuseUnstoredKind r.kind with
  | error e => exact failed _ _ _ _
  | ok _ =>
    cases asked : r.limit with
    | some limit =>
      show wp R _ (conn (Policy.upsertRateLimit r.userId r.module r.kind limit) >>= _) Q ℓ σ t
      rw [wp_single]
      intro σ₁ t₁ _ _
      cases found : σ₁.liveUser? r.userId with
      | none =>
        simp only [Policy.upsertRateLimit, found, orElse, wp_ret_bind, if_true]
        refine ⟨fun writes => absurd rfl writes, ?_⟩
        rw [← bind_pure (liveUser conn r.userId)]
        refine wp_liveUser_conn (fun _ _ _ _ _ => failed _ _ _ _) fun ℓ₂ σ₂ t₂ drift _ live => ?_
        exact passed _ ℓ₂ σ₁ σ₂ t₂ found drift live
      | some u =>
        obtain ⟨row, alive⟩ := Store.liveUser?_eq_some.mp found
        have key : (limited r limit σ₁ u).key = limitKey r := by
          rw [limited_key, (Store.user?_mem row).2]
          rfl
        rw [upsertRateLimit_exec r limit t₁ σ₁ found]
        split
        · refine ⟨fun _ => ⟨⟨.setRateLimit (limited r limit σ₁ u),
            .setRateLimit request asked row alive rfl, rfl⟩, fun w written => ?_⟩, ?_⟩
          · obtain rfl := List.mem_singleton.mp written
            exact congrArg Res.rateLimit key
          · exact done _ _ t₁ limit _ asked Table.mem_put_self key limited_limit.1 limited_limit.2
        · exact ⟨fun writes => absurd rfl writes, failed _ _ _ _⟩
    | none =>
      show wp R _ (liveUser conn r.userId >>= _) Q ℓ σ t
      refine wp_liveUser_conn (fun _ _ _ _ _ => failed _ _ _ _) fun ℓ₁ σ₁ t₁ _ _ _ => ?_
      intro σ₂ t₂ _ _
      refine ⟨fun writes => ?_, cleared _ _ _ asked⟩
      simp only [Policy.deleteRateLimit] at writes ⊢
      split at writes
      · rename_i there
        simp only [there, if_true]
        refine ⟨⟨.clearRateLimit (limitKey r), .clearRateLimit request asked there, rfl⟩,
          fun w written => ?_⟩
        obtain rfl := List.mem_singleton.mp written
        rfl
      · exact absurd rfl writes

end

end IamDb.PolicyProofs
