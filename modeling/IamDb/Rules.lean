import IamDb.Interference

/-! How a verb is followed statement by statement. Other calls commit before
each statement, under locks that leave room for the session's own; what the
statement claims for good the session holds from then on. -/
namespace IamDb.Rules
open Txn Schema Messages Service Effects Evolution Interference

variable [Engine]

/-- A session that goes from one point to a later one of its transaction, while
others commit, leaving `ws` pending. -/
structure Passes (ℓ : Local Store Write Res) (σ : Store) (ws : List Write)
    (ℓ' : Local Store Write Res) (σ' : Store) : Prop where
  calm : Calm ℓ σ σ'
  within : ℓ.Within ℓ'
  iso : ℓ'.iso = ℓ.iso
  pending : ℓ'.pending = ℓ.pending ++ ws

/-- What one statement leaves its session with. -/
structure Claimed (s : Sql ρ) (ℓ : Local Store Write Res) (σ : Store) (now : Int)
    (ℓ' : Local Store Write Res) : Prop where
  held : ∀ r mode, ⟨⟨r, mode⟩, true⟩ ∈ s.claims now ℓ.iso (applyAll ℓ.pending σ) →
    ⟨⟨r, mode⟩, now⟩ ∈ ℓ'.held
  seen : ∀ claim ∈ s.claims now ℓ.iso (applyAll ℓ.pending σ), ⟨claim.lock, now⟩ ∈ ℓ'.seen
  snapshot : s.plain = false → ℓ'.snapshot = ℓ.snapshot

theorem Claimed.holds {s : Sql ρ} {ℓ ℓ' : Local Store Write Res} (claimed : Claimed s ℓ σ now ℓ')
    (claim : ⟨⟨r, mode⟩, true⟩ ∈ s.claims now ℓ.iso (applyAll ℓ.pending σ)) :
    Holds ℓ'.held r mode := ⟨now, claimed.held r mode claim⟩

theorem Passes.trans {ℓ ℓ' ℓ'' : Local Store Write Res} (first : Passes ℓ σ ws ℓ' σ')
    (second : Passes ℓ' σ' ws' ℓ'' σ'') : Passes ℓ σ (ws ++ ws') ℓ'' σ'' :=
  ⟨first.calm.trans (second.calm.within first.within), first.within.trans second.within,
    second.iso.trans first.iso, by rw [second.pending, first.pending, List.append_assoc]⟩

/-- Every commit has one of the effects the call may have; `wrap` is what the
handler makes of the verb's answer. -/
def Does (c : Call) (wrap : α → Response) : Guar Store Write Res Status α := fun k =>
  ∃ ef, Allowed c (k.answering (k.answer.map (Except.map wrap))) ef ∧ k.result = ef.apply k.store

section
variable {R : Rely Store Write Res} {G : Guar Store Write Res Status α}
  {Q : Post Store Write Res Status α} {ℓ : Local Store Write Res} {k : ρ → Rpc α}

/-- A statement that reads the latest committed store, and every change before
it. -/
theorem wp_drifting {s : Sql ρ} (quiet : Quiet R)
    (current : s.plain = false ∨ ℓ.iso = .readCommitted)
    (rest : ∀ ℓ' σ' t', Drift R ℓ (.stmt s) σ σ' →
      Passes ℓ σ (s.exec t' (applyAll ℓ.pending σ')).2 ℓ' σ' → t ≤ t' →
      Claimed s ℓ σ' t' ℓ' → wp R G (k (s.exec t' (applyAll ℓ.pending σ')).1) Q ℓ' σ' t') :
    wp R G (tx s >>= k) Q ℓ σ t := by
  rw [wp_query]
  intro σ' t' drift later
  have view : ℓ.view s σ' = applyAll ℓ.pending σ' :=
    current.elim Local.view_current Local.view_committed
  have claimed : Claimed s ℓ σ' t' (ℓ.after s σ' t') := by
    refine ⟨fun r mode claim => ?_, fun claim member => ?_, fun changing => ?_⟩
    · exact List.mem_append_right _ (mem_granted.mpr
        ⟨_, List.mem_filter.mpr ⟨view ▸ claim, rfl⟩, rfl, rfl⟩)
    · exact List.mem_append_right _ (mem_granted.mpr ⟨claim, view ▸ member, rfl, rfl⟩)
    · exact Local.after_snapshot changing
  have step := rest _ σ' t' drift ⟨calm_of_drift quiet drift, Local.within_after, rfl,
    by rw [Local.after_pending, view]⟩ later claimed
  rwa [← view] at step

/-- A statement that reads the latest committed store. -/
theorem wp_statement {s : Sql ρ} (quiet : Quiet R)
    (current : s.plain = false ∨ ℓ.iso = .readCommitted)
    (rest : ∀ ℓ' σ' t', Passes ℓ σ (s.exec t' (applyAll ℓ.pending σ')).2 ℓ' σ' → t ≤ t' →
      Claimed s ℓ σ' t' ℓ' → wp R G (k (s.exec t' (applyAll ℓ.pending σ')).1) Q ℓ' σ' t') :
    wp R G (tx s >>= k) Q ℓ σ t :=
  wp_drifting quiet current fun ℓ' σ' t' _ => rest ℓ' σ' t'

/-- A plain read answers something, from the latest store or from a snapshot. -/
theorem wp_any {s : Sql ρ} (quiet : Quiet R) (reads : ∀ now σ, (s.exec now σ).2 = [])
    (rest : ∀ r ℓ' σ' t', Passes ℓ σ [] ℓ' σ' → t ≤ t' → wp R G (k r) Q ℓ' σ' t') :
    wp R G (tx s >>= k) Q ℓ σ t := by
  rw [wp_query]
  intro σ' t' drift later
  exact rest _ _ σ' t' ⟨calm_of_drift quiet drift, Local.within_after, rfl,
    by rw [Local.after_pending, reads]⟩ later

/-- The first plain read of a transaction sees the latest committed store, and
takes it as the snapshot of the later ones. -/
theorem wp_first {s : Sql ρ} (quiet : Quiet R) (early : ℓ.snapshot = none)
    (repeatable : ℓ.iso = .repeatableRead) (plain : s.plain = true)
    (reads : ∀ now σ, (s.exec now σ).2 = [])
    (rest : ∀ ℓ' σ' t', Drift R ℓ (.stmt s) σ σ' → Passes ℓ σ [] ℓ' σ' → t ≤ t' →
      ℓ'.snapshot = some ⟨σ', t'⟩ →
      wp R G (k (s.exec t' (applyAll ℓ.pending σ')).1) Q ℓ' σ' t') :
    wp R G (tx s >>= k) Q ℓ σ t := by
  rw [wp_query]
  intro σ' t' drift later
  have frozen : ℓ.frozen s.plain = true := by simp [Local.frozen, plain, repeatable]
  have view : ℓ.view s σ' = applyAll ℓ.pending σ' := by
    simp [Local.view, Local.base, frozen, early]
  rw [view]
  exact rest _ σ' t' drift ⟨calm_of_drift quiet drift, Local.within_after, rfl,
    by rw [Local.after_pending, reads]⟩ later (by simp [Local.after, frozen, early])

/-- The later plain reads of a transaction see the snapshot. -/
theorem wp_frozen {s : Sql ρ} (taken : ℓ.snapshot = some snap)
    (repeatable : ℓ.iso = .repeatableRead) (plain : s.plain = true)
    (reads : ∀ now σ, (s.exec now σ).2 = [])
    (rest : ∀ ℓ' σ' t', ℓ'.pending = ℓ.pending → ℓ'.iso = ℓ.iso → ℓ'.snapshot = some snap →
      t ≤ t' → wp R G (k (s.exec t' (applyAll ℓ.pending snap.store)).1) Q ℓ' σ' t') :
    wp R G (tx s >>= k) Q ℓ σ t := by
  rw [wp_query]
  intro σ' t' _ later
  have frozen : ℓ.frozen s.plain = true := by simp [Local.frozen, plain, repeatable]
  have view : ℓ.view s σ' = applyAll ℓ.pending snap.store := by
    simp [Local.view, Local.base, frozen, taken]
  rw [view]
  exact rest _ σ' t' (by rw [Local.after_pending, reads, List.append_nil]) rfl
    (by simp [Local.after, frozen, taken]) later

/-- A plain read at READ COMMITTED leaves the session as it was. -/
theorem wp_read {s : Sql ρ} (iso : ℓ.iso = .readCommitted)
    (reads : ∀ now σ, (s.exec now σ).2 = []) (silent : ∀ now level σ, s.claims now level σ = [])
    (rest : ∀ σ' t', Drift R ℓ (.stmt s) σ σ' → t ≤ t' →
      wp R G (k (s.exec t' (applyAll ℓ.pending σ')).1) Q ℓ σ' t') :
    wp R G (tx s >>= k) Q ℓ σ t := by
  rw [wp_query]
  intro σ' t' drift later
  have step := rest σ' t' drift later
  rwa [Local.after_read iso reads silent, Local.view_committed iso]

/-- A read outside any transaction. -/
theorem wp_conn {s : Sql ρ} (reads : ∀ now σ, (s.exec now σ).2 = [])
    (rest : ∀ ℓ' σ' t', Drift R ℓ (.auto s) σ σ' → t ≤ t' →
      wp R G (k (s.exec t' σ').1) Q ℓ' σ' t') : wp R G (conn s >>= k) Q ℓ σ t := by
  rw [wp_single]
  intro σ' t' drift later
  rw [reads]
  exact ⟨fun writes => absurd rfl writes, rest _ σ' t' drift later⟩

/-- The re-read outside any transaction refuses, or finds the person alive. -/
theorem wp_liveUser_conn {k : Unit → Rpc α}
    (gone : ∀ e ℓ' σ' t', Drift R ℓ (.auto (selectLiveUser userId)) σ σ' → Q (.error e) ℓ' σ' t')
    (found : ∀ ℓ' σ' t', Drift R ℓ (.auto (selectLiveUser userId)) σ σ' → t ≤ t' →
      (σ'.liveUser? userId).isSome → wp R G (k ()) Q ℓ' σ' t') :
    wp R G (liveUser conn userId >>= k) Q ℓ σ t := by
  unfold liveUser
  rw [bind_assoc]
  refine wp_conn (fun _ _ => rfl) fun ℓ' σ' t' drift later => ?_
  cases live : (σ'.liveUser? userId).isSome with
  | true =>
    simp only [selectLiveUser, live]
    exact found ℓ' σ' t' drift later live
  | false =>
    simp only [selectLiveUser, live]
    exact gone _ _ _ _ drift

end

end IamDb.Rules
