import IamDb.Txn.Waiting

/-! Calls refused on arrival. A session whose program is a refusal and nothing
else has its answer when it arrives; it never takes a step, holds no lock and
is in nobody's way. So a run stays one when such calls are struck out of it,
and comes to the same store. -/
namespace Txn

section
variable {Call Store Write Res ε α : Type} [Locking Write Res] [DecidableEq Res]

/-- The state without the sessions of some calls. -/
def System.erased (S : System Call Store Write Res ε α) (keep : Call → Bool) :
    System Call Store Write Res ε α :=
  { S with sessions := S.sessions.filter (keep ·.call) }

/-- The session of a call that is refused on arrival, from then on. -/
def Session.turnedAway (c : Call) (e : ε) : Session Call Store Write Res ε α :=
  ⟨c, .fresh, .answered (.error e)⟩

namespace System

variable [Writes Store Write] {service : Call → Prog Store Write Res ε α} {keep : Call → Bool}
  {cond : System Call Store Write Res ε α → Action Call → System Call Store Write Res ε α → Prop}
  {S₀ S S' : System Call Store Write Res ε α}

/-- A session refused on arrival stays as it arrived. -/
theorem Reaches.turned_away (reached : Reaches service cond S₀ S) (none : S₀.sessions = [])
    {i : Nat} (there : S.sessions[i]? = some s) (refused : service s.call = .fail e) :
    s = .turnedAway s.call e := by
  induction reached generalizing i s with
  | refl => simp [none] at there
  | @step T _ _ _ step _ ih =>
    have idle {j : Nat} {c ℓ p}
        (here : T.sessions[j]? = some ⟨c, ℓ, .running p⟩) (refused : service c = .fail e) :
        False := by
      have whole := ih (i := j) here refused
      cases whole
    cases turn_of_step step there with
    | kept here => exact ih here refused
    | @arrived c _ _ _ _ new =>
      subst new
      have same : (Session.reached c .fresh (service c)).call = c := by
        cases service c <;> rfl
      rw [same] at refused ⊢
      rw [refused]
      rfl
    | @ran c ℓ p m advances _ _ new =>
      have same : s.call = c := by
        subst new
        cases m.next <;> rfl
      exact (idle advances.here (same ▸ refused)).elim
    | ended here _ call => exact (idle here (call ▸ refused)).elim

/-- Whether a session can take a step does not depend on its place. -/
theorem advances_iff (sessions : S.sessions = pre ++ ⟨c, ℓ, .running p⟩ :: post) :
    S.Advances pre.length c ℓ p m ↔ p.move S.clock S.store ℓ = some m ∧
      ∀ s, s ∈ pre ∨ s ∈ post →
        ∀ g ∈ s.loc.held, ∀ k ∈ m.claims, k.lock.conflicts g.lock = false := by
  constructor
  · intro advances
    refine ⟨advances.moves, fun s member => ?_⟩
    rcases member with before | after
    · obtain ⟨j, there⟩ := List.mem_iff_getElem?.mp before
      have less := (List.getElem?_eq_some_iff.mp there).1
      refine advances.free j s ?_ (by omega)
      rw [sessions, List.getElem?_append_left less]
      exact there
    · obtain ⟨j, there⟩ := List.mem_iff_getElem?.mp after
      refine advances.free (pre.length + (j + 1)) s ?_ (by omega)
      rw [sessions, List.getElem?_append_right (by omega), Nat.add_sub_cancel_left]
      exact there
  · rintro ⟨moves, free⟩
    refine ⟨?_, moves, fun j s there other => free s ?_⟩
    · rw [sessions, List.getElem?_append_right (Nat.le_refl _), Nat.sub_self]
      rfl
    · rw [sessions, List.getElem?_append] at there
      split at there
      · exact Or.inl (List.mem_of_getElem? there)
      · rename_i beyond
        obtain ⟨n, same⟩ := Nat.exists_eq_add_of_lt (show pre.length < j by omega)
        rw [show j - pre.length = n + 1 by omega, List.getElem?_cons_succ] at there
        exact Or.inr (List.mem_of_getElem? there)

section
variable {c : Call} (kept : keep c = true)
include kept

omit [DecidableEq Res] [Writes Store Write] in
/-- The state without the others' sessions, around one that is kept. -/
theorem erased_sessions (sessions : S.sessions = pre ++ s :: post) (call : s.call = c) :
    (S.erased keep).sessions = pre.filter (keep ·.call) ++ s :: post.filter (keep ·.call) := by
  rw [erased, sessions, List.filter_append, List.filter_cons_of_pos (by rw [call]; exact kept)]

omit [DecidableEq Res] [Writes Store Write] in
/-- What a kept session becomes, it becomes without the others. -/
theorem erased_set (sessions : S.sessions = pre ++ s :: post) (call : s.call = c)
    (call' : s'.call = c) : (S.erased keep).sessions.set (pre.filter (keep ·.call)).length s' =
      (S.sessions.set pre.length s').filter (keep ·.call) := by
  rw [erased_sessions kept sessions call, sessions, List.set_append_right _ _ (Nat.le_refl _),
    List.set_append_right _ _ (Nat.le_refl _), Nat.sub_self, Nat.sub_self]
  simp only [List.set_cons_zero, List.filter_append]
  rw [List.filter_cons_of_pos (by rw [call']; exact kept)]

/-- A kept session takes its step without the others, too. -/
theorem Advances.erased (advances : S.Advances i c ℓ p m) :
    ∃ j, (S.erased keep).Advances j c ℓ p m ∧ ∀ s : Session Call Store Write Res ε α,
      s.call = c → (S.erased keep).moved j c m s = (S.moved i c m s).erased keep := by
  obtain ⟨here, whole⟩ := List.getElem?_eq_some_iff.mp advances.here
  obtain ⟨pre, post, sessions, rfl, _⟩ := @List.exists_of_set _ _ S.sessions[i] _ here
  rw [whole] at sessions
  refine ⟨(pre.filter (keep ·.call)).length, ?_, fun s call => ?_⟩
  · obtain ⟨moves, free⟩ := (advances_iff sessions).mp advances
    refine (advances_iff (erased_sessions kept sessions rfl)).mpr ⟨moves, fun s member => free s ?_⟩
    exact member.imp (fun m => (List.mem_filter.mp m).1) fun m => (List.mem_filter.mp m).1
  · simp only [moved, System.erased]
    rw [← erased_set kept sessions rfl call]
    rfl

end

/-- A run of which the refused calls are struck out is a run, and leads to the
same store, clock and log. -/
theorem Reaches.erased (refused : ∀ c, keep c = false → ∃ e, service c = .fail e)
    (reached : Reaches service cond S₀ S) (none : S₀.sessions = []) :
    Reaches service (fun _ a _ => ∀ c, a = .call c → keep c = true) S₀ (S.erased keep) := by
  induction reached with
  | refl =>
    have same : S₀.erased keep = S₀ := by
      cases S₀
      cases none
      rfl
    rw [same]
    exact .refl
  | @step T a T' before step _ ih =>
    have running {i : Nat} {c ℓ p} (here : T.sessions[i]? = some ⟨c, ℓ, .running p⟩) :
        keep c = true := by
      by_contra stranger
      obtain ⟨e, fails⟩ := refused c (by simpa using stranger)
      cases before.turned_away none here fails
    have call (c : Call) (ℓ : Local Store Write Res) (p : Prog Store Write Res ε α) :
        (Session.reached c ℓ p).call = c := by
      cases p <;> rfl
    cases steps_of_step step with
    | call c =>
      cases known : keep c with
      | true =>
        refine ih.step (a := .call c) ?_ (fun c' same => by cases same; exact known)
        show some _ = some _
        rw [System.erased, System.erased, List.filter_append,
          List.filter_cons_of_pos (by rw [call]; exact known), List.filter_nil]
      | false =>
        rw [System.erased, List.filter_append,
          List.filter_cons_of_neg (by rw [call, known]; exact Bool.false_ne_true), List.filter_nil,
          List.append_nil]
        exact ih
    | @run i c ℓ p m advances =>
      obtain ⟨j, there, whole⟩ := advances.erased (running advances.here)
      rw [← whole _ (call c _ _)]
      exact ih.step (step_of_free there) fun _ same => by cases same
    | @lose i c ℓ p m advances =>
      obtain ⟨j, there, whole⟩ := advances.erased (running advances.here)
      rw [← whole (Session.reached c m.loc m.next).drop (call c _ _)]
      exact ih.step (a := .lose j) (advance_of_free there Session.drop)
        fun _ same => by cases same
    | @drop i c ℓ p here =>
      obtain ⟨less, same⟩ := List.getElem?_eq_some_iff.mp here
      obtain ⟨pre, post, sessions, rfl, _⟩ := @List.exists_of_set _ _ T.sessions[i] _ less
      rw [same] at sessions
      have known := running here
      refine ih.step (a := .drop (pre.filter (keep ·.call)).length) ?_ fun _ same => by cases same
      rw [System.step, erased_sessions known sessions rfl, List.getElem?_append_right (Nat.le_refl _),
        Nat.sub_self, List.getElem?_cons_zero]
      show some _ = some _
      rw [← erased_sessions known sessions rfl, erased_set known sessions rfl rfl]
      rfl
    | tick seconds => exact ih.step (a := .tick seconds) rfl fun _ same => by cases same

end System

end

end Txn
