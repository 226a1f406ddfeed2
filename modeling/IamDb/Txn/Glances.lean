import IamDb.Txn.History
import IamDb.Txn.Sightings

/-! Programs that look at the store once: by one statement that reads, or by
the plain reads of one REPEATABLE READ transaction, which all read the snapshot
of the first. Such a program answers what it would if the whole of it were one
step, taken at one moment between the call and the answer. -/
namespace Txn

section
variable {Call Store Write Res ε α : Type} [Locking Write Res]

/-- A statement that writes nothing. -/
def Statement.Silent (s : Statement Store Write Res ρ) : Prop := ∀ now σ, (s.exec now σ).2 = []

namespace Prog

/-- A program that has come to its answer. -/
def Over : Prog Store Write Res ε α → Prop
  | ret _ => True
  | fail _ => True
  | _ => False

/-- Reads of a snapshot already taken, none of which looks at the clock. -/
def Frozen : Prog Store Write Res ε α → Prop
  | ret _ => True
  | fail _ => True
  | begin _ _ => False
  | stmt s k => s.plain = true ∧ s.Silent ∧ (∀ now now' σ, s.exec now σ = s.exec now' σ) ∧
    ∀ r, (k r).Frozen
  | auto _ _ _ => False
  | commit p => p.Over

/-- A read that takes the snapshot, and then reads of it. -/
def Opening : Prog Store Write Res ε α → Prop
  | stmt s k => s.plain = true ∧ s.Silent ∧ ∀ r, (k r).Frozen
  | _ => False

/-- A program that looks at the store once. -/
def Glance : Prog Store Write Res ε α → Prop
  | ret _ => True
  | fail _ => True
  | begin iso p => iso = .repeatableRead ∧ p.Opening
  | stmt _ _ => False
  | auto _ s k => s.Silent ∧ ∀ r, (k r).Over
  | commit _ => False

section
variable {p : Prog Store Write Res ε α}

theorem Over.bind {f : α → Prog Store Write Res ε β} (done : p.Over) (rest : ∀ a, (f a).Over) :
    (p >>= f).Over := by
  cases p with
  | ret a => exact rest a
  | fail e => trivial
  | _ => exact done.elim

theorem Over.frozen (done : p.Over) : p.Frozen := by
  cases p with
  | ret a => trivial
  | fail e => trivial
  | _ => exact done.elim

theorem Frozen.bind {f : α → Prog Store Write Res ε β} (frozen : p.Frozen)
    (rest : ∀ a, (f a).Over) : (p >>= f).Frozen := by
  induction p with
  | ret a => exact (rest a).frozen
  | fail e => trivial
  | begin iso p => exact frozen
  | stmt s k ih => exact ⟨frozen.1, frozen.2.1, frozen.2.2.1, fun r => ih r (frozen.2.2.2 r)⟩
  | auto iso s k => exact frozen
  | commit p => exact Over.bind frozen rest

theorem Opening.bind {f : α → Prog Store Write Res ε β} (opening : p.Opening)
    (rest : ∀ a, (f a).Over) : (p >>= f).Opening := by
  cases p with
  | stmt s k => exact ⟨opening.1, opening.2.1, fun r => (opening.2.2 r).bind rest⟩
  | _ => exact opening.elim

/-- What is done with the answer changes nothing. -/
theorem Glance.map {g : α → β} (glance : p.Glance) :
    (do pure (g (← p)) : Prog Store Write Res ε β).Glance := by
  cases p with
  | ret a => trivial
  | fail e => trivial
  | begin iso p => exact ⟨glance.1, glance.2.bind fun _ => trivial⟩
  | stmt s k => exact glance
  | auto iso s k => exact ⟨glance.1, fun r => (glance.2 r).bind fun _ => trivial⟩
  | commit p => exact glance

theorem Glance.lift {d : Except ε β} {f : β → Prog Store Write Res ε α}
    (rest : ∀ b, (f b).Glance) : (Prog.lift d >>= f).Glance := by
  cases d with
  | error e => trivial
  | ok b => exact rest b

/-- What a program answers at one moment: all its statements see the store of
that moment. -/
def answerAt (p : Prog Store Write Res ε α) (m : Snapshot Store) : Except ε α :=
  p.answering (fun _ => m) 0

theorem answering_const (p : Prog Store Write Res ε α) (m : Snapshot Store) (n : Nat) :
    p.answering (fun _ => m) n = p.answerAt m := by
  unfold Prog.answerAt
  induction p generalizing n with
  | ret a => rfl
  | fail e => rfl
  | begin iso p ih => exact ih n
  | stmt s k ih => exact (ih _ (n + 1)).trans (ih _ 1).symm
  | auto iso s k ih => exact (ih _ (n + 1)).trans (ih _ 1).symm
  | commit p ih => exact ih n

theorem answerAt_stmt {m : Snapshot Store} {s : Statement Store Write Res ρ}
    {k : ρ → Prog Store Write Res ε α} :
    (stmt s k).answerAt m = (k (s.exec m.since m.store).1).answerAt m :=
  answering_const _ m 1

theorem answerAt_auto {m : Snapshot Store} {s : Statement Store Write Res ρ}
    {k : ρ → Prog Store Write Res ε α} :
    (auto iso s k).answerAt m = (k (s.exec m.since m.store).1).answerAt m :=
  answering_const _ m 1

end

end Prog

section
variable [Writes Store Write]

/-- Where a session stands that looks once: it has not looked yet, or what it
has left to do is decided by the snapshot it took. -/
inductive Looks (whole : Prog Store Write Res ε α) (ℓ : Local Store Write Res) :
    Prog Store Write Res ε α → Prop where
  | arrived : Looks whole ℓ whole
  | opened (iso : ℓ.iso = .repeatableRead) (pending : ℓ.pending = []) (unread : ℓ.snapshot = none)
      (opening : p.Opening) (same : ∀ m, whole.answerAt m = p.answerAt m) : Looks whole ℓ p
  | reading (iso : ℓ.iso = .repeatableRead) (pending : ℓ.pending = [])
      (taken : ℓ.snapshot = some snap) (frozen : p.Frozen) (same : whole.answerAt snap = p.answerAt snap) :
    Looks whole ℓ p

/-- A step of its own takes it on, and a step that ends it answers what the
whole program answers at the moment of the step or of the snapshot. -/
theorem Looks.move {whole p : Prog Store Write Res ε α} (looks : Looks whole ℓ p)
    (glance : whole.Glance) (moves : p.move now σ ℓ = some m) :
    Looks whole m.loc m.next ∨
      m.next.Over ∧ whole.answerAt ⟨σ, now⟩ = m.next.answerAt ⟨σ, now⟩ := by
  have sees {ρ : Type} {s : Statement Store Write Res ρ} (iso : ℓ.iso = .repeatableRead)
      (pending : ℓ.pending = []) (plain : s.plain = true) :
      ℓ.view s σ = (ℓ.snapshot.map (·.store)).getD σ := by
    simp [Local.view, Local.base, Local.frozen, iso, pending, plain]
  have onward {ρ : Type} {s : Statement Store Write Res ρ} (iso : ℓ.iso = .repeatableRead)
      (pending : ℓ.pending = []) (plain : s.plain = true) (silent : s.Silent) :
      (ℓ.after s σ now).iso = .repeatableRead ∧ (ℓ.after s σ now).pending = [] ∧
        (ℓ.after s σ now).snapshot = some (ℓ.snapshot.getD ⟨σ, now⟩) := by
    refine ⟨iso, ?_, ?_⟩
    · rw [Local.after_pending, silent, pending]
      rfl
    · simp [Local.after, Local.frozen, iso, plain]
  cases looks with
  | arrived =>
    cases whole with
    | ret a => cases moves
    | fail e => cases moves
    | begin iso p =>
      cases moves
      obtain ⟨rfl, opening⟩ := glance
      exact Or.inl (.opened rfl rfl rfl opening fun _ => rfl)
    | stmt s k => exact glance.elim
    | auto iso s k =>
      cases moves
      exact Or.inr ⟨glance.2 _, Prog.answerAt_auto⟩
    | commit p => exact glance.elim
  | opened iso pending unread opening same =>
    cases p with
    | stmt s k =>
      cases moves
      obtain ⟨plain, silent, frozen⟩ := opening
      obtain ⟨iso', pending', taken⟩ := onward iso pending plain silent
      rw [sees iso pending plain, unread]
      rw [unread] at taken
      exact Or.inl (.reading iso' pending' taken (frozen _) ((same _).trans Prog.answerAt_stmt))
    | _ => exact opening.elim
  | @reading snap _ iso pending taken frozen same =>
    cases p with
    | ret a => cases moves
    | fail e => cases moves
    | begin iso p => exact frozen.elim
    | stmt s k =>
      cases moves
      obtain ⟨plain, silent, timeless, rest⟩ := frozen
      obtain ⟨iso', pending', taken'⟩ := onward iso pending plain silent
      rw [sees iso pending plain, taken]
      rw [taken] at taken'
      refine Or.inl (.reading iso' pending' taken' (rest _) (same.trans ?_))
      rw [Prog.answerAt_stmt, timeless snap.since now]
      rfl
    | auto iso s k => exact frozen.elim
    | commit p =>
      cases moves
      exact Or.inl (.reading iso rfl taken (Prog.Over.frozen frozen) same)

end

namespace System

variable [DecidableEq Res] [Writes Store Write] {service : Call → Prog Store Write Res ε α}
  {cond : System Call Store Write Res ε α → Action Call → System Call Store Write Res ε α → Prop}
  {S₀ S S' : System Call Store Write Res ε α}

/-- A call that looks at the store once answers what it would at one moment
after it arrived. -/
theorem Reaches.glanced (reached : Reaches service cond S₀ S) (none : S₀.sessions = [])
    (later : Reaches service cond S S') {i : Nat} (absent : S.sessions.length ≤ i)
    (there : S'.sessions[i]? = some ⟨c, ℓ, .answered result⟩) (glance : (service c).Glance) :
    ∃ T, Reaches service cond S T ∧ Reaches service cond T S' ∧
      (service c).answerAt ⟨T.store, T.clock⟩ = result := by
  have before : S.sessions[i]? = .none := List.getElem?_eq_none absent
  obtain ⟨T, act, T', first, step, met, given, new, rest⟩ :=
    later.answered there (by rw [before]; nofun)
  cases turn_of_step step given with
  | kept here => exact absurd here new
  | @arrived c' _ _ _ _ fresh =>
    have same : c = c' := by cases h : service c' <;> rw [h] at fresh <;> cases fresh <;> rfl
    subst same
    refine ⟨T', first.step step met, rest, ?_⟩
    cases h : service c <;> rw [h] at fresh <;> cases fresh <;> rfl
  | @ran c' ℓ' p m advances _ _ became =>
    have same : c = c' := by cases h : m.next <;> rw [h] at became <;> cases became <;> rfl
    subst same
    have looks : Looks (service c) ℓ' p :=
      (reached.trans first).underway
        (P := fun c ℓ p => (service c).Glance → Looks (service c) ℓ p) none
        (fun _ _ => .arrived) (fun c p ℓ now σ m before moves running glance => by
          refine ((before glance).move glance moves).resolve_right fun ⟨done, _⟩ => ?_
          cases next : m.next <;> rw [next] at done running <;>
            first | exact running rfl | exact done) advances.here glance
    have told (snap : Snapshot Store) : m.next.answerAt snap = result := by
      cases h : m.next <;> rw [h] at became <;> cases became <;> rfl
    have loc : ℓ.snapshot = m.loc.snapshot := by
      cases h : m.next <;> rw [h] at became <;> cases became <;> rfl
    rcases looks.move glance advances.moves with onward | ⟨_, same⟩
    · generalize m.next = next at onward told became
      cases onward with
      | arrived => exact ⟨T, first, .trans (.step .refl step met) rest, told _⟩
      | opened _ _ _ opening =>
        cases h : next <;> rw [h] at became opening <;> first | exact opening.elim | cases became
      | @reading snap _ _ _ taken _ same =>
        obtain ⟨T₁, begun, store, clock, ended⟩ := (first.step step met).snapshot given nofun
          (loc.trans taken) (by rw [before]; nofun)
        refine ⟨T₁, begun, ended.trans rest, ?_⟩
        rw [store, clock]
        exact same.trans (told _)
    · exact ⟨T, first, .trans (.step .refl step met) rest, same.trans (told _)⟩
  | ended _ gone => cases gone

end System

end

end Txn
