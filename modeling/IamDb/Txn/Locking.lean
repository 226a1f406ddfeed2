import IamDb.Txn.Logic

/-! What needs no proof about a single program. Statements claim what they
write, so every commit holds exclusively the rows it changes; and a program
that is one transaction answers only with its commit. -/
namespace Txn

/-- A lock on a resource in a mode is among the grants. -/
def Holds (H : List (Grant Res)) (r : Res) (mode : Mode) : Prop := ∃ t, ⟨⟨r, mode⟩, t⟩ ∈ H

theorem Holds.mono {H H' : List (Grant Res)} (holds : Holds H r mode) (grown : ∀ g ∈ H, g ∈ H') :
    Holds H' r mode :=
  holds.imp fun _ member => grown _ member

section
variable {Store Write Res ε α : Type}

section
variable [DecidableEq Res] {ℓ : Local Store Write Res}

/-- Two sessions that leave room for each other's locks hold none in conflict. -/
theorem Local.admits.apart (room : ℓ.admits H) (mine : Holds ℓ.held r mode)
    (theirs : Holds H r mode') : mode.conflicts mode' = false := by
  obtain ⟨t, mine⟩ := mine
  obtain ⟨t', theirs⟩ := theirs
  simpa [Lock.conflicts] using room.1 _ mine _ theirs

/-- No other session holds exclusively what a session holds. -/
theorem Local.admits.not_exclusive (room : ℓ.admits H) (mine : Holds ℓ.held r mode) :
    ¬Holds H r .exclusive := by
  intro theirs
  have apart := room.apart mine theirs
  cases mode <;> cases apart

/-- No other session holds at all what a session holds exclusively. -/
theorem Local.admits.not_held (room : ℓ.admits H) (mine : Holds ℓ.held r .exclusive) :
    ¬Holds H r mode := by
  intro theirs
  have apart := room.apart mine theirs
  cases mode <;> cases apart

end

namespace Local

theorem Within.refl (ℓ : Local Store Write Res) : ℓ.Within ℓ := ⟨fun _ h => h, fun _ h => h⟩

theorem Within.trans {ℓ ℓ' ℓ'' : Local Store Write Res} (first : ℓ.Within ℓ')
    (second : ℓ'.Within ℓ'') : ℓ.Within ℓ'' :=
  ⟨fun g held => second.held g (first.held g held), fun g seen => second.seen g (first.seen g seen)⟩

theorem Within.holds {ℓ ℓ' : Local Store Write Res} (within : ℓ.Within ℓ')
    (holds : Holds ℓ.held r mode) : Holds ℓ'.held r mode :=
  holds.mono within.held

/-- What leaves room for a session leaves room for what it was before. -/
theorem Within.admits [DecidableEq Res] {ℓ ℓ' : Local Store Write Res} (within : ℓ.Within ℓ')
    (room : ℓ'.admits H) : ℓ.admits H :=
  ⟨fun g held => room.1 g (within.held g held), fun g seen => room.2 g (within.seen g seen)⟩

end Local

variable [Locking Write Res]

section
variable [Writes Store Write] {ℓ : Local Store Write Res} {s : Statement Store Write Res ρ}

theorem Local.within_after : ℓ.Within (ℓ.after s σ now) :=
  ⟨fun _ held => List.mem_append_left _ held, fun _ seen => List.mem_append_left _ seen⟩

/-- What a session holds it still holds after its next statement. -/
theorem Local.holds_after (holds : Holds ℓ.held r mode) : Holds (ℓ.after s σ now).held r mode :=
  holds.mono fun _ member => List.mem_append_left _ member

/-- What a statement claims for good the session holds after it. -/
theorem Local.holds_claimed (claim : ⟨⟨r, mode⟩, true⟩ ∈ s.claims now ℓ.iso (ℓ.view s σ)) :
    Holds (ℓ.after s σ now).held r mode :=
  ⟨now, List.mem_append_right _ (mem_granted.mpr ⟨_, List.mem_filter.mpr ⟨claim, rfl⟩, rfl, rfl⟩)⟩

end

/-- The commit writes only rows it holds exclusively. -/
def Commit.Locked (k : Commit Store Write Res ε α) : Prop :=
  ∀ w ∈ k.writes, Holds k.under (Locking.res w) .exclusive

/-- Every program commits only rows it holds exclusively, whatever the other
sessions do. -/
theorem wp_locked [Writes Store Write] {R : Rely Store Write Res} {p : Prog Store Write Res ε α}
    (pending : ∀ w ∈ ℓ.pending, Holds ℓ.held (Locking.res w) .exclusive) :
    wp R Commit.Locked p (fun _ _ _ _ => True) ℓ σ t := by
  induction p generalizing ℓ σ t with
  | ret a => trivial
  | fail e => trivial
  | begin iso p ih => exact fun σ' t' _ _ => ih nofun
  | stmt s k ih =>
    intro σ' t' _ _
    refine ih _ fun w member => ?_
    rcases List.mem_append.mp member with before | writes
    · exact Local.holds_after (pending w before)
    · exact Local.holds_claimed (s.covered _ _ _ w writes)
  | auto iso s k ih =>
    intro σ' t' _ _
    refine ⟨fun _ w writes => ?_, ih _ pending⟩
    exact ⟨t', mem_granted.mpr ⟨_, s.covered _ _ _ w writes, rfl, rfl⟩⟩
  | commit p ih => exact fun σ' t' _ _ => ⟨pending, ih nofun⟩

section
variable [Writes Store Write]

/-- What no write outside a row changes is unchanged by a commit that does not
hold the row exclusively. -/
theorem Commit.Locked.frame {k : Commit Store Write Res ε α} {f : Store → β} {r : Res}
    (locked : k.Locked)
    (outside : ∀ w : Write, Locking.res w ≠ r → ∀ σ, f (Writes.apply w σ) = f σ)
    (free : ¬Holds k.under r .exclusive) : f k.result = f k.store :=
  applyAll_frame (fun w member => outside w fun same => free (same ▸ locked w member)) k.store

/-- A session's lock on a row, in any mode, keeps the row as it is while others
commit. -/
theorem Drift.frame [DecidableEq Res] {Call : Type} {Inv : Store → Prop}
    {G : Call → Guar Store Write Res ε α} {ℓ : Local Store Write Res}
    {n : Next Store Write Res} {f : Store → β} {r : Res}
    (drift : Drift (Interferes Inv G) ℓ n σ σ') (locked : ∀ c k, G c k → k.Locked)
    (outside : ∀ w : Write, Locking.res w ≠ r → ∀ σ, f (Writes.apply w σ) = f σ)
    (holds : Holds ℓ.held r mode) : f σ' = f σ := by
  refine drift.carries (P := fun σ σ' => f σ' = f σ) (fun _ => rfl)
    (fun _ _ _ first second => second.trans first) ?_
  rintro σ σ' ⟨c, k, _, room, guar, rfl, rfl⟩
  exact (locked c k guar).frame outside (room.not_exclusive holds)

end

/-! ### Endings -/

/-- A program that answers with whatever it commits: nothing is left to do, and
nothing left to go wrong, once the store has changed. -/
def Prog.Ends : Prog Store Write Res ε α → Prop
  | ret _ => True
  | fail _ => True
  | begin _ p => p.Ends
  | stmt _ k => ∀ r, (k r).Ends
  | auto _ s k => (∀ now σ, (s.exec now σ).2 ≠ [] → ∃ a, k (s.exec now σ).1 = ret a) ∧
      ∀ r, (k r).Ends
  | commit p => ∃ a, p = ret a

/-- A program that is one transaction answers only with its commit. -/
def Prog.Atomic : Prog Store Write Res ε α → Prop
  | ret _ => False
  | fail _ => True
  | begin _ p => p.Atomic
  | stmt _ k => ∀ r, (k r).Atomic
  | auto _ _ _ => False
  | commit p => ∃ a, p = ret a

/-- The rest of a transaction: it opens no other, and answers with its commit. -/
def Prog.Rest : Prog Store Write Res ε α → Prop
  | ret _ => False
  | fail _ => True
  | begin _ _ => False
  | stmt _ k => ∀ r, (k r).Rest
  | auto _ _ _ => False
  | commit p => ∃ a, p = ret a

/-- A program that is one transaction from its first instruction on, or refuses. -/
def Prog.Opens : Prog Store Write Res ε α → Prop
  | ret _ => False
  | fail _ => True
  | begin _ p => p.Rest
  | stmt _ _ => False
  | auto _ _ _ => False
  | commit _ => False

/-- The rest of a transaction that comes to a place, or refuses before it. -/
def Prog.Leads (Q : Prog Store Write Res ε α → Prop) : Prog Store Write Res ε α → Prop
  | ret _ => False
  | fail _ => True
  | begin _ _ => False
  | stmt s k => Q (.stmt s k) ∨ ∀ r, (k r).Leads Q
  | auto _ _ _ => False
  | commit _ => False

/-- A program of single statements, with no transaction around any. -/
def Prog.Loose : Prog Store Write Res ε α → Prop
  | ret _ => True
  | fail _ => True
  | begin _ _ => False
  | stmt _ _ => False
  | auto _ _ k => ∀ r, (k r).Loose
  | commit _ => False

/-- A program that answers success only with a commit. -/
def Prog.Earned : Prog Store Write Res ε α → Prop
  | ret _ => False
  | fail _ => True
  | begin _ p => p.Earned
  | stmt _ k => ∀ r, (k r).Earned
  | auto _ s k => ∀ now σ, (s.exec now σ).2 = [] → (k (s.exec now σ).1).Earned
  | commit _ => True

/-- A program that writes nothing. -/
def Prog.Idle : Prog Store Write Res ε α → Prop
  | ret _ => True
  | fail _ => True
  | begin _ p => p.Idle
  | stmt s k => (∀ now σ, (s.exec now σ).2 = []) ∧ ∀ r, (k r).Idle
  | auto _ s k => (∀ now σ, (s.exec now σ).2 = []) ∧ ∀ r, (k r).Idle
  | commit p => p.Idle

/-- Every statement of a program meets a condition. -/
def Prog.Each (Q : ∀ ρ : Type, Statement Store Write Res ρ → Prop) :
    Prog Store Write Res ε α → Prop
  | ret _ => True
  | fail _ => True
  | begin _ p => p.Each Q
  | stmt s k => Q _ s ∧ ∀ r, (k r).Each Q
  | auto _ s k => Q _ s ∧ ∀ r, (k r).Each Q
  | commit p => p.Each Q

/-- What a program goes on with after an instruction. -/
inductive Prog.Sub : Prog Store Write Res ε α → Prog Store Write Res ε α → Prop where
  | begin : Prog.Sub p (.begin iso p)
  | stmt (r : ρ) : Prog.Sub (k r) (.stmt s k)
  | auto (r : ρ) : Prog.Sub (k r) (.auto iso s k)
  | commit : Prog.Sub p (.commit p)

/-- A program that neither opens nor commits anything. -/
def Prog.Inner : Prog Store Write Res ε α → Prop
  | ret _ => True
  | fail _ => True
  | begin _ _ => False
  | stmt _ k => ∀ r, (k r).Inner
  | auto _ _ _ => False
  | commit _ => False

namespace Prog

section
variable {ε β : Type} {p : Prog Store Write Res ε α} {f : α → Prog Store Write Res ε β}
  {s : Statement Store Write Res ρ}

@[simp] theorem inner_pure : (pure a : Prog Store Write Res ε α).Inner := trivial

@[simp] theorem inner_fail : (fail e : Prog Store Write Res ε α).Inner := trivial

@[simp] theorem inner_query {k : ρ → Prog Store Write Res ε α} :
    (query s >>= k).Inner ↔ ∀ r, (k r).Inner := Iff.rfl

@[simp] theorem inner_query_only : (query s : Prog Store Write Res ε ρ).Inner := fun _ => trivial

@[simp] theorem inner_lift {d : Except ε α} : (lift d : Prog Store Write Res ε α).Inner := by
  cases d <;> trivial

theorem Inner.bind (inner : p.Inner) (rest : ∀ a, (f a).Inner) : (p >>= f).Inner := by
  induction p with
  | ret a => exact rest a
  | fail e => trivial
  | begin iso p => cases inner
  | stmt s k ih => exact fun r => ih r (inner r)
  | auto iso s k => cases inner
  | commit p => cases inner

/-- Statements before a transaction's end are part of it. -/
theorem Atomic.after (inner : p.Inner) (rest : ∀ a, (f a).Atomic) : (p >>= f).Atomic := by
  induction p with
  | ret a => exact rest a
  | fail e => trivial
  | begin iso p => cases inner
  | stmt s k ih => exact fun r => ih r (inner r)
  | auto iso s k => cases inner
  | commit p => cases inner

theorem Rest.after (inner : p.Inner) (rest : ∀ a, (f a).Rest) : (p >>= f).Rest := by
  induction p with
  | ret a => exact rest a
  | fail e => trivial
  | begin iso p => cases inner
  | stmt s k ih => exact fun r => ih r (inner r)
  | auto iso s k => cases inner
  | commit p => cases inner

theorem Leads.after {Q : Prog Store Write Res ε β → Prop} (inner : p.Inner)
    (rest : ∀ a, (f a).Leads Q) : (p >>= f).Leads Q := by
  induction p with
  | ret a => exact rest a
  | fail e => trivial
  | begin iso p => cases inner
  | stmt s k ih => exact Or.inr fun r => ih r (inner r)
  | auto iso s k => cases inner
  | commit p => cases inner

theorem Ends.after (inner : p.Inner) (rest : ∀ a, (f a).Ends) : (p >>= f).Ends := by
  induction p with
  | ret a => exact rest a
  | fail e => trivial
  | begin iso p => cases inner
  | stmt s k ih => exact fun r => ih r (inner r)
  | auto iso s k => cases inner
  | commit p => cases inner

variable {Q : ∀ ρ : Type, Statement Store Write Res ρ → Prop}

@[simp] theorem each_pure : (pure a : Prog Store Write Res ε α).Each Q := trivial

@[simp] theorem each_fail : (fail e : Prog Store Write Res ε α).Each Q := trivial

@[simp] theorem each_start {k : Unit → Prog Store Write Res ε α} :
    (start iso >>= k).Each Q ↔ (k ()).Each Q := Iff.rfl

@[simp] theorem each_query {k : ρ → Prog Store Write Res ε α} :
    (query s >>= k).Each Q ↔ Q _ s ∧ ∀ r, (k r).Each Q := Iff.rfl

@[simp] theorem each_query_only : (query s : Prog Store Write Res ε ρ).Each Q ↔ Q _ s :=
  ⟨fun each => each.1, fun holds => ⟨holds, fun _ => trivial⟩⟩

@[simp] theorem each_lift {d : Except ε α} : (lift d : Prog Store Write Res ε α).Each Q := by
  cases d <;> trivial

theorem Each.bind (each : p.Each Q) (rest : ∀ a, (f a).Each Q) : (p >>= f).Each Q := by
  induction p with
  | ret a => exact rest a
  | fail e => trivial
  | begin iso p ih => exact ih each
  | stmt s k ih => exact ⟨each.1, fun r => ih r (each.2 r)⟩
  | auto iso s k ih => exact ⟨each.1, fun r => ih r (each.2 r)⟩
  | commit p ih => exact ih each

@[simp] theorem atomic_fail : (fail e : Prog Store Write Res ε α).Atomic := trivial

@[simp] theorem atomic_start {k : Unit → Prog Store Write Res ε α} :
    (start iso >>= k).Atomic ↔ (k ()).Atomic := Iff.rfl

@[simp] theorem atomic_query {k : ρ → Prog Store Write Res ε α} :
    (query s >>= k).Atomic ↔ ∀ r, (k r).Atomic := Iff.rfl

@[simp] theorem atomic_finish {k : Unit → Prog Store Write Res ε α} :
    (finish >>= k).Atomic ↔ ∃ a, k () = ret a := Iff.rfl

@[simp] theorem ends_pure : (pure a : Prog Store Write Res ε α).Ends := trivial

@[simp] theorem ends_fail : (fail e : Prog Store Write Res ε α).Ends := trivial

@[simp] theorem ends_start {k : Unit → Prog Store Write Res ε α} :
    (start iso >>= k).Ends ↔ (k ()).Ends := Iff.rfl

@[simp] theorem ends_single {k : ρ → Prog Store Write Res ε α} :
    (single iso s >>= k).Ends ↔ (∀ now σ, (s.exec now σ).2 ≠ [] → ∃ a, k (s.exec now σ).1 = ret a) ∧
      ∀ r, (k r).Ends := Iff.rfl

end

theorem acc_sub (p : Prog Store Write Res ε α) : Acc Sub p := by
  induction p with
  | ret a => exact ⟨_, nofun⟩
  | fail e => exact ⟨_, nofun⟩
  | begin iso p ih => exact ⟨_, fun | _, .begin => ih⟩
  | stmt s k ih => exact ⟨_, fun | _, .stmt r => ih r⟩
  | auto iso s k ih => exact ⟨_, fun | _, .auto r => ih r⟩
  | commit p ih => exact ⟨_, fun | _, .commit => ih⟩

/-- No program goes on with itself. -/
theorem sub_irrefl {p : Prog Store Write Res ε α} : ¬Relation.TransGen Sub p p := by
  induction (acc_sub p).transGen with
  | intro p _ ih => exact fun same => ih p same same

/-- The rest of a transaction is one that was opened before. -/
theorem Rest.atomic {p : Prog Store Write Res ε α} (rest : p.Rest) : p.Atomic := by
  induction p with
  | ret a => cases rest
  | fail e => trivial
  | begin iso p => cases rest
  | stmt s k ih => exact fun r => ih r (rest r)
  | auto iso s k => cases rest
  | commit p => exact rest

theorem Opens.atomic {p : Prog Store Write Res ε α} (opens : p.Opens) : p.Atomic := by
  cases p with
  | fail e => trivial
  | begin iso p => exact Rest.atomic (p := p) opens
  | _ => cases opens

theorem Opens.lift {f : β → Prog Store Write Res ε α} (opens : ∀ b, (f b).Opens) :
    (Prog.lift d >>= f).Opens := by
  cases d with
  | error e => trivial
  | ok b => exact opens b

@[simp] theorem loose_pure : (pure a : Prog Store Write Res ε α).Loose := trivial

@[simp] theorem loose_fail : (fail e : Prog Store Write Res ε α).Loose := trivial

@[simp] theorem loose_lift {d : Except ε α} : (lift d : Prog Store Write Res ε α).Loose := by
  cases d <;> trivial

@[simp] theorem loose_single {s : Statement Store Write Res ρ} {k : ρ → Prog Store Write Res ε α} :
    (single iso s >>= k).Loose ↔ ∀ r, (k r).Loose := Iff.rfl

theorem Loose.bind {p : Prog Store Write Res ε β} {f : β → Prog Store Write Res ε α}
    (loose : p.Loose) (rest : ∀ b, (f b).Loose) : (p >>= f).Loose := by
  induction p with
  | ret b => exact rest b
  | fail e => trivial
  | auto iso s k ih => exact fun r => ih r (loose r)
  | _ => cases loose

@[simp] theorem opens_start {k : Unit → Prog Store Write Res ε α} :
    (start iso >>= k).Opens ↔ (k ()).Rest := Iff.rfl

/-- One transaction ends with what it commits. -/
theorem Atomic.ends {p : Prog Store Write Res ε α} (atomic : p.Atomic) : p.Ends := by
  induction p with
  | ret a => trivial
  | fail e => trivial
  | begin iso p ih => exact ih atomic
  | stmt s k ih => exact fun r => ih r (atomic r)
  | auto iso s k => cases atomic
  | commit p => exact atomic

theorem Atomic.earned {p : Prog Store Write Res ε α} (atomic : p.Atomic) : p.Earned := by
  induction p with
  | ret a => exact atomic
  | fail e => trivial
  | begin iso p ih => exact ih atomic
  | stmt s k ih => exact fun r => ih r (atomic r)
  | auto iso s k => cases atomic
  | commit p => trivial

/-- Wrapping an answer leaves it earned. -/
theorem Earned.map {p : Prog Store Write Res ε α} (g : α → β) (earned : p.Earned) :
    (do pure (g (← p)) : Prog Store Write Res ε β).Earned := by
  induction p with
  | ret a => cases earned
  | fail e => trivial
  | begin iso p ih => exact ih earned
  | stmt s k ih => exact fun r => ih r (earned r)
  | auto iso s k ih => exact fun now σ silent => ih _ (earned now σ silent)
  | commit p => trivial

/-- Wrapping the answer of one transaction leaves it one. -/
theorem Atomic.map {p : Prog Store Write Res ε α} (g : α → β) (atomic : p.Atomic) :
    (do pure (g (← p)) : Prog Store Write Res ε β).Atomic := by
  induction p with
  | ret a => cases atomic
  | fail e => trivial
  | begin iso p ih => exact ih atomic
  | stmt s k ih => exact fun r => ih r (atomic r)
  | auto iso s k => cases atomic
  | commit p ih =>
    obtain ⟨a, rfl⟩ := atomic
    exact ⟨g a, rfl⟩

/-- Wrapping its answer leaves it the rest of a transaction. -/
theorem Rest.map {p : Prog Store Write Res ε α} (g : α → β) (rest : p.Rest) :
    (do pure (g (← p)) : Prog Store Write Res ε β).Rest := by
  induction p with
  | ret a => cases rest
  | fail e => trivial
  | begin iso p => cases rest
  | stmt s k ih => exact fun r => ih r (rest r)
  | auto iso s k => cases rest
  | commit p =>
    obtain ⟨a, rfl⟩ := rest
    exact ⟨g a, rfl⟩

/-- Wrapping the answer of what opens one transaction leaves it one. -/
theorem Opens.map {p : Prog Store Write Res ε α} (g : α → β) (opens : p.Opens) :
    (do pure (g (← p)) : Prog Store Write Res ε β).Opens := by
  cases p with
  | fail e => trivial
  | begin iso p => exact Rest.map (p := p) g opens
  | _ => cases opens

/-- Wrapping an answer leaves the program ending as it did. -/
theorem Ends.map {p : Prog Store Write Res ε α} (g : α → β) (ends : p.Ends) :
    (do pure (g (← p)) : Prog Store Write Res ε β).Ends := by
  induction p with
  | ret a => trivial
  | fail e => trivial
  | begin iso p ih => exact ih ends
  | stmt s k ih => exact fun r => ih r (ends r)
  | auto iso s k ih =>
    refine ⟨fun now σ writes => ?_, fun r => ih r (ends.2 r)⟩
    obtain ⟨a, same⟩ := ends.1 now σ writes
    exact ⟨g a, congrArg (fun p => p.bind fun a => pure (g a)) same⟩
  | commit p =>
    obtain ⟨a, rfl⟩ := ends
    exact ⟨g a, rfl⟩

section
variable [Writes Store Write] {p : Prog Store Write Res ε α}

/-- A program that earns its answer commits, or takes a step to the rest of
itself. -/
theorem Earned.move (earned : p.Earned) (moves : p.move now σ ℓ = some m) :
    m.commits = true ∨ m.next.Earned := by
  cases p with
  | ret a => cases earned
  | fail e => cases moves
  | begin iso p => cases moves; exact Or.inr earned
  | stmt s k => cases moves; exact Or.inr (earned _)
  | auto iso s k =>
    cases moves
    cases silent : (s.exec now σ).2 with
    | nil => exact Or.inr (earned now σ silent)
    | cons w ws => exact Or.inl (by simp)
  | commit p => cases moves; exact Or.inl rfl

/-- A program that writes nothing takes a step to one that writes nothing. -/
theorem Idle.move (idle : p.Idle) (pending : ℓ.pending = []) (moves : p.move now σ ℓ = some m) :
    m.next.Idle ∧ m.loc.pending = [] ∧ m.writes = [] := by
  cases p with
  | ret a => cases moves
  | fail e => cases moves
  | begin iso p => cases moves; exact ⟨idle, rfl, rfl⟩
  | stmt s k => cases moves; exact ⟨idle.2 _, by rw [Local.after_pending, idle.1, pending]; rfl, rfl⟩
  | auto iso s k => cases moves; exact ⟨idle.2 _, pending, idle.1 _ _⟩
  | commit p => cases moves; exact ⟨idle, rfl, pending⟩

/-- The rest of a transaction keeps what it has pending until it answers. -/
theorem Rest.move (rest : p.Rest) (moves : p.move now σ ℓ = some m)
    (running : m.next.upcoming ≠ .done) :
    m.next.Rest ∧ ∃ ws, m.loc.pending = ℓ.pending ++ ws := by
  cases p with
  | ret a => cases rest
  | fail e => cases moves
  | begin iso p => cases rest
  | stmt s k =>
    cases moves
    exact ⟨rest _, _, Local.after_pending⟩
  | auto iso s k => cases rest
  | commit p =>
    obtain ⟨a, rfl⟩ := rest
    cases moves
    exact absurd rfl running

theorem Each.move {Q : ∀ ρ : Type, Statement Store Write Res ρ → Prop} (each : p.Each Q)
    (moves : p.move now σ ℓ = some m) : m.next.Each Q := by
  cases p with
  | ret a => cases moves
  | fail e => cases moves
  | begin iso p => cases moves; exact each
  | stmt s k => cases moves; exact each.2 _
  | auto iso s k => cases moves; exact each.2 _
  | commit p => cases moves; exact each

theorem Sub.of_move (moves : p.move now σ ℓ = some m) : Sub m.next p := by
  cases p <;> cases moves <;> constructor

/-- A program that ends with its commit takes a step to the rest of itself, or
commits and answers. -/
theorem Ends.move (ends : p.Ends) (moves : p.move now σ ℓ = some m) :
    m.next.Ends ∧ (m.commits = true → ∃ a, m.next = .ret a) := by
  cases p with
  | ret a => cases moves
  | fail e => cases moves
  | begin iso p => cases moves; exact ⟨ends, nofun⟩
  | stmt s k => cases moves; exact ⟨ends _, nofun⟩
  | auto iso s k =>
    cases moves
    exact ⟨ends.2 _, fun writes => ends.1 _ _ (by simpa using writes)⟩
  | commit p =>
    obtain ⟨a, rfl⟩ := ends
    cases moves
    exact ⟨trivial, fun _ => ⟨a, rfl⟩⟩

end

end Prog

/-! ### From programs to runs -/

section
variable {Call : Type} [Writes Store Write] [DecidableEq Res]
  {service : Call → Prog Store Write Res ε α}
  {cond : System Call Store Write Res ε α → Action Call → System Call Store Write Res ε α → Prop}
  {S₀ S S' : System Call Store Write Res ε α}

/-- What every session has at its start and keeps step by step holds of every
session under way. -/
theorem System.Reaches.underway
    {P : Call → Local Store Write Res → Prog Store Write Res ε α → Prop}
    (reached : System.Reaches service cond S₀ S) (none : S₀.sessions = [])
    (start : ∀ c, P c .fresh (service c))
    (steps : ∀ c p ℓ now σ m, P c ℓ p → p.move now σ ℓ = some m → m.next.upcoming ≠ .done →
      P c m.loc m.next)
    {i : Nat} (there : S.sessions[i]? = some ⟨c, ℓ, .running p⟩) : P c ℓ p := by
  induction reached generalizing i c ℓ p with
  | refl => simp [none] at there
  | step _ step _ ih =>
    cases System.turn_of_step step there with
    | kept here => exact ih here
    | arrived _ _ _ _ new =>
      obtain ⟨rfl, rfl, rfl, _⟩ := Session.reached_running new.symm
      exact start _
    | ran advances _ _ new =>
      obtain ⟨rfl, rfl, rfl, running⟩ := Session.reached_running new.symm
      exact steps _ _ _ _ _ _ (ih advances.here) advances.moves running
    | ended _ gone => cases gone

/-- What every session has when it arrives, keeps step by step, and keeps while
others take steps, holds of every session under way. -/
theorem System.Reaches.tracked {P : System Call Store Write Res ε α → Nat → Call →
      Local Store Write Res → Prog Store Write Res ε α → Prop}
    (reached : System.Reaches service cond S₀ S) (none : S₀.sessions = [])
    (arrives : ∀ T i c, System.Reaches service cond S₀ T → P T i c .fresh (service c))
    (moves : ∀ T a T' i c ℓ p m, System.Reaches service cond S₀ T → T.step service a = some T' →
      cond T a T' → T.Advances i c ℓ p m → T' = T.moved i c m (.reached c m.loc m.next) →
      m.next.upcoming ≠ .done → P T i c ℓ p → P T' i c m.loc m.next)
    (keeps : ∀ T a T' (i : Nat) c ℓ p, System.Reaches service cond S₀ T →
      T.step service a = some T' → cond T a T' → T.sessions[i]? = some ⟨c, ℓ, .running p⟩ →
      T'.sessions[i]? = some ⟨c, ℓ, .running p⟩ → P T i c ℓ p → P T' i c ℓ p)
    {i : Nat} (there : S.sessions[i]? = some ⟨c, ℓ, .running p⟩) : P S i c ℓ p := by
  induction reached generalizing i c ℓ p with
  | refl => simp [none] at there
  | @step T a T' before step met ih =>
    cases System.turn_of_step step there with
    | kept here => exact keeps T a T' i c ℓ p before step met here there (ih here)
    | arrived _ _ _ _ new =>
      obtain ⟨rfl, rfl, rfl, _⟩ := Session.reached_running new.symm
      exact arrives T' i _ (before.step step met)
    | ran advances _ whole new =>
      obtain ⟨rfl, rfl, rfl, running⟩ := Session.reached_running new.symm
      exact moves T a T' i _ _ _ _ before step met advances whole running (ih advances.here)
    | ended _ gone => cases gone

/-- A session that has just opened its transaction has written nothing. -/
theorem System.Reaches.opened (reached : System.Reaches service cond S₀ S)
    (none : S₀.sessions = []) {i : Nat} (there : S.sessions[i]? = some ⟨c, ℓ, .running p⟩)
    (opens : service c = .begin iso p) : ℓ.pending = [] ∧ ℓ.iso = iso := by
  -- Before, there, or past it: a program never comes back to the rest of itself.
  have stands := reached.underway (P := fun c ℓ p => ∀ q, service c = .begin iso q →
    p = service c ∨ (p = q ∧ ℓ.pending = [] ∧ ℓ.iso = iso) ∨ Relation.TransGen Prog.Sub p q)
    none (fun _ _ _ => Or.inl rfl) (fun c p ℓ now σ m before moves _ q opens => by
      rcases before q opens with rfl | ⟨rfl, _⟩ | past
      · rw [opens] at moves
        cases moves
        exact Or.inr (Or.inl ⟨rfl, rfl, rfl⟩)
      · exact Or.inr (Or.inr (.single (.of_move moves)))
      · exact Or.inr (Or.inr (.head (.of_move moves) past))) there p opens
  rcases stands with same | ⟨_, pending⟩ | past
  · have sub : Prog.Sub p (service c) := opens ▸ .begin
    rw [← same] at sub
    exact absurd (.single sub) Prog.sub_irrefl
  · exact pending
  · exact absurd past Prog.sub_irrefl

end

end

end Txn
