import IamDb.Listing
import IamDb.Marker
import Mathlib

/-! The evidence of an adoption. A walk over the pages of the evidence serves
the user rows by creation and then by id, and an adoption is recorded on
exactly the rows such a walk begins with. -/
namespace IamDb.Evidence
open Txn Schema Messages Service KeyIdentity Effects Evolution Interference Handlers Runs Rules
open Paging Marker
open Spellings (personId)

/-! ### Page tokens -/

theorem toString_epoch (n : Nat) : (toString (n : Int)).toList = Nat.toDigits 10 n := by
  show (Nat.repr n).toList = _
  exact Nat.toList_repr

/-- The digits of a number are read back as it. -/
theorem parseI64_toDigits {n : Nat} (wide : n ≤ 9223372036854775807) :
    parseI64 (Nat.toDigits 10 n) = some (n : Int) := by
  have digits : ∀ c ∈ Nat.toDigits 10 n, c.isDigit := fun c member =>
    Nat.isDigit_of_mem_toDigits (by decide) (by decide) member
  have value : (Nat.toDigits 10 n).foldl (fun n c => n * 10 + (c.toNat - '0'.toNat)) 0 = n := by
    have read := Nat.ofDigitChars_ten_toDigits (n := n)
    rw [Nat.ofDigitChars_eq_foldl] at read
    simpa [Nat.mul_comm] using read
  cases shape : Nat.toDigits 10 n with
  | nil => exact absurd shape Nat.toDigits_ne_nil
  | cons c rest =>
    rw [shape] at digits value
    have first := digits c List.mem_cons_self
    unfold parseI64
    split
    · rename_i same
      cases same
      cases first
    · rename_i same
      cases same
      cases first
    · have all : (c :: rest).all Char.isDigit = true := List.all_eq_true.mpr digits
      simp only [List.isEmpty_cons, all, value, Bool.not_true, Bool.or_self, Bool.false_eq_true,
        if_false]
      simp [Option.filter_some]
      omega

theorem parse_token {p : Position} (stored : 0 ≤ p.epoch) (wide : p.epoch ≤ 9223372036854775807) :
    Position.parse p.token = .ok p := by
  obtain ⟨n, epoch⟩ := Int.eq_ofNat_of_zero_le stored
  have chars : p.token.toList = Nat.toDigits 10 n ++ ':' :: p.id.toList := by
    rw [Position.token, epoch, String.toList_append, String.toList_append, toString_epoch]
    simp
  have digits : ∀ c ∈ Nat.toDigits 10 n, (decide (c ≠ ':')) = true := by
    intro c member
    have digit := Nat.isDigit_of_mem_toDigits (by decide) (by decide) member
    refine decide_eq_true ?_
    rintro rfl
    cases digit
  have split : p.token.toList.span (· ≠ ':') = (Nat.toDigits 10 n, ':' :: p.id.toList) := by
    rw [chars, List.span_eq_takeWhile_dropWhile, List.takeWhile_append_of_pos digits,
      List.dropWhile_append_of_pos digits]
    simp
  have nonempty : p.token ≠ "" := by
    intro none
    rw [none] at chars
    simp at chars
  rw [Position.parse, if_neg nonempty, split]
  have value := parseI64_toDigits (n := n) (by omega)
  simp only [value, ← epoch, if_pos stored, String.ofList_toList]

section
variable [Engine]

/-! ### Pages -/

/-- A row of the evidence, and when it was created. -/
structure Entry where
  createdAt : Int
  evidence : KeyIdentityEvidence
  deriving DecidableEq

def entryOf (u : User) : Entry :=
  ⟨u.createdAt, ⟨u.id, u.externalId, u.displayName, u.blindIndex⟩⟩

/-- By creation, then by id. -/
def Entry.key (e : Entry) : Int ×ₗ String := toLex (e.createdAt, weight e.evidence.userId)

def Entry.position (e : Entry) : Position := ⟨e.createdAt, e.evidence.userId⟩

/-- The rows there are, soft-deleted ones included. -/
def Shown (σ : Store) (e : Entry) : Prop := ∃ u ∈ σ.users, entryOf u = e

/-- The rows a call lists. -/
def rowsOf (size : Int) (token : String) (σ : Store) : List Entry :=
  match Position.parse token with
  | .ok after => ((selectEvidence after (pageSize size)).exec 0 σ).1.map entryOf
  | .error _ => []

/-- The pages of the evidence. -/
def evidencePages : Paged ListKeyIdentityEvidenceResponse Entry where
  asks size token := .listKeyIdentityEvidence ⟨size, token⟩
  rows := rowsOf
  next := nextToken (·.position.token)
  answer rows next := ⟨rows.map (·.evidence), next⟩
  token a := a.nextPageToken
  wrap := .listKeyIdentityEvidence
  token_answer _ _ := rfl
  told c size token request σ t := by
    refine ServiceProofs.wp_service (fun _ _ _ => nofun) fun _ => ?_
    rw [request]
    refine wp_map (G := fun _ => True) ?_
    unfold evidencePage
    cases parsed : Position.parse token with
    | error e => exact fun _ => nofun
    | ok after =>
      refine wp_conn (fun _ _ => rfl) fun ℓ' σ' t' _ _ a same => ?_
      cases same
      simp only [rowsOf, parsed, nextToken, List.map_map, List.length_map, List.getLast?_map,
        Option.map_map]
      rfl

theorem oldest_ascending (σ : Store) :
    ((oldestFirst σ).map entryOf).Pairwise fun a b => a.key < b.key := by
  rw [List.pairwise_map]
  have apart : (oldestFirst σ).Pairwise fun a b => a.key ≠ b.key :=
    List.pairwise_map.mp (oldestFirst_distinct σ)
  refine ((oldestFirst_sorted σ).and apart).imp fun {a b} both => ?_
  obtain ⟨older, apart⟩ := both
  rw [Entry.key, Entry.key, Prod.Lex.toLex_lt_toLex]
  simp only [olderOrSame, Bool.or_eq_true, Bool.and_eq_true, decide_eq_true_eq] at older
  rcases older with earlier | ⟨same, before⟩
  · exact Or.inl earlier
  · exact Or.inr ⟨same, lt_of_le_of_ne before apart⟩

/-- The cursor a token stands for. -/
def Stands (token : String) (cursor : WithBot (Int ×ₗ String)) : Prop :=
  token = "" ∧ cursor = ⊥ ∨
    ∃ e : Entry, 0 ≤ e.createdAt ∧ e.createdAt ≤ 9223372036854775807 ∧ token = e.position.token ∧
      cursor = e.key

/-- Every row has been created at a moment a timestamp holds. -/
def Stamped (σ : Store) : Prop :=
  ∀ u ∈ σ.users, 0 ≤ u.createdAt ∧ u.createdAt ≤ 9223372036854775807

omit [Engine] in
theorem token_ne_empty {p : Position} : p.token ≠ "" := by
  intro none
  have chars := congrArg String.toList none
  simp [Position.token] at chars

/-- The rows past a position that a cursor stands for, in order. -/
theorem mem_past {after : Position} {cursor : WithBot (Int ×ₗ String)}
    (past : ∀ e, Shown σ e → ((after.epoch < e.createdAt ∨ e.createdAt = after.epoch ∧
      weight after.id < weight e.evidence.userId) ↔ cursor < e.key)) :
    e ∈ ((oldestFirst σ).filter fun u => after.epoch < u.createdAt ||
      u.createdAt = after.epoch && weight after.id < u.key).map entryOf ↔
    Shown σ e ∧ cursor < e.key := by
  rw [List.mem_map]
  constructor
  · rintro ⟨u, selected, rfl⟩
    obtain ⟨member, beyond⟩ := List.mem_filter.mp selected
    have shown : Shown σ (entryOf u) := ⟨u, (List.mem_insertionSort _).mp member, rfl⟩
    simp only [Bool.or_eq_true, Bool.and_eq_true, decide_eq_true_eq] at beyond
    exact ⟨shown, (past _ shown).mp beyond⟩
  · rintro ⟨⟨u, member, rfl⟩, beyond⟩
    refine ⟨u, List.mem_filter.mpr ⟨(List.mem_insertionSort _).mpr member, ?_⟩, rfl⟩
    simp only [Bool.or_eq_true, Bool.and_eq_true, decide_eq_true_eq]
    exact (past _ ⟨u, member, rfl⟩).mpr beyond

/-- The pages of the evidence are keyset pages, by creation and then by id. -/
theorem keyed : Keyed evidencePages Entry.key Shown Stands (fun T => Stamped T.store) where
  start := Or.inl ⟨rfl, rfl⟩
  bounded size token σ := by
    show (rowsOf size token σ).length ≤ 200
    unfold rowsOf
    split
    · rw [List.length_map]
      exact Nat.le_trans (List.length_take_le _ _) pageSize_le
    · exact Nat.zero_le _
  page T size token cursor stamped standing := by
    obtain ⟨after, parsed, past⟩ : ∃ after, Position.parse token = .ok after ∧ ∀ e,
        Shown T.store e → ((after.epoch < e.createdAt ∨ e.createdAt = after.epoch ∧
          weight after.id < weight e.evidence.userId) ↔ cursor < e.key) := by
      rcases standing with ⟨rfl, rfl⟩ | ⟨last, early, late, rfl, rfl⟩
      · refine ⟨⟨-1, ""⟩, rfl, ?_⟩
        rintro _ ⟨u, stored, rfl⟩
        have stamp := (stamped u stored).1
        refine ⟨fun _ => WithBot.bot_lt_coe _, fun _ => Or.inl ?_⟩
        show (-1 : Int) < u.createdAt
        omega
      · refine ⟨last.position, parse_token early late, fun e _ => ?_⟩
        rw [WithBot.coe_lt_coe, Entry.key, Entry.key, Prod.Lex.toLex_lt_toLex]
        show last.createdAt < e.createdAt ∨ e.createdAt = last.createdAt ∧ _ ↔
          last.createdAt < e.createdAt ∨ last.createdAt = e.createdAt ∧ _
        rw [eq_comm]
        rfl
    have rows : rowsOf size token T.store = (((oldestFirst T.store).filter fun u =>
        after.epoch < u.createdAt || u.createdAt = after.epoch && weight after.id < u.key).map
          entryOf).take (pageSize size) := by
      rw [rowsOf, parsed]
      exact List.map_take
    have ascending := (oldest_ascending T.store).sublist
      (List.filter_sublist.map entryOf : List.Sublist (((oldestFirst T.store).filter fun u =>
        after.epoch < u.createdAt || u.createdAt = after.epoch && weight after.id < u.key).map
          entryOf) _)
    refine page_of_rows rows ascending (fun e => mem_past past) ?_
    rintro _ ⟨u, stored, rfl⟩
    exact ⟨token_ne_empty, Or.inr ⟨_, (stamped u stored).1, (stamped u stored).2, rfl, rfl⟩⟩
  answers T size token cursor standing := by
    obtain ⟨after, parsed⟩ : ∃ after, Position.parse token = .ok after := by
      rcases standing with ⟨rfl, _⟩ | ⟨last, early, late, rfl, _⟩
      · exact ⟨_, rfl⟩
      · exact ⟨_, parse_token early late⟩
    have whole : evidencePage ⟨size, token⟩ =
        conn (selectEvidence after (pageSize size)) >>= fun rows =>
          let evidence := rows.map fun u => ⟨u.id, u.externalId, u.displayName, u.blindIndex⟩
          pure ⟨evidence, if evidence.length = pageSize size then
            ((rows.getLast?).map fun u => Position.token ⟨u.createdAt, u.id⟩).getD "" else ""⟩ := by
      rw [evidencePage, parsed]
      rfl
    have verb : service ⟨some iamCaller, firstUuid, .listKeyIdentityEvidence ⟨size, token⟩⟩ = (do
        pure (.listKeyIdentityEvidence (← evidencePage ⟨size, token⟩))) := rfl
    show ∃ m, (service ⟨some iamCaller, firstUuid, .listKeyIdentityEvidence ⟨size, token⟩⟩).move
      T.clock T.store .fresh = some m ∧ _
    rw [verb, whole]
    refine ⟨_, rfl, rfl, ?_⟩
    simp only [Paged.answered, Paged.readAt, evidencePages, rowsOf, parsed, nextToken, List.map_map,
      List.length_map, List.getLast?_map, Option.map_map]
    rfl

/-! ### Rows over a run -/

section
variable {S₀ S S' : Handlers.System}

theorem shown_put {u u' : User} {σ : Store} (stored : u ∈ σ.users) (same : entryOf u' = entryOf u)
    (shown : Shown σ e) : Shown { σ with users := σ.users.put u' } e := by
  obtain ⟨x, there, rfl⟩ := shown
  have key : u'.key = u.key := congrArg (fun e : Entry => weight e.evidence.userId) same
  by_cases own : x.key = u'.key
  · obtain rfl : x = u := Table.eq_of_key there stored (own.trans key)
    exact ⟨u', Table.mem_put_self, same⟩
  · exact ⟨x, Table.mem_put.mpr (Or.inr ⟨there, own⟩), rfl⟩

theorem shown_put_new {u : User} {σ : Store} (absent : σ.user? u.id = none) (shown : Shown σ e) :
    Shown { σ with users := σ.users.put u } e := by
  obtain ⟨x, there, rfl⟩ := shown
  exact ⟨x, Table.mem_put.mpr (Or.inr ⟨there, Table.find?_eq_none.mp absent x there⟩), rfl⟩

/-- The evidence of a row never changes. -/
theorem shown_later (reachable : Reachable S) (later : Later S S') (shown : Shown S.store e) :
    Shown S'.store e := by
  refine Later.effects (P := fun σ σ' => Shown σ e → Shown σ' e) later reachable (fun _ w => w)
    (fun _ _ _ first second w => second (first w)) (fun c k ef _ _ allowed shown => ?_) shown
  cases allowed with
  | createUser _ _ _ absent => exact shown_put_new absent shown
  | bootstrap _ _ _ _ absent => exact shown_put_new absent shown
  | redeem _ _ _ _ _ _ _ owner => exact shown_put (Store.user?_mem owner).1 rfl shown
  | revokeAll _ user => exact shown_put (Store.user?_mem user).1 rfl shown
  | setPassword _ user => exact shown_put (Store.user?_mem user).1 rfl shown
  | setAdmin _ user => exact shown_put (Store.user?_mem user).1 rfl shown
  | @setting _ level claim => cases level <;> cases claim <;> exact shown
  | _ => exact shown

theorem stamped_before (reachable : Reachable S) (later : Later S S') (stamped : Stamped S'.store) :
    Stamped S.store := by
  intro u stored
  obtain ⟨u', stored', same⟩ := shown_later reachable later ⟨u, stored, rfl⟩
  have stamp := stamped u' stored'
  have at_ : u'.createdAt = u.createdAt := congrArg Entry.createdAt same
  rwa [at_] at stamp

/-- A walk over an unchanged store serves all its rows, oldest first. -/
theorem served_oldest (reachable : Reachable S₀) (reads : Reads evidencePages S₀ pages "" S)
    (stamped : Stamped S.store) (some : pages ≠ [])
    (unchanged : ∀ e, Shown S.store e → Shown S₀.store e) :
    pages.flatMap (·.rows) = (oldestFirst S.store).map entryOf := by
  have fine : ∀ read ∈ pages, Stamped read.moment.store := fun read on =>
    stamped_before (reachable.later (reads.moments read on).1) (reads.moments read on).2 stamped
  have ascending := reads.ascending keyed fine
  have oldest := oldest_ascending S.store
  have distinct {l : List Entry} (sorted : l.Pairwise fun a b => a.key < b.key) : l.Nodup :=
    sorted.imp fun before => ne_of_apply_ne _ before.ne
  refine List.Perm.eq_of_pairwise (fun a b _ _ (one : a.key < b.key) (two : b.key < a.key) =>
    absurd (lt_trans one two) (lt_irrefl _)) ascending oldest ?_
  rw [List.perm_ext_iff_of_nodup (distinct ascending) (distinct oldest)]
  intro e
  have listed : e ∈ (oldestFirst S.store).map entryOf ↔ Shown S.store e := by
    rw [List.mem_map]
    exact exists_congr fun u => and_congr_left fun _ => List.mem_insertionSort _
  rw [listed]
  constructor
  · intro served
    obtain ⟨read, on, row⟩ := List.mem_flatMap.mp served
    obtain ⟨before, ahead, rfl⟩ := List.append_of_mem on
    have shown := (reads.shows keyed fine).2.1 e row
    exact shown_later (reachable.later (reads.moments read on).1) (reads.moments read on).2 shown
  · intro shown
    have always : ∀ read ∈ pages, Shown read.moment.store e := fun read on =>
      shown_later reachable (reads.moments read on).1 (unchanged e shown)
    rcases reads.covers keyed fine always with served | ⟨_, none | goes, _⟩
    · exact served
    · exact absurd none some
    · exact absurd rfl goes

end

/-! ### Adoption -/

/-- An adoption by itself, over a store without a marker: recorded where the
evidence is well formed and the oldest rows, refused anywhere else. -/
theorem wp_adoption_alone {ℓ : Local Store Write Res} (unmarked : σ.keyIdentity.find? () = none)
    (valid : presented r.keyFingerprint r.derivationVersion = .ok ()) :
    wp Rely.none (fun _ => True) (recordAdoption r) (fun result _ σ' _ =>
      (evidence r.evidenceUserIds = .ok () →
        fits maxIdempotencyKey (r.idempotency.getD "") = true →
        oldestAre r.evidenceUserIds σ = true → result = .ok .recorded ∧ σ' = Write.apply (.keyIdentity
          (KeyIdentityProofs.presentedRow (KeyIdentityProofs.adoptPresented r))) σ) ∧
      (oldestAre r.evidenceUserIds σ = false → (∃ e, result = .error e) ∧ σ' = σ)) ℓ σ t := by
  have quiet : Quiet (Rely.none : Rely Store Write Res) := fun _ _ _ _ none => none.elim
  unfold recordAdoption
  rw [valid]
  cases evident : evidence r.evidenceUserIds with
  | error e =>
    exact ⟨nofun, fun _ => ⟨⟨e, rfl⟩, rfl⟩⟩
  | ok _ =>
    show wp _ _ (KeyIdentity.record (KeyIdentityProofs.adoptPresented r)
      (oldestAre r.evidenceUserIds) _) _ ℓ σ t
    refine KeyIdentityProofs.wp_record quiet (KeyIdentityProofs.oldestAre_congr _) ?_ ?_ ?_ ?_ ?_
    · intro ℓ' σ' t' drifts met _ _ _ _
      obtain rfl := drifts.still
      refine ⟨trivial, fun _ _ _ => ⟨rfl, rfl⟩, fun unmet => ?_⟩
      rw [met] at unmet
      cases unmet
    · intro ℓ' σ' t' row outcome drifts stored _
      obtain rfl := drifts.still
      rw [unmarked] at stored
      cases stored
    · intro e ℓ' σ' t' row drifts stored _
      obtain rfl := drifts.still
      rw [unmarked] at stored
      cases stored
    · intro ℓ' σ₁ σ' t' before unmet after _ _
      obtain rfl := before.still
      obtain rfl := after.still
      refine ⟨fun _ _ met => ?_, fun _ => ⟨⟨_, rfl⟩, rfl⟩⟩
      rw [unmet] at met
      cases met
    · intro ℓ' σ' t' drifts long
      obtain rfl := drifts.still
      refine ⟨fun _ held _ => ?_, fun _ => ⟨⟨_, rfl⟩, rfl⟩⟩
      cases (show fits maxIdempotencyKey (r.idempotency.getD "") = false from long).symm.trans held

/-- What evidence takes from the engine: ids that are one once trailing spaces
and letter case are gone are one to the column. -/
def Folds : Prop := ∀ a b, sameRow a = sameRow b → weight a = weight b

theorem evidence_ok (folds : Folds) {ids : List String} (some : ids ≠ []) (few : ids.length ≤ 64)
    (distinct : (ids.map weight).Nodup) : evidence ids = .ok () := by
  have apart : (ids.map sameRow).Nodup :=
    List.pairwise_map.mpr ((List.pairwise_map.mp distinct).imp fun other same => other (folds _ _ same))
  unfold evidence maxEvidence
  rw [if_neg (by simpa using some), if_neg (by omega), if_pos apart]

/-- What an adoption does by itself. -/
def Adopting (c : Call) (σ : Store) (result : Except Status Response) (σ' : Store) : Prop :=
  ∀ r, c.request = .adoptKeyIdentity r → admitted c.caller = .ok () →
    presented r.keyFingerprint r.derivationVersion = .ok () → σ.keyIdentity.find? () = none →
    (evidence r.evidenceUserIds = .ok () → fits maxIdempotencyKey (r.idempotency.getD "") = true →
      oldestAre r.evidenceUserIds σ = true → result = .ok (.adoptKeyIdentity .recorded) ∧ σ' = Write.apply (.keyIdentity
        ⟨r.derivationVersion, r.keyFingerprint, r.idempotency.getD ""⟩) σ) ∧
    (oldestAre r.evidenceUserIds σ = false → (∃ e, result = .error e) ∧ σ' = σ)

theorem wp_adopting {c : Call} : wp Rely.none (fun _ => True) (service c)
    (fun result _ σ' _ => Adopting c σ result σ') .fresh σ t := by
  unfold Adopting
  cases request : c.request with
  | adoptKeyIdentity r =>
    refine ServiceProofs.wp_service (fun e refused r' _ caller => ?_) fun caller => ?_
    · rw [caller] at refused
      cases refused
    by_cases ready : presented r.keyFingerprint r.derivationVersion = .ok () ∧
      σ.keyIdentity.find? () = none
    · rw [request]
      refine wp_map (G := fun _ => True) (wp_mono (wp_adoption_alone ready.2 ready.1)
        (fun _ _ _ _ h => h) (fun _ h => h) ?_)
      rintro result ℓ' σ' t' ⟨recorded, refused⟩ _ same _ _ _
      cases same
      refine ⟨fun evident held met => ?_, fun unmet => ?_⟩
      · obtain ⟨rfl, rfl⟩ := recorded evident held met
        exact ⟨rfl, rfl⟩
      · obtain ⟨⟨e, rfl⟩, rfl⟩ := refused unmet
        exact ⟨⟨e, rfl⟩, rfl⟩
    · refine wp_mono wp_trivial (fun _ _ _ _ h => h) (fun _ h => h) ?_
      rintro result ℓ' σ' t' _ _ same _ valid unmarked
      cases same
      exact absurd ⟨valid, unmarked⟩ ready
  | _ => exact wp_mono wp_trivial (fun _ _ _ _ h => h) (fun _ h => h) fun _ _ _ _ _ => nofun

/-- The evidence and its adoption. A page token is read back as the position it
was made from. A walk serves the rows that were there at its start once each, by
creation and then by id, has at most one page more than there are rows, and goes
on until it has ended. And over an unchanged store without a marker, an adoption
by itself is recorded, under a key that fits its column, when its ids name the
rows such a walk begins with, one each and in any order, and refused with nothing
written otherwise. -/
theorem evidence_adopted (folds : Folds) :
    (∀ p : Position, 0 ≤ p.epoch → p.epoch ≤ 9223372036854775807 →
      Position.parse p.token = .ok p) ∧
    ∀ S₀ pages token S, Reachable S₀ → Stamped S.store → Walk evidencePages S₀ pages token S →
      ∃ reads : List (Read Entry), pages = reads.map evidencePages.answered ∧
        (∀ read ∈ reads, Later S₀ read.moment ∧ Later read.moment S ∧
          ∀ e ∈ read.rows, Shown read.moment.store e) ∧
        (reads.flatMap (·.rows)).Pairwise (fun a b => a.key < b.key) ∧
        (pages ≠ [] → token = "" → ∀ e, Shown S₀.store e → (reads.flatMap (·.rows)).count e = 1) ∧
        pages.length ≤ S.store.users.rows.length + 1 ∧
        (pages = [] ∨ token ≠ "" → ∀ size, ∃ S', Walk evidencePages S₀
          (pages ++ [evidencePages.answered (evidencePages.readAt size token S)])
          (evidencePages.readAt size token S).next S') ∧
        (pages ≠ [] → token = "" → (∀ e, Shown S.store e → Shown S₀.store e) → S.Idle →
          S.store.keyIdentity.rows = [] → ∀ T c result r,
          System.Reaches service System.Sequential S T → T.Idle →
          Spellings.since S T = [(c, result)] → admitted c.caller = .ok () →
          c.request = .adoptKeyIdentity r →
          presented r.keyFingerprint r.derivationVersion = .ok () →
          r.evidenceUserIds ≠ [] → r.evidenceUserIds.length ≤ 64 →
          (fits maxIdempotencyKey (r.idempotency.getD "") = true →
            (r.evidenceUserIds.map weight).Perm (((reads.flatMap (·.rows)).take
              r.evidenceUserIds.length).map fun e => weight e.evidence.userId) →
            result = .ok (.adoptKeyIdentity .recorded) ∧ T.store = Write.apply (.keyIdentity
              ⟨r.derivationVersion, r.keyFingerprint, r.idempotency.getD ""⟩) S.store) ∧
          (¬(r.evidenceUserIds.map weight).Perm (((reads.flatMap (·.rows)).take
              r.evidenceUserIds.length).map fun e => weight e.evidence.userId) →
            (∃ e, result = .error e) ∧ T.store = S.store)) := by
  refine ⟨fun p => parse_token, fun S₀ pages token S reachable stamped walk => ?_⟩
  obtain ⟨reads, steps, rfl⟩ := walk.reads reachable
  have fine : ∀ read ∈ reads, Stamped read.moment.store := fun read on =>
    stamped_before (reachable.later (steps.moments read on).1) (steps.moments read on).2 stamped
  have ascending := steps.ascending keyed fine
  have distinct : (reads.flatMap (·.rows)).Nodup :=
    ascending.imp fun before => ne_of_apply_ne _ before.ne
  refine ⟨reads, rfl, fun read on => ?_, ascending, ?_, ?_, ?_, ?_⟩
  · obtain ⟨before, ahead, rfl⟩ := List.append_of_mem on
    exact ⟨(steps.moments read on).1, (steps.moments read on).2, (steps.shows keyed fine).2.1⟩
  · rintro some rfl e shown
    have always : ∀ read ∈ reads, Shown read.moment.store e := fun read on =>
      shown_later reachable (steps.moments read on).1 shown
    rcases steps.covers keyed fine always with served | ⟨_, none | goes, _⟩
    · exact List.count_eq_one_of_mem distinct served
    · rw [none] at some
      exact absurd rfl some
    · exact absurd rfl goes
  · have kept : reads.flatMap (·.rows) ⊆ S.store.users.rows.map entryOf := by
      intro e served
      obtain ⟨read, on, listed⟩ := List.mem_flatMap.mp served
      obtain ⟨before, ahead, rfl⟩ := List.append_of_mem on
      have shown := (steps.shows keyed fine).2.1 e listed
      exact List.mem_map.mpr (shown_later (reachable.later (steps.moments read on).1)
        (steps.moments read on).2 shown)
    have bound := distinct.length_le_of_subset kept
    rw [List.length_map] at bound ⊢
    exact Nat.le_trans (steps.length_le keyed fine) (Nat.succ_le_succ bound)
  · intro goes size
    obtain ⟨cursor, standing⟩ := steps.standing keyed fine (by simpa using goes)
    exact walk.goes_on goes keyed standing size
  · rintro some rfl unchanged rest unmarked T c result r reached idle one caller request valid
      nonempty few
    have oldest := served_oldest reachable steps stamped (by simpa using some) unchanged
    have chain := Spellings.chain_since (Q := Adopting) (reachable.later steps.later) rest reached
      idle (fun _ _ _ met => met) fun _ _ _ _ _ => wp_adopting
    rw [one] at chain
    obtain ⟨σ₁, σ₂, before, ⟨adopting, _⟩, after⟩ := Chain.split (h := []) chain
    obtain rfl := before.nothing
    obtain rfl := after.nothing
    obtain ⟨recorded, refused⟩ := adopting r request caller valid (Marker.unmarked.mpr unmarked)
    have named : (r.evidenceUserIds.map weight).Perm (((reads.flatMap (·.rows)).take
        r.evidenceUserIds.length).map fun e => weight e.evidence.userId) ↔
        oldestAre r.evidenceUserIds S.store = true := by
      rw [oldest, ← List.map_take, List.map_map, oldestAre_iff, List.perm_comm]
      rfl
    rw [named]
    refine ⟨fun held met => recorded (evidence_ok folds nonempty few ?_) held met,
      fun unmet => refused ?_⟩
    · have apart : (((oldestFirst S.store).take r.evidenceUserIds.length).map User.key).Nodup := by
        rw [List.map_take]
        exact (oldestFirst_distinct _).sublist (List.take_sublist _ _)
      exact (oldestAre_iff.mp met).nodup_iff.mp apart
    · exact Bool.eq_false_iff.mpr unmet

end

open Folding in
theorem folds_folding : Folds := by
  intro a b same
  have chars := congrArg String.toList same
  simp only [sameRow, lowercase, id, String.toList_ofList] at chars
  show fold a = fold b
  rw [fold, fold, chars]

/-- A person is created. -/
def creating : List (Action Call) :=
  calling firstUuid (.createUser ⟨[1], [2], [3], false, ""⟩) 0 1

/-- The evidence is listed, on one page. -/
def walking : List (Action Call) :=
  creating ++ calling firstUuid (.listKeyIdentityEvidence ⟨0, ""⟩) 1 1

/-- An adoption of some ids. -/
def adopting (ids : List String) : List (Action Call) :=
  walking ++ calling firstUuid (.adoptKeyIdentity ⟨none, [1], 1, ids⟩) 2 3

open Folding in
theorem evidence_adopted_once : (after (adopting [personId])).store =
    Write.apply (.keyIdentity ⟨1, [1], ""⟩) (after walking).store := by
  obtain ⟨_, there⟩ : ∃ ℓ, (after walking).sessions[1]? =
      some ⟨⟨some iamCaller, firstUuid, .listKeyIdentityEvidence ⟨0, ""⟩⟩, ℓ,
        .answered (.ok (.listKeyIdentityEvidence
          ⟨[⟨personId, [1], [2], 3 :: List.replicate 31 0⟩], ""⟩))⟩ :=
    told_eq_some (by decide +kernel)
  have begun : Walk evidencePages (after creating) [] "" (after creating) := .start
  have later : Later (after creating) (after walking) := later_after (by decide +kernel)
  have walk := begun.page (Or.inl rfl) later (by decide +kernel) rfl there
  have stamps : ∀ u ∈ (after walking).store.users.rows,
      0 ≤ u.createdAt ∧ u.createdAt ≤ 9223372036854775807 := by decide +kernel
  obtain ⟨reads, pages, _, _, _, _, _, adopted⟩ := (evidence_adopted folds_folding).2 _ _ _ _
    (reachable_after creating) (fun u stored => stamps u stored) walk
  have same : (after walking).store.users.rows = (after creating).store.users.rows := by
    decide +kernel
  have unchanged (e) (shown : Shown (after walking).store e) : Shown (after creating).store e := by
    obtain ⟨u, stored, evident⟩ := shown
    rw [Table.mem_def, same] at stored
    exact ⟨u, stored, evident⟩
  have reached : System.Reaches service System.Sequential (after walking)
      (after (adopting [personId])) :=
    reaches_more System.sequentialNow (fun _ _ _ now => System.sequential_of_now now)
      (by decide +kernel) (by decide +kernel)
  have one : Spellings.since (after walking) (after (adopting [personId])) =
      [(⟨some iamCaller, firstUuid, .adoptKeyIdentity ⟨none, [1], 1, [personId]⟩⟩,
        .ok (.adoptKeyIdentity .recorded))] := by decide +kernel
  have rest : (after walking).Idle := System.idle_of_now (by decide +kernel)
  have rested : (after (adopting [personId])).Idle := System.idle_of_now (by decide +kernel)
  have unmarked : (after walking).store.keyIdentity.rows = [] := by decide +kernel
  have recorded := (adopted (List.cons_ne_nil _ _) rfl unchanged rest unmarked _ _ _ _ reached
    rested one rfl rfl rfl (List.cons_ne_nil _ _) (by decide)).1
  have served : (reads.flatMap (·.rows)).map (·.evidence) =
      [⟨personId, [1], [2], 3 :: List.replicate 31 0⟩] := by
    have all := congrArg (List.flatMap (·.evidence)) pages
    simpa [evidencePages, Paged.answered, List.flatMap_map, List.map_flatMap] using all.symm
  have ids : ((reads.flatMap (·.rows)).take 1).map (fun e => weight e.evidence.userId) =
      [weight personId] := by
    have first := congrArg (fun l => (l.take 1).map fun e => weight e.userId) served
    simpa only [List.map_take, List.map_map, Function.comp_def, List.map_cons, List.map_nil,
      List.take_succ_cons, List.take_zero] using first
  exact (recorded (by decide) (.of_eq ids.symm)).2

open Folding in
/-- Under a collation that takes no notice of case, the id of the only row in
capitals is another list, and is recorded as well. -/
theorem evidence_adopted_respelled : ¬∀ (S T : Handlers.System) c result r, Reachable S → S.Idle →
    S.store.keyIdentity.rows = [] → System.Reaches service System.Sequential S T → T.Idle →
    Spellings.since S T = [(c, result)] → c.request = .adoptKeyIdentity r →
    (r.evidenceUserIds.map weight).Nodup →
    ¬r.evidenceUserIds.Perm
      (((oldestFirst S.store).take r.evidenceUserIds.length).map (·.id)) →
    ∃ e, result = .error e := by
  intro refuses
  have reached : System.Reaches service System.Sequential (after walking)
      (after (adopting [personId.toUpper])) :=
    reaches_more System.sequentialNow (fun _ _ _ now => System.sequential_of_now now)
      (by decide +kernel) (by decide +kernel)
  have one : Spellings.since (after walking) (after (adopting [personId.toUpper])) =
      [(⟨some iamCaller, firstUuid, .adoptKeyIdentity ⟨none, [1], 1, [personId.toUpper]⟩⟩,
        .ok (.adoptKeyIdentity .recorded))] := by decide +kernel
  obtain ⟨e, error⟩ := refuses _ _ _ _ _ (reachable_after walking)
    (System.idle_of_now (by decide +kernel)) (by decide +kernel) reached
    (System.idle_of_now (by decide +kernel)) one rfl (by decide +kernel) (by decide +kernel)
  cases error

end IamDb.Evidence
