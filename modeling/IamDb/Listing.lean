import IamDb.Paging
import IamDb.Spellings
import Mathlib.Data.String.Basic

/-! Walks over the pages of a user's credentials. Between two pages credentials
may be minted and revoked; a page shows the unrevoked ones of a live person. -/
namespace IamDb.Listing
open Txn Schema Messages Service Effects Evolution Interference Handlers Runs Rules Paging
open Spellings (personId credentialId crediting)

section
variable [Engine]

/-! ### One page -/

/-- The rows of a user a page shows, of those past its token. -/
def Shown (userId : String) (σ : Store) (row : Schema.Credential) : Prop :=
  row ∈ σ.credentials ∧ weight row.userId = weight userId ∧ row.revokedAt = none ∧
    (σ.liveUser? row.userId).isSome

/-- The rows a call lists. -/
def rowsOf (userId : String) (size : Int) (token : String) (σ : Store) : List Schema.Credential :=
  ((Credential.selectPage userId token (pageSize size)).exec 0 σ).1

/-- The pages of a user's credentials. -/
def pagesOf (userId : String) : Paged ListCredentialsResponse Schema.Credential where
  asks size token := .listCredentials ⟨userId, size, token⟩
  rows := rowsOf userId
  next := nextToken (·.id)
  answer rows next :=
    ⟨rows.map fun c => ⟨c.id, userId, c.label, some c.createdAt, c.expiresAt⟩, next⟩
  token a := a.nextPageToken
  wrap := .listCredentials
  token_answer _ _ := rfl
  told c size token request σ t := by
    refine ServiceProofs.wp_service (fun _ _ _ => nofun) fun _ => ?_
    rw [request]
    refine wp_map (G := fun _ => True) ?_
    unfold Credential.credentialPage
    refine wp_conn (fun _ _ => rfl) fun ℓ' σ' t' _ _ a same => ?_
    cases same
    simp [nextToken, rowsOf, Credential.selectPage]

/-- All rows past the token of a call, of which it lists the first. -/
theorem mem_past {userId token : String} {σ : Store} :
    row ∈ ((σ.credentials.rows.filter fun c => weight c.userId = weight userId &&
      c.revokedAt.isNone && (σ.liveUser? c.userId).isSome &&
      weight token < c.key).insertionSort fun a b => a.key ≤ b.key) ↔
    Shown userId σ row ∧ weight token < row.key := by
  rw [List.mem_insertionSort, List.mem_filter]
  simp only [Bool.and_eq_true, decide_eq_true_eq, Option.isNone_iff_eq_none, Shown,
    Table.mem_def, and_assoc]

theorem shown_of_mem (member : row ∈ rowsOf userId size token σ) :
    Shown userId σ row ∧ weight token < row.key :=
  mem_past.mp (List.mem_of_mem_take member)

/-- The cursor a token stands for. -/
def Stands (token : String) (cursor : WithBot String) : Prop :=
  token = "" ∧ cursor = ⊥ ∨ token ≠ "" ∧ cursor = weight token

/-- Every credential has an id past the empty token. -/
def Fine (S : Handlers.System) : Prop := ∀ row ∈ S.store.credentials, weight "" < row.key

/-- The pages of a user's credentials are keyset pages, by id. -/
theorem keyed (userId : String) :
    Keyed (pagesOf userId) Credential.key (Shown userId) Stands Fine where
  start := Or.inl ⟨rfl, rfl⟩
  bounded size _ _ := Nat.le_trans (List.length_take_le _ _) pageSize_le
  page T size token cursor fine standing := by
    refine page_of_rows rfl (Keyset.insertionSort_ascending
      (T.store.credentials.filter_distinct fun c => weight c.userId = weight userId &&
        c.revokedAt.isNone && (T.store.liveUser? c.userId).isSome && weight token < c.key))
      (fun row => ?_) fun row shown => ?_
    · rw [mem_past]
      refine and_congr_right fun shown => ?_
      rcases standing with ⟨rfl, rfl⟩ | ⟨_, rfl⟩
      · exact ⟨fun _ => WithBot.bot_lt_coe _, fun _ => fine row shown.1⟩
      · exact WithBot.coe_lt_coe.symm
    · have named : row.id ≠ "" := fun none =>
        absurd (fine row shown.1) (by rw [Credential.key, none]; exact lt_irrefl _)
      exact ⟨named, Or.inr ⟨named, rfl⟩⟩
  answers T size token cursor _ := by
    refine ⟨_, rfl, rfl, congrArg (fun a => Prog.ret (Response.listCredentials a)) ?_⟩
    simp [Paged.answered, Paged.readAt, pagesOf, nextToken, rowsOf, Credential.selectPage]

/-! ### Walks -/

section
variable {S₀ S S' : Handlers.System}

/-- What the ids this service writes need of the engine: the empty string is
before each. -/
def Opens : Prop := ∀ uuid : Uuid, weight "" < weight ("yadgar:credential:" ++ uuid.text)

/-- Every credential has an id this service has written. -/
def Written (σ : Store) : Prop :=
  ∀ row ∈ σ.credentials, ∃ uuid : Uuid, row.id = "yadgar:credential:" ++ uuid.text

theorem Written.later (written : Written S.store) (reachable : Reachable S) (later : Later S S') :
    Written S'.store := by
  refine Later.effects (P := fun σ σ' => Written σ → Written σ') later reachable (fun _ w => w)
    (fun _ _ _ first second w => second (first w)) (fun c k ef _ _ allowed written row member => ?_)
    written
  rcases credential_origin allowed member with ⟨old, stored, same⟩ | rfl
  · obtain ⟨uuid, id⟩ := written old stored
    exact ⟨uuid, same.id.trans id⟩
  · cases allowed with
    | mintCredential _ _ _ _ new =>
      subst new
      exact ⟨c.uuid, rfl⟩

theorem written_fresh : Written (fresh now).store := fun _ none => by cases none

theorem resolves_iff : Credential.resolves now σ row = true ↔ row.revokedAt = none ∧
    (∀ expiry, row.expiresAt = some expiry → now < expiry) ∧
      (σ.liveUser? row.userId).isSome := by
  unfold Credential.resolves
  cases row.expiresAt <;> simp [and_assoc]

/-- A person is live at one moment of a run exactly if at every later one. -/
theorem live_iff (reachable : Reachable S) (later : Later S S') (stored : row ∈ S.store.credentials) :
    (S'.store.liveUser? row.userId).isSome ↔ (S.store.liveUser? row.userId).isSome := by
  obtain ⟨u, found, _⟩ := reachable.inv.credentialOwner row stored
  obtain ⟨u', found', same⟩ := (later.evolves reachable).user? found
  simp only [Store.liveUser?, found, found', Option.isSome_filter, Option.any_some]
  rw [same.deletedAt]

/-- A row that is unrevoked at a moment was there, the same, since it was
minted. -/
theorem unrevoked_before (reachable : Reachable S₀) (first : Later S₀ S) (rest : Later S S')
    (minted : row₀ ∈ S₀.store.credentials) (same : row₀.key = row.key)
    (stored : row ∈ S'.store.credentials) (unrevoked : row.revokedAt = none) :
    row ∈ S.store.credentials := by
  obtain ⟨row₁, stored₁, key₁, _⟩ := (first.evolves reachable).credentials.mem minted
  obtain ⟨row₂, stored₂, key₂, later⟩ :=
    (rest.evolves (reachable.later first)).credentials.mem stored₁
  obtain rfl : row₂ = row := Table.eq_of_key stored₂ stored (key₂.trans (key₁.trans same))
  rw [later.live unrevoked]
  exact stored₁

/-- Every row a walk has listed is there, under its key. -/
theorem kept_rows (reachable : Reachable S₀) (reads : Reads (pagesOf userId) S₀ pages token S)
    (fine : ∀ read ∈ pages, Fine read.moment) :
    (pages.flatMap (·.rows)).map Credential.key ⊆
      (S.store.credentials.rows.filter fun c => weight c.userId = weight userId).map
        Credential.key := by
  intro key member
  obtain ⟨row, served, rfl⟩ := List.mem_map.mp member
  obtain ⟨read, on, listed⟩ := List.mem_flatMap.mp served
  obtain ⟨first, rest⟩ := reads.moments read on
  obtain ⟨before, ahead, rfl⟩ := List.append_of_mem on
  obtain ⟨stored, owner, _⟩ := (reads.shows (keyed userId) fine).2.1 row listed
  obtain ⟨row', stored', same, later⟩ :=
    (rest.evolves (reachable.later first)).credentials.mem stored
  refine List.mem_map.mpr ⟨row', List.mem_filter.mpr ⟨stored', ?_⟩, same⟩
  rw [later.userId]
  exact decide_eq_true owner

/-- What a walk lists: never more than 200 rows a page, in the order of their
ids and none twice; only rows unrevoked and of a live person when their page
was read, so that all of them resolve but the expired; and every row there was
at the start that stays unrevoked, or resolves when a page past its id is read.
A walk has at most one page more than the person has rows, and goes on until it
has ended. -/
theorem walk_lists (opens : Opens) (reachable : Reachable S₀) (written : Written S₀.store)
    (walk : Walk (pagesOf userId) S₀ pages token S) :
    ∃ reads : List (Read Schema.Credential), pages = reads.map (pagesOf userId).answered ∧
      (∀ read ∈ reads, Later S₀ read.moment ∧ Later read.moment S ∧ read.rows.length ≤ 200) ∧
      (reads.flatMap (·.rows)).Pairwise (fun a b => a.key < b.key) ∧
      (pages ≠ [] → token = "" → ∀ row ∈ S.store.credentials, weight row.userId = weight userId →
        (S₀.store.liveUser? row.userId).isSome → row.revokedAt = none →
        (∃ row₀ ∈ S₀.store.credentials, row₀.key = row.key) →
          (reads.flatMap (·.rows)).count row = 1) ∧
      (∀ read ∈ reads, ∀ row ∈ read.rows, row ∈ read.moment.store.credentials ∧
        weight row.userId = weight userId ∧ row.revokedAt = none ∧
        (read.moment.store.liveUser? row.userId).isSome ∧
        (Credential.resolves read.moment.clock read.moment.store row = true ↔
          ∀ expiry, row.expiresAt = some expiry → read.moment.clock < expiry)) ∧
      (∀ before read ahead, reads = before ++ read :: ahead →
        ∀ row ∈ read.moment.store.credentials, weight row.userId = weight userId →
        Credential.resolves read.moment.clock read.moment.store row = true →
        (∃ row₀ ∈ S₀.store.credentials, row₀.key = row.key) →
        read.next = "" ∨ row.key ≤ weight read.next →
          row ∈ (before ++ [read]).flatMap (·.rows)) ∧
      (∀ before read read' ahead, reads = before ++ read :: read' :: ahead → read'.next ≠ "" →
        weight read.next < weight read'.next) ∧
      pages.length ≤
        (S.store.credentials.rows.filter fun c => weight c.userId = weight userId).length + 1 ∧
      (pages = [] ∨ token ≠ "" → ∀ size, ∃ S', Walk (pagesOf userId) S₀
        (pages ++ [(pagesOf userId).answered ((pagesOf userId).readAt size token S)])
        ((pagesOf userId).readAt size token S).next S') := by
  obtain ⟨reads, steps, rfl⟩ := walk.reads reachable
  have fine : ∀ read ∈ reads, Fine read.moment := fun read on row stored => by
    obtain ⟨uuid, id⟩ := written.later reachable (steps.moments read on).1 row stored
    rw [Credential.key, id]
    exact opens uuid
  have ascending := steps.ascending (keyed userId) fine
  refine ⟨reads, rfl, fun read on => ?_, ascending, ?_, fun read on row listed => ?_, ?_, ?_, ?_, ?_⟩
  · obtain ⟨before, ahead, rfl⟩ := List.append_of_mem on
    exact ⟨(steps.moments read on).1, (steps.moments read on).2, (steps.shows (keyed userId) fine).1⟩
  · rintro some rfl row stored owner live unrevoked ⟨row₀, minted, same⟩
    have shown : ∀ read ∈ reads, Shown userId read.moment.store row := by
      intro read on
      obtain ⟨first, rest⟩ := steps.moments read on
      have there := unrevoked_before reachable .refl steps.later minted same stored unrevoked
      exact ⟨unrevoked_before reachable first rest minted same stored unrevoked, owner, unrevoked,
        (live_iff reachable first there).mpr live⟩
    rcases steps.covers (keyed userId) fine shown with listed | ⟨_, none | goes, _⟩
    · exact List.count_eq_one_of_mem (ascending.imp fun before => ne_of_apply_ne _ before.ne) listed
    · rw [none] at some
      exact absurd rfl some
    · exact absurd rfl goes
  · obtain ⟨before, ahead, rfl⟩ := List.append_of_mem on
    obtain ⟨stored, owner, unrevoked, live⟩ := (steps.shows (keyed userId) fine).2.1 row listed
    refine ⟨stored, owner, unrevoked, live, ?_⟩
    rw [resolves_iff]
    exact ⟨fun resolves => resolves.2.1, fun unexpired => ⟨unrevoked, unexpired, live⟩⟩
  · rintro before read ahead rfl row stored owner resolves ⟨row₀, minted, same⟩ passed
    obtain ⟨unrevoked, _, live⟩ := resolves_iff.mp resolves
    have shown : ∀ read' ∈ before ++ [read], Shown userId read'.moment.store row := by
      intro read' on
      obtain ⟨first, rest⟩ := steps.upto.moments read' on
      have there := unrevoked_before reachable first rest minted same stored unrevoked
      exact ⟨there, owner, unrevoked, (live_iff (reachable.later first) rest there).mp live⟩
    have fine' : ∀ read' ∈ before ++ [read], Fine read'.moment := fun read' on =>
      fine read' (by rw [List.append_cons]; exact List.mem_append_left _ on)
    rcases steps.upto.covers (keyed userId) fine' shown with listed | ⟨cursor, goes, standing, beyond⟩
    · exact listed
    · have going : read.next ≠ "" := goes.resolve_left (by simp)
      rcases standing with ⟨none, _⟩ | ⟨_, rfl⟩
      · exact absurd none going
      · exact absurd (WithBot.coe_lt_coe.mp beyond) (not_lt_of_ge (passed.resolve_left going))
  · rintro before read read' ahead rfl going
    rw [List.append_cons] at steps fine
    obtain ⟨row, on, standing⟩ := (steps.shows (keyed userId) fine).2.2 going
    obtain ⟨token', _, size, earlier, _, _, _, at_⟩ := steps.split
    obtain rfl := earlier.ends_with
    rw [at_] at on
    rcases standing with ⟨none, _⟩ | ⟨_, same⟩
    · exact absurd none going
    · exact WithBot.coe_injective same ▸ (shown_of_mem on).2
  · rw [List.length_map]
    refine Nat.le_trans (steps.length_le (keyed userId) fine) (Nat.succ_le_succ ?_)
    have distinct : ((reads.flatMap (·.rows)).map Credential.key).Nodup :=
      List.pairwise_map.mpr (ascending.imp fun before => before.ne)
    have bound := distinct.length_le_of_subset (kept_rows reachable steps fine)
    rwa [List.length_map, List.length_map] at bound
  · intro goes size
    obtain ⟨cursor, standing⟩ := steps.standing (keyed userId) fine (by simpa using goes)
    exact walk.goes_on goes (keyed userId) standing size

end

end

/-- Two pages of one row are asked for. -/
def listing (tokens : List String) : List (Action Call) :=
  crediting ++ (tokens.zipIdx 2).flatMap fun (token, i) =>
    calling firstUuid (.listCredentials ⟨personId, 1, token⟩) i 1

open Bytewise in
theorem opens_bytewise : Opens := fun uuid => by
  show "" < "yadgar:credential:" ++ uuid.text
  rw [String.lt_iff_toList_lt, String.toList_append]
  exact List.Lex.nil

open Bytewise in
theorem walk_lists_once : ∃ reads : List (Read Schema.Credential), reads.length = 2 ∧
    ∀ row ∈ (after (listing ["", credentialId])).store.credentials.rows,
      (reads.flatMap (·.rows)).count row = 1 := by
  obtain ⟨_, there⟩ : ∃ ℓ, (after (listing [""])).sessions[2]? =
      some ⟨⟨some iamCaller, firstUuid, .listCredentials ⟨personId, 1, ""⟩⟩, ℓ,
        .answered (.ok (.listCredentials
          ⟨[⟨credentialId, personId, "laptop", some 0, none⟩], credentialId⟩))⟩ :=
    told_eq_some (by decide +kernel)
  obtain ⟨_, there'⟩ : ∃ ℓ, (after (listing ["", credentialId])).sessions[3]? =
      some ⟨⟨some iamCaller, firstUuid, .listCredentials ⟨personId, 1, credentialId⟩⟩, ℓ,
        .answered (.ok (.listCredentials ⟨[], ""⟩))⟩ := told_eq_some (by decide +kernel)
  have begun : Walk (pagesOf personId) (after crediting) [] "" (after crediting) := .start
  have one : Later (after crediting) (after (listing [""])) := later_after (by decide +kernel)
  have two : Later (after (listing [""])) (after (listing ["", credentialId])) :=
    later_after (by decide +kernel)
  have first := begun.page (Or.inl rfl) one (by decide +kernel) rfl there
  have second := first.page (Or.inr (by decide)) two (by decide +kernel) rfl there'
  obtain ⟨reads, pages, _, _, listed, _⟩ := walk_lists opens_bytewise (reachable_after _)
    (written_fresh.later (reachable_fresh 0) (later_fresh (by decide +kernel))) second
  have rows : ∀ row ∈ (after (listing ["", credentialId])).store.credentials.rows,
      row.userId = personId ∧ row.revokedAt = none ∧ row ∈ (after crediting).store.credentials.rows ∧
        ((after crediting).store.liveUser? personId).isSome := by decide +kernel
  refine ⟨reads, ?_, fun row stored => ?_⟩
  · rw [← List.length_map, ← pages]
    rfl
  · obtain ⟨owner, unrevoked, minted, live⟩ := rows row stored
    refine listed (List.append_ne_nil_of_right_ne_nil _ (List.cons_ne_nil _ _)) rfl row stored
      (congrArg weight owner) ?_ unrevoked ⟨row, minted, rfl⟩
    rw [owner]
    exact live

end IamDb.Listing
