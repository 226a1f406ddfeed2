import IamDb.Runs
import IamDb.Txn.Keyset

/-! Walks over the pages of a verb. Each page is one read, at a moment of the
run of its own, and is asked for after the one before it was answered, from the
token it ended with; whatever else is called may come in between. -/
namespace IamDb.Paging
open Txn Schema Messages Service Interference Handlers Runs

section
variable [Engine]

/-- A verb that answers in pages: how a page of a size is asked for from a
token, the rows it has in a store, the token it ends with, and its answer. -/
structure Paged (α ρ : Type) where
  asks : Int → String → Request
  rows : Int → String → Store → List ρ
  next : Int → List ρ → String
  answer : List ρ → String → α
  token : α → String
  wrap : α → Response
  token_answer : ∀ rows next, token (answer rows next) = next
  told : ∀ c size token, c.request = asks size token → ∀ σ t, wp Others (fun _ => True) (service c)
    (fun result _ σ' _ => ∀ a, result = .ok (wrap a) →
      a = answer (rows size token σ') (next size (rows size token σ'))) .fresh σ t

/-- The token of the last row of a full page, or none. -/
def nextToken (tokenOf : ρ → String) (size : Int) (rows : List ρ) : String :=
  if rows.length = pageSize size then ((rows.getLast?).map tokenOf).getD "" else ""

/-- A page: when it was read, its rows, and the token it ended with. -/
structure Read (ρ : Type) where
  moment : Handlers.System
  rows : List ρ
  next : String

/-- What a page is when it is read at a moment. -/
def Paged.readAt (v : Paged α ρ) (size : Int) (token : String) (T : Handlers.System) : Read ρ :=
  ⟨T, v.rows size token T.store, v.next size (v.rows size token T.store)⟩

/-- A page as it is answered. -/
def Paged.answered (v : Paged α ρ) (read : Read ρ) : α := v.answer read.rows read.next

/-- A walk: the pages answered so far, and the token the last one ended with. -/
inductive Walk (v : Paged α ρ) (S₀ : Handlers.System) :
    List α → String → Handlers.System → Prop where
  | start : Walk v S₀ [] "" S₀
  | page {i : Nat} (before : Walk v S₀ pages token S) (goes : pages = [] ∨ token ≠ "")
    (later : Later S S') (unasked : S.sessions[i]? = none) (request : c.request = v.asks size token)
    (answered : S'.sessions[i]? = some ⟨c, ℓ, .answered (.ok (v.wrap a))⟩) :
    Walk v S₀ (pages ++ [a]) (v.token a) S'

/-- The same, with the moment each page was read at. -/
inductive Reads (v : Paged α ρ) (S₀ : Handlers.System) :
    List (Read ρ) → String → Handlers.System → Prop where
  | start : Reads v S₀ [] "" S₀
  | page (before : Reads v S₀ reads token S) (goes : reads = [] ∨ token ≠ "")
    (first : Later S T) (rest : Later T S') :
    Reads v S₀ (reads ++ [v.readAt size token T]) (v.readAt size token T).next S'

section
variable {v : Paged α ρ} {S₀ S : Handlers.System} {pages : List (Read ρ)} {read : Read ρ}
  {token : String}

theorem Reads.later (reads : Reads v S₀ pages token S) : Later S₀ S := by
  induction reads with
  | start => exact .refl
  | page _ _ first rest ih => exact ih.trans (first.trans rest)

/-- Every page of a walk was read at some moment after the one before. -/
theorem Walk.reads {pages : List α} (walk : Walk v S₀ pages token S) (reachable : Reachable S₀) :
    ∃ reads, Reads v S₀ reads token S ∧ pages = reads.map v.answered := by
  induction walk with
  | start => exact ⟨[], .start, rfl⟩
  | @page pages token S S' size c ℓ a i _ goes later unasked request answered ih =>
    obtain ⟨reads, before, rfl⟩ := ih
    obtain ⟨T, _, first, rest, _, post⟩ := (reachable.later before.later).answered_since later
      answered (by rw [unasked]; nofun) fun σ t _ => v.told c _ _ request σ t
    obtain rfl := post _ rfl
    rw [v.token_answer]
    refine ⟨_, .page before ?_ first rest, by simp [Paged.answered, Paged.readAt]⟩
    simpa using goes

/-- A walk up to one of its pages, and that page. -/
theorem Reads.split (reads : Reads v S₀ (before ++ read :: ahead) token S) :
    ∃ token' S₁ size, Reads v S₀ before token' S₁ ∧ (before = [] ∨ token' ≠ "") ∧
      Later S₁ read.moment ∧ Later read.moment S ∧ read = v.readAt size token' read.moment := by
  generalize whole : before ++ read :: ahead = pages at reads
  induction reads generalizing ahead with
  | start => cases List.append_ne_nil_of_right_ne_nil before (List.cons_ne_nil _ _) whole
  | @page pages token S T S' size earlier goes first rest ih =>
    rcases List.eq_nil_or_concat ahead with rfl | ⟨init, final, rfl⟩
    · obtain ⟨rfl, same⟩ := List.append_inj' whole rfl
      cases same
      exact ⟨token, S, size, earlier, goes, first, rest, rfl⟩
    · rw [List.concat_eq_append, ← List.cons_append, ← List.append_assoc] at whole
      obtain ⟨same, _⟩ := List.append_inj' whole rfl
      obtain ⟨token', S₁, size', one, goes', first', rest', at_⟩ := ih same
      exact ⟨token', S₁, size', one, goes', first', rest'.trans (first.trans rest), at_⟩

/-- A walk up to and with one of its pages, as it stood when that was read. -/
theorem Reads.upto (reads : Reads v S₀ (before ++ read :: ahead) token S) :
    Reads v S₀ (before ++ [read]) read.next read.moment := by
  obtain ⟨token', S₁, size, earlier, goes, first, _, at_⟩ := reads.split
  rw [at_]
  exact .page earlier goes first .refl

theorem Reads.moments (reads : Reads v S₀ pages token S) :
    ∀ read ∈ pages, Later S₀ read.moment ∧ Later read.moment S := by
  intro read member
  obtain ⟨before, ahead, rfl⟩ := List.append_of_mem member
  obtain ⟨_, _, _, earlier, _, first, rest, _⟩ := reads.split
  exact ⟨earlier.later.trans first, rest⟩

theorem Reads.ends_with (reads : Reads v S₀ (before ++ [read]) token S) : token = read.next := by
  generalize whole : before ++ [read] = pages at reads
  cases reads with
  | start => cases List.append_ne_nil_of_right_ne_nil before (List.cons_ne_nil _ _) whole
  | page =>
    obtain ⟨_, same⟩ := List.append_inj' whole rfl
    cases same
    rfl

end

/-! ### Keyset walks -/

/-- The pages of a verb are keyset pages: of the rows `shown` in a store, from
the cursor a token `stands` for. -/
structure Keyed [LinearOrder κ] (v : Paged α ρ) (key : ρ → κ) (shown : Store → ρ → Prop)
    (stands : String → WithBot κ → Prop) (fine : Handlers.System → Prop) : Prop where
  start : stands "" ⊥
  bounded : ∀ size token σ, (v.rows size token σ).length ≤ 200
  page : ∀ T size token cursor, fine T → stands token cursor → ∃ next,
    Keyset.Page key (shown T.store) cursor (v.rows size token T.store) next ∧
      (∀ k : κ, next = some k → (v.readAt size token T).next ≠ "" ∧
        stands (v.readAt size token T).next k) ∧
      (next = none → (v.readAt size token T).next = "")
  answers : ∀ (T : Handlers.System) size token cursor, stands token cursor → ∃ m,
    (service ⟨some iamCaller, firstUuid, v.asks size token⟩).move T.clock T.store .fresh = some m ∧
      m.claims = [] ∧ m.next = .ret (v.wrap (v.answered (v.readAt size token T)))

omit [Engine] in
/-- The first of all rows shown past a cursor, in order, are a keyset page, and
its token stands for its last row. -/
theorem page_of_rows [LinearOrder κ] {key : ρ → κ} {shown : ρ → Prop} {cursor : WithBot κ}
    {stands : String → WithBot κ → Prop} {tokenOf : ρ → String} {rows all : List ρ}
    (first : rows = all.take (pageSize size)) (ascending : all.Pairwise fun a b => key a < key b)
    (listed : ∀ row, row ∈ all ↔ shown row ∧ cursor < key row)
    (tokens : ∀ row, shown row → tokenOf row ≠ "" ∧ stands (tokenOf row) (key row)) :
    ∃ next, Keyset.Page key shown cursor rows next ∧
      (∀ k : κ, next = some k → nextToken tokenOf size rows ≠ "" ∧
        stands (nextToken tokenOf size rows) k) ∧
      (next = none → nextToken tokenOf size rows = "") := by
  have positive : 0 < pageSize size := pageSize_pos
  have page := Keyset.page_take ascending listed positive
  rw [← first] at page
  refine ⟨_, page, fun k ends => ?_, fun ends => ?_⟩
  · split at ends
    · rename_i full
      obtain ⟨row, last, rfl⟩ := Option.map_eq_some_iff.mp ends
      rw [nextToken, if_pos full, last]
      exact tokens row (page.shows row (List.mem_of_getLast? last)).1
    · cases ends
  · split at ends
    · rename_i full
      rw [nextToken, if_pos full, Option.map_eq_none_iff.mp ends]
      rfl
    · rename_i short
      rw [nextToken, if_neg short]

section
variable [LinearOrder κ] {v : Paged α ρ} {key : ρ → κ} {shown : Store → ρ → Prop}
  {stands : String → WithBot κ → Prop} {fine : Handlers.System → Prop} {S₀ S : Handlers.System}
  {pages : List (Read ρ)} {read : Read ρ} {token : String}

/-- A walk of the service is a keyset walk over the rows shown. -/
theorem Reads.walk (reads : Reads v S₀ pages token S) (keyed : Keyed v key shown stands fine)
    (all : ∀ read ∈ pages, fine read.moment) :
    ∃ rest, Keyset.Walk key (pages.map fun read => (shown read.moment.store, read.rows)) rest ∧
      (∀ cursor, rest = some cursor → (pages = [] ∨ token ≠ "") ∧ stands token cursor) ∧
      (rest = none → pages ≠ [] ∧ token = "") := by
  induction reads with
  | start =>
    refine ⟨some ⊥, .start, fun cursor same => ⟨Or.inl rfl, ?_⟩, nofun⟩
    cases same
    exact keyed.start
  | @page pages token S T S' size before goes first rest ih =>
    obtain ⟨going, walk, stops, ended⟩ := ih fun read member =>
      all read (List.mem_append_left _ member)
    cases going with
    | none =>
      obtain ⟨some, none⟩ := ended rfl
      exact absurd goes (not_or.mpr ⟨some, not_not.mpr none⟩)
    | some cursor =>
      obtain ⟨next, page, more, last⟩ := keyed.page T size token cursor
        (all _ List.mem_concat_self) (stops cursor rfl).2
      refine ⟨next.map WithBot.some, ?_, fun cursor' same => ?_, fun none => ⟨by simp, last ?_⟩⟩
      · have walked := walk.page page
        simpa [Paged.readAt] using walked
      · obtain ⟨k, ends, rfl⟩ := Option.map_eq_some_iff.mp same
        exact ⟨Or.inr (more k ends).1, (more k ends).2⟩
      · exact Option.map_eq_none_iff.mp none

/-- Where a walk that has not ended goes on from. -/
theorem Reads.standing (reads : Reads v S₀ pages token S) (keyed : Keyed v key shown stands fine)
    (all : ∀ read ∈ pages, fine read.moment) (goes : pages = [] ∨ token ≠ "") :
    ∃ cursor, stands token cursor := by
  obtain ⟨going, _, stops, ended⟩ := reads.walk keyed all
  cases going with
  | none =>
    obtain ⟨some, none⟩ := ended rfl
    exact absurd goes (not_or.mpr ⟨some, not_not.mpr none⟩)
  | some cursor => exact ⟨cursor, (stops cursor rfl).2⟩

/-- A walk lists its rows in the order of their keys, none twice. -/
theorem Reads.ascending (reads : Reads v S₀ pages token S) (keyed : Keyed v key shown stands fine)
    (all : ∀ read ∈ pages, fine read.moment) :
    (pages.flatMap (·.rows)).Pairwise fun a b => key a < key b := by
  obtain ⟨_, walk, _⟩ := reads.walk keyed all
  simpa [Keyset.served, List.flatMap_map] using walk.ascending

/-- What has been shown at every page so far has been listed, or lies ahead. -/
theorem Reads.covers (reads : Reads v S₀ pages token S) (keyed : Keyed v key shown stands fine)
    (all : ∀ read ∈ pages, fine read.moment)
    (always : ∀ read ∈ pages, shown read.moment.store row) :
    row ∈ pages.flatMap (·.rows) ∨
      ∃ cursor, (pages = [] ∨ token ≠ "") ∧ stands token cursor ∧ cursor < (key row : WithBot κ) := by
  obtain ⟨rest, walk, goes, _⟩ := reads.walk keyed all
  have seen : ∀ page ∈ pages.map fun read => (shown read.moment.store, read.rows), page.1 row := by
    rintro _ member
    obtain ⟨read, on, rfl⟩ := List.mem_map.mp member
    exact always read on
  rcases walk.covers seen with served | ⟨cursor, same, ahead⟩
  · refine Or.inl ?_
    simpa [Keyset.served, List.flatMap_map] using served
  · exact Or.inr ⟨cursor, (goes cursor same).1, (goes cursor same).2, ahead⟩

/-- A page shows what it lists, past what the walk had listed. -/
theorem Reads.shows (reads : Reads v S₀ (before ++ read :: ahead) token S)
    (keyed : Keyed v key shown stands fine)
    (all : ∀ read' ∈ before ++ read :: ahead, fine read'.moment) :
    read.rows.length ≤ 200 ∧ (∀ row ∈ read.rows, shown read.moment.store row) ∧
      (read.next ≠ "" → ∃ row ∈ read.rows, stands read.next (key row)) := by
  obtain ⟨token', S₁, size, earlier, goes, _, _, at_⟩ := reads.split
  obtain ⟨cursor, standing⟩ := earlier.standing keyed
    (fun read' member => all read' (List.mem_append_left _ member)) goes
  obtain ⟨next, page, more, last⟩ := keyed.page read.moment size token' cursor
    (all _ (List.mem_append_right _ List.mem_cons_self)) standing
  rw [at_]
  refine ⟨keyed.bounded _ _ _, fun row on => (page.shows row on).1, fun goes => ?_⟩
  cases ends : next with
  | none => exact absurd (last ends) goes
  | some k =>
    obtain ⟨⟨row, on, rfl⟩, _⟩ := page.last k ends
    exact ⟨row, on, (more _ ends).2⟩

/-- A walk has at most one page more than it has listed rows. -/
theorem Reads.length_le (reads : Reads v S₀ pages token S) (keyed : Keyed v key shown stands fine)
    (all : ∀ read ∈ pages, fine read.moment) :
    pages.length ≤ (pages.flatMap (·.rows)).length + 1 := by
  obtain ⟨_, walk, _⟩ := reads.walk keyed all
  have bound := walk.length_le
  rw [List.length_map] at bound
  simpa [Keyset.served, List.flatMap_map] using bound

/-- Every walk that has not ended can go on, with a page of any size. -/
theorem Walk.goes_on {pages : List α} (walk : Walk v S₀ pages token S)
    (goes : pages = [] ∨ token ≠ "") (keyed : Keyed v key shown stands fine)
    (standing : stands token cursor) (size : Int) : ∃ S', Walk v S₀
      (pages ++ [v.answered (v.readAt size token S)]) (v.readAt size token S).next S' := by
  let c : Call := ⟨some iamCaller, firstUuid, v.asks size token⟩
  let asked : Handlers.System :=
    { S with sessions := S.sessions ++ [.reached c .fresh (service c)] }
  have arrives : S.step service (.call c) = some asked := rfl
  obtain ⟨m, moves, claims, next⟩ := keyed.answers S size token cursor standing
  have running : Session.reached c .fresh (service c) = ⟨c, .fresh, .running (service c)⟩ := by
    cases shape : service c with
    | ret | fail =>
      rw [shape] at moves
      cases moves
    | _ => rfl
  have here : asked.sessions[S.sessions.length]? = some ⟨c, .fresh, .running (service c)⟩ := by
    rw [List.getElem?_concat_length, running]
  have free : asked.free S.sessions.length m.claims = true := by
    rw [claims, System.free_iff]
    simp
  have answers : asked.step service (.run S.sessions.length) =
      some (asked.moved S.sessions.length c m (.reached c m.loc m.next)) := by
    simp only [System.step, System.advance, here]
    rw [show asked.clock = S.clock from rfl, show asked.store = S.store from rfl, moves]
    simp only [free, if_true, id]
  have answered : (asked.moved S.sessions.length c m (.reached c m.loc m.next)).sessions[
      S.sessions.length]? = some ⟨c, m.loc.closed, .answered (.ok (v.wrap
        (v.answered (v.readAt size token S))))⟩ := by
    rw [System.moved, List.getElem?_set_self (by simp [asked]), next]
    rfl
  have walked := walk.page goes (.step (.step .refl arrives trivial) answers trivial)
    (List.getElem?_eq_none (Nat.le_refl _)) rfl answered
  rw [Paged.answered, v.token_answer] at walked
  exact ⟨_, walked⟩

end

end

end IamDb.Paging
