import Mathlib.Data.List.Sort
import Mathlib.Order.WithBot

/-! Keyset paging. A page holds the first rows past a cursor in the order of
their keys; a full page ends with the next cursor, and any other ends the walk.
The rows shown may be others at every page: what is shown at each of them is
served once, in order, and nothing twice. -/
namespace Txn.Keyset

section
variable {ρ κ : Type} [LinearOrder κ]

/-- A page of the rows shown past a cursor, and the cursor it ends with, if it
is not the last. -/
structure Page (key : ρ → κ) (shown : ρ → Prop) (cursor : WithBot κ) (rows : List ρ)
    (next : Option κ) : Prop where
  ascending : rows.Pairwise fun a b => key a < key b
  shows : ∀ r ∈ rows, shown r ∧ cursor < key r
  covers : ∀ r, shown r → cursor < key r → r ∈ rows ∨ ∃ k, next = some k ∧ k < key r
  last : ∀ k, next = some k → (∃ r ∈ rows, key r = k) ∧ ∀ r ∈ rows, key r ≤ k

/-- The pages of a walk, each with what was shown then, and where the walk goes
on from, if it does. -/
inductive Walk (key : ρ → κ) : List ((ρ → Prop) × List ρ) → Option (WithBot κ) → Prop where
  | start : Walk key [] (some ⊥)
  | page {shown : ρ → Prop} (before : Walk key pages (some cursor))
    (page : Page key shown cursor rows next) :
    Walk key (pages ++ [(shown, rows)]) (next.map WithBot.some)

section
variable {key : ρ → κ} {shown : ρ → Prop} {cursor : WithBot κ} {rows : List ρ} {next : Option κ}

/-- Rows with distinct keys ascend strictly once they are sorted. -/
theorem insertionSort_ascending (distinct : (rows.map key).Nodup) :
    (rows.insertionSort fun a b => key a ≤ key b).Pairwise fun a b => key a < key b := by
  have sorted := List.pairwise_insertionSort (fun a b => key a ≤ key b) rows
  have apart : (rows.insertionSort fun a b => key a ≤ key b).Pairwise fun a b => key a ≠ key b := by
    rw [← List.pairwise_map]
    exact ((List.perm_insertionSort _ rows).map key).nodup_iff.mpr distinct
  exact (sorted.and apart).imp fun both => lt_of_le_of_ne both.1 both.2

/-- The first rows of all those shown past the cursor, in order, are a page. -/
theorem page_take {size : Nat} (ascending : rows.Pairwise fun a b => key a < key b)
    (listed : ∀ r, r ∈ rows ↔ shown r ∧ cursor < key r) (positive : 0 < size) :
    Page key shown cursor (rows.take size)
      (if (rows.take size).length = size then (rows.take size).getLast?.map key else none) := by
  have parts := List.take_append_drop size rows
  refine ⟨ascending.sublist (List.take_sublist size rows),
    fun r member => (listed r).mp (List.mem_of_mem_take member), fun r shows past => ?_,
    fun k next => ?_⟩
  · have member := (listed r).mpr ⟨shows, past⟩
    rw [← parts] at member
    rcases List.mem_append.mp member with first | rest
    · exact Or.inl first
    · -- A row beyond the page: the page is full, and ends before it.
      have full : (rows.take size).length = size := by
        have beyond := List.length_pos_of_mem rest
        rw [List.length_drop] at beyond
        rw [List.length_take]
        omega
      have nonempty : rows.take size ≠ [] := List.ne_nil_of_length_pos (full.symm ▸ positive)
      refine Or.inr ⟨key ((rows.take size).getLast nonempty), ?_, ?_⟩
      · rw [if_pos full, List.getLast?_eq_some_getLast nonempty, Option.map_some]
      · rw [← parts] at ascending
        exact (List.pairwise_append.mp ascending).2.2 _ (List.getLast_mem nonempty) r rest
  · split at next
    · obtain ⟨r, final, rfl⟩ := Option.map_eq_some_iff.mp next
      obtain ⟨init, split⟩ := List.getLast?_eq_some_iff.mp final
      have sorted := ascending.sublist (List.take_sublist size rows)
      rw [split] at sorted ⊢
      refine ⟨⟨r, List.mem_concat_self, rfl⟩, fun r' member => ?_⟩
      rcases List.mem_append.mp member with before | same
      · exact le_of_lt ((List.pairwise_append.mp sorted).2.2 r' before r List.mem_cons_self)
      · rw [List.mem_singleton.mp same]
    · cases next

/-- All rows a walk has served. -/
def served (pages : List ((ρ → Prop) × List ρ)) : List ρ := pages.flatMap (·.2)

omit [LinearOrder κ] in
theorem served_concat {pages : List ((ρ → Prop) × List ρ)} :
    served (pages ++ [(shown, rows)]) = served pages ++ rows := by
  simp [served]

section
variable {pages : List ((ρ → Prop) × List ρ)} {rest : Option (WithBot κ)}

/-- Nothing served lies past the cursor. -/
theorem Walk.served_le (walk : Walk key pages (some cursor)) :
    ∀ r ∈ served pages, (key r : WithBot κ) ≤ cursor := by
  generalize goes : some cursor = rest at walk
  induction walk generalizing cursor with
  | start => simp [served]
  | @page pages _ rows next _ before page ih =>
    intro r member
    obtain ⟨k, ends, rfl⟩ := Option.map_eq_some_iff.mp goes.symm
    obtain ⟨⟨r', on, rfl⟩, bounded⟩ := page.last k ends
    rw [served_concat] at member
    rcases List.mem_append.mp member with earlier | new
    · exact le_of_lt (lt_of_le_of_lt (ih rfl r earlier) (page.shows r' on).2)
    · exact WithBot.coe_le_coe.mpr (bounded r new)

/-- A walk serves its rows in the order of their keys, none twice. -/
theorem Walk.ascending (walk : Walk key pages rest) :
    (served pages).Pairwise fun a b => key a < key b := by
  induction walk with
  | start => exact .nil
  | @page pages cursor rows _ _ before page ih =>
    rw [served_concat]
    refine List.pairwise_append.mpr ⟨ih, page.ascending, fun a earlier b new => ?_⟩
    exact WithBot.coe_lt_coe.mp (lt_of_le_of_lt (before.served_le a earlier) (page.shows b new).2)

/-- What every page so far showed has been served, or lies ahead. -/
theorem Walk.covers (walk : Walk key pages rest) (always : ∀ page ∈ pages, page.1 r) :
    r ∈ served pages ∨ ∃ cursor, rest = some cursor ∧ cursor < key r := by
  induction walk with
  | start => exact Or.inr ⟨⊥, rfl, WithBot.bot_lt_coe _⟩
  | @page pages cursor rows next shown before page ih =>
    rw [served_concat]
    rcases ih fun page member => always page (List.mem_append_left _ member) with
      old | ⟨_, ⟨⟩, past⟩
    · exact Or.inl (List.mem_append_left _ old)
    · rcases page.covers r (always _ List.mem_concat_self) past with new | ⟨k, ends, ahead⟩
      · exact Or.inl (List.mem_append_right _ new)
      · exact Or.inr ⟨k, by rw [ends]; rfl, WithBot.coe_lt_coe.mpr ahead⟩

/-- Every page that is not the last has served something. -/
theorem Walk.length_le_served (walk : Walk key pages (some cursor)) :
    pages.length ≤ (served pages).length := by
  generalize goes : some cursor = rest at walk
  induction walk generalizing cursor with
  | start => exact Nat.zero_le _
  | @page pages _ rows next _ before page ih =>
    obtain ⟨k, ends, _⟩ := Option.map_eq_some_iff.mp goes.symm
    obtain ⟨⟨r, on, _⟩, _⟩ := page.last k ends
    have earlier := ih rfl
    have new := List.length_pos_of_mem on
    rw [served_concat, List.length_append, List.length_append, List.length_singleton]
    omega

theorem Walk.length_le (walk : Walk key pages rest) :
    pages.length ≤ (served pages).length + 1 := by
  cases walk with
  | start => exact Nat.zero_le _
  | page before =>
    have earlier := before.length_le_served
    rw [served_concat, List.length_append, List.length_append, List.length_singleton]
    omega

end

end

end

end Txn.Keyset
