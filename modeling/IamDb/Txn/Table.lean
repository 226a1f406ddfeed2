import Mathlib.Data.List.Find
import Mathlib.Data.List.Nodup

/-! Tables of a relational store. A table holds its rows under a primary key
and no value of the type holds two rows with one key, so the uniqueness the
engine enforces never has to be proved again of a table that was written. -/
namespace Txn

/-- Rows stored under a primary key. -/
structure Table {ρ κ : Type} (key : ρ → κ) where
  /-- The rows, in the order they were first inserted. -/
  rows : List ρ
  /-- No two rows share a primary key. -/
  distinct : (rows.map key).Nodup

namespace Table

variable {ρ κ : Type} {key : ρ → κ}

instance : Membership ρ (Table key) := ⟨fun t r => r ∈ t.rows⟩

instance [DecidableEq ρ] (t : Table key) (r : ρ) : Decidable (r ∈ t) :=
  inferInstanceAs (Decidable (r ∈ t.rows))

theorem mem_def {t : Table key} : r ∈ t ↔ r ∈ t.rows := Iff.rfl

theorem ext_rows {t t' : Table key} (same : t.rows = t'.rows) : t = t' := by
  cases t; cases t'; cases same; rfl

instance [DecidableEq ρ] : DecidableEq (Table key) := fun t t' =>
  decidable_of_iff (t.rows = t'.rows) ⟨ext_rows, fun h => h ▸ rfl⟩

/-- A table with no rows. -/
def empty : Table key := ⟨[], List.nodup_nil⟩

@[simp] theorem empty_rows : (empty : Table key).rows = [] := rfl

@[simp] theorem not_mem_empty : r ∉ (empty : Table key) := List.not_mem_nil

/-- Two rows of one table with one key are one row. -/
theorem eq_of_key {t : Table key} (left : r ∈ t) (right : r' ∈ t) (same : key r = key r') :
    r = r' :=
  List.inj_on_of_nodup_map t.distinct left right same

/-- The keys of the rows a predicate selects are distinct. -/
theorem filter_distinct (t : Table key) (p : ρ → Bool) : ((t.rows.filter p).map key).Nodup :=
  t.distinct.sublist (List.filter_sublist.map key)

variable [DecidableEq κ]

/-- The row stored under a key. -/
def find? (t : Table key) (k : κ) : Option ρ := t.rows.find? (fun r => key r = k)

theorem find?_eq_some {t : Table key} : t.find? k = some r ↔ r ∈ t ∧ key r = k := by
  constructor
  · intro found
    exact ⟨List.mem_of_find?_eq_some found, by simpa using List.find?_some found⟩
  · rintro ⟨member, rfl⟩
    cases found : t.find? (key r) with
    | none =>
      have absent := List.find?_eq_none.mp found r member
      simp at absent
    | some other =>
      have same : key other = key r := by simpa using List.find?_some found
      rw [eq_of_key (List.mem_of_find?_eq_some found) member same]

theorem find?_eq_none {t : Table key} : t.find? k = none ↔ ∀ r ∈ t, key r ≠ k := by
  simp [find?, mem_def]

theorem find?_of_mem {t : Table key} (member : r ∈ t) : t.find? (key r) = some r :=
  find?_eq_some.mpr ⟨member, rfl⟩

theorem find?_isSome {t : Table key} : (t.find? k).isSome ↔ ∃ r ∈ t, key r = k := by
  simp [find?, mem_def]

/-- Tables with the same rows find the same row under every key. -/
theorem find?_congr {t t' : Table key} (same : ∀ r, r ∈ t ↔ r ∈ t') (k : κ) :
    t.find? k = t'.find? k := by
  apply Option.ext
  intro r
  simp only [find?_eq_some, same]

/-- Store a row under its key, in place of the row already there. -/
def put (t : Table key) (r : ρ) : Table key where
  rows := if t.rows.any (fun x => key x = key r) then
      t.rows.map (fun x => if key x = key r then r else x)
    else t.rows ++ [r]
  distinct := by
    split
    · have keys : (t.rows.map (fun x => if key x = key r then r else x)).map key = t.rows.map key := by
        rw [List.map_map]
        apply List.map_congr_left
        intro x _
        by_cases same : key x = key r <;> simp [same]
      rw [keys]
      exact t.distinct
    · rename_i fresh
      simp only [List.any_eq_true, decide_eq_true_eq, not_exists, not_and] at fresh
      simp only [List.map_append, List.map_cons, List.map_nil]
      refine List.nodup_append.mpr ⟨t.distinct, by simp, ?_⟩
      intro k stored k' new
      simp only [List.mem_singleton] at new
      obtain ⟨x, member, rfl⟩ := List.mem_map.mp stored
      rw [new]
      exact fresh x member

theorem mem_put {t : Table key} : x ∈ t.put r ↔ x = r ∨ x ∈ t ∧ key x ≠ key r := by
  simp only [mem_def, put]
  split
  · rename_i present
    simp only [List.any_eq_true, decide_eq_true_eq] at present
    simp only [List.mem_map]
    constructor
    · rintro ⟨y, member, rfl⟩
      by_cases same : key y = key r
      · simp [same]
      · simp [same, member]
    · rintro (rfl | ⟨member, other⟩)
      · obtain ⟨y, member, same⟩ := present
        exact ⟨y, member, by simp [same]⟩
      · exact ⟨x, member, by simp [other]⟩
  · rename_i fresh
    simp only [List.any_eq_true, decide_eq_true_eq, not_exists, not_and] at fresh
    simp only [List.mem_append, List.mem_singleton]
    constructor
    · rintro (member | rfl)
      · exact Or.inr ⟨member, fresh x member⟩
      · exact Or.inl rfl
    · rintro (rfl | ⟨member, _⟩)
      · exact Or.inr rfl
      · exact Or.inl member

theorem mem_put_self {t : Table key} : r ∈ t.put r := mem_put.mpr (Or.inl rfl)

/-- A row under another key is untouched. -/
theorem mem_put_of_ne {t : Table key} (other : key x ≠ key r) : x ∈ t.put r ↔ x ∈ t := by
  rw [mem_put]
  constructor
  · rintro (rfl | ⟨member, _⟩)
    · exact absurd rfl other
    · exact member
  · exact fun member => Or.inr ⟨member, other⟩

@[simp] theorem find?_put_self {t : Table key} : (t.put r).find? (key r) = some r :=
  find?_of_mem mem_put_self

theorem find?_put_ne {t : Table key} (other : k ≠ key r) : (t.put r).find? k = t.find? k := by
  apply Option.ext
  intro x
  simp only [find?_eq_some]
  constructor
  · rintro ⟨member, rfl⟩
    exact ⟨(mem_put_of_ne other).mp member, rfl⟩
  · rintro ⟨member, rfl⟩
    exact ⟨(mem_put_of_ne other).mpr member, rfl⟩

/-- The row that a key finds after a write is the written one or the old one. -/
theorem find?_put {t : Table key} :
    (t.put r).find? k = if k = key r then some r else t.find? k := by
  split
  · rename_i same
    rw [same, find?_put_self]
  · rename_i other
    exact find?_put_ne other

/-- Storing a row that is there changes nothing. -/
theorem put_of_mem {t : Table key} (member : r ∈ t) : t.put r = t := by
  have present : t.rows.any (fun x => key x = key r) = true :=
    List.any_eq_true.mpr ⟨r, member, by simp⟩
  apply ext_rows
  simp only [put, present, if_true]
  conv_rhs => rw [← List.map_id t.rows]
  apply List.map_congr_left
  intro x stored
  by_cases same : key x = key r
  · simp [eq_of_key stored member same]
  · simp [same]

/-- Store several rows, the last one under a key winning. -/
def putAll (t : Table key) : List ρ → Table key
  | [] => t
  | r :: rest => (t.put r).putAll rest

@[simp] theorem putAll_nil {t : Table key} : t.putAll [] = t := rfl

@[simp] theorem putAll_cons {t : Table key} : t.putAll (r :: rest) = (t.put r).putAll rest := rfl

/-- Writing rows under distinct keys stores exactly them beside the rows under other keys. -/
theorem mem_putAll {t : Table key} (distinct : (rs.map key).Nodup) :
    x ∈ t.putAll rs ↔ x ∈ rs ∨ x ∈ t ∧ key x ∉ rs.map key := by
  induction rs generalizing t with
  | nil => simp
  | cons r rs ih =>
    simp only [List.map_cons, List.nodup_cons] at distinct
    rw [putAll_cons, ih distinct.2, mem_put]
    simp only [List.mem_cons, List.map_cons, not_or]
    constructor
    · rintro (member | ⟨rfl | ⟨member, other⟩, absent⟩)
      · exact Or.inl (Or.inr member)
      · exact Or.inl (Or.inl rfl)
      · exact Or.inr ⟨member, other, absent⟩
    · rintro ((rfl | member) | ⟨member, other, absent⟩)
      · exact Or.inr ⟨Or.inl rfl, distinct.1⟩
      · exact Or.inl member
      · exact Or.inr ⟨Or.inr ⟨member, other⟩, absent⟩

/-- Change every row a predicate selects; a change that would move a row to
another key is not made. -/
def update (t : Table key) (p : ρ → Bool) (f : ρ → ρ) : Table key where
  rows := t.rows.map (fun r => if p r ∧ key (f r) = key r then f r else r)
  distinct := by
    have keys : (t.rows.map (fun r => if p r ∧ key (f r) = key r then f r else r)).map key =
        t.rows.map key := by
      rw [List.map_map]
      apply List.map_congr_left
      intro r _
      by_cases changed : p r ∧ key (f r) = key r
      · simp [changed]
      · simp only [Function.comp_apply, if_neg changed]
    rw [keys]
    exact t.distinct

theorem mem_update {t : Table key} (kept : ∀ r, key (f r) = key r) :
    x ∈ t.update p f ↔ ∃ r ∈ t, x = if p r then f r else r := by
  simp only [mem_def, update, List.mem_map, kept, and_true]
  exact exists_congr fun r => and_congr Iff.rfl eq_comm

/-- An update whose rows it would not update again has none of them left. -/
theorem of_mem_update {t : Table key} (kept : ∀ r, key (f r) = key r)
    (spent : ∀ r, p (f r) = false) (member : r ∈ t.update p f) : p r = false := by
  obtain ⟨r', _, rfl⟩ := (mem_update kept).mp member
  by_cases selected : p r' = true
  · rw [if_pos selected]
    exact spent r'
  · rw [if_neg selected]
    exact Bool.eq_false_iff.mpr selected

/-- An update that matches no row. -/
theorem update_eq_self {t : Table key} (unmatched : ∀ r ∈ t, p r = false) : t.update p f = t := by
  apply ext_rows
  refine (List.map_congr_left fun r stored => ?_).trans (List.map_id _)
  rw [if_neg (by simp [unmatched r stored])]
  rfl

theorem find?_update {t : Table key} (kept : ∀ r, key (f r) = key r) :
    (t.update p f).find? k = (t.find? k).map (fun r => if p r then f r else r) := by
  cases found : t.find? k with
  | none =>
    rw [Option.map_none, find?_eq_none]
    rw [find?_eq_none] at found
    intro x member same
    obtain ⟨r, stored, rfl⟩ := (mem_update kept).mp member
    refine found r stored ?_
    by_cases changed : p r
    · simpa [changed, kept] using same
    · simpa [changed] using same
  | some r =>
    rw [find?_eq_some] at found
    refine find?_eq_some.mpr ⟨(mem_update kept).mpr ⟨r, found.1, rfl⟩, ?_⟩
    by_cases changed : p r
    · simpa [changed, kept] using found.2
    · simpa [changed] using found.2

private theorem putAll_rows {t : Table key} (present : ∀ r ∈ rs, ∃ x ∈ t, key x = key r)
    (distinct : (rs.map key).Nodup) :
    (t.putAll rs).rows = t.rows.map (fun x => (rs.find? (fun r => key r = key x)).getD x) := by
  induction rs generalizing t with
  | nil => simp
  | cons r rs ih =>
    simp only [List.map_cons, List.nodup_cons] at distinct
    have here : t.rows.any (fun x => key x = key r) = true := by
      obtain ⟨x, member, same⟩ := present r List.mem_cons_self
      exact List.any_eq_true.mpr ⟨x, member, by simpa using same⟩
    have rest : ∀ r' ∈ rs, ∃ x ∈ t.put r, key x = key r' := by
      intro r' member
      obtain ⟨x, stored, same⟩ := present r' (List.mem_cons_of_mem _ member)
      by_cases other : key x = key r
      · exact ⟨r, mem_put_self, by rw [← other, same]⟩
      · exact ⟨x, (mem_put_of_ne other).mpr stored, same⟩
    rw [putAll_cons, ih rest distinct.2]
    simp only [put, here, if_true, List.map_map]
    apply List.map_congr_left
    intro x _
    by_cases same : key r = key x
    · have gone : rs.find? (fun r' => key r' = key r) = none := by
        simp only [List.find?_eq_none, decide_eq_true_eq]
        intro r' member other
        exact distinct.1 (List.mem_map.mpr ⟨r', member, other⟩)
      simp [same, same ▸ gone]
    · simp [same, Ne.symm same]

/-- Writing back the rows a predicate selects, each changed in place, is the
update of the table by that predicate: what an `UPDATE` statement computed
from the rows it matched is still the update of the rows that match now. -/
theorem putAll_eq_update {t : Table key} {rs : List ρ} (kept : ∀ r, key (f r) = key r)
    (matched : ∀ r, r ∈ rs ↔ r ∈ t ∧ p r = true) (distinct : (rs.map key).Nodup) :
    t.putAll (rs.map f) = t.update p f := by
  have keys : (rs.map f).map key = rs.map key := by
    rw [List.map_map]
    exact List.map_congr_left fun r _ => kept r
  apply ext_rows
  rw [putAll_rows (by
    intro r member
    obtain ⟨x, stored, rfl⟩ := List.mem_map.mp member
    exact ⟨x, ((matched x).mp stored).1, (kept x).symm⟩) (by rw [keys]; exact distinct)]
  simp only [update, kept, and_true]
  apply List.map_congr_left
  intro x member
  by_cases selected : p x = true
  · have listed : x ∈ rs := (matched x).mpr ⟨member, selected⟩
    have found : (rs.map f).find? (fun r => key r = key x) = some (f x) := by
      have table := find?_of_mem (t := (⟨rs.map f, by rw [keys]; exact distinct⟩ : Table key))
        (List.mem_map.mpr ⟨x, listed, rfl⟩)
      rw [kept] at table
      exact table
    simp [found, selected]
  · have missing : (rs.map f).find? (fun r => key r = key x) = none := by
      simp only [List.find?_eq_none, decide_eq_true_eq]
      intro r changed same
      obtain ⟨y, listed, rfl⟩ := List.mem_map.mp changed
      rw [kept] at same
      obtain ⟨stored, holds⟩ := (matched y).mp listed
      rw [eq_of_key stored member same] at holds
      exact selected holds
    simp [missing, selected]

/-- Remove the row under a key. -/
def erase (t : Table key) (k : κ) : Table key where
  rows := t.rows.filter (fun x => key x ≠ k)
  distinct := t.distinct.sublist (List.filter_sublist.map key)

theorem mem_erase {t : Table key} : x ∈ t.erase k ↔ x ∈ t ∧ key x ≠ k := by
  simp [erase, mem_def]

/-- A key no row is under is no row to remove. -/
theorem erase_of_absent {t : Table key} (absent : t.find? k = none) : t.erase k = t := by
  refine ext_rows (List.filter_eq_self.mpr fun x member => ?_)
  simpa using find?_eq_none.mp absent x member

theorem find?_erase {t : Table key} :
    (t.erase k).find? k' = if k' = k then none else t.find? k' := by
  split
  · rename_i same
    rw [find?_eq_none]
    intro r member other
    exact (mem_erase.mp member).2 (other.trans same)
  · rename_i other
    apply Option.ext
    intro r
    simp only [find?_eq_some, mem_erase]
    constructor
    · rintro ⟨⟨member, _⟩, same⟩
      exact ⟨member, same⟩
    · rintro ⟨member, rfl⟩
      exact ⟨⟨member, other⟩, rfl⟩

/-- Remove the rows under several keys. -/
def eraseAll (t : Table key) : List κ → Table key
  | [] => t
  | k :: rest => (t.erase k).eraseAll rest

theorem mem_eraseAll {t : Table key} : x ∈ t.eraseAll ks ↔ x ∈ t ∧ key x ∉ ks := by
  induction ks generalizing t with
  | nil => simp [eraseAll]
  | cons k ks ih =>
    rw [eraseAll, ih, mem_erase]
    simp only [List.mem_cons, not_or, and_assoc]

theorem find?_eraseAll {t : Table key} (kept : k ∉ ks) :
    (t.eraseAll ks).find? k = t.find? k := by
  induction ks generalizing t with
  | nil => rfl
  | cons k' ks ih =>
    simp only [List.mem_cons, not_or] at kept
    obtain ⟨other, kept⟩ := kept
    rw [eraseAll, ih kept, find?_erase, if_neg other]

/-! ### Rows a predicate selects -/

private theorem filter_map_still {l : List ρ} {p : ρ → Bool} {g : ρ → ρ}
    (same : ∀ x ∈ l, p (g x) = p x) (still : ∀ x ∈ l, p x = true → g x = x) :
    (l.map g).filter p = l.filter p := by
  have meets : ∀ x ∈ l, (p ∘ g) x = p x := same
  rw [List.filter_map, List.filter_congr meets]
  refine (List.map_congr_left fun x selected => ?_).trans (List.map_id _)
  obtain ⟨member, holds⟩ := List.mem_filter.mp selected
  exact still x member holds

/-- Storing a row no selected row has the key of leaves the selection alone. -/
theorem filter_put {t : Table key} {p : ρ → Bool} (off : p r = false)
    (old : ∀ x ∈ t, key x = key r → p x = false) :
    (t.put r).rows.filter p = t.rows.filter p := by
  simp only [put]
  split
  · refine filter_map_still (fun x member => ?_) fun x member holds => if_neg fun here => ?_
    · split
      · rename_i here
        rw [off, old x member here]
      · rfl
    · rw [old x member here] at holds
      cases holds
  · simp [off]

theorem filter_update {t : Table key} {p q : ρ → Bool}
    (off : ∀ x ∈ t, q x = true → p x = false ∧ p (f x) = false) :
    (t.update q f).rows.filter p = t.rows.filter p := by
  refine filter_map_still (fun x member => ?_) fun x member holds => if_neg fun chosen => ?_
  · split
    · rename_i chosen
      rw [(off x member chosen.1).1, (off x member chosen.1).2]
    · rfl
  · rw [(off x member chosen.1).1] at holds
    cases holds

theorem filter_erase {t : Table key} {p : ρ → Bool} (old : ∀ x ∈ t, key x = k → p x = false) :
    (t.erase k).rows.filter p = t.rows.filter p := by
  simp only [erase, List.filter_filter]
  refine List.filter_congr fun x member => ?_
  by_cases here : key x = k
  · simp [old x member here]
  · simp [here]

theorem filter_putAll {t : Table key} {p : ρ → Bool}
    (off : ∀ r ∈ rs, ∀ x, key x = key r → p x = false) :
    (t.putAll rs).rows.filter p = t.rows.filter p := by
  induction rs generalizing t with
  | nil => rfl
  | cons r rs ih =>
    have here := off r List.mem_cons_self
    rw [putAll_cons, ih fun r' member => off r' (List.mem_cons_of_mem _ member)]
    exact filter_put (here r rfl) fun x _ => here x

theorem filter_eraseAll {t : Table key} {p : ρ → Bool}
    (off : ∀ k ∈ ks, ∀ x, key x = k → p x = false) :
    (t.eraseAll ks).rows.filter p = t.rows.filter p := by
  induction ks generalizing t with
  | nil => rfl
  | cons k ks ih =>
    rw [eraseAll, ih fun k' member => off k' (List.mem_cons_of_mem _ member)]
    exact filter_erase fun x _ => off k List.mem_cons_self x

private theorem find?_map_still {l : List ρ} {p : ρ → Bool} {g : ρ → ρ}
    (same : ∀ x ∈ l, p (g x) = p x) (found : l.find? p = some x) (still : g x = x) :
    (l.map g).find? p = some x := by
  have meets : ∀ x ∈ l, (p ∘ g) x = p x := same
  rw [List.find?_map, List.find?_congr meets, found, Option.map_some, still]

/-- The first row that meets a predicate stays the first when a row is stored
in the place of one that meets it or not as the new one does. -/
theorem rows_find_put {t : Table key} {p : ρ → Bool} (found : t.rows.find? p = some x)
    (other : key x ≠ key r) (same : ∀ y ∈ t, key y = key r → p y = p r) :
    (t.put r).rows.find? p = some x := by
  simp only [put]
  split
  · refine find?_map_still (fun y member => ?_) found (if_neg other)
    split
    · rename_i here
      exact (same y member here).symm
    · rfl
  · rw [List.find?_append, found, Option.some_or]

theorem rows_find_update {t : Table key} {p q : ρ → Bool} (found : t.rows.find? p = some x)
    (off : q x = false) (same : ∀ y, p (f y) = p y) : (t.update q f).rows.find? p = some x := by
  refine find?_map_still (fun y _ => ?_) found (if_neg (by simp [off]))
  split
  · exact same y
  · rfl

/-! ### Rows that stay -/

/-- Every row found under a key is found there later, as the relation says. -/
def Persists (later : ρ → ρ → Prop) (t t' : Table key) : Prop :=
  ∀ k r, t.find? k = some r → ∃ r', t'.find? k = some r' ∧ later r r'

section
variable {later : ρ → ρ → Prop} {t t' t'' : Table key}

theorem Persists.refl (same : ∀ r, later r r) : Persists later t t :=
  fun _ r found => ⟨r, found, same r⟩

theorem Persists.trans (compose : ∀ r r' r'', later r r' → later r' r'' → later r r'')
    (first : Persists later t t') (second : Persists later t' t'') : Persists later t t'' := by
  intro k r found
  obtain ⟨r', found', step⟩ := first k r found
  obtain ⟨r'', found'', step'⟩ := second k r' found'
  exact ⟨r'', found'', compose _ _ _ step step'⟩

/-- A new row leaves the others as they are. -/
theorem persists_put_new (same : ∀ r, later r r) (fresh : t.find? (key r) = none) :
    Persists later t (t.put r) := by
  intro k x found
  refine ⟨x, ?_, same x⟩
  rw [find?_put_ne ?_, found]
  rintro rfl
  rw [fresh] at found
  cases found

/-- A row replaced by what it may become. -/
theorem persists_put (same : ∀ r, later r r) (stored : r ∈ t) (kept : key r' = key r)
    (step : later r r') : Persists later t (t.put r') := by
  intro k x found
  rw [find?_put]
  split
  · rename_i here
    rw [here, kept, find?_of_mem stored] at found
    cases found
    exact ⟨r', rfl, step⟩
  · exact ⟨x, found, same x⟩

/-- Storing a row takes no key away. -/
theorem persists_put_any : Persists (fun _ _ => True) t (t.put r) := by
  intro k x found
  rw [find?_put]
  split
  · exact ⟨r, rfl, trivial⟩
  · exact ⟨x, found, trivial⟩

theorem persists_update (same : ∀ r, later r r) (kept : ∀ r, key (f r) = key r)
    (step : ∀ r, p r = true → later r (f r)) : Persists later t (t.update p f) := by
  intro k x found
  rw [find?_update kept, found]
  refine ⟨_, rfl, ?_⟩
  show later x (if p x = true then f x else x)
  split
  · rename_i selected
    exact step x selected
  · exact same x

/-- A row that is there is there later. -/
theorem Persists.mem (persists : Persists later t t') (member : r ∈ t) :
    ∃ r' ∈ t', key r' = key r ∧ later r r' := by
  obtain ⟨r', found, step⟩ := persists _ r (find?_of_mem member)
  obtain ⟨member', same⟩ := find?_eq_some.mp found
  exact ⟨r', member', same, step⟩

end

end Table

end Txn
