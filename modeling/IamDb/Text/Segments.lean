import Mathlib.Data.List.Basic

/-! Segments joined by slashes. A segment is escaped so that it holds no slash of
its own: `%` first and `/` second, so that reading the joined text back finds
every segment whole. -/
namespace Text

/-- Every occurrence of a character, replaced. -/
def replace (c : Char) (new s : String) : String :=
  String.ofList (s.toList.flatMap fun x => if x = c then new.toList else [x])

/-- What stands between the slashes. -/
def segments (s : String) : List String := (s.toList.splitOn '/').map String.ofList

def slashes (s : String) : Nat := s.toList.count '/'

def escape (s : String) : String := replace '/' "%2F" (replace '%' "%25" s)

def unescapeChars : List Char → List Char
  | '%' :: '2' :: 'F' :: rest => '/' :: unescapeChars rest
  | '%' :: '2' :: '5' :: rest => '%' :: unescapeChars rest
  | c :: rest => c :: unescapeChars rest
  | [] => []

/-- `%2F` back to `/` and `%25` back to `%`. -/
def unescape (s : String) : String := String.ofList (unescapeChars s.toList)

/-- A text no escape touches. -/
def Bare (s : String) : Prop := ∀ c ∈ s.toList, c ≠ '/' ∧ c ≠ '%'

instance (s : String) : Decidable (Bare s) :=
  decidable_of_iff (s.toList.all fun c => decide (c ≠ '/' ∧ c ≠ '%')) (by simp [Bare])

def escapeChar (c : Char) : List Char :=
  if c = '%' then ['%', '2', '5'] else if c = '/' then ['%', '2', 'F'] else [c]

/-- The two replacements are one, because the first writes no slash. -/
theorem toList_escape (s : String) : (escape s).toList = s.toList.flatMap escapeChar := by
  simp only [escape, replace, String.toList_ofList, List.flatMap_assoc]
  refine List.flatMap_congr fun c _ => ?_
  by_cases percent : c = '%'
  · subst percent
    decide
  · by_cases slash : c = '/'
    · subst slash
      decide
    · simp [escapeChar, percent, slash]

theorem unescapeChars_escapeChar (c : Char) (rest : List Char) :
    unescapeChars (escapeChar c ++ rest) = c :: unescapeChars rest := by
  by_cases percent : c = '%'
  · subst percent
    rfl
  · by_cases slash : c = '/'
    · subst slash
      rfl
    · simp only [escapeChar, percent, slash, if_false, List.singleton_append]
      rw [unescapeChars]
      · rintro _ same
        exact absurd same percent
      · rintro _ same
        exact absurd same percent

/-- Undoing the escape gives the text back. -/
@[simp] theorem unescape_escape (s : String) : unescape (escape s) = s := by
  have back : ∀ l : List Char, unescapeChars (l.flatMap escapeChar) = l := fun l => by
    induction l with
    | nil => rfl
    | cons c rest ih => rw [List.flatMap_cons, unescapeChars_escapeChar, ih]
  rw [unescape, toList_escape, back, String.ofList_toList]

theorem escape_bare (bare : Bare s) : escape s = s := by
  have same : s.toList.flatMap escapeChar = s.toList.flatMap fun c => [c] :=
    List.flatMap_congr fun c member => by simp [escapeChar, (bare c member).1, (bare c member).2]
  rw [← String.toList_inj, toList_escape, same, List.flatMap_singleton']

theorem unescape_bare (bare : Bare s) : unescape s = s := by
  rw [← escape_bare bare, unescape_escape, escape_bare bare]

theorem slash_escape (s : String) : '/' ∉ (escape s).toList := by
  rw [toList_escape, List.mem_flatMap]
  rintro ⟨c, _, there⟩
  unfold escapeChar at there
  split at there
  · simp at there
  · split at there
    · simp at there
    · rename_i other
      exact other (List.mem_singleton.mp there).symm

theorem bare_append (left : Bare s) (right : Bare s') : Bare (s ++ s') := by
  intro c member
  rw [String.toList_append, List.mem_append] at member
  exact member.elim (left c) (right c)

theorem slash_bare (bare : Bare s) : '/' ∉ s.toList := fun there => (bare _ there).1 rfl

theorem segments_closed (closed : '/' ∉ s.toList) : segments s = [s] := by
  rw [segments, List.splitOn_eq_singleton closed, List.map_singleton, String.ofList_toList]

/-- A slash ends a segment wherever it stands. -/
theorem segments_slash (s s' : String) : segments (s ++ "/" ++ s') = segments s ++ segments s' := by
  have shape : (s ++ "/" ++ s').toList = s.toList ++ '/' :: s'.toList := by
    simp [String.toList_append]
  rw [segments, shape, List.splitOn_append_cons_self, List.map_append, segments, segments]

theorem length_segments (s : String) : (segments s).length = slashes s + 1 := by
  rw [segments, List.length_map, slashes]
  induction s.toList with
  | nil => rfl
  | cons c rest ih =>
    rw [List.splitOn_cons_eq_if_modifyHead, List.count_cons]
    split
    · rw [List.length_cons, ih]
    · rw [List.length_modifyHead, ih]

end Text
