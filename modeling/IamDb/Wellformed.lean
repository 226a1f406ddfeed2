import IamDb.Keys
import IamDb.Text.Ascii

/-! Which declarations are accepted. The checks run over the bytes of names and
ids; what they admit is a grammar of lower-case ASCII, so the ids a declaration
is stored under are distinct to the engine as they are to the service. -/
namespace IamDb.Wellformed
open Schema Messages Service Team Declaration Text

/-! ### The checks over bytes -/

def asciiLowercase (b : UInt8) : Bool := 97 ≤ b.toNat && b.toNat ≤ 122

def asciiDigit (b : UInt8) : Bool := 48 ≤ b.toNat && b.toNat ≤ 57

/-- A lower-case hexadecimal digit. -/
def hex (b : UInt8) : Bool := asciiDigit b || (97 ≤ b.toNat && b.toNat ≤ 102)

def hyphen : UInt8 := 45

/-- `nameOk`, over the bytes of the name. -/
def nameBytesOk (bytes : List UInt8) : Bool :=
  bytes.length ≤ 63 &&
    (match bytes with
      | b :: _ => asciiLowercase b
      | [] => false) &&
    bytes.all fun b => asciiLowercase b || asciiDigit b || b = hyphen

/-- What is to stand at a place of a uuid. -/
def shaped (b : UInt8) (i : Nat) : Bool := if i ∈ [8, 13, 18, 23] then b = hyphen else hex b

/-- `canonicalUuid`, over bytes. -/
def uuidBytesOk (bytes : List UInt8) : Bool :=
  bytes.length = 36 && (bytes.zipIdx.all fun (b, i) => shaped b i) &&
    bytes[14]? = some 55 &&
    (match bytes[19]? with
      | some b => b ∈ [56, 57, 97, 98]
      | none => false)

/-- `canonicalUserId`, over the bytes of the id. -/
def userIdBytesOk (bytes : List UInt8) : Bool :=
  (utf8 userPrefix).isPrefixOf bytes && uuidBytesOk (bytes.drop (utf8 userPrefix).length)

theorem isLower_byte {c : Char} (ascii : c.toNat < 128) : asciiLowercase c.toUInt8 = c.isLower := by
  rw [Bool.eq_iff_iff]
  simp only [asciiLowercase, isLower_iff, toNat_toUInt8 ascii, Bool.and_eq_true, decide_eq_true_eq,
    ge_iff_le, UInt32.le_iff_toNat_le]
  rfl

theorem isDigit_byte {c : Char} (ascii : c.toNat < 128) : asciiDigit c.toUInt8 = c.isDigit := by
  rw [Bool.eq_iff_iff]
  simp only [asciiDigit, Char.isDigit, toNat_toUInt8 ascii, Bool.and_eq_true, decide_eq_true_eq,
    ge_iff_le, UInt32.le_iff_toNat_le]
  rfl

theorem toUInt8_inj {c c' : Char} (ascii : c.toNat < 128) (ascii' : c'.toNat < 128) :
    c.toUInt8 = c'.toUInt8 ↔ c = c' := by
  rw [← UInt8.toNat_inj, toNat_toUInt8 ascii, toNat_toUInt8 ascii', Char.toNat_inj]

theorem hex_byte {c : Char} (ascii : c.toNat < 128) : hex c.toUInt8 = isLowerHex c := by
  rw [hex, isDigit_byte ascii, isLowerHex, toNat_toUInt8 ascii]
  rfl

theorem ascii_of_isLower {c : Char} (lower : c.isLower = true) : c.toNat < 128 := by
  exact Nat.lt_of_le_of_lt (isLower_iff.mp lower).2 (by decide)

theorem ascii_of_isDigit {c : Char} (digit : c.isDigit = true) : c.toNat < 128 := by
  simp only [Char.isDigit, Bool.and_eq_true, decide_eq_true_eq, UInt32.le_iff_toNat_le] at digit
  exact Nat.lt_of_le_of_lt digit.2 (by decide)

theorem small_of_name {b : UInt8}
    (admitted : (asciiLowercase b || asciiDigit b || decide (b = hyphen)) = true) :
    b.toNat < 128 := by
  simp only [asciiLowercase, asciiDigit, Bool.or_eq_true, Bool.and_eq_true,
    decide_eq_true_eq] at admitted
  rcases admitted with (lower | digit) | rfl
  · omega
  · omega
  · decide

theorem small_of_hex {b : UInt8} (admitted : hex b = true) : b.toNat < 128 := by
  simp only [hex, asciiDigit, Bool.or_eq_true, Bool.and_eq_true, decide_eq_true_eq] at admitted
  omega

theorem small_of_shaped {b : UInt8} (admitted : shaped b i = true) : b.toNat < 128 := by
  unfold shaped at admitted
  split at admitted
  · simp only [decide_eq_true_eq] at admitted
    subst admitted
    decide
  · exact small_of_hex admitted

theorem nameByte_char (c : Char) :
    (decide (c.toNat < 128) && (asciiLowercase c.toUInt8 || asciiDigit c.toUInt8 ||
      decide (c.toUInt8 = hyphen))) = (c.isLower || c.isDigit || decide (c = '-')) := by
  by_cases ascii : c.toNat < 128
  · have same : c.toUInt8 = hyphen ↔ c = '-' := toUInt8_inj ascii (by decide : '-'.toNat < 128)
    simp only [ascii, decide_true, Bool.true_and, isLower_byte ascii, isDigit_byte ascii, same]
  · have lower : c.isLower = false := Bool.eq_false_iff.mpr fun ok => ascii (ascii_of_isLower ok)
    have digit : c.isDigit = false := Bool.eq_false_iff.mpr fun ok => ascii (ascii_of_isDigit ok)
    have other : c ≠ '-' := by
      rintro rfl
      exact ascii (by decide)
    simp only [ascii, decide_false, Bool.false_and, lower, digit, other, Bool.or_false]

/-- The check of a name counts characters where the service counts bytes. -/
theorem nameOk_bytes (name : String) : nameOk name = nameBytesOk (utf8 name) := by
  have all : ((utf8 name).all fun b => asciiLowercase b || asciiDigit b || decide (b = hyphen)) =
      name.toList.all fun c => c.isLower || c.isDigit || decide (c = '-') :=
    (utf8_all fun _ => small_of_name).trans (List.all_congr rfl nameByte_char)
  unfold nameOk nameBytesOk
  rw [all]
  cases admitted : name.toList.all fun c => c.isLower || c.isDigit || decide (c = '-') with
  | false => rw [Bool.and_false, Bool.and_false]
  | true =>
    have ascii : Ascii name := fun c member => by
      have both := nameByte_char c
      rw [List.all_eq_true.mp admitted c member] at both
      simp only [Bool.and_eq_true, decide_eq_true_eq] at both
      exact both.1
    rw [utf8_of_ascii ascii, List.length_map]
    congr 2
    cases shape : name.toList with
    | nil => rfl
    | cons c rest => exact (isLower_byte (ascii c (by rw [shape]; exact List.mem_cons_self))).symm

theorem isPrefixOf_bytes {l l' : List Char} (ascii : ∀ c ∈ l, c.toNat < 128)
    (ascii' : ∀ c ∈ l', c.toNat < 128) :
    (l.map Char.toUInt8).isPrefixOf (l'.map Char.toUInt8) = l.isPrefixOf l' := by
  induction l generalizing l' with
  | nil => rfl
  | cons c l ih =>
    cases l' with
    | nil => rfl
    | cons c' l' =>
      obtain ⟨first, rest⟩ := List.forall_mem_cons.mp ascii
      obtain ⟨first', rest'⟩ := List.forall_mem_cons.mp ascii'
      have same : (c.toUInt8 == c'.toUInt8) = (c == c') := by
        rw [Bool.eq_iff_iff, beq_iff_eq, beq_iff_eq, toUInt8_inj first first']
      simp only [List.map_cons, List.isPrefixOf_cons_cons, same, ih rest rest']

theorem shaped_byte {c : Char} (ascii : c.toNat < 128) :
    shaped c.toUInt8 i = if i ∈ [8, 13, 18, 23] then decide (c = '-') else isLowerHex c := by
  have same : c.toUInt8 = hyphen ↔ c = '-' := toUInt8_inj ascii (by decide : '-'.toNat < 128)
  simp only [shaped, same, hex_byte ascii]

theorem shape_bytes {l : List Char} (ascii : ∀ c ∈ l, c.toNat < 128) :
    ((l.map Char.toUInt8).zipIdx.all fun (b, i) => shaped b i) =
      l.zipIdx.all fun (c, i) =>
        if i ∈ [8, 13, 18, 23] then decide (c = '-') else isLowerHex c := by
  rw [List.zipIdx_map, List.all_map, Bool.eq_iff_iff, List.all_eq_true, List.all_eq_true]
  refine forall₂_congr fun x member => ?_
  obtain ⟨c, i⟩ := x
  have there : c ∈ l := List.fst_mem_of_mem_zipIdx member
  show shaped c.toUInt8 i = true ↔ _
  rw [shaped_byte (ascii c there)]

theorem variant_bytes {l : List Char} (ascii : ∀ c ∈ l, c.toNat < 128) :
    (match l[19]? with
      | some c => decide (c ∈ ['8', '9', 'a', 'b'])
      | none => false) = match (l.map Char.toUInt8)[19]? with
      | some (b : UInt8) => decide (b ∈ [56, 57, 97, 98])
      | none => false := by
  rw [List.getElem?_map]
  cases place : l[19]? with
  | none => rfl
  | some c =>
    have ascii := ascii c (List.mem_of_getElem? place)
    have at8 : c.toUInt8 = 56 ↔ c = '8' := toUInt8_inj ascii (by decide : '8'.toNat < 128)
    have at9 : c.toUInt8 = 57 ↔ c = '9' := toUInt8_inj ascii (by decide : '9'.toNat < 128)
    have atA : c.toUInt8 = 97 ↔ c = 'a' := toUInt8_inj ascii (by decide : 'a'.toNat < 128)
    have atB : c.toUInt8 = 98 ↔ c = 'b' := toUInt8_inj ascii (by decide : 'b'.toNat < 128)
    simp [at8, at9, atA, atB]

theorem canonicalUuid_bytes {l : List Char} (ascii : ∀ c ∈ l, c.toNat < 128) :
    canonicalUuid l = uuidBytesOk (l.map Char.toUInt8) := by
  have version : decide (l[14]? = some '7') = decide ((l.map Char.toUInt8)[14]? = some 55) := by
    rw [List.getElem?_map, decide_eq_decide]
    cases place : l[14]? with
    | none => simp
    | some c =>
      rw [Option.map_some, Option.some.injEq, Option.some.injEq]
      exact (toUInt8_inj (ascii c (List.mem_of_getElem? place)) (by decide : '7'.toNat < 128)).symm
  unfold canonicalUuid uuidBytesOk
  rw [shape_bytes ascii, version, List.length_map]
  exact congrArg _ (variant_bytes ascii)

theorem ascii_userPrefix : Ascii userPrefix := by
  have all : userPrefix.toList.all fun c => c.toNat < 128 := by decide
  intro c member
  simpa using List.all_eq_true.mp all c member

theorem ascii_of_plain (plain : Plain s) : Ascii s := by
  intro c member
  rcases plain c member with lower | digit | rfl | rfl
  · exact ascii_of_isLower lower
  · exact ascii_of_isDigit digit
  · decide
  · decide

theorem small_of_uuid (ok : uuidBytesOk bytes = true) (member : b ∈ bytes) : b.toNat < 128 := by
  simp only [uuidBytesOk, Bool.and_eq_true, List.all_eq_true] at ok
  obtain ⟨i, here⟩ := List.mem_iff_getElem?.mp member
  exact small_of_shaped (ok.1.1.2 (b, i) (List.mem_zipIdx_iff_getElem?.mpr here))

theorem ascii_of_userIdBytes (ok : userIdBytesOk (utf8 s) = true) : Ascii s := by
  simp only [userIdBytesOk, Bool.and_eq_true, List.isPrefixOf_iff_prefix] at ok
  obtain ⟨⟨rest, shape⟩, uuid⟩ := ok
  rw [← shape, List.drop_left] at uuid
  refine ascii_of_utf8 fun b member => ?_
  rw [← shape, List.mem_append] at member
  rcases member with start | later
  · rw [utf8_of_ascii ascii_userPrefix] at start
    obtain ⟨c, there, rfl⟩ := List.mem_map.mp start
    rw [toNat_toUInt8 (ascii_userPrefix c there)]
    exact ascii_userPrefix c there
  · exact small_of_uuid uuid later

/-- The check of a user id is the check of its bytes. -/
theorem canonicalUserId_bytes (userId : String) :
    canonicalUserId userId = userIdBytesOk (utf8 userId) := by
  by_cases ascii : Ascii userId
  · unfold canonicalUserId userIdBytesOk
    rw [utf8_of_ascii ascii, utf8_of_ascii ascii_userPrefix, List.length_map,
      isPrefixOf_bytes ascii_userPrefix ascii, ← List.map_drop,
      canonicalUuid_bytes fun c member => ascii c (List.mem_of_mem_drop member)]
  · have chars : canonicalUserId userId = false := Bool.eq_false_iff.mpr fun ok =>
      ascii (ascii_of_plain (Membership.plain_of_canonical ok))
    have bytes : userIdBytesOk (utf8 userId) = false := Bool.eq_false_iff.mpr fun ok =>
      ascii (ascii_of_userIdBytes ok)
    rw [chars, bytes]

/-! ### The grammar -/

/-- `[a-z][a-z0-9-]{0,62}` -/
def NameGrammar (bytes : List UInt8) : Prop :=
  ∃ first rest, bytes = first :: rest ∧ asciiLowercase first = true ∧ rest.length ≤ 62 ∧
    ∀ b ∈ rest, asciiLowercase b = true ∨ asciiDigit b = true ∨ b = hyphen

/-- Lower-case hexadecimal in groups of 8, 4, 4, 4 and 12: the third starts with
the digit 7 and the fourth with 8, 9, a or b. -/
def UuidGrammar (bytes : List UInt8) : Prop :=
  ∃ time mid low variant seq node,
    bytes = time ++ hyphen :: (mid ++ hyphen :: (55 :: low ++ hyphen :: (variant :: seq ++
      hyphen :: node))) ∧
    time.length = 8 ∧ mid.length = 4 ∧ low.length = 3 ∧ seq.length = 3 ∧ node.length = 12 ∧
    variant ∈ [56, 57, 97, 98] ∧ ∀ b ∈ time ++ mid ++ low ++ seq ++ node, hex b = true

def UserIdGrammar (bytes : List UInt8) : Prop :=
  ∃ uuid, bytes = utf8 userPrefix ++ uuid ∧ UuidGrammar uuid

theorem nameBytesOk_iff : nameBytesOk bytes = true ↔ NameGrammar bytes := by
  simp only [nameBytesOk, NameGrammar, Bool.and_eq_true, decide_eq_true_eq, List.all_eq_true,
    Bool.or_eq_true, or_assoc]
  constructor
  · rintro ⟨⟨short, starts⟩, all⟩
    cases bytes with
    | nil => cases starts
    | cons first rest =>
      refine ⟨first, rest, rfl, starts, ?_, fun b member => all b (List.mem_cons_of_mem _ member)⟩
      rw [List.length_cons] at short
      omega
  · rintro ⟨first, rest, rfl, starts, short, all⟩
    refine ⟨⟨?_, starts⟩, fun b member => ?_⟩
    · rw [List.length_cons]
      omega
    · rcases List.mem_cons.mp member with rfl | later
      · exact Or.inl starts
      · exact all b later

/-- Away from the places of the dashes, every byte is a digit. -/
theorem all_shaped {group : List UInt8}
    (away : ∀ i, start ≤ i → i < start + group.length → i ∉ [8, 13, 18, 23]) :
    ((group.zipIdx start).all fun (b, i) => shaped b i) = group.all hex := by
  induction group generalizing start with
  | nil => rfl
  | cons b rest ih =>
    have here : start ∉ [8, 13, 18, 23] := away start (Nat.le_refl _) (by
      rw [List.length_cons]
      omega)
    have later := ih fun i (low : start + 1 ≤ i) high => away i (by omega) (by
      rw [List.length_cons]
      omega)
    have first : shaped b start = hex b := if_neg here
    simp only [List.zipIdx_cons, List.all_cons, later, first]

/-- A list of 36 is cut into groups at the places of the dashes. -/
theorem groups_of_length {bytes : List UInt8} (whole : bytes.length = 36) :
    ∃ time x mid y seven low z variant seq t node,
      bytes = time ++ x :: (mid ++ y :: (seven :: low ++ z :: (variant :: seq ++ t :: node))) ∧
      time.length = 8 ∧ mid.length = 4 ∧ low.length = 3 ∧ seq.length = 3 ∧ node.length = 12 := by
  have cut {l : List UInt8} (n : Nat) (long : n < l.length) :
      ∃ front b back, l = front ++ b :: back ∧ front.length = n ∧
        back.length + (n + 1) = l.length := by
    refine ⟨l.take n, l[n], l.drop (n + 1), ?_, ?_, ?_⟩
    · rw [List.getElem_cons_drop, List.take_append_drop]
    · rw [List.length_take]
      omega
    · rw [List.length_drop]
      omega
  obtain ⟨time, x, rest, rfl, time8, rest27⟩ := cut (l := bytes) 8 (by omega)
  obtain ⟨mid, y, rest, rfl, mid4, rest22⟩ := cut (l := rest) 4 (by omega)
  obtain ⟨third, z, rest, rfl, third4, rest17⟩ := cut (l := rest) 4 (by omega)
  obtain ⟨fourth, t, node, rfl, fourth4, node12⟩ := cut (l := rest) 4 (by omega)
  obtain ⟨seven, low, rfl⟩ := List.exists_cons_of_length_eq_add_one third4
  obtain ⟨variant, seq, rfl⟩ := List.exists_cons_of_length_eq_add_one fourth4
  rw [List.length_cons] at third4 fourth4
  exact ⟨time, x, mid, y, seven, low, z, variant, seq, t, node, rfl, time8, mid4, by omega,
    by omega, by omega⟩

theorem uuidBytesOk_groups {time mid low seq node : List UInt8} (time8 : time.length = 8)
    (mid4 : mid.length = 4) (low3 : low.length = 3) (seq3 : seq.length = 3)
    (node12 : node.length = 12) :
    uuidBytesOk (time ++ x :: (mid ++ y :: (seven :: low ++ z :: (variant :: seq ++ t :: node)))) =
        true ↔
      (x = hyphen ∧ y = hyphen ∧ z = hyphen ∧ t = hyphen) ∧ seven = 55 ∧
        variant ∈ [56, 57, 97, 98] ∧ ∀ b ∈ time ++ mid ++ low ++ seq ++ node, hex b = true := by
  have away (start : Nat) {n : Nat}
      (between : ∀ i, start ≤ i → i < start + n → i ≠ 8 ∧ i ≠ 13 ∧ i ≠ 18 ∧ i ≠ 23)
      {group : List UInt8} (whole : group.length = n) :
      ((group.zipIdx start).all fun (b, i) => shaped b i) = group.all hex :=
    all_shaped fun i low high => by simpa using between i low (whole ▸ high)
  have first := away 0 (by omega) time8
  have second := away 9 (by omega) mid4
  have third := away 15 (by omega) low3
  have fourth := away 20 (by omega) seq3
  have fifth := away 24 (by omega) node12
  have version :
      (time ++ x :: (mid ++ y :: (seven :: low ++ z :: (variant :: seq ++ t :: node))))[14]? =
        some seven := by simp [List.getElem?_append, time8, mid4]
  have kind :
      (time ++ x :: (mid ++ y :: (seven :: low ++ z :: (variant :: seq ++ t :: node))))[19]? =
        some variant := by simp [List.getElem?_append, time8, mid4, low3]
  have dash (i : Nat) (here : i ∈ [8, 13, 18, 23]) (b : UInt8) : shaped b i = decide (b = hyphen) :=
    if_pos here
  have digit (i : Nat) (here : i ∉ [8, 13, 18, 23]) (b : UInt8) : shaped b i = hex b := if_neg here
  have is_seven : hex 55 = true := by decide
  have is_variant : ∀ b ∈ ([56, 57, 97, 98] : List UInt8), hex b = true :=
    List.all_eq_true.mp (by decide)
  simp only [uuidBytesOk, version, kind, List.zipIdx_append, List.zipIdx_cons, List.all_append,
    List.all_cons, first, second, third, fourth, fifth, List.length_append, List.length_cons, time8,
    mid4, low3, seq3, node12, Nat.reduceAdd, dash 8 (by decide), dash 13 (by decide),
    dash 18 (by decide), dash 23 (by decide), digit 14 (by decide), digit 19 (by decide)]
  simp only [Bool.and_eq_true, decide_eq_true_eq, List.all_eq_true, List.mem_append, or_imp,
    forall_and, Option.some.injEq, decide_true, true_and]
  constructor
  · rintro ⟨⟨⟨all_time, rfl, all_mid, rfl, ⟨_, all_low⟩, rfl, ⟨_, all_seq⟩, rfl, all_node⟩, rfl⟩,
      among⟩
    exact ⟨⟨rfl, rfl, rfl, rfl⟩, rfl, among, ⟨⟨⟨⟨all_time, all_mid⟩, all_low⟩, all_seq⟩, all_node⟩⟩
  · rintro ⟨⟨rfl, rfl, rfl, rfl⟩, rfl, among, ⟨⟨⟨⟨all_time, all_mid⟩, all_low⟩, all_seq⟩, all_node⟩⟩
    exact ⟨⟨⟨all_time, rfl, all_mid, rfl, ⟨is_seven, all_low⟩, rfl,
      ⟨is_variant _ among, all_seq⟩, rfl, all_node⟩, rfl⟩, among⟩

theorem uuidBytesOk_iff : uuidBytesOk bytes = true ↔ UuidGrammar bytes := by
  constructor
  · intro ok
    have whole : bytes.length = 36 := by
      simp only [uuidBytesOk, Bool.and_eq_true, decide_eq_true_eq] at ok
      exact ok.1.1.1
    obtain ⟨time, x, mid, y, seven, low, z, variant, seq, t, node, rfl, time8, mid4, low3, seq3,
      node12⟩ := groups_of_length whole
    obtain ⟨⟨rfl, rfl, rfl, rfl⟩, rfl, among, digits⟩ :=
      (uuidBytesOk_groups time8 mid4 low3 seq3 node12).mp ok
    exact ⟨time, mid, low, variant, seq, node, rfl, time8, mid4, low3, seq3, node12, among, digits⟩
  · rintro ⟨time, mid, low, variant, seq, node, rfl, time8, mid4, low3, seq3, node12, among, digits⟩
    exact (uuidBytesOk_groups time8 mid4 low3 seq3 node12).mpr
      ⟨⟨rfl, rfl, rfl, rfl⟩, rfl, among, digits⟩

theorem userIdBytesOk_iff : userIdBytesOk bytes = true ↔ UserIdGrammar bytes := by
  simp only [userIdBytesOk, UserIdGrammar, Bool.and_eq_true, List.isPrefixOf_iff_prefix]
  constructor
  · rintro ⟨⟨uuid, rfl⟩, ok⟩
    rw [List.drop_left] at ok
    exact ⟨uuid, rfl, uuidBytesOk_iff.mp ok⟩
  · rintro ⟨uuid, rfl, grammar⟩
    rw [List.drop_left]
    exact ⟨⟨uuid, rfl⟩, uuidBytesOk_iff.mpr grammar⟩

theorem nameOk_iff {name : String} : nameOk name = true ↔ NameGrammar (utf8 name) := by
  rw [nameOk_bytes, nameBytesOk_iff]

theorem canonicalUserId_iff : canonicalUserId userId = true ↔ UserIdGrammar (utf8 userId) := by
  rw [canonicalUserId_bytes, userIdBytesOk_iff]

/-! ### What is accepted -/

/-- Names and ids of the grammar, no name twice, and no member twice in a team. -/
structure WellFormed (teams : List DeclaredTeam) : Prop where
  names : ∀ t ∈ teams, NameGrammar (utf8 t.name)
  distinct : (teams.map (·.name)).Nodup
  members : ∀ t ∈ teams, ∀ m ∈ t.memberUserIds, UserIdGrammar (utf8 m)
  once : ∀ t ∈ teams, t.memberUserIds.Nodup

/-- What a declared team is stored as. -/
def stored (t : DeclaredTeam) : Declared := ⟨teamPrefix ++ t.name, t.name, t.memberUserIds⟩

theorem validateMembers_iff : validateMembers team j seen ms = .ok () ↔
    (∀ m ∈ ms, canonicalUserId m = true ∧ m ∉ seen) ∧ ms.Nodup := by
  induction ms generalizing j seen with
  | nil => simp [validateMembers]
  | cons m rest ih =>
    rw [List.forall_mem_cons, List.nodup_cons, validateMembers]
    by_cases canonical : canonicalUserId m = true
    · by_cases before : m ∈ seen
      · simp [canonical, before]
      · simp only [canonical, before, Bool.not_true, Bool.false_eq_true, if_false, ih,
          List.mem_cons, not_or, not_false_eq_true, true_and]
        constructor
        · rintro ⟨each, once⟩
          exact ⟨fun n member => ⟨(each n member).1, (each n member).2.2⟩,
            fun again => (each m again).2.1 rfl, once⟩
        · rintro ⟨each, other, once⟩
          refine ⟨fun n member => ⟨(each n member).1, ?_, (each n member).2⟩, once⟩
          rintro rfl
          exact other member
    · simp [canonical]

private theorem ok_of_map {f : α → β} {r : Except ε α} (mapped : r.map f = .ok out) :
    ∃ a, r = .ok a ∧ out = f a := by
  cases r with
  | error e => cases mapped
  | ok a =>
    cases mapped
    exact ⟨a, rfl, rfl⟩

theorem validateFrom_iff : validateFrom i names teams = .ok out ↔
    ((∀ t ∈ teams, nameOk t.name = true ∧ t.name ∉ names ∧
      (∀ m ∈ t.memberUserIds, canonicalUserId m = true) ∧ t.memberUserIds.Nodup) ∧
    (teams.map (·.name)).Nodup) ∧ out = teams.map stored := by
  induction teams generalizing i names out with
  | nil =>
    rw [validateFrom, Except.ok.injEq]
    constructor
    · rintro rfl
      exact ⟨⟨List.forall_mem_nil _, List.nodup_nil⟩, rfl⟩
    · rintro ⟨_, rfl⟩
      rfl
  | cons t rest ih =>
    have listed : validateMembers t.name 0 [] t.memberUserIds = .ok () ↔
        (∀ m ∈ t.memberUserIds, canonicalUserId m = true) ∧ t.memberUserIds.Nodup := by
      rw [validateMembers_iff]
      simp
    rw [List.forall_mem_cons, List.map_cons, List.nodup_cons, List.map_cons, validateFrom]
    by_cases named : nameOk t.name = true
    · by_cases before : t.name ∈ names
      · simp [named, before]
      · rw [if_neg (by simp [named]), if_neg before, ← listed]
        cases members : validateMembers t.name 0 [] t.memberUserIds with
        | error e => simp
        | ok u =>
          constructor
          · intro valid
            obtain ⟨tail, accepted, rfl⟩ := ok_of_map valid
            obtain ⟨⟨each, distinct⟩, rfl⟩ := ih.mp accepted
            refine ⟨⟨⟨⟨named, before, rfl⟩, fun s member => ?_⟩, ?_, distinct⟩, rfl⟩
            · obtain ⟨ok, new, rest⟩ := each s member
              exact ⟨ok, fun was => new (List.mem_cons_of_mem _ was), rest⟩
            · intro again
              obtain ⟨s, member, same⟩ := List.mem_map.mp again
              exact (each s member).2.1 (same ▸ List.mem_cons_self)
          · rintro ⟨⟨⟨_, each⟩, new, distinct⟩, rfl⟩
            have accepted : validateFrom (i + 1) (t.name :: names) rest = .ok _ :=
              ih.mpr ⟨⟨fun s member => ?_, distinct⟩, rfl⟩
            · rw [accepted]
              rfl
            · obtain ⟨ok, other, rest⟩ := each s member
              refine ⟨ok, fun was => ?_, rest⟩
              rcases List.mem_cons.mp was with same | was
              · exact new (same ▸ List.mem_map_of_mem member)
              · exact other was
    · simp [named]

theorem validate_iff : validate teams = .ok out ↔ WellFormed teams ∧ out = teams.map stored := by
  rw [validate, validateFrom_iff]
  refine and_congr_left fun _ => ?_
  constructor
  · rintro ⟨each, distinct⟩
    exact ⟨fun t member => nameOk_iff.mp (each t member).1, distinct,
      fun t member m listed => canonicalUserId_iff.mp ((each t member).2.2.1 m listed),
      fun t member => (each t member).2.2.2⟩
  · rintro ⟨names, distinct, members, once⟩
    exact ⟨fun t member => ⟨nameOk_iff.mpr (names t member), List.not_mem_nil,
      fun m listed => canonicalUserId_iff.mpr (members t member m listed), once t member⟩, distinct⟩

theorem length_stored {name : String} (ok : nameOk name = true) :
    (teamPrefix ++ name).length ≤ 75 := by
  simp only [nameOk, Bool.and_eq_true, decide_eq_true_eq, String.length_toList] at ok
  have start : teamPrefix.length = 12 := by decide
  rw [String.length_append, start]
  omega

theorem length_canonical (canonical : canonicalUserId userId = true) : userId.length = 48 := by
  simp only [canonicalUserId, Bool.and_eq_true, List.isPrefixOf_iff_prefix] at canonical
  obtain ⟨⟨uuid, shape⟩, ok⟩ := canonical
  rw [← shape, List.drop_left] at ok
  simp only [canonicalUuid, Bool.and_eq_true, decide_eq_true_eq] at ok
  have start : userPrefix.toList.length = 12 := by decide
  rw [← String.length_toList, ← shape, List.length_append, start, ok.1.1.1]

/-- Ids of the service's own characters are as distinct to the engine as they
are to the service. -/
theorem nodup_weights [Engine] {ids : List String} (distinct : ids.Nodup)
    (plain : ∀ s ∈ ids, Plain s) : (ids.map weight).Nodup :=
  distinct.map_on fun a here b there => Engine.weight_plain a b (plain a here) (plain b there)

theorem plain_stored {name : String} (ok : nameOk name = true) : Plain (teamPrefix ++ name) :=
  plain_append plain_teamPrefix (plain_of_nameOk ok)

theorem nodup_stored {teams : List DeclaredTeam} (distinct : (teams.map (·.name)).Nodup) :
    ((teams.map stored).map (·.id)).Nodup := by
  rw [List.map_map]
  have appended : ((teams.map (·.name)).map fun name => teamPrefix ++ name).Nodup :=
    distinct.map fun a b same => String.toList_inj.mp (List.append_cancel_left (by
      simpa only [String.toList_append] using congrArg String.toList same))
  rwa [List.map_map] at appended

/-- A declaration is accepted exactly when it is well formed, and then it is kept
as it came: one entry a team, in order, under ids that fit their columns and
stay distinct where letter case and trailing spaces do not count. -/
theorem accepted_iff_well_formed (teams : List DeclaredTeam) :
    ((∃ out, validate teams = .ok out) ↔ WellFormed teams) ∧
      ∀ out, validate teams = .ok out →
        out = teams.map stored ∧ (out.map (·.id)).Nodup ∧
        (∀ d ∈ out, d.id.length ≤ 96 ∧ ∀ m ∈ d.members, m.length ≤ 96) ∧
        (out.map fun d => Folding.fold d.id).Nodup ∧
        ∀ d ∈ out, (d.members.map Folding.fold).Nodup := by
  refine ⟨⟨fun ⟨out, valid⟩ => (validate_iff.mp valid).1,
    fun formed => ⟨_, validate_iff.mpr ⟨formed, rfl⟩⟩⟩, fun out valid => ?_⟩
  obtain ⟨formed, rfl⟩ := validate_iff.mp valid
  have distinct := nodup_stored formed.distinct
  have named (d : Declared) (member : d ∈ teams.map stored) :
      nameOk d.name = true ∧ d.id = teamPrefix ++ d.name := by
    obtain ⟨t, there, rfl⟩ := List.mem_map.mp member
    exact ⟨nameOk_iff.mpr (formed.names t there), rfl⟩
  have listed (d : Declared) (member : d ∈ teams.map stored) :
      (∀ m ∈ d.members, canonicalUserId m = true) ∧ d.members.Nodup := by
    obtain ⟨t, there, rfl⟩ := List.mem_map.mp member
    exact ⟨fun m m_in => canonicalUserId_iff.mpr (formed.members t there m m_in),
      formed.once t there⟩
  refine ⟨rfl, distinct, fun d member => ⟨?_, fun m m_in => ?_⟩, ?_, fun d member => ?_⟩
  · rw [(named d member).2]
    exact Nat.le_trans (length_stored (named d member).1) (by decide)
  · have whole := length_canonical ((listed d member).1 m m_in)
    omega
  · have folded := @nodup_weights Folding.folding _ distinct fun s member => by
      obtain ⟨d, there, rfl⟩ := List.mem_map.mp member
      rw [(named d there).2]
      exact plain_stored (named d there).1
    rwa [List.map_map] at folded
  · exact @nodup_weights Folding.folding _ (listed d member).2 fun m m_in =>
      Membership.plain_of_canonical ((listed d member).1 m m_in)

end IamDb.Wellformed
