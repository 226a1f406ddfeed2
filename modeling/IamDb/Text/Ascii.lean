import Mathlib.Data.List.Basic

/-! Strings as the bytes of their UTF-8. A character is one byte exactly if it
is ASCII, and every byte of any other character is above the ASCII ones; so a
test of bytes that admits ASCII only is a test of characters. -/
namespace Text

def utf8 (s : String) : List UInt8 := s.toUTF8.data.toList

/-- Every character is ASCII. -/
def Ascii (s : String) : Prop := ∀ c ∈ s.toList, c.toNat < 128

theorem utf8_eq (s : String) : utf8 s = s.toList.flatMap String.utf8EncodeChar := by
  have whole : s.toUTF8 = (s.toList.flatMap String.utf8EncodeChar).toByteArray := by
    rw [String.toUTF8_eq_toByteArray, ← String.utf8Encode_toList]
    rfl
  rw [utf8, whole, List.data_toByteArray]

theorem encode_ascii {c : Char} (ascii : c.toNat < 128) :
    String.utf8EncodeChar c = [c.toUInt8] := by
  have small : c.val.toNat ≤ 127 := Nat.le_of_lt_succ ascii
  simp only [String.utf8EncodeChar, small, if_true]
  rfl

/-- What is not ASCII starts with a byte that is not. -/
theorem encode_other {c : Char} (other : 128 ≤ c.toNat) :
    ∃ b ∈ String.utf8EncodeChar c, 128 ≤ b.toNat := by
  have large : ¬c.val.toNat ≤ 127 := Nat.not_le.mpr other
  simp only [String.utf8EncodeChar, large, if_false]
  split
  · refine ⟨_, List.mem_cons_self, ?_⟩
    rw [UInt8.toNat_ofNat']
    omega
  · split
    · refine ⟨_, List.mem_cons_self, ?_⟩
      rw [UInt8.toNat_ofNat']
      omega
    · refine ⟨_, List.mem_cons_self, ?_⟩
      rw [UInt8.toNat_ofNat']
      omega

theorem toNat_toUInt8 {c : Char} (ascii : c.toNat < 128) : c.toUInt8.toNat = c.toNat := by
  show c.val.toNat % 256 = c.val.toNat
  exact Nat.mod_eq_of_lt (Nat.lt_of_lt_of_le ascii (by decide))

/-- The bytes of an ASCII string are its characters. -/
theorem utf8_of_ascii (ascii : Ascii s) : utf8 s = s.toList.map Char.toUInt8 := by
  rw [utf8_eq, List.map_eq_flatMap]
  exact List.flatMap_congr fun c member => encode_ascii (ascii c member)

theorem ascii_of_utf8 (bytes : ∀ b ∈ utf8 s, b.toNat < 128) : Ascii s := by
  intro c member
  by_contra other
  obtain ⟨b, encodes, large⟩ := encode_other (Nat.not_lt.mp other)
  refine Nat.not_lt.mpr large (bytes b ?_)
  rw [utf8_eq]
  exact List.mem_flatMap.mpr ⟨c, member, encodes⟩

/-- A test of every byte that only ASCII passes is one of every character. -/
theorem utf8_all {p : UInt8 → Bool} (small : ∀ b, p b = true → b.toNat < 128) :
    (utf8 s).all p = s.toList.all fun c => c.toNat < 128 && p c.toUInt8 := by
  rw [Bool.eq_iff_iff, List.all_eq_true, List.all_eq_true]
  constructor
  · intro bytes c member
    have ascii := ascii_of_utf8 fun b there => small b (bytes b there)
    rw [utf8_of_ascii ascii] at bytes
    simp [ascii c member, bytes _ (List.mem_map_of_mem member)]
  · intro chars b there
    have ascii : Ascii s := fun c member => by
      have both := chars c member
      simp only [Bool.and_eq_true, decide_eq_true_eq] at both
      exact both.1
    rw [utf8_of_ascii ascii] at there
    obtain ⟨c, member, rfl⟩ := List.mem_map.mp there
    have both := chars c member
    simp only [Bool.and_eq_true] at both
    exact both.2

end Text
