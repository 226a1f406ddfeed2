import IamDb.Membership
import IamDb.Text.Segments

/-! What the record of an administrative write calls its object: segments the
caller sent, capped and escaped, and words of the service's own, joined by
slashes. A target read back gives every segment it was rendered from, so
requests that differ are recorded under different targets. -/
namespace IamDb.Audit
open Messages Text

/-! ### Targets -/

section
variable (capped : String → String)

/-- One caller-supplied segment of a target. -/
def seg (s : String) : String := replace '/' "%2F" (replace '%' "%25" (capped s))

def kinds : List (Int × String) :=
  [(0, "KIND_UNSPECIFIED"), (1, "KIND_READ"), (2, "KIND_WRITE"), (3, "KIND_GENERATE"),
    (4, "KIND_JOB")]

def scopes : List (Int × String) :=
  [(0, "SETTING_SCOPE_UNSPECIFIED"), (1, "SETTING_SCOPE_ORG"), (2, "SETTING_SCOPE_TEAM")]

/-- The name of an enumeration's number, and the number itself where it has none. -/
def asStrName (names : List (Int × String)) (number : Int) : String :=
  ((names.find? fun e => e.1 = number).map (·.2)).getD (toString number)

/-- `{user_id}/{credential_id}` -/
def credentialTarget (r : CreateCredentialRequest) (uuid : Uuid) : String :=
  seg capped r.userId ++ "/" ++ ("yadgar:credential:" ++ uuid.text)

def setOrClear (r : SetRateLimitOverrideRequest) : String :=
  if r.limit.isSome then "set" else "clear"

/-- `{user_id}/{module}/{kind}/{set|clear}` -/
def rateLimitTarget (r : SetRateLimitOverrideRequest) : String :=
  seg capped r.userId ++ "/" ++ seg capped r.module ++ "/" ++ asStrName kinds r.kind ++ "/" ++
    setOrClear r

/-- `{team_id}/{user_id}` -/
def addMemberTarget (r : TeamMemberRequest) : String :=
  seg capped r.teamId ++ "/" ++ seg capped r.userId

/-- `{team_id}/{user_id}` -/
def removeMemberTarget (r : TeamMemberRequest) : String :=
  seg capped r.teamId ++ "/" ++ seg capped r.userId

/-- `{scope}/{team_id}/{name}` -/
def settingTarget (r : SetInheritedSettingRequest) : String :=
  asStrName scopes r.scope ++ "/" ++ seg capped (r.teamId.getD "") ++ "/" ++ seg capped r.name

end

/-! ### The service's own words -/

theorem bare_plain (plain : Schema.Plain s) : Bare s := by
  intro c member
  constructor
  · rintro rfl
    exact absurd (plain _ member) (by decide)
  · rintro rfl
    exact absurd (plain _ member) (by decide)

theorem bare_credentialId (uuid : Uuid) : Bare ("yadgar:credential:" ++ uuid.text) := by
  exact bare_append (by decide) (bare_plain fun c => Membership.plain_of_uuid uuid.canonical)

/-- A number is written in digits, with a sign at most. -/
theorem toString_digits (number : Int) (member : c ∈ (toString number).toList) :
    c.isDigit = true ∨ c = '-' := by
  rw [Int.toString_eq_repr, Int.repr_eq_if] at member
  split at member
  · rw [Nat.toList_repr] at member
    exact Or.inl (Nat.isDigit_of_mem_toDigits (by decide) (by decide) member)
  · rw [String.toList_append, List.mem_append, Nat.toList_repr] at member
    rcases member with sign | digit
    · exact Or.inr (List.mem_singleton.mp sign)
    · exact Or.inl (Nat.isDigit_of_mem_toDigits (by decide) (by decide) digit)

theorem repr_inj {n m : Nat} (same : n.repr = m.repr) : n = m := by
  have digits := congrArg String.toList same
  rw [Nat.toList_repr, Nat.toList_repr] at digits
  rw [← Nat.ofDigitChars_ten_toDigits (n := n), digits, Nat.ofDigitChars_ten_toDigits]

/-- A sign is no digit. -/
theorem signed_ne (n m : Nat) : "-" ++ n.repr ≠ m.repr := by
  intro same
  have sign : '-' ∈ m.repr.toList := by
    rw [← same, String.toList_append]
    exact List.mem_append_left _ (List.mem_singleton.mpr rfl)
  rw [Nat.toList_repr] at sign
  exact absurd (Nat.isDigit_of_mem_toDigits (by decide) (by decide) sign) (by decide)

theorem toString_inj {n m : Int} (same : toString n = toString m) : n = m := by
  rw [Int.toString_eq_repr, Int.toString_eq_repr, Int.repr_eq_if, Int.repr_eq_if] at same
  split at same
  · split at same
    · have := repr_inj same
      omega
    · exact absurd same.symm (signed_ne _ _)
  · split at same
    · exact absurd same (signed_ne _ _)
    · have := repr_inj (String.append_right_inj _ |>.mp same)
      omega

theorem bare_toString (number : Int) : Bare (toString number) := fun c member =>
  ⟨by rintro rfl; exact absurd (toString_digits number member) (by decide),
    by rintro rfl; exact absurd (toString_digits number member) (by decide)⟩

/-- The names of an enumeration: none a number, none escaped, none twice. -/
structure Names (names : List (Int × String)) : Prop where
  bare : ∀ e ∈ names, Bare e.2
  word : ∀ e ∈ names, '_' ∈ e.2.toList
  once : (names.map (·.2)).Nodup

theorem names_kinds : Names kinds := ⟨by decide, by decide, by decide⟩

theorem names_scopes : Names scopes := ⟨by decide, by decide, by decide⟩

/-- A number is written by one of its names or in digits. -/
theorem asStrName_cases (names : List (Int × String)) (number : Int) :
    (∃ e ∈ names, e.1 = number ∧ asStrName names number = e.2) ∨
      asStrName names number = toString number := by
  unfold asStrName
  cases found : names.find? fun e => e.1 = number with
  | none => exact Or.inr rfl
  | some e =>
    exact Or.inl ⟨e, List.mem_of_find?_eq_some found, by simpa using List.find?_some found, rfl⟩

theorem bare_asStrName (known : Names names) (number : Int) : Bare (asStrName names number) := by
  rcases asStrName_cases names number with ⟨e, member, _, same⟩ | same
  · rw [same]
    exact known.bare e member
  · rw [same]
    exact bare_toString number

theorem toString_not_word (number : Int) : '_' ∉ (toString number).toList := fun member =>
  absurd (toString_digits number member) (by decide)

/-- Two numbers are never written alike. -/
theorem asStrName_inj (known : Names names) (same : asStrName names n = asStrName names m) :
    n = m := by
  rcases asStrName_cases names n with ⟨e, member, rfl, word⟩ | digits <;>
    rcases asStrName_cases names m with ⟨e', member', rfl, word'⟩ | digits'
  · rw [word, word'] at same
    rw [List.inj_on_of_nodup_map known.once member member' same]
  · rw [word, digits'] at same
    exact absurd (same ▸ known.word e member) (toString_not_word m)
  · rw [digits, word'] at same
    exact absurd (same ▸ known.word e' member') (toString_not_word n)
  · rw [digits, digits'] at same
    exact toString_inj same

/-! ### Reading a target back -/

variable (capped : String → String)

theorem unescape_seg (s : String) : unescape (seg capped s) = capped s := unescape_escape (capped s)

theorem segments_seg (s : String) : segments (seg capped s) = [seg capped s] :=
  segments_closed (slash_escape (capped s))

theorem segments_bare (bare : Bare s) : segments s = [s] := segments_closed (slash_bare bare)

/-- A target of so many slashes that read back gives the parts of its request,
and that is another request's only if the two agree on their object. -/
structure Renders (target : ρ → String) (separators : Nat) (parts : ρ → List String)
    (agree : ρ → ρ → Prop) : Prop where
  separated : ∀ r, slashes (target r) = separators
  undone : ∀ r, (segments (target r)).map unescape = parts r
  one : ∀ r r', target r = target r' → agree r r'

/-- A target renders its parts, if they say what is to agree. -/
theorem Renders.of_parts {target : ρ → String} {parts : ρ → List String}
    (counted : ∀ r, (parts r).length = separators + 1)
    (undone : ∀ r, (segments (target r)).map unescape = parts r)
    (one : ∀ r r', parts r = parts r' → agree r r') : Renders target separators parts agree where
  separated r := by
    have count := length_segments (target r)
    rw [← List.length_map (f := unescape), undone, counted] at count
    omega
  undone := undone
  one r r' same := one r r' (by rw [← undone, ← undone, same])

theorem credential_renders : Renders (fun (r, uuid) => credentialTarget capped r uuid) 1
    (fun (r, uuid) => [capped r.userId, "yadgar:credential:" ++ uuid.text])
    fun (r, uuid) (r', uuid') => capped r.userId = capped r'.userId ∧ uuid.text = uuid'.text := by
  refine .of_parts (fun _ => rfl) (fun (r, uuid) => ?_) fun (r, uuid) (r', uuid') same => ?_
  · have own := bare_credentialId uuid
    simp only [credentialTarget, segments_slash, segments_seg, segments_bare own,
      List.singleton_append, List.map_cons, List.map_nil, unescape_seg, unescape_bare own]
  · obtain ⟨user, rest⟩ := List.cons.inj same
    exact ⟨user, String.append_right_inj _ |>.mp (List.singleton_inj.mp rest)⟩

theorem bare_setOrClear (r : SetRateLimitOverrideRequest) : Bare (setOrClear r) := by
  unfold setOrClear
  split <;> decide

theorem rateLimit_renders : Renders (rateLimitTarget capped) 3
    (fun r => [capped r.userId, capped r.module, asStrName kinds r.kind, setOrClear r])
    fun r r' => capped r.userId = capped r'.userId ∧ capped r.module = capped r'.module ∧
      r.kind = r'.kind ∧ r.limit.isSome = r'.limit.isSome := by
  refine .of_parts (fun _ => rfl) (fun r => ?_) fun r r' same => ?_
  · have kind := bare_asStrName names_kinds r.kind
    have word := bare_setOrClear r
    simp only [rateLimitTarget, segments_slash, segments_seg, segments_bare kind,
      segments_bare word, List.cons_append, List.nil_append, List.map_cons, List.map_nil,
      unescape_seg, unescape_bare kind, unescape_bare word]
  · simp only [List.cons.injEq, and_true] at same
    obtain ⟨user, module, kind, word⟩ := same
    refine ⟨user, module, asStrName_inj names_kinds kind, ?_⟩
    cases limit : r.limit.isSome <;> cases limit' : r'.limit.isSome <;>
      simp_all [setOrClear]

theorem setting_renders : Renders (settingTarget capped) 2
    (fun r => [asStrName scopes r.scope, capped (r.teamId.getD ""), capped r.name])
    fun r r' => r.scope = r'.scope ∧ capped (r.teamId.getD "") = capped (r'.teamId.getD "") ∧
      capped r.name = capped r'.name := by
  refine .of_parts (fun _ => rfl) (fun r => ?_) fun r r' same => ?_
  · have scope := bare_asStrName names_scopes r.scope
    simp only [settingTarget, segments_slash, segments_seg, segments_bare scope,
      List.cons_append, List.nil_append, List.map_cons, List.map_nil, unescape_seg,
      unescape_bare scope]
  · simp only [List.cons.injEq, and_true] at same
    exact ⟨asStrName_inj names_scopes same.1, same.2⟩

theorem member_renders : Renders (addMemberTarget capped) 1
    (fun r => [capped r.teamId, capped r.userId])
    fun r r' => capped r.teamId = capped r'.teamId ∧ capped r.userId = capped r'.userId := by
  refine .of_parts (fun _ => rfl) (fun r => ?_) fun r r' same => ?_
  · simp only [addMemberTarget, segments_slash, segments_seg, List.singleton_append, List.map_cons,
      List.map_nil, unescape_seg]
  · simpa only [List.cons.injEq, and_true] using same

/-- However segments are capped, a target names one object: its slashes are those
of its form, undoing the escape gives back every capped segment, and requests of
one verb share a target only if they agree on all that it names. An absent team
is an empty one. -/
theorem target_names_one_object (capped : String → String) :
    (Renders (fun (r, uuid) => credentialTarget capped r uuid) 1
      (fun (r, uuid) => [capped r.userId, "yadgar:credential:" ++ uuid.text])
      fun (r, uuid) (r', uuid') => capped r.userId = capped r'.userId ∧ uuid.text = uuid'.text) ∧
    (Renders (rateLimitTarget capped) 3
      (fun r => [capped r.userId, capped r.module, asStrName kinds r.kind, setOrClear r])
      fun r r' => capped r.userId = capped r'.userId ∧ capped r.module = capped r'.module ∧
        r.kind = r'.kind ∧ r.limit.isSome = r'.limit.isSome) ∧
    (Renders (addMemberTarget capped) 1 (fun r => [capped r.teamId, capped r.userId])
      fun r r' => capped r.teamId = capped r'.teamId ∧ capped r.userId = capped r'.userId) ∧
    (Renders (removeMemberTarget capped) 1 (fun r => [capped r.teamId, capped r.userId])
      fun r r' => capped r.teamId = capped r'.teamId ∧ capped r.userId = capped r'.userId) ∧
    Renders (settingTarget capped) 2
      (fun r => [asStrName scopes r.scope, capped (r.teamId.getD ""), capped r.name])
      fun r r' => r.scope = r'.scope ∧ capped (r.teamId.getD "") = capped (r'.teamId.getD "") ∧
        capped r.name = capped r'.name :=
  ⟨credential_renders capped, rateLimit_renders capped, member_renders capped,
    member_renders capped, setting_renders capped⟩

end IamDb.Audit
