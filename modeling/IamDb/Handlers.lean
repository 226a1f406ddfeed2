import IamDb.KeyIdentity
import IamDb.Txn.System

/-! The service: every call is admitted by the name on its client certificate
and then runs its verb. -/
namespace IamDb.Handlers
open Txn Schema Messages Service

variable [Engine]

/-- The one caller this service admits. -/
def iamCaller : String := "iam-caller"

/-- A character within a string as the debug formatter writes it. -/
def escapeDebug (c : Char) : String :=
  if c = '\x00' then "\\0"
  else if c = '\t' then "\\t"
  else if c = '\r' then "\\r"
  else if c = '\n' then "\\n"
  else if c = '"' then "\\\""
  else if c = '\\' then "\\\\"
  else if printable c then String.singleton c
  else "\\u\x7b" ++ String.ofList (Nat.toDigits 16 c.toNat) ++ "\x7d"

/-- A string as the debug formatter writes it. -/
def debug (s : String) : String := "\"" ++ String.join (s.toList.map escapeDebug) ++ "\""

/-- Admit the one caller, or refuse. -/
def admitted (caller : Option String) : Except Status Unit :=
  if caller = some iamCaller then .ok ()
  else .error ⟨.permissionDenied,
    "iam-db admits only iam (ADR-0972): the client certificate must name " ++
      debug iamCaller ++ ", and this call " ++
      (match caller with
        | none => "carries no client-certificate name"
        | some c => "names " ++ debug c) ++
      (". Every module's leaf verifies against the same authority, so verification alone admits " ++
        "nobody here")⟩

/-- The verb a request names. -/
def verb (uuid : String) : Request → Rpc Response
  | .resolveCredential r => do pure (.resolveCredential (← Credential.resolve r))
  | .getPasswordHash r => do pure (.getPasswordHash (← Password.passwordHash r))
  | .setPassword r => do Password.storePassword r; pure .setPassword
  | .createEnrolment r => do pure (.createEnrolment (← Enrolment.mintEnrolment uuid r))
  | .redeemEnrolment r => do pure (.redeemEnrolment (← Enrolment.redeem r))
  | .createCredential r => do pure (.createCredential (← Credential.mintCredential uuid r))
  | .revokeCredential r => do pure (.revokeCredential (← Credential.revoke r))
  | .revokeAllCredentials r => do
    pure (.revokeAllCredentials (← Credential.revokeAllCredentials r))
  | .listCredentials r => do pure (.listCredentials (← Credential.credentialPage r))
  | .createUser r => do pure (.createUser (← Identity.insertUser uuid r))
  | .setUserAdmin r => do Policy.setAdmin r; pure .setUserAdmin
  | .setRateLimitOverride r => do Policy.setRateLimit r; pure .setRateLimitOverride
  | .addTeamMember r => do Identity.addMember r; pure .addTeamMember
  | .removeTeamMember r => do Identity.removeMember r; pure .removeTeamMember
  | .setInheritedSetting r => do pure (.setInheritedSetting (← Setting.storeSetting r))
  | .getKeyIdentity r => do pure (.getKeyIdentity (← KeyIdentity.keyIdentity r))
  | .setKeyIdentity r => do pure (.setKeyIdentity (← KeyIdentity.recordKeyIdentity r))
  | .listKeyIdentityEvidence r => do
    pure (.listKeyIdentityEvidence (← KeyIdentity.evidencePage r))
  | .adoptKeyIdentity r => do pure (.adoptKeyIdentity (← KeyIdentity.recordAdoption r))
  | .syncTeams r => do pure (.syncTeams (← Team.syncTeams r))

def service (c : Call) : Rpc Response := do
  .lift (admitted c.caller)
  verb c.uuid.text c.request

abbrev System : Type 1 := Txn.System Call Store Write Res Status Response

abbrev Session : Type 1 := Txn.Session Call Store Write Res Status Response

/-- The service right after the migrations. -/
def fresh (now : Int) : System := .start migrated now

/-- Run actions from a state; none when one of them cannot happen then. -/
def run (S : System) (actions : List (Action Call)) : Option System := S.run service actions

end IamDb.Handlers
