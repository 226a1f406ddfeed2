import IamDb.Txn.Table
import IamDb.Txn.Program
import IamDb.Txn.System
import IamDb.Txn.Logic
import IamDb.Txn.Locking
import IamDb.Schema
import IamDb.Messages
import IamDb.Service
import IamDb.Team
import IamDb.Epoch
import IamDb.Enrolment
import IamDb.Credential
import IamDb.Password
import IamDb.Policy
import IamDb.Identity
import IamDb.Setting
import IamDb.KeyIdentity
import IamDb.Handlers
import IamDb.Effects
import IamDb.Evolution
import IamDb.Interference
import IamDb.Rules
import IamDb.EpochProofs
import IamDb.CredentialProofs
import IamDb.PolicyProofs
import IamDb.EnrolmentProofs
import IamDb.RedemptionProofs
import IamDb.IdentityProofs
import IamDb.SettingProofs
import IamDb.KeyIdentityProofs
import IamDb.Declaration
import IamDb.TeamProofs
import IamDb.ServiceProofs
import IamDb.Txn.History
import IamDb.Endings
import IamDb.Runs
import IamDb.Administrators
import IamDb.Membership
import IamDb.Marker
import IamDb.Enrolments
import IamDb.Refusals
import IamDb.Connections
import IamDb.Overrides
import IamDb.Keys
import IamDb.Txn.Waiting
import IamDb.Losers
import IamDb.Storable
import IamDb.Spellings
import IamDb.Txn.Keyset
import IamDb.Paging
import IamDb.Listing
import IamDb.Evidence
import IamDb.Deliveries
import IamDb.Txn.Alone
import IamDb.Scopes
import IamDb.Inherited
import IamDb.Wellformed
import IamDb.Audit
import IamDb.Txn.Sightings
import IamDb.Bootstrap
import IamDb.Reasons
import IamDb.Repeats
import IamDb.Life
import IamDb.Epochs
import IamDb.Containment
import IamDb.Redeliveries
import IamDb.InForce
import IamDb.KeyedSettings
import IamDb.Fulfilled
import IamDb.Txn.Circles
import IamDb.LockOrder
import IamDb.Circles
import IamDb.Commits
import IamDb.Progress
import IamDb.Reads
import IamDb.Logins
import IamDb.Written
import IamDb.Retries
