/-
# The tables of the client database

Records, errors and the state of `rostra-client-db`.  Each redb table is a `Table` from its key
to its record; a table whose value is `()` or an empty marker record is the `Finset` of its
keys, and a table with the single key `()` is an `Option`.

The tables are grouped the way the functions of the crate take them, so that most frame
conditions hold by construction: a function that is not given a group cannot change it.

* `EventTables`: the ten tables that `insert_event_tx` opens (header graph, content lifecycle,
  store, reference counts, fetch schedule, usage).
* `Projections`: everything `process_event_content_inserted_tx` and its reversal derive from
  payloads, with the reception-order counter they allocate from.
* `Accounting` and `RetentionIndex`: the disposable bookkeeping.

The `Overflow` and `PayloadAccountingInvariant` errors of the source carry no data.  Here they
name the counter or the check that raised them, so that one can say WHICH checked operation
never fails.
-/
import Rostra.Lib.Table
import Rostra.Lib.Outcome
import Rostra.Core.Retention
import Rostra.Dm.Device

namespace Rostra.Db

open Rostra

/-! ## 1. Errors

The errors that the modelled functions raise, and no others. -/

/-- A 64-bit counter that is updated with checked arithmetic. The name is what an overflow error says. -/
inductive Counter
  | contentRc | dataUsage | accounting | socialPost | receptionOrder | materialization
  | admission | maintenance
  deriving DecidableEq

inductive Direction
  | add | sub
  deriving DecidableEq

/-- A check that reports `PayloadAccountingInvariant` when it fails. The name tells the place in the source. -/
inductive Check
  | contentRc | dataUsage | contribution | hash | author | quota | recovery | retention | store
  deriving DecidableEq

inductive PayloadAdmissionPause
  | accountingNotReady | alreadyReserved | inFlightCount | inFlightBytes | authorCapacity
  | databaseCapacity | reservationExpired
  deriving DecidableEq

inductive DbError
  | identityPrefixCollision (short : ShortRostraId) (existing incoming : RostraId)
  | missingDeletionAttribution (eventId : ShortEventId)
  | overflow (counter : Counter) (direction : Direction)
  | payloadAccountingInvariant (check : Check)
  | payloadAccountingNotReady
  | payloadMaintenanceLimit
  | payloadAdmissionPaused (reason : PayloadAdmissionPause)
  | receptionOrderCollision (receivedAt : Timestamp) (receptionOrder : ℕ)
  | socialPostReceiptAlreadyIndexed (eventId : ShortEventId)
  | socialPostReceiptMismatch (eventId : ShortEventId) (actual : Option ShortEventId)
  | missingVoteSingletonProjection (eventId : ShortEventId)
  | invalidVoteSingletonProjection (eventId : ShortEventId)
  deriving DecidableEq

abbrev DbResult := Except DbError

def u64Max : ℕ := 2 ^ 64 - 1

/-- `a.checked_add(b).context(OverflowSnafu)`. -/
def checkedAdd (c : Counter) (a b : ℕ) : DbResult ℕ :=
  if a + b ≤ u64Max then .ok (a + b) else .error (.overflow c .add)

/-- `a.checked_sub(b).context(OverflowSnafu)`. -/
def checkedSub (c : Counter) (a b : ℕ) : DbResult ℕ :=
  if b ≤ a then .ok (a - b) else .error (.overflow c .sub)

/-! ## 2. Event and content records

A header, the state of its content, and the row of a missing event. -/

/-- Per-event content state; a processed event has NO row. So the same absence of a row is that of an event nobody
knows, and every reader has to look at the headers as well. -/
inductive EventContentState
  | missing (lastFetchAttempt : Option Timestamp) (fetchAttemptCount : ℕ)
      (nextFetchAttempt : Timestamp)
  | deleted (deletedBy : ShortEventId)
  | pruned
  | invalid
  deriving DecidableEq

structure EventsMissingRecord where
  deletedBy : Option ShortEventId
  deriving DecidableEq

inductive EventReceivedSource
  | migration
  | pushed (fromId : Option RostraId) (fromNode : Option IrohNodeId)
  | pulled (fromId : Option RostraId) (fromNode : Option IrohNodeId) (task : Option Text)
  | local
  deriving DecidableEq

structure EventReceivedRecord where
  eventId : ShortEventId
  source : EventReceivedSource
  deriving DecidableEq

/-- One `…_size` / `…_num` pair of the usage record. -/
@[ext] structure PayloadTotal where
  size : ℕ := 0
  num : ℕ := 0
  deriving DecidableEq

/-- `IdsDataUsageRecord`, its sixteen counters as eight size/number pairs. -/
structure IdsDataUsageRecord where
  currentMetadata : PayloadTotal := {}
  totalMetadata : PayloadTotal := {}
  current : PayloadTotal := {}
  total : PayloadTotal := {}
  missing : PayloadTotal := {}
  deleted : PayloadTotal := {}
  pruned : PayloadTotal := {}
  invalid : PayloadTotal := {}
  deriving DecidableEq

instance : Inhabited IdsDataUsageRecord := ⟨{}⟩

structure RetentionOrigins where
  effectiveTimestamp : Timestamp
  materializedAt : Option Timestamp
  deriving DecidableEq

inductive QuotaPruneReason
  | authorQuota | globalQuota
  deriving DecidableEq

structure QuotaPruneDecision where
  reason : QuotaPruneReason
  prunedAt : Timestamp
  deriving DecidableEq

/-! ## 3. Projection records

The rows that are derived from payloads. -/

structure IdsFolloweesRecord where
  latestTs : Timestamp
  latestEventId : ShortEventId
  firstTs : Timestamp
  selector : Option PersonaSelector
  tagsSelector : Option PersonasTagsSelector
  deriving DecidableEq

structure IdsUnfollowedRecord where
  ts : Timestamp
  eventId : ShortEventId
  deriving DecidableEq

/-- A value of which only the greatest `(timestamp, id)` is kept. The id is inside of the value. -/
structure Latest (α : Type) where
  ts : Timestamp
  inner : α
  deriving DecidableEq

inductive SocialVoteValue
  | down | neutral | up
  deriving DecidableEq

def SocialVoteValue.score : SocialVoteValue → ℤ
  | .down => -1
  | .neutral => 0
  | .up => 1

def SocialVoteValue.ofUpvote : Option Bool → SocialVoteValue
  | some false => .down
  | none => .neutral
  | some true => .up

structure SocialVoteProjection where
  target : ExternalEventId
  value : SocialVoteValue
  deriving DecidableEq

structure EventSingletonRecord where
  eventId : ShortEventId
  socialVote : Option SocialVoteProjection
  deriving DecidableEq

structure IdSocialProfileRecord where
  eventId : ShortEventId
  displayName : Text
  bio : Text
  avatar : Option (Text × Bytes)
  deriving DecidableEq

structure SocialPostRecord where
  replyCount : ℕ := 0
  reactionCount : ℕ := 0
  deriving DecidableEq

instance : Inhabited SocialPostRecord := ⟨{}⟩

structure SocialVoteSumRecord where
  lastVoteTime : Timestamp
  currentSum : ℤ
  deriving DecidableEq

structure SocialNewsRankRecord where
  creationTs : Timestamp
  score : ℤ
  deriving DecidableEq

structure IrohNodeStats where
  lastSuccess : Option Timestamp := none
  lastFailure : Option Timestamp := none
  successCount : ℕ := 0
  failCount : ℕ := 0
  deriving DecidableEq

structure IrohNodeRecord where
  announcementTs : Timestamp
  stats : IrohNodeStats
  deriving DecidableEq

/-- The local device; `retired` is set when its own account retires it. -/
structure Installation where
  deviceId : Bytes
  retired : Bool
  deriving DecidableEq

/-! ## 4. Bookkeeping records

Sums, retention entries, and the records of the two rebuilds. -/

structure PayloadUsage where
  logicalCurrentBytes : ℕ := 0
  uniqueStoredBytes : ℕ := 0
  deriving DecidableEq

/-- The durable cursor of the accounting rebuild. The stages come in this order, and each of them goes through one
table. -/
inductive AccountingStage
  | events (cursor : Option ShortEventId)
  | content (cursor : Option ContentHash)
  | hashes (cursor : Option ContentHash)
  | references (cursor : Option ContentHash)
  | authors (cursor : Option RostraId)
  | expectedAuthors (cursor : Option RostraId)
  | ready
  deriving DecidableEq

structure AccountingRecord where
  stage : AccountingStage := .events none
  usage : PayloadUsage := {}
  deriving DecidableEq

instance : Inhabited AccountingRecord := ⟨{}⟩

structure HashAccounting where
  references : ℕ := 0
  protectedHistory : Bool := false
  deriving DecidableEq

instance : Inhabited HashAccounting := ⟨{}⟩

inductive QuotaRecovery
  | scanning (cursor : Option ShortEventId)
  | ready
  deriving DecidableEq

/-- The scoring identity: policy and storing account. -/
structure RetentionGeneration where
  policy : RetentionPolicy
  holder : RostraId
  deriving DecidableEq

inductive IndexStage
  | clearing
  | events (cursor : Option ShortEventId)
  | ready
  deriving DecidableEq

structure IndexRecord where
  generation : RetentionGeneration
  stage : IndexStage
  deriving DecidableEq

structure IndexEntry where
  author : RostraId
  key : ℕ
  eligibleAt : ℕ
  promoted : Bool
  deriving DecidableEq

/-! ## 5. The state

The tables in their groups. -/

/-- The tables of the header graph and of the content lifecycle. -/
structure EventTables where
  idsFull : Table ShortRostraId RestRostraId := ∅
  events : Table ShortEventId Event := ∅
  eventsMissing : Table (RostraId × ShortEventId) EventsMissingRecord := ∅
  eventsHeads : Finset (RostraId × ShortEventId) := ∅
  eventsByTime : Finset (Timestamp × ShortEventId) := ∅
  eventsContentState : Table ShortEventId EventContentState := ∅
  contentStore : Table ContentHash Bytes := ∅
  contentRc : Table ContentHash ℕ := ∅
  eventsContentMissing : Finset (Timestamp ×ₗ ShortEventId) := ∅
  idsDataUsage : Table RostraId IdsDataUsageRecord := ∅
  deriving DecidableEq

/-- What payloads are projected into: everything that is computed from contents, and taken back when a content is.
-/
structure Projections where
  /-- The next unused local reception sequence number. -/
  receptionOrderNext : Option ℕ := none
  socialPosts : Table ShortEventId SocialPostRecord := ∅
  socialPostsReplies : Finset (ShortEventId × Timestamp × ShortEventId) := ∅
  socialPostsReactions : Finset (ShortEventId × Timestamp × ShortEventId) := ∅
  socialPostsByTime : Finset (Timestamp × ShortEventId) := ∅
  socialPostsByReceivedAt : Table (Timestamp × ℕ) ShortEventId := ∅
  socialPostsReceivedAtKeys : Table ShortEventId (Timestamp × ℕ) := ∅
  socialPostsReplacedBy : Finset (RostraId × ShortEventId × ShortEventId) := ∅
  socialPostsReplaces : Finset (RostraId × ShortEventId × ShortEventId) := ∅
  socialPostsSelfMention : Finset ShortEventId := ∅
  socialPostMaterializations : Table ℕ ShortEventId := ∅
  socialProfiles : Table RostraId (Latest IdSocialProfileRecord) := ∅
  socialVoteSums : Table ExternalEventId SocialVoteSumRecord := ∅
  socialNewsRankByPostId : Table ExternalEventId SocialNewsRankRecord := ∅
  socialNewsRankByScore : Finset (ℤ × ExternalEventId) := ∅
  socialNewsRankByTime : Finset (Timestamp × ExternalEventId) := ∅
  eventsSingletonsNew : Table (RostraId × EventKind × EventAuxKey) (Latest EventSingletonRecord) := ∅
  shoutboxPostsByReceivedAt : Table (Timestamp × ℕ) ShortEventId := ∅
  idsFollowees : Table (RostraId × RostraId) IdsFolloweesRecord := ∅
  idsFollowers : Finset (RostraId × RostraId) := ∅
  idsFollowEvents : Finset (RostraId × RostraId × Timestamp ×ₗ ShortEventId) := ∅
  idsUnfollowed : Table (RostraId × RostraId) IdsUnfollowedRecord := ∅
  idsNodes : Table (RostraId × IrohNodeId) IrohNodeRecord := ∅
  idsDmDevices : Table (RostraId × Bytes) Dm.DeviceState := ∅
  idsDmDevicesByInterval : Finset (RostraId × (ℕ × ℕ) × (Timestamp × ShortEventId × Bytes)) := ∅
  idsDmInstallation : Option Installation := none
  /-- Background decryption work, with the last attempted epoch key. -/
  eventsDmPending : Table ShortEventId (Option (Bytes × Bytes)) := ∅
  deriving DecidableEq

/-- Disposable payload accounting and the provenance of quota releases. It can be cleared and rebuilt from the
other tables. -/
structure Accounting where
  state : Option AccountingRecord := none
  authors : Table RostraId ℕ := ∅
  hashes : Table ContentHash HashAccounting := ∅
  quotaGc : Finset ContentHash := ∅
  quotaHashes : Finset ContentHash := ∅
  quotaRecovery : Option QuotaRecovery := none
  deriving DecidableEq

/-- Disposable eviction order: promoted rows in a global order and in one for each author, the others by the end of
their grace interval. -/
structure RetentionIndex where
  state : Option IndexRecord := none
  reverse : Table ShortEventId IndexEntry := ∅
  global : Table ℕ ShortEventId := ∅
  author : Table (RostraId × ℕ) ShortEventId := ∅
  grace : Finset (ℕ ×ₗ ShortEventId) := ∅
  deriving DecidableEq

/-- The database. -/
structure Database where
  ev : EventTables := {}
  proj : Projections := {}
  eventsReceivedAt : Table (Timestamp × ℕ) EventReceivedRecord := ∅
  eventsSelf : Finset ShortEventId := ∅
  origins : Table ShortEventId RetentionOrigins := ∅
  quotaPruned : Table ShortEventId QuotaPruneDecision := ∅
  accounting : Accounting := {}
  retention : RetentionIndex := {}
  deriving DecidableEq

/-- What a database handle knows besides the tables: whose it is, and since when. -/
structure Env where
  selfId : RostraId
  dbInitTime : Timestamp
  deriving DecidableEq

/-- The switches of a write transaction; total replay turns them off. -/
structure TxCtx where
  materializationEmission : Bool := true
  retentionTracking : Bool := true
  deriving DecidableEq

end Rostra.Db
