/-
# Ingesting envelopes and payloads

`process_event_ops.rs`, the content half of `lib.rs`, `payload_admission.rs`, `quota_pruning.rs`
and `events_content_missing_ops.rs`: every transaction that moves an event through its content
lifecycle.

* `processEventTx` takes an envelope, `processEventContentTx` a payload whose envelope is
  already there.  A public delivery is one of the two, or both in one transaction.
* Materialization passes the admission boundary first.  The admission ledger lives outside the
  tables; a transaction sees it as an argument.  A refusal is an error that the
  admission-aware entry points turn into a deferral, before anything was written.
* `pruneQuotaPayloadTx` is the local release of one payload.
* The fetch schedule mirrors the `Missing` states; the four operations at the end move or read it.

Commit hooks, notifications and log lines are left out: they run after the transaction and
write no table.
-/
import Rostra.Db.Accounting

namespace Rostra.Db

open Rostra

variable [Primitives]

/-! ## 1. Admission

What a transaction asks of the ledger. The ledger is an argument here; what becomes of it is in `Deferral`. -/

/-- Startup-installed budgets. -/
structure PayloadAdmissionConfig where
  databaseBytes : ℕ
  authorBytes : ℕ
  overrides : Table RostraId ℕ
  inFlightCount : ℕ
  inFlightBytes : ℕ
  inFlightCountLe : inFlightCount ≤ PAYLOAD_MAINTENANCE_MAX

def PayloadAdmissionConfig.authorBytesOf (c : PayloadAdmissionConfig) (author : RostraId) : ℕ :=
  (c.overrides.get author).getD c.authorBytes

structure ReservedEvent where
  author : RostraId
  bytes : ℕ
  id : ℕ

/-- The process-local ledger; without a configuration admission is disabled. -/
structure AdmissionState where
  config : Option PayloadAdmissionConfig := none
  events : Table EventId ReservedEvent := ∅
  nextId : ℕ := 0
  buffers : ℕ := 0
  bufferBytes : ℕ := 0

/-- A buffer lease.  `sameLedger` is the pointer comparison of the two ledgers. -/
structure PayloadBuffer where
  event : EventId
  bytes : ℕ
  id : ℕ
  sameLedger : Bool := true

inductive PayloadReservationOutcome
  | disabled
  | reserved (buffer : PayloadBuffer)
  | deferred (reason : PayloadAdmissionPause)
  | unneeded

def payloadIsMissingTx (t : EventTables) (id : ShortEventId) : Bool := canInsertEventContentTx t id

/-- Would the payload fit next to what is retained and what is reserved by others? -/
def payloadCapacityPauseTx (db : Database) (v : VerifiedEvent) (s : AdmissionState) :
    DbResult (Option PayloadAdmissionPause) :=
  match s.config with
  | none => .ok none
  | some config =>
    let record := accountingTx db.accounting
    if record.stage ≠ .ready then .ok (some .accountingNotReady)
    else
      let author := v.event.author
      let bytes := v.event.contentLen
      let currentAuthor := (getUsage author db.ev.idsDataUsage).current.size
      let globalReserved := s.events.sum fun id r => if id = v.eventId then 0 else r.bytes
      let authorReserved := s.events.sum fun id r =>
        if id = v.eventId ∨ r.author ≠ author then 0 else r.bytes
      -- the running sums only grow, so one of them overflows exactly when the total does
      if u64Max < globalReserved then .error (.overflow .admission .add)
      else if min u64Max (config.authorBytesOf author) < currentAuthor + authorReserved + bytes then
        .ok (some .authorCapacity)
      else if min u64Max config.databaseBytes <
          record.usage.logicalCurrentBytes + globalReserved + bytes then
        .ok (some .databaseCapacity)
      else .ok none

/-- Reserve logical room for one `Missing` event. Content that is not missing needs none, and a lease that is held
is not given twice. -/
def reservePayloadTx (db : Database) (v : VerifiedEvent) (s : AdmissionState) :
    DbResult (PayloadReservationOutcome × AdmissionState) :=
  match s.config with
  | none => .ok (.disabled, s)
  | some config =>
    if !payloadIsMissingTx db.ev v.id then .ok (.unneeded, s)
    else if (s.events.get v.eventId).isSome then .ok (.deferred .alreadyReserved, s)
    else if config.inFlightCount ≤ s.events.keys.card then .ok (.deferred .inFlightCount, s)
    else do
      match ← payloadCapacityPauseTx db v s with
      | some pause => return (.deferred pause, s)
      | none =>
        let id ← checkedAdd .admission s.nextId 1
        let lease : PayloadBuffer := { event := v.eventId, bytes := v.event.contentLen, id := id }
        return (.reserved lease, { s with
          nextId := id
          events := s.events.insert v.eventId ⟨v.event.author, v.event.contentLen, id⟩ })

/-- Does the ledger still hold this lease? The id tells it from a later lease of the same event. -/
def leaseHeld (s : AdmissionState) (b : PayloadBuffer) : Bool :=
  (s.events.get b.event).any fun e => e.id == b.id

/-- Charge one buffer of the lease's size. -/
def tryAcquireBuffer (s : AdmissionState) (b : PayloadBuffer) :
    Except PayloadAdmissionPause AdmissionState :=
  if !leaseHeld s b then .error .reservationExpired
  else match s.config with
    | none => .error .reservationExpired
    | some config =>
      if config.inFlightCount ≤ s.buffers then .error .inFlightCount
      else if min u64Max config.inFlightBytes < s.bufferBytes + b.bytes then .error .inFlightBytes
      else .ok { s with buffers := s.buffers + 1, bufferBytes := s.bufferBytes + b.bytes }

/-- `reserve_payload_allocation`: buffer capacity that belongs to no event yet. -/
def reservePayloadAllocation (s : AdmissionState) (bytes : ℕ) :
    Except PayloadAdmissionPause AdmissionState :=
  match s.config with
  | none => .ok s
  | some config =>
    if config.inFlightCount ≤ s.buffers then .error .inFlightCount
    else if min u64Max config.inFlightBytes < s.bufferBytes + bytes then .error .inFlightBytes
    else .ok { s with buffers := s.buffers + 1, bufferBytes := s.bufferBytes + bytes }

/-- The shared boundary before projections or bytes change.  A supplied lease must still be the
event's own; otherwise one is acquired inline and returned with the ledger that holds it. -/
def admitMaterializationTx (db : Database) (v : VerifiedEvent) (buffer : Option PayloadBuffer)
    (s : AdmissionState) : DbResult (Option PayloadBuffer × AdmissionState) :=
  match buffer with
  | some b =>
    if !b.sameLedger ∨ b.event ≠ v.eventId ∨ b.bytes ≠ v.event.contentLen ∨ !leaseHeld s b then
      .error (.payloadAdmissionPaused .reservationExpired)
    else do
      match ← payloadCapacityPauseTx db v s with
      | some reason => throw (.payloadAdmissionPaused reason)
      | none => return (none, s)
  | none => do
    match ← reservePayloadTx db v s with
    | (.disabled, s) | (.unneeded, s) => return (none, s)
    | (.deferred reason, _) => throw (.payloadAdmissionPaused reason)
    | (.reserved lease, s) =>
      match tryAcquireBuffer s lease with
      | .ok s => return (some lease, s)
      | .error reason => throw (.payloadAdmissionPaused reason)

/-! ## 2. Envelopes

`process_event_inner_tx` between its bookkeeping, and what follows from the outcome of the insertion. -/

inductive ProcessEventState
  | new | existing | pruned | deleted
  deriving DecidableEq

/-- First local receipt: the age origin, and the grace origin of content that is empty. -/
def recordOriginsTx (ctx : TxCtx) (origins : Table ShortEventId RetentionOrigins)
    (v : VerifiedEvent) (isDeleted : Bool) (now : Timestamp) : Table ShortEventId RetentionOrigins :=
  if ctx.retentionTracking && (origins.get v.id).isNone then
    origins.insert v.id ⟨min v.event.timestamp now,
      if v.event.contentLen = 0 ∧ !isDeleted then some now else none⟩
  else origins

/-- A restored quota decision is applied while the event is still unmaterialized. -/
def applyQuotaDecisionTx (db : Database) (v : VerifiedEvent) : DbResult EventTables :=
  if (db.quotaPruned.get v.id).isSome then do
    let (ev, _) ← pruneEventContentTx db.ev v.id v.event
    pure ev
  else .ok db.ev

/-- Bytes retained under another reference can still give a deleted edit its lineage. -/
def retainedLineageTx (ev : EventTables) (p : Projections) (v : VerifiedEvent) :
    DbResult Projections :=
  match ev.contentStore.get v.event.contentHash with
  | none => .ok p
  | some b =>
    match VerifiedEventContent.verify v (some b) with
    | none => .ok p
    | some c =>
      match processDeletedSocialPostReplacementTx p c.toEventContent with
      | .ok (p, _) => .ok p
      | .error (.db e) => .error e
      | .error .invalid => .ok p

/-- The payload that a deletion takes back, as `assume_verified` hands it over. -/
def revertedContent (ev : EventTables) (deletedParent : Option ShortEventId)
    (reverted : Option Bytes) : Option EventContent :=
  match reverted, deletedParent.bind ev.events.get with
  | some b, some parent => some ⟨.ofEvent parent, some b⟩
  | _, _ => none

/-- A payload that cannot be decoded any more is logged as the sign of a bug and ignored. -/
def revertParentTx (p : Projections) (c : EventContent) : DbResult Projections :=
  match processEventContentRevertedTx p c with
  | .ok p => .ok p
  | .error (.db e) => .error e
  | .error .invalid => .ok p

/-- An event that arrives deleted may still find its own bytes, since another event with the same content may have
brought them. -/
def insertedLineageTx (ev : EventTables) (p : Projections) (v : VerifiedEvent) (isDeleted : Bool) :
    DbResult Projections :=
  if isDeleted then retainedLineageTx ev p v else .ok p

/-- Take back what the deleted parent had projected, if it was processed. The bytes are those that the insertion
found, before its reference was released. -/
def revertDeletedTx (ev : EventTables) (p : Projections) (deletedParent : Option ShortEventId)
    (reverted : Option Bytes) : DbResult Projections :=
  match revertedContent ev deletedParent reverted with
  | some c => revertParentTx p c
  | none => .ok p

/-- What a newly inserted event does beyond the event tables. -/
def afterInsertTx (env : Env) (ctx : TxCtx) (db : Database) (v : VerifiedEvent) (now : Timestamp)
    (source : EventReceivedSource) (isDeleted : Bool) (deletedParent : Option ShortEventId)
    (reverted : Option Bytes) : DbResult Database := do
  let ev ← applyQuotaDecisionTx db v
  let (_, next, received) ← insertReceptionOrderedTx db.proj.receptionOrderNext now
    (⟨v.id, source⟩ : EventReceivedRecord) db.eventsReceivedAt
  let proj ← insertedLineageTx ev { db.proj with receptionOrderNext := next } v isDeleted
  let proj ← revertDeletedTx ev proj deletedParent reverted
  pure { db with
    ev := ev
    proj := proj
    origins := recordOriginsTx ctx db.origins v isDeleted now
    eventsReceivedAt := received
    eventsSelf := if v.event.author = env.selfId then insert v.id db.eventsSelf else db.eventsSelf }

/-- An envelope that is already here does nothing more: no origin and no reception number. -/
def afterOutcomeTx (env : Env) (ctx : TxCtx) (db : Database) (v : VerifiedEvent) (now : Timestamp)
    (source : EventReceivedSource) : InsertEventOutcome → DbResult Database
  | .inserted _ isDeleted deletedParent reverted _ =>
    afterInsertTx env ctx db v now source isDeleted deletedParent reverted
  | .alreadyPresent => .ok db

/-- The state an envelope ends in; oversized content is pruned on arrival. -/
def settleContentTx (ev : EventTables) (v : VerifiedEvent) (outcome : InsertEventOutcome) :
    DbResult (EventTables × ProcessEventState) :=
  if ev.eventsContentState.get v.id = some .pruned then .ok (ev, .pruned)
  else if MAX_CONTENT_LEN ≤ v.event.contentLen then do
    let (ev, pruned) ← pruneEventContentTx ev v.id v.event
    pure (ev, if pruned then .pruned else .deleted)
  else match outcome with
    | .alreadyPresent => .ok (ev, .existing)
    | .inserted _ isDeleted _ _ _ => .ok (ev, if isDeleted then .deleted else .new)

def processEventInnerTx (env : Env) (ctx : TxCtx) (db : Database) (v : VerifiedEvent)
    (now : Timestamp) (source : EventReceivedSource) :
    DbResult (Database × InsertEventOutcome × ProcessEventState) := do
  let (ev, outcome) ← insertEventTx db.ev v
  let db ← afterOutcomeTx env ctx { db with ev := ev } v now source outcome
  let (ev, state) ← settleContentTx db.ev v outcome
  pure ({ db with ev := ev }, outcome, state)

/-- A `Missing` event has its row in the schedule. For one that has it already this is no change. -/
def ensureMissingScheduledTx (ev : EventTables) (id : ShortEventId) : EventTables :=
  match ev.eventsContentState.get id with
  | some (.missing _ _ next) =>
    { ev with eventsContentMissing := insert (toLex (next, id)) ev.eventsContentMissing }
  | _ => ev

/-- Process a received envelope. -/
def processEventTx (env : Env) (ctx : TxCtx) (db : Database) (v : VerifiedEvent) (now : Timestamp)
    (source : EventReceivedSource) :
    DbResult (Database × InsertEventOutcome × ProcessEventState) := do
  let before ← payloadBeforeTx env db.ev v
  let (db, result) ← processEventInnerTx env ctx db v now source
  let db ← payloadAfterTx env db before
  pure ({ db with ev := ensureMissingScheduledTx db.ev v.id }, result)

/-! ## 3. Payloads

The content is for a header that is stored already, and the state of that header decides what is done with it. -/

/-- The first materialization starts the grace interval, and no later one starts it again. -/
def recordMaterializedTx (ctx : TxCtx) (origins : Table ShortEventId RetentionOrigins)
    (id : ShortEventId) (now : Timestamp) : Table ShortEventId RetentionOrigins :=
  if ctx.retentionTracking then
    match origins.get id with
    | some origin =>
      if origin.materializedAt.isNone then origins.insert id { origin with materializedAt := some now }
      else origins
    | none => origins
  else origins

/-- A valid payload: stored once per hash, and the event is processed. Bytes that are there already stay as they
are. -/
def storeContentTx (ev : EventTables) (v : VerifiedEvent) (b : Bytes) : DbResult EventTables := do
  let usage ← trackPayloadProcessedTx v.event.author v.event.contentLen ev.idsDataUsage
  pure { ev with
    contentStore := if (ev.contentStore.get v.event.contentHash).isNone then
        ev.contentStore.insert v.event.contentHash b
      else ev.contentStore
    eventsContentState := ev.eventsContentState.remove v.id
    idsDataUsage := usage }

/-- An invalid payload: the reference is released and the bytes are dropped. -/
def rejectContentTx (ev : EventTables) (v : VerifiedEvent) : DbResult EventTables := do
  let rc ← decrementContentRcTx v.event.contentHash ev.contentRc
  let usage ← trackPayloadInvalidTx v.event.author v.event.contentLen ev.idsDataUsage
  pure { ev with
    eventsContentState := ev.eventsContentState.insert v.id .invalid
    contentRc := rc
    idsDataUsage := usage }

/-- Lineage is the one thing a payload can still add to a deleted event. A payload that cannot be read adds
nothing, without an error. -/
def deletedLineageTx (p : Projections) (c : EventContent) : DbResult Projections :=
  match processDeletedSocialPostReplacementTx p c with
  | .ok (p, _) => .ok p
  | .error .invalid => .ok p
  | .error (.db e) => .error e

/-- A payload for content that is `Missing`: dequeued, projected, and stored or rejected. -/
def materializeTx (env : Env) (ctx : TxCtx) (db : Database) (c : VerifiedEventContent)
    (now : Timestamp) : DbResult Database :=
  let v := c.event
  let ev := { db.ev with
    eventsContentMissing :=
      unscheduleTx (db.ev.eventsContentState.get v.id) v.id db.ev.eventsContentMissing }
  match c.content with
  | none => .ok { db with ev := ev }
  | some b =>
    match processEventContentInsertedTx env ctx db.proj c.toEventContent now with
    | .ok proj => do
      let ev ← storeContentTx ev v b
      pure { db with
        ev := ev, proj := proj, origins := recordMaterializedTx ctx db.origins v.id now }
    | .error .invalid => do
      let ev ← rejectContentTx ev v
      pure { db with ev := ev }
    | .error (.db e) => .error e

/-- A payload for content that is not `Missing`. Only for a deleted event does it do something at all. -/
def supplyDeletedTx (db : Database) (c : VerifiedEventContent) : DbResult Database :=
  match db.ev.eventsContentState.get c.event.id, c.content with
  | some (.deleted _), some _ => do
    let proj ← deletedLineageTx db.proj c.toEventContent
    pure { db with proj := proj }
  | _, _ => .ok db

/-- Oversized content is neither processed nor read for lineage, and neither is that of an event without an
envelope. -/
def processEventContentInnerTx (env : Env) (ctx : TxCtx) (db : Database) (c : VerifiedEventContent)
    (now : Timestamp) (ledger : AdmissionState) (buffer : Option PayloadBuffer) :
    DbResult Database :=
  if (db.ev.events.get c.event.id).isNone ∨ MAX_CONTENT_LEN ≤ c.event.event.contentLen then .ok db
  else if canInsertEventContentTx db.ev c.event.id then do
    let _ ← admitMaterializationTx db c.event buffer ledger
    materializeTx env ctx db c now
  else supplyDeletedTx db c

/-- Process a payload whose envelope is stored. -/
def processEventContentTx (env : Env) (ctx : TxCtx) (db : Database) (c : VerifiedEventContent)
    (now : Timestamp) (ledger : AdmissionState) (buffer : Option PayloadBuffer) :
    DbResult Database := do
  let before ← payloadBeforeTx env db.ev c.event
  let db ← processEventContentInnerTx env ctx db c now ledger buffer
  payloadAfterTx env db before

/-! ## 4. Admission-aware ingestion

The entry points that answer a refusal by a deferral. -/

inductive PayloadIngestOutcome
  | processed | invalid | unchanged
  | deferred (reason : PayloadAdmissionPause)
  | unavailable
  deriving DecidableEq

/-- Like `processEventContentTx`, but a refusal keeps the header and its schedule. -/
def processAdmittedContentTx (env : Env) (ctx : TxCtx) (db : Database) (c : VerifiedEventContent)
    (now : Timestamp) (ledger : AdmissionState) (buffer : Option PayloadBuffer) :
    DbResult (Database × PayloadIngestOutcome) :=
  let missing := payloadIsMissingTx db.ev c.event.id
  match processEventContentTx env ctx db c now ledger buffer with
  | .ok db =>
    if !missing then .ok (db, .unchanged)
    else if db.ev.eventsContentState.get c.event.id = some .invalid then .ok (db, .invalid)
    else .ok (db, .processed)
  -- refused before the first write, so the tables are still those of the caller
  | .error (.payloadAdmissionPaused reason) =>
    .ok ({ db with ev := ensureMissingScheduledTx db.ev c.event.id }, .deferred reason)
  | .error e => .error e

def tryProcessAdmittedEventContent (env : Env) (ctx : TxCtx) (db : Database)
    (c : VerifiedEventContent) (now : Timestamp) (ledger : AdmissionState)
    (buffer : Option PayloadBuffer) : DbResult (Database × PayloadIngestOutcome) := do
  let (db, _) ← processEventTx env ctx db c.event now (.pushed none none)
  processAdmittedContentTx env ctx db c now ledger buffer

/-- Materialize from bytes that another event brought, through the same boundary. -/
def tryMaterializeStoredPayload (env : Env) (ctx : TxCtx) (db : Database) (id : ShortEventId)
    (now : Timestamp) (ledger : AdmissionState) : DbResult (Database × PayloadIngestOutcome) :=
  match db.ev.events.get id with
  | none => .ok (db, .unavailable)
  | some e =>
    if !payloadIsMissingTx db.ev id then .ok (db, .unchanged)
    else
      let v := VerifiedEvent.ofEvent e
      let defer (reason : PayloadAdmissionPause) : DbResult (Database × PayloadIngestOutcome) :=
        .ok ({ db with ev := ensureMissingScheduledTx db.ev id }, .deferred reason)
      match admitMaterializationTx db v none ledger with
      | .error (.payloadAdmissionPaused reason) => defer reason
      | .error err => .error err
      | .ok (buffer, ledger) =>
        match reservePayloadAllocation ledger e.contentLen with
        | .error reason => defer reason
        | .ok _ =>
          match db.ev.contentStore.get e.contentHash with
          | none => .ok (db, .unavailable)
          | some b =>
            -- the length is compared before the stored value is copied
            if b.length ≠ e.contentLen then .error (.payloadAccountingInvariant .store)
            else match VerifiedEventContent.verify v (some b) with
              | none => .error (.payloadAccountingInvariant .store)
              | some c => processAdmittedContentTx env ctx db c now ledger buffer

/-! ## 5. Quota pruning

A release is requested for one event, passes its gates, and is carried out as a reducer of its own. -/

inductive QuotaPruneTarget
  | processed | missing
  deriving DecidableEq

structure QuotaPruneRequest where
  id : ShortEventId
  target : QuotaPruneTarget
  reason : QuotaPruneReason
  policy : RetentionPolicy
  clock : RetentionClock

inductive QuotaPruneOutcome
  | pruned (logicalReleasedBytes : ℕ)
  | unchanged
  | ineligible
  deriving DecidableEq

/-- Is the content in the state the request was made for? A request that comes too late changes nothing. -/
def targetMatches (target : QuotaPruneTarget) (state : Option EventContentState) : Bool :=
  match target, state with
  | .processed, none => true
  | .missing, some (.missing ..) => true
  | _, _ => false

/-- The time part of the gate, over the recorded origins. A clock that went back closes it. -/
def originsPermit (request : QuotaPruneRequest) (origins : RetentionOrigins) (now : Timestamp) :
    Bool :=
  !(decide (now < origins.effectiveTimestamp) || origins.materializedAt.any (now < ·) ||
    (request.target = .processed && !request.policy.graceElapsed origins.materializedAt now) ||
    (request.target = .missing && origins.materializedAt.isSome))

/-- The projections of a processed payload, taken back before it is released. -/
def dematerializeTx (db : Database) (v : VerifiedEvent) (target : QuotaPruneTarget) :
    DbResult Projections :=
  match target with
  | .missing => .ok db.proj
  | .processed =>
    match db.ev.contentStore.get v.event.contentHash with
    | none => .error (.payloadAccountingInvariant .quota)
    | some b =>
      match VerifiedEventContent.verify v (some b) with
      | none => .error (.payloadAccountingInvariant .quota)
      | some c =>
        match processEventContentRevertedTx db.proj c.toEventContent with
        | .ok p => .ok p
        | .error (.db e) => .error e
        | .error .invalid => .error (.payloadAccountingInvariant .quota)

/-- Release one remote post selected by an external policy. -/
def pruneQuotaPayloadTx (env : Env) (db : Database) (request : QuotaPruneRequest) :
    DbResult (Database × QuotaPruneOutcome) := do
  let id := request.id
  requirePayloadAccountingReadyTx db.accounting
  match db.ev.events.get id with
  | none => return (db, .unchanged)
  | some e =>
    if !targetMatches request.target (db.ev.eventsContentState.get id) then
      return (db, .unchanged)
    if e.author = env.selfId ∨ e.kind ≠ EventKind.SOCIAL_POST ∨ e.contentLen = 0 then
      return (db, .ineligible)
    match request.clock, db.origins.get id with
    | .trusted now, some origins =>
      if !originsPermit request origins now then
        return (db, .ineligible)
      if (db.quotaPruned.get id).isSome then
        throw (.payloadAccountingInvariant .quota)
      let v := VerifiedEvent.ofEvent e
      let before ← payloadBeforeTx env db.ev v
      let proj ← dematerializeTx db v request.target
      let (ev, _) ← pruneEventContentTx db.ev id e
      let db := { db with
        ev := ev
        proj := proj
        quotaPruned := db.quotaPruned.insert id ⟨request.reason, now⟩
        accounting := nominateQuotaHashTx db.accounting e.contentHash }
      let db ← payloadAfterTx env db before
      return (db, .pruned (if request.target = .processed then e.contentLen else 0))
    | _, _ => return (db, .ineligible)

/-! ## 6. The fetch schedule

Rows are pairs of a time and an event, and the worker takes the first. -/

/-- Move a `Missing` event to a later slot; the observed slot is a compare-and-set token. -/
def rescheduleTx (ev : EventTables) (id : ShortEventId) (observed next : Timestamp)
    (update : Option Timestamp → ℕ → Option Timestamp × ℕ) : EventTables :=
  match ev.eventsContentState.get id with
  | some (.missing last count current) =>
    if current ≠ observed ∨ next ≤ current then ev
    else
      let (last, count) := update last count
      { ev with
        eventsContentMissing :=
          insert (toLex (next, id)) (ev.eventsContentMissing.erase (toLex (current, id)))
        eventsContentState := ev.eventsContentState.insert id (.missing last count next) }
  | _ => ev

/-- Postpone a capacity-paused fetch; no peer attempt is recorded, so the backoff does not grow. -/
def deferContentFetch (ev : EventTables) (id : ShortEventId) (observed retryAt : Timestamp) :
    EventTables :=
  rescheduleTx ev id observed retryAt fun last count => (last, count)

def u16Max : ℕ := 2 ^ 16 - 1

/-- Record a failed attempt and the slot the fetcher chose for the next one. -/
def recordFailedContentFetch (ev : EventTables) (id : ShortEventId)
    (oldScheduledTime attemptedAt nextAttemptAt : Timestamp) : EventTables :=
  rescheduleTx ev id oldScheduledTime nextAttemptAt fun _ count =>
    (some attemptedAt, min u16Max (count + 1))

structure NextMissingContent where
  scheduledTime : Timestamp
  author : RostraId
  eventId : ShortEventId
  fetchAttemptCount : ℕ
  deriving DecidableEq

/-- Drop inconsistent rows from the front, then return the first consistent one.  Every turn but
the last removes a row, so the number of rows bounds the turns. -/
def peekLoop : ℕ → EventTables → EventTables × Option NextMissingContent
  | 0, ev => (ev, none)
  | fuel + 1, ev =>
    match Table.least ev.eventsContentMissing with
    | none => (ev, none)
    | some row =>
      let scheduledTime := (ofLex row).1
      let id := (ofLex row).2
      let dropped := { ev with eventsContentMissing := ev.eventsContentMissing.erase row }
      match ev.eventsContentState.get id with
      | some (.missing _ count next) =>
        if next = scheduledTime then
          match ev.events.get id with
          | some e => (ev, some ⟨scheduledTime, e.author, id, count⟩)
          | none => peekLoop fuel dropped
        else peekLoop fuel dropped
      | _ => peekLoop fuel dropped

def peekNextMissingContent (ev : EventTables) : EventTables × Option NextMissingContent :=
  peekLoop (ev.eventsContentMissing.card + 1) ev

/-! ## 7. Asking for content

The question that a node asks itself after it has processed an envelope. -/

inductive ContentWantState
  | wants | maybeWants | doesNotWant
  deriving DecidableEq

/-- `ProcessEventState::wants_content`. -/
def ProcessEventState.wantsContent : ProcessEventState → ContentWantState
  | .new => .wants
  | .existing => .maybeWants
  | .pruned => .doesNotWant
  | .deleted => .doesNotWant

/-- Any row in the state table counts as "not available", the row of a missing event too, even when the bytes are
here. -/
def hasEventContentTx (t : EventTables) (id : ShortEventId) (h : ContentHash) : Bool :=
  if (t.eventsContentState.get id).isSome then false else (t.contentStore.get h).isSome

/-- `Database::wants_content`: should a peer be asked for the content of an event that was just
processed? -/
def wantsContent (t : EventTables) (id : ShortEventId) (processState : ProcessEventState) : Bool :=
  match processState.wantsContent with
  | .doesNotWant => false
  | .wants => true
  | .maybeWants =>
    match t.events.get id with
    | none => false
    | some e => !hasEventContentTx t id e.contentHash

end Rostra.Db
